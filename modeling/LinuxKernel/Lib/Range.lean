import LinuxKernel.Lib.Sort

/-!
# Range lists

`kernel/range.c`: `az` slots of half-open `u64` ranges, `end == 0` free: `add_range_with_merge`,
`subtract_range` and `clean_sort_range`. `end` is a Lean keyword, so the field is `finish`.
-/

namespace LinuxKernel

structure Range where
  start : Nat
  finish : Nat
  deriving DecidableEq, Repr

/-- `add_range(range, az, nr_range, start, end)`: the array and the new `nr_range`. -/
def addRange (range : Nat → Range) (az nrRange start finish : Nat) : (Nat → Range) × Nat :=
  if start ≥ finish then (range, nrRange)
  -- out of slots
  else if nrRange ≥ az then (range, nrRange)
  else (Function.update range nrRange ⟨start, finish⟩, nrRange + 1)

/-- The test of `add_range_with_merge` on a slot: in use, and `common_start <= common_end`,
so that it overlaps or touches `[start, end)`. -/
def rangeMeets (r : Range) (start finish : Nat) : Bool :=
  r.finish ≠ 0 && max r.start start ≤ min r.finish finish

/-- `add_range_with_merge(range, az, nr_range, start, end)`: the first slot below `nr_range`
that meets `[start, end)` becomes their hull; with none, the range is added. -/
def addRangeWithMerge (range : Nat → Range) (az nrRange start finish : Nat) : (Nat → Range) × Nat :=
  if start ≥ finish then (range, nrRange)
  else
    match (List.range nrRange).find? fun i => rangeMeets (range i) start finish with
    | some i =>
      (Function.update range i ⟨min (range i).start start, max (range i).finish finish⟩, nrRange)
    | none => addRange range az nrRange start finish

/-- From three free slots, `[0, 2)` and `[3, 5)` take two of them; `[1, 4)` meets the first and
merges into it, which becomes `[0, 4)` and now overlaps `[3, 5)`: the merge never looks at the
slots after the one it grows. -/
theorem addRangeWithMerge_overlaps_next_slot :
    let r : (Nat → Range) × Nat := addRangeWithMerge (fun _ => ⟨0, 0⟩) 3 0 0 2
    let r : (Nat → Range) × Nat := addRangeWithMerge r.1 3 r.2 3 5
    let r : (Nat → Range) × Nat := addRangeWithMerge r.1 3 r.2 1 4
    r.2 = 2 ∧ r.1 0 = ⟨0, 4⟩ ∧ r.1 1 = ⟨3, 5⟩ := by
  decide

/-- The body of the loop of `subtract_range` for slot `j`. -/
def subtractRangeSlot (az start finish : Nat) (range : Nat → Range) (j : Nat) : Nat → Range :=
  let r := range j
  if r.finish = 0 then range
  else if start ≤ r.start ∧ finish ≥ r.finish then Function.update range j ⟨0, 0⟩
  else if start ≤ r.start ∧ finish < r.finish ∧ r.start < finish then
    Function.update range j { r with start := finish }
  else if start > r.start ∧ finish ≥ r.finish ∧ r.finish > start then
    Function.update range j { r with finish := start }
  else if start > r.start ∧ finish < r.finish then
    -- the part above `end` goes to the first free slot, if there is one
    let range :=
      match (List.range az).find? fun i => (range i).finish = 0 with
      | some i => Function.update range i ⟨finish, r.finish⟩
      | none => range
    Function.update range j { r with finish := start }
  else range

def subtractRange (range : Nat → Range) (az start finish : Nat) : Nat → Range :=
  if start ≥ finish then range else (List.range az).foldl (subtractRangeSlot az start finish) range

/-- `cmp_range`: the difference of the starts as `s64`, returned as `int`. -/
def cmpRange (r1 r2 : Range) : Int := int32 ((r1.start : Int) - r2.start)

def rangeSize : Nat := 16

/-- The compaction loop `for (i = 0; i < k; i++)` of `clean_sort_range`, on fuel: a free slot
takes the last slot in use at or below `k`, until none is left above it. -/
def cleanSortRangeCompact : Nat → (Nat → Range) → Nat → Int → Nat → Range
  | 0, range, _, _ => range
  | fuel + 1, range, i, k =>
    if (i : Int) < k then
      if (range i).finish ≠ 0 then cleanSortRangeCompact fuel range (i + 1) k
      else
        -- `for (j = k; j > i; j--)`
        match (List.range' (i + 1) (k.toNat - i)).reverse.find? (fun j => (range j).finish ≠ 0) with
        | none => range
        | some k =>
          let range := Function.update (Function.update range i (range k)) k ⟨0, 0⟩
          cleanSortRangeCompact fuel range (i + 1) (k - 1)
    else range

/-- `clean_sort_range(range, az)`: the slots in use moved to the front, counted up to the
first free slot, and sorted; the array and the count. -/
def cleanSortRange (range : Nat → Range) (az : Nat) : Option ((Nat → Range) × Nat) :=
  let range := cleanSortRangeCompact az range 0 (az - 1 : Int)
  let nrRange := ((List.range az).find? fun i => (range i).finish = 0).getD az
  (sort cmpRange range nrRange rangeSize).map fun range => (range, nrRange)

/-- Two slots already in order, starting at 0 and at `2^31 + 1`: `cmp_range` returns the low 32
bits of `-(2^31 + 1)`, which read as `int` are `2^31 - 1 > 0`, so `sort` takes the first for
the larger and `clean_sort_range` puts them in descending order. -/
theorem cleanSortRange_far_starts_descend :
    let range : Nat → Range := fun i =>
      if i = 0 then ⟨0, 1⟩ else if i = 1 then ⟨2 ^ 31 + 1, 2 ^ 31 + 2⟩ else ⟨0, 0⟩
    cmpRange (range 0) (range 1) = 2 ^ 31 - 1 ∧
      ((cleanSortRange range 2).map fun r => (r.1 0, r.1 1, r.2)) =
        some (⟨2 ^ 31 + 1, 2 ^ 31 + 2⟩, ⟨0, 1⟩, 2) := by
  decide

end LinuxKernel
