import LinuxKernel.Mm.Memblock
import LinuxKernel.Foundation.RangeChain

/-!
The loops of `memblock_merge_regions`, `memblock_add_region`, `memblock_isolate_range` and
`__memblock_remove` on a sorted array. An array stands for the map from each address to the
node of the region that holds it, `nodeAt`; each loop is described by what it does to that
map, to the order of the regions and to the sum of their sizes.
-/

namespace LinuxKernel

open RangeChain

namespace MemblockRegion

/-- The region as a range of `RangeChain`. -/
def range (r : MemblockRegion) : Int × Int := (r.base, r.size)

/-- Two neighbours `memblock_merge_regions` leaves apart. -/
def Apart (a b : MemblockRegion) : Prop := a.base + a.size ≠ b.base ∨ a.nid ≠ b.nid

end MemblockRegion

open MemblockRegion

/-- The node of the region that holds `x`, if one does. -/
def nodeAt (l : List MemblockRegion) (x : Nat) : Option Int :=
  (l.find? fun r => decide (r.base ≤ x ∧ x < r.base + r.size)).map (·.nid)

/-- Non-empty regions in increasing order and disjoint, from `s` on, ending by `ULLONG_MAX`. -/
def MemblockSorted (s : Nat) (l : List MemblockRegion) : Prop :=
  Within s (l.map range) ullongMax

def sizeSum (l : List MemblockRegion) : Nat := (l.map (·.size)).sum

variable {s x : Nat} {r : MemblockRegion} {l : List MemblockRegion}

@[simp] theorem nodeAt_nil : nodeAt [] x = none := rfl

theorem nodeAt_cons :
    nodeAt (r :: l) x = if r.base ≤ x ∧ x < r.base + r.size then some r.nid else nodeAt l x := by
  by_cases h : r.base ≤ x ∧ x < r.base + r.size <;> simp [nodeAt, h]

theorem nodeAt_append (l₁ l₂ : List MemblockRegion) :
    nodeAt (l₁ ++ l₂) x = (nodeAt l₁ x).or (nodeAt l₂ x) := by
  simp only [nodeAt, List.find?_append, Option.map_or]

@[simp] theorem sizeSum_nil : sizeSum [] = 0 := rfl

@[simp] theorem sizeSum_cons : sizeSum (r :: l) = r.size + sizeSum l := by simp [sizeSum]

@[simp] theorem sizeSum_append (l₁ l₂ : List MemblockRegion) :
    sizeSum (l₁ ++ l₂) = sizeSum l₁ + sizeSum l₂ := by simp [sizeSum]

@[simp] theorem sorted_nil : MemblockSorted s [] ↔ s ≤ ullongMax := by
  simp [MemblockSorted]

@[simp] theorem sorted_cons :
    MemblockSorted s (r :: l) ↔ s ≤ r.base ∧ 0 < r.size ∧ MemblockSorted (r.base + r.size) l := by
  simp [MemblockSorted, range, hi]

theorem MemblockSorted.mono {s' : Nat} (le : s' ≤ s) (h : MemblockSorted s l) :
    MemblockSorted s' l :=
  Within.mono_left (by exact_mod_cast le) h

theorem MemblockSorted.le_base (h : MemblockSorted s l) (mem : r ∈ l) : s ≤ r.base := by
  induction l generalizing s with
  | nil => cases mem
  | cons r' l ih =>
    rw [sorted_cons] at h
    rcases List.mem_cons.mp mem with rfl | mem
    · exact h.1
    · have := ih h.2.2 mem
      omega

theorem MemblockSorted.of_append_right {l₁ l₂ : List MemblockRegion}
    (h : MemblockSorted s (l₁ ++ l₂)) : MemblockSorted s l₂ := by
  induction l₁ generalizing s with
  | nil => exact h
  | cons r l₁ ih =>
    rw [List.cons_append, sorted_cons] at h
    exact (ih h.2.2).mono (by omega)

theorem MemblockSorted.drop_middle {A B C : List MemblockRegion}
    (h : MemblockSorted s (A ++ B ++ C)) : MemblockSorted s (A ++ C) := by
  induction A generalizing s with
  | nil => exact MemblockSorted.of_append_right h
  | cons r A ih =>
    rw [List.cons_append, List.cons_append, sorted_cons] at h
    exact sorted_cons.mpr ⟨h.1, h.2.1, ih h.2.2⟩

theorem nodeAt_of_forall_not {l : List MemblockRegion}
    (none : ∀ r ∈ l, ¬(r.base ≤ x ∧ x < r.base + r.size)) : nodeAt l x = Option.none := by
  induction l with
  | nil => rfl
  | cons r l ih =>
    rw [nodeAt_cons, if_neg (none r (by simp)), ih fun r mem => none r (by simp [mem])]

theorem MemblockSorted.sizeSum_pos (h : MemblockSorted s l) (ne : l ≠ []) : 0 < sizeSum l := by
  cases l with
  | nil => exact absurd rfl ne
  | cons r l =>
    rw [sorted_cons] at h
    rw [sizeSum_cons]
    omega

/-! ### `memblock_merge_regions` -/

section Merge

variable {this : MemblockRegion} {rest : List MemblockRegion}

theorem mergeFrom_head (this : MemblockRegion) (rest : List MemblockRegion) :
    ∃ size tail, memblockMergeFrom this rest = { this with size } :: tail := by
  induction rest generalizing this with
  | nil => exact ⟨this.size, [], rfl⟩
  | cons next rest ih =>
    unfold memblockMergeFrom
    split
    · exact ⟨this.size, _, rfl⟩
    · obtain ⟨size, tail, eq⟩ := ih { this with size := this.size + next.size }
      exact ⟨size, tail, eq⟩

theorem nodeAt_mergeFrom (this : MemblockRegion) (rest : List MemblockRegion) (x : Nat) :
    nodeAt (memblockMergeFrom this rest) x = nodeAt (this :: rest) x := by
  induction rest generalizing this with
  | nil => rfl
  | cons next rest ih =>
    unfold memblockMergeFrom
    split
    · simp only [nodeAt_cons, ih]
    · -- `this` and `next` touch and share a node: together they hold what the merged one does
      rename_i touch
      simp only [not_or, not_not] at touch
      obtain ⟨touch, same⟩ := touch
      simp only [ih, nodeAt_cons, same]
      split_ifs <;> first | rfl | omega

theorem sizeSum_mergeFrom (this : MemblockRegion) (rest : List MemblockRegion) :
    sizeSum (memblockMergeFrom this rest) = this.size + sizeSum rest := by
  induction rest generalizing this with
  | nil => simp [memblockMergeFrom]
  | cons next rest ih =>
    unfold memblockMergeFrom
    split
    · rw [sizeSum_cons, ih, sizeSum_cons]
    · rw [ih, sizeSum_cons]
      simp only
      omega

theorem sorted_mergeFrom (h : MemblockSorted s (this :: rest)) :
    MemblockSorted s (memblockMergeFrom this rest) := by
  induction rest generalizing this s with
  | nil => exact h
  | cons next rest ih =>
    unfold memblockMergeFrom
    rw [sorted_cons, sorted_cons] at h
    obtain ⟨le, pos, next_le, next_pos, sorted⟩ := h
    split
    · exact sorted_cons.mpr ⟨le, pos, ih (sorted_cons.mpr ⟨next_le, next_pos, sorted⟩)⟩
    · rename_i touch
      refine ih (sorted_cons.mpr ⟨le, by simp only; omega, sorted.mono ?_⟩)
      simp only
      omega

theorem apart_mergeFrom (this : MemblockRegion) (rest : List MemblockRegion) :
    (memblockMergeFrom this rest).IsChain Apart := by
  induction rest generalizing this with
  | nil => exact .singleton this
  | cons next rest ih =>
    unfold memblockMergeFrom
    split
    · rename_i apart
      obtain ⟨size, tail, eq⟩ := mergeFrom_head next rest
      have chain := ih next
      rw [eq] at chain ⊢
      exact .cons_cons apart chain
    · exact ih _

theorem nodeAt_mergeRegions (l : List MemblockRegion) (x : Nat) :
    nodeAt (memblockMergeRegions l) x = nodeAt l x := by
  cases l with
  | nil => rfl
  | cons this rest => exact nodeAt_mergeFrom this rest x

theorem sizeSum_mergeRegions (l : List MemblockRegion) :
    sizeSum (memblockMergeRegions l) = sizeSum l := by
  cases l with
  | nil => rfl
  | cons this rest => rw [memblockMergeRegions, sizeSum_mergeFrom, sizeSum_cons]

theorem sorted_mergeRegions (h : MemblockSorted s l) : MemblockSorted s (memblockMergeRegions l) := by
  cases l with
  | nil => exact h
  | cons this rest => exact sorted_mergeFrom h

theorem apart_mergeRegions (l : List MemblockRegion) : (memblockMergeRegions l).IsChain Apart := by
  cases l with
  | nil => exact .nil
  | cons this rest => exact apart_mergeFrom this rest

theorem mergeRegions_ne_nil (h : l ≠ []) : memblockMergeRegions l ≠ [] := by
  cases l with
  | nil => exact absurd rfl h
  | cons this rest =>
    obtain ⟨size, tail, eq⟩ := mergeFrom_head this rest
    simp [memblockMergeRegions, eq]

end Merge

/-! ### The overlap walk of `memblock_add_region` -/

section AddWalk

variable {end_ : Nat} {nid : Int}

theorem sizeSum_addWalk (base : Nat) (l : List MemblockRegion) :
    sizeSum (memblockAddWalk true end_ nid base l).1 =
      sizeSum l + (memblockAddWalk true end_ nid base l).2.2 := by
  fun_induction memblockAddWalk true end_ nid base l <;>
    simp +zetaDelta only [if_true, sizeSum_cons, sizeSum_nil, List.singleton_append] at * <;> omega

theorem sorted_addWalk (hend : end_ ≤ ullongMax) {base : Nat} {l : List MemblockRegion}
    (h : MemblockSorted s l) (start : s ≤ base ∨ end_ ≤ base) :
    MemblockSorted s (memblockAddWalk true end_ nid base l).1 := by
  induction l generalizing base s with
  | nil =>
    by_cases lt : base < end_
    · simp only [memblockAddWalk, lt, if_true, sorted_cons, sorted_nil]
      omega
    · simpa only [memblockAddWalk, lt, if_false] using h
  | cons rgn rest ih =>
    rw [sorted_cons] at h
    obtain ⟨le, pos, sorted⟩ := h
    by_cases above : rgn.base ≥ end_
    · by_cases lt : base < end_
      · simp only [memblockAddWalk, above, lt, if_true, List.singleton_append, sorted_cons]
        exact ⟨by omega, by omega, by omega, pos, sorted⟩
      · simpa only [memblockAddWalk, above, lt, if_true, if_false] using
          sorted_cons.mpr ⟨le, pos, sorted⟩
    by_cases skip : rgn.base + rgn.size ≤ base
    · simp only [memblockAddWalk, above, skip, if_false, if_true, sorted_cons]
      exact ⟨le, pos, ih sorted (.inl skip)⟩
    -- what is left to place starts at the end of `rgn`, or is nothing
    have next : MemblockSorted (rgn.base + rgn.size)
        (memblockAddWalk true end_ nid (min (rgn.base + rgn.size) end_) rest).1 :=
      ih sorted (by omega)
    by_cases piece : rgn.base > base
    · simp only [memblockAddWalk, above, skip, piece, if_false, if_true, List.singleton_append,
        sorted_cons]
      exact ⟨by omega, by omega, by omega, pos, next⟩
    · simp only [memblockAddWalk, above, skip, piece, if_false, sorted_cons]
      exact ⟨le, pos, next⟩

end AddWalk

theorem addWalk_ne_nil {end_ base : Nat} {nid : Int} (h : l ≠ []) :
    (memblockAddWalk true end_ nid base l).1 ≠ [] := by
  cases l with
  | nil => exact absurd rfl h
  | cons rgn rest =>
    unfold memblockAddWalk
    split_ifs <;> simp

/-! ### The array after the second round of `memblock_add_region` -/

section Insert

variable {t : MemblockType} {base end_ : Nat} {nid : Int}

theorem sorted_addInsert (hend : end_ ≤ ullongMax) (h : MemblockSorted 0 t.regions) :
    MemblockSorted 0 (memblockAddInsert t base end_ nid).regions :=
  sorted_mergeRegions (sorted_addWalk hend h (.inl (Nat.zero_le base)))

theorem total_addInsert (total : t.totalSize = sizeSum t.regions) :
    (memblockAddInsert t base end_ nid).totalSize = sizeSum (memblockAddInsert t base end_ nid).regions := by
  simp only [memblockAddInsert, sizeSum_mergeRegions, sizeSum_addWalk, total]

theorem addInsert_ne_nil (h : t.regions ≠ []) : (memblockAddInsert t base end_ nid).regions ≠ [] :=
  mergeRegions_ne_nil (addWalk_ne_nil h)

end Insert

/-! ### The walk of `memblock_isolate_range` -/

section IsolateWalk

variable {base end_ : Nat}

theorem isolateWalk_above {i : Nat} {rgn : MemblockRegion} {rest : List MemblockRegion}
    {se : Nat × Nat} (above : end_ ≤ rgn.base) :
    memblockIsolateWalk base end_ i (rgn :: rest) se = (rgn :: rest, se) := by
  rw [memblockIsolateWalk, if_pos above]

theorem isolateWalk_skip {i : Nat} {rgn : MemblockRegion} {rest : List MemblockRegion}
    {se : Nat × Nat} (above : rgn.base < end_) (skip : rgn.base + rgn.size ≤ base) :
    memblockIsolateWalk base end_ i (rgn :: rest) se =
      (rgn :: (memblockIsolateWalk base end_ (i + 1) rest se).1,
        (memblockIsolateWalk base end_ (i + 1) rest se).2) := by
  rw [memblockIsolateWalk, if_neg (by omega), if_pos skip]

/-- A region crossing into `[base, end)`: its part below `base`, if any, goes before the part
inside, and its part above `end`, if any, after it, where the walk stops. -/
theorem isolateWalk_overlap {i : Nat} {rgn : MemblockRegion} {rest : List MemblockRegion}
    {se : Nat × Nat} (hbe : base < end_) (above : rgn.base < end_)
    (skip : base < rgn.base + rgn.size) :
    memblockIsolateWalk base end_ i (rgn :: rest) se =
      let below : List MemblockRegion :=
        if rgn.base < base then [⟨rgn.base, base - rgn.base, rgn.nid⟩] else []
      let mid : MemblockRegion :=
        ⟨max rgn.base base, min (rgn.base + rgn.size) end_ - max rgn.base base, rgn.nid⟩
      let j := i + below.length
      let se' := (if se.2 = 0 then j else se.1, j + 1)
      if end_ < rgn.base + rgn.size then
        (below ++ mid :: ⟨end_, rgn.base + rgn.size - end_, rgn.nid⟩ :: rest, se')
      else
        (below ++ mid :: (memblockIsolateWalk base end_ (j + 1) rest se').1,
          (memblockIsolateWalk base end_ (j + 1) rest se').2) := by
  obtain ⟨b, size, nid⟩ := rgn
  simp only at above skip ⊢
  rw [memblockIsolateWalk]
  dsimp only
  rw [if_neg (by omega), if_neg (by omega)]
  by_cases lo : b < base
  · by_cases cross : end_ < b + size
    · simp only [lo, cross, if_true, show base + (size - (base - b)) > end_ by omega]
      simp only [List.singleton_append, List.length_singleton, Prod.mk.injEq, List.cons.injEq,
        MemblockRegion.mk.injEq, true_and, and_true]
      omega
    · simp only [lo, cross, if_true, if_false, show ¬base + (size - (base - b)) > end_ by omega]
      simp only [List.singleton_append, List.length_singleton, Prod.mk.injEq, List.cons.injEq,
        MemblockRegion.mk.injEq, true_and, and_true]
      omega
  · by_cases cross : end_ < b + size
    · simp only [lo, cross, if_true, if_false]
      simp only [List.nil_append, List.length_nil, Prod.mk.injEq, List.cons.injEq,
        MemblockRegion.mk.injEq, true_and, and_true]
      omega
    · simp only [lo, cross, if_false]
      simp only [List.nil_append, List.length_nil, Prod.mk.injEq, List.cons.injEq,
        MemblockRegion.mk.injEq, and_true]
      omega

variable (hbe : base < end_)
include hbe

theorem sizeSum_isolateWalk (i : Nat) (l : List MemblockRegion) (se : Nat × Nat) :
    sizeSum (memblockIsolateWalk base end_ i l se).1 = sizeSum l := by
  induction l generalizing i se with
  | nil => rfl
  | cons rgn rest ih =>
    rcases le_or_gt end_ rgn.base with above | above
    · rw [isolateWalk_above above]
    rcases le_or_gt (rgn.base + rgn.size) base with skip | skip
    · rw [isolateWalk_skip above skip, sizeSum_cons, ih, sizeSum_cons]
    rw [isolateWalk_overlap hbe above skip]
    by_cases lo : rgn.base < base <;> by_cases cross : end_ < rgn.base + rgn.size <;>
      simp only [lo, cross, if_true, if_false, sizeSum_append, sizeSum_cons, sizeSum_nil,
        List.nil_append, ih] <;> omega

theorem nodeAt_isolateWalk (i : Nat) (l : List MemblockRegion) (se : Nat × Nat) (x : Nat) :
    nodeAt (memblockIsolateWalk base end_ i l se).1 x = nodeAt l x := by
  induction l generalizing i se with
  | nil => rfl
  | cons rgn rest ih =>
    rcases le_or_gt end_ rgn.base with above | above
    · rw [isolateWalk_above above]
    rcases le_or_gt (rgn.base + rgn.size) base with skip | skip
    · rw [isolateWalk_skip above skip, nodeAt_cons, ih, nodeAt_cons]
    rw [isolateWalk_overlap hbe above skip]
    by_cases lo : rgn.base < base <;> by_cases cross : end_ < rgn.base + rgn.size <;>
      simp only [lo, cross, if_true, if_false, List.singleton_append, List.nil_append, nodeAt_cons,
        ih] <;> split_ifs <;> first | rfl | omega

theorem sorted_isolateWalk {s i : Nat} {l : List MemblockRegion} {se : Nat × Nat}
    (h : MemblockSorted s l) : MemblockSorted s (memblockIsolateWalk base end_ i l se).1 := by
  induction l generalizing s i se with
  | nil => exact h
  | cons rgn rest ih =>
    rcases le_or_gt end_ rgn.base with above | above
    · rwa [isolateWalk_above above]
    rw [sorted_cons] at h
    obtain ⟨le, pos, sorted⟩ := h
    rcases le_or_gt (rgn.base + rgn.size) base with skip | skip
    · rw [isolateWalk_skip above skip, sorted_cons]
      exact ⟨le, pos, ih sorted⟩
    rw [isolateWalk_overlap hbe above skip]
    by_cases lo : rgn.base < base <;> by_cases cross : end_ < rgn.base + rgn.size
    · simp only [lo, cross, if_true, List.singleton_append, sorted_cons]
      exact ⟨le, by omega, by omega, by omega, by omega, by omega, sorted.mono (by omega)⟩
    · simp only [lo, cross, if_true, if_false, List.singleton_append, sorted_cons]
      exact ⟨le, by omega, by omega, by omega, ih (sorted.mono (by omega))⟩
    · simp only [lo, cross, if_true, if_false, List.nil_append, sorted_cons]
      exact ⟨by omega, by omega, by omega, by omega, sorted.mono (by omega)⟩
    · simp only [lo, cross, if_false, List.nil_append, sorted_cons]
      exact ⟨by omega, by omega, ih (sorted.mono (by omega))⟩

/-- The walk leaves the regions below `base`, those inside `[base, end)` and those above `end`
one after the other, and records where the inside ones are. -/
theorem isolateWalk_split (i : Nat) (se : Nat × Nat) {s : Nat} {l : List MemblockRegion}
    (h : MemblockSorted s l) :
    ∃ A B C, (memblockIsolateWalk base end_ i l se).1 = A ++ B ++ C ∧
      (∀ r ∈ A, r.base + r.size ≤ base) ∧ (∀ r ∈ B, base ≤ r.base ∧ r.base + r.size ≤ end_) ∧
      (∀ r ∈ C, end_ ≤ r.base) ∧
      (memblockIsolateWalk base end_ i l se).2 =
        if B = [] then se else (if se.2 = 0 then i + A.length else se.1, i + A.length + B.length) := by
  induction l generalizing s i se with
  | nil => exact ⟨[], [], [], rfl, by simp, by simp, by simp, rfl⟩
  | cons rgn rest ih =>
    rcases le_or_gt end_ rgn.base with above | above
    · -- everything from `rgn` on lies above `end`
      have from_rgn : MemblockSorted rgn.base (rgn :: rest) :=
        sorted_cons.mpr ⟨le_refl _, (sorted_cons.mp h).2⟩
      refine ⟨[], [], rgn :: rest, by rw [isolateWalk_above above]; rfl, by simp, by simp,
        fun r mem => le_trans above (from_rgn.le_base mem), by rw [isolateWalk_above above]; rfl⟩
    rw [sorted_cons] at h
    obtain ⟨le, pos, sorted⟩ := h
    rcases le_or_gt (rgn.base + rgn.size) base with skip | skip
    · obtain ⟨A, B, C, eq, hA, hB, hC, hse⟩ := ih (i + 1) se sorted
      refine ⟨rgn :: A, B, C, by rw [isolateWalk_skip above skip, eq]; rfl, ?_, hB, hC, ?_⟩
      · intro r mem
        rcases List.mem_cons.mp mem with rfl | mem
        exacts [skip, hA r mem]
      · rw [isolateWalk_skip above skip, hse, List.length_cons]
        simp only [Nat.add_right_comm i 1, Nat.add_assoc]
    rw [isolateWalk_overlap hbe above skip]
    -- the part of `rgn` below `base`, if any, and the part inside
    have hbelow : ∀ r ∈ (if rgn.base < base then
        [(⟨rgn.base, base - rgn.base, rgn.nid⟩ : MemblockRegion)] else []),
        r.base + r.size ≤ base := by
      split_ifs
      · simp only [List.mem_singleton, forall_eq]
        omega
      · simp
    have hmid : base ≤ max rgn.base base ∧
        max rgn.base base + (min (rgn.base + rgn.size) end_ - max rgn.base base) ≤ end_ := by
      omega
    by_cases cross : end_ < rgn.base + rgn.size
    · -- the part above `end` and the regions after `rgn` stay above
      refine ⟨_, [⟨max rgn.base base, min (rgn.base + rgn.size) end_ - max rgn.base base, rgn.nid⟩],
        ⟨end_, rgn.base + rgn.size - end_, rgn.nid⟩ :: rest, ?_, hbelow, by simpa using hmid, ?_, ?_⟩
      · simp only [cross, if_true, List.append_assoc, List.singleton_append]
      · intro r mem
        rcases List.mem_cons.mp mem with rfl | mem
        · exact le_refl _
        · have := sorted.le_base mem
          omega
      · simp only [cross, if_true, List.cons_ne_nil, if_false, List.length_singleton]
    · -- `rgn` ends inside: the walk goes on, and nothing after it lies below `base`
      obtain ⟨A, B, C, eq, hA, hB, hC, hse⟩ := ih
        (i + (if rgn.base < base then
          [(⟨rgn.base, base - rgn.base, rgn.nid⟩ : MemblockRegion)] else []).length + 1)
        ((if se.2 = 0 then i + (if rgn.base < base then
          [(⟨rgn.base, base - rgn.base, rgn.nid⟩ : MemblockRegion)] else []).length else se.1,
          i + (if rgn.base < base then
          [(⟨rgn.base, base - rgn.base, rgn.nid⟩ : MemblockRegion)] else []).length + 1)) sorted
      have A_nil : A = [] := by
        refine List.eq_nil_iff_forall_not_mem.mpr fun r mem => ?_
        have above_rgn := (sorted_isolateWalk hbe sorted).le_base (r := r) (by rw [eq]; simp [mem])
        have := hA r mem
        omega
      subst A_nil
      refine ⟨_, ⟨max rgn.base base, min (rgn.base + rgn.size) end_ - max rgn.base base, rgn.nid⟩ :: B,
        C, ?_, hbelow, ?_, hC, ?_⟩
      · simp only [cross, if_false, eq, List.nil_append, List.append_assoc, List.cons_append]
      · intro r mem
        rcases List.mem_cons.mp mem with rfl | mem
        exacts [hmid, hB r mem]
      · simp only [cross, if_false, hse, List.cons_ne_nil, List.length_cons, List.length_nil]
        -- only the three tests decide the positions
        clear eq hse ih hbelow hA hB hC sorted hmid
        split_ifs <;> simp_all <;> omega

end IsolateWalk

/-! ### Taking out and relabelling the isolated regions -/

section Isolated

variable {A B C : List MemblockRegion}

theorem removeRegions_self (t : MemblockType) (s : Nat) : memblockRemoveRegions t s s = t := by
  cases s with
  | zero => rfl
  | succ s => exact if_pos (Nat.lt_succ_self s)

theorem removeRegions_append {t : MemblockType} (eq : t.regions = A ++ B ++ C) (ne : B ≠ []) :
    memblockRemoveRegions t A.length (A.length + B.length) =
      { t with regions := if A ++ C = [] then [emptyRegion] else A ++ C,
               totalSize := t.totalSize - sizeSum B } := by
  induction B using List.reverseRecOn generalizing t with
  | nil => exact absurd rfl ne
  | append_singleton B b ih =>
    -- the last region of the block goes first
    have erase : (A ++ (B ++ [b]) ++ C).eraseIdx (A.length + B.length) = A ++ B ++ C := by
      rw [List.append_assoc, List.append_assoc, ← List.append_assoc A,
        List.eraseIdx_append_of_length_le (by simp)]
      simp
    have last : (A ++ (B ++ [b]) ++ C).getD (A.length + B.length) emptyRegion = b := by
      rw [List.append_assoc, List.append_assoc, ← List.append_assoc A,
        List.getD_append_right _ _ _ _ (by simp)]
      simp
    rw [List.length_append, List.length_singleton, ← Nat.add_assoc, memblockRemoveRegions,
      if_neg (by omega), memblockRemoveRegion]
    simp only [eq, erase, last]
    rcases List.eq_nil_or_concat' B with rfl | ⟨B', b', rfl⟩
    · rw [List.length_nil, Nat.add_zero, removeRegions_self]
      split_ifs <;> simp_all
    · rw [if_neg (by simp), ih rfl (by simp)]
      simp only [sizeSum_append, sizeSum_cons, sizeSum_nil]
      congr 1
      omega

section Block

variable {base end_ x : Nat} (hA : ∀ r ∈ A, r.base + r.size ≤ base)
  (hB : ∀ r ∈ B, base ≤ r.base ∧ r.base + r.size ≤ end_) (hC : ∀ r ∈ C, end_ ≤ r.base)
include hA hB hC

theorem nodeAt_drop_block :
    nodeAt (A ++ C) x = if base ≤ x ∧ x < end_ then none else nodeAt (A ++ B ++ C) x := by
  simp only [nodeAt_append]
  split_ifs with inside
  · rw [nodeAt_of_forall_not fun r mem => by have := hA r mem; omega,
      nodeAt_of_forall_not (l := C) fun r mem => by have := hC r mem; omega]
    rfl
  · rw [nodeAt_of_forall_not (l := B) fun r mem => by have := hB r mem; omega]
    simp

theorem nodeAt_relabel_block (nid : Int) :
    nodeAt (A ++ B.map (fun r => { r with nid }) ++ C) x =
      if base ≤ x ∧ x < end_ then (nodeAt (A ++ B ++ C) x).map (fun _ => nid)
      else nodeAt (A ++ B ++ C) x := by
  simp only [nodeAt_append]
  split_ifs with inside
  · rw [nodeAt_of_forall_not fun r mem => by have := hA r mem; omega,
      nodeAt_of_forall_not (l := C) fun r mem => by have := hC r mem; omega]
    simp only [Option.none_or, Option.or_none]
    clear hA hB hC
    induction B with
    | nil => rfl
    | cons r B ih =>
      simp only [List.map_cons, nodeAt_cons]
      split_ifs <;> simp [ih]
  · rw [nodeAt_of_forall_not (l := B) fun r mem => by have := hB r mem; omega,
      nodeAt_of_forall_not (l := B.map _) fun _ image => by
        obtain ⟨r, mem, rfl⟩ := List.mem_map.mp image
        have := hB r mem
        simp only
        omega]

end Block

theorem sorted_relabel (nid : Int) :
    MemblockSorted s (A ++ B.map (fun r => { r with nid }) ++ C) ↔ MemblockSorted s (A ++ B ++ C) := by
  simp only [MemblockSorted, List.map_append, List.map_map]
  rfl

theorem sizeSum_relabel (nid : Int) :
    sizeSum (A ++ B.map (fun r => { r with nid }) ++ C) = sizeSum (A ++ B ++ C) := by
  simp only [sizeSum, List.map_append, List.map_map]
  rfl

theorem mapIdx_relabel_empty (l : List MemblockRegion) (s : Nat) (nid : Int) :
    l.mapIdx (fun i r => if s ≤ i ∧ i < s then { r with nid } else r) = l := by
  apply List.ext_getElem (by simp)
  intro i h₁ h₂
  rw [List.getElem_mapIdx, if_neg (by omega)]

theorem mapIdx_relabel (nid : Int) :
    (A ++ B ++ C).mapIdx (fun i r => if A.length ≤ i ∧ i < A.length + B.length then { r with nid }
      else r) = A ++ B.map (fun r => { r with nid }) ++ C := by
  apply List.ext_getElem (by simp)
  intro i h₁ h₂
  simp only [List.getElem_mapIdx, List.getElem_append, List.length_append, List.length_map,
    List.getElem_map]
  split_ifs <;> first | rfl | omega

end Isolated

/-! ### The phases of the array operations

The regions of an array are the placeholder alone or a sorted chain, `MemblockRegions`. -/

def MemblockRegions (l : List MemblockRegion) : Prop :=
  l = [emptyRegion] ∨ (l ≠ [] ∧ MemblockSorted 0 l)

/-- `__memblock_remove` once the array has room: isolate, then take the inside out. -/
def memblockRemovePhase (t : MemblockType) (base end_ : Nat) : MemblockType :=
  let w := memblockIsolateRegions t base end_
  memblockRemoveRegions w.1 w.2.1 w.2.2

/-- `memblock_set_node` once the array has room: isolate, relabel the inside, merge. -/
def memblockSetNodePhase (t : MemblockType) (base end_ : Nat) (nid : Int) : MemblockType :=
  let w := memblockIsolateRegions t base end_
  { w.1 with regions := memblockMergeRegions (w.1.regions.mapIdx fun i rgn =>
      if w.2.1 ≤ i ∧ i < w.2.2 then { rgn with nid } else rgn) }

section Phases

variable {t : MemblockType} {base end_ : Nat}

@[simp] theorem nodeAt_placeholder (x : Nat) : nodeAt [emptyRegion] x = none := by
  simp [nodeAt_cons, emptyRegion]

theorem isolateRegions_placeholder (h : t.regions = [emptyRegion]) :
    memblockIsolateRegions t base end_ = (t, 0, 0) := by
  obtain ⟨regions, max, total, array, inSlab⟩ := t
  simp only at h
  subst h
  by_cases above : end_ ≤ 0
  · simp only [memblockIsolateRegions, isolateWalk_above (show end_ ≤ emptyRegion.base from above)]
  · rw [memblockIsolateRegions]
    dsimp only
    rw [isolateWalk_skip (show emptyRegion.base < end_ by simp [emptyRegion]; omega)
        (show emptyRegion.base + emptyRegion.size ≤ base by simp [emptyRegion])]
    rfl

/-- On a sorted chain the isolation leaves the regions below, inside and above the range one
after the other, with the same nodes and sizes, and returns the block inside. -/
theorem isolateRegions_sorted (hbe : base < end_) (h : MemblockSorted 0 t.regions) :
    ∃ A B C, (memblockIsolateRegions t base end_).1 = { t with regions := A ++ B ++ C } ∧
      (∀ r ∈ A, r.base + r.size ≤ base) ∧ (∀ r ∈ B, base ≤ r.base ∧ r.base + r.size ≤ end_) ∧
      (∀ r ∈ C, end_ ≤ r.base) ∧
      (memblockIsolateRegions t base end_).2 =
        (if B = [] then (0, 0) else (A.length, A.length + B.length)) ∧
      MemblockSorted 0 (A ++ B ++ C) ∧ (∀ x, nodeAt (A ++ B ++ C) x = nodeAt t.regions x) ∧
      sizeSum (A ++ B ++ C) = sizeSum t.regions := by
  obtain ⟨A, B, C, eq, hA, hB, hC, hse⟩ := isolateWalk_split hbe 0 (0, 0) h
  refine ⟨A, B, C, by simp only [memblockIsolateRegions, eq], hA, hB, hC, ?_, ?_, ?_, ?_⟩
  · simp only [memblockIsolateRegions, hse, if_true, Nat.zero_add]
  · rw [← eq]
    exact sorted_isolateWalk hbe h
  · intro x
    rw [← eq, nodeAt_isolateWalk hbe]
  · rw [← eq, sizeSum_isolateWalk hbe]

theorem removePhase_shape (hbe : base < end_) (hr : MemblockRegions t.regions) :
    ∃ l, memblockRemovePhase t base end_ =
        { t with regions := l, totalSize := t.totalSize - (sizeSum t.regions - sizeSum l) } ∧
      MemblockRegions l ∧ sizeSum l ≤ sizeSum t.regions ∧
      ∀ x, nodeAt l x = if base ≤ x ∧ x < end_ then none else nodeAt t.regions x := by
  rcases hr with hp | ⟨ne, sorted⟩
  · refine ⟨t.regions, ?_, .inl hp, le_refl _, fun x => by simp [hp]⟩
    simp [memblockRemovePhase, isolateRegions_placeholder hp, removeRegions_self]
  obtain ⟨A, B, C, eq, hA, hB, hC, hse, hsorted, hnode, hsum⟩ := isolateRegions_sorted hbe sorted
  have lookup x := nodeAt_drop_block hA hB hC (x := x)
  simp only [sizeSum_append] at hsum
  by_cases empty : B = []
  · -- nothing inside: the isolation split nothing and nothing is taken out
    subst empty
    simp only [List.append_nil, sizeSum_nil, Nat.add_zero] at hsorted hnode hsum lookup
    refine ⟨A ++ C, ?_, .inr ⟨?_, hsorted⟩, by simp [hsum], fun x => ?_⟩
    · simp only [memblockRemovePhase, eq, hse, if_true, removeRegions_self, List.append_nil,
        sizeSum_append, hsum, Nat.sub_self, Nat.sub_zero]
    · intro nil
      obtain ⟨rfl, rfl⟩ := List.append_eq_nil_iff.mp nil
      have := sorted.sizeSum_pos ne
      simp only [sizeSum_nil] at hsum
      omega
    · rw [lookup, hnode]
  refine ⟨if A ++ C = [] then [emptyRegion] else A ++ C, ?_, ?_, ?_, fun x => ?_⟩
  · simp only [memblockRemovePhase, eq, hse, if_neg empty]
    rw [removeRegions_append rfl empty]
    split_ifs with nil
    · simp only [List.append_eq_nil_iff] at nil
      simp [nil.1, nil.2, emptyRegion, ← hsum]
    · simp only [sizeSum_append, ← hsum]
      congr 1
      omega
  · split_ifs with nil
    exacts [.inl rfl, .inr ⟨nil, hsorted.drop_middle⟩]
  · split_ifs
    · simp [emptyRegion]
    · rw [sizeSum_append]
      omega
  · rw [← hnode, ← lookup x]
    split_ifs with nil
    · rw [nil, nodeAt_placeholder, nodeAt_nil]
    · rfl

theorem setNodePhase_shape (hbe : base < end_) (hr : MemblockRegions t.regions) (nid : Int) :
    ∃ l, memblockSetNodePhase t base end_ nid = { t with regions := l } ∧ MemblockRegions l ∧
      sizeSum l = sizeSum t.regions ∧ l.IsChain Apart ∧
      ∀ x, nodeAt l x = if base ≤ x ∧ x < end_ then (nodeAt t.regions x).map (fun _ => nid)
        else nodeAt t.regions x := by
  rcases hr with hp | ⟨ne, sorted⟩
  · refine ⟨[emptyRegion], ?_, .inl rfl, by rw [hp], .singleton _, fun x => by simp [hp]⟩
    simp only [memblockSetNodePhase, isolateRegions_placeholder hp, hp, mapIdx_relabel_empty]
    rfl
  obtain ⟨A, B, C, eq, hA, hB, hC, hse, hsorted, hnode, hsum⟩ := isolateRegions_sorted hbe sorted
  -- either way the relabelling is that of the block inside
  have relabel : ((A ++ B ++ C).mapIdx fun i rgn =>
      if (memblockIsolateRegions t base end_).2.1 ≤ i ∧ i < (memblockIsolateRegions t base end_).2.2
      then { rgn with nid } else rgn) = A ++ B.map (fun r => { r with nid }) ++ C := by
    rw [hse]
    split_ifs with empty
    · subst empty
      exact mapIdx_relabel_empty _ 0 nid
    · exact mapIdx_relabel nid
  refine ⟨memblockMergeRegions (A ++ B.map (fun r => { r with nid }) ++ C), ?_, .inr ⟨?_, ?_⟩,
    ?_, apart_mergeRegions _, fun x => ?_⟩
  · simp only [memblockSetNodePhase, eq, relabel]
  · apply mergeRegions_ne_nil
    intro nil
    have := sorted.sizeSum_pos ne
    rw [← hsum, ← sizeSum_relabel nid, nil] at this
    exact absurd this (lt_irrefl 0)
  · exact sorted_mergeRegions ((sorted_relabel nid).mpr hsorted)
  · rw [sizeSum_mergeRegions, sizeSum_relabel, hsum]
  · rw [nodeAt_mergeRegions, nodeAt_relabel_block hA hB hC, hnode]

end Phases


end LinuxKernel
