import LinuxKernel.Lib.FlexArray

/-!
# Where the elements of a flexible array live

An element's slot is its page and offset (`faSlot`). Up to 2048 bytes an element the slots lie
inside their pages and apart, so a put or a clear changes only its element; from 2049 bytes every
element is in part 0.
-/

namespace LinuxKernel

open Ring

/-! ### The reciprocal division -/

theorem reciprocalValue_toNat {k : UInt32} (two : 2 ≤ k.toNat) :
    (reciprocalValue k).toNat = (2 ^ 32 + k.toNat - 1) / k.toNat := by
  have lt := k.toNat_lt
  have quot_lt : (2 ^ 32 + k.toNat - 1) / k.toNat < 2 ^ 32 := Nat.div_lt_of_lt_mul (by omega)
  have pred : (k - 1).toNat = k.toNat - 1 := by
    rw [UInt32.toNat_sub_of_le _ _ (UInt32.le_iff_toNat_le.mpr (by simp; omega))]
    rfl
  have shift : ((1 : UInt64) <<< 32).toNat = 2 ^ 32 := by decide
  unfold reciprocalValue
  rw [UInt64.toNat_toUInt32, UInt64.toNat_div, UInt64.toNat_add, shift, UInt32.toNat_toUInt64,
    pred, UInt32.toNat_toUInt64,
    Nat.mod_eq_of_lt (show 2 ^ 32 + (k.toNat - 1) < 2 ^ 64 by omega),
    show 2 ^ 32 + (k.toNat - 1) = 2 ^ 32 + k.toNat - 1 by omega, Nat.mod_eq_of_lt quot_lt]

theorem reciprocalValue_one : reciprocalValue 1 = 0 := by decide

theorem reciprocalDivide_toNat (a r : UInt32) :
    (reciprocalDivide a r).toNat = a.toNat * r.toNat / 2 ^ 32 := by
  have product : a.toNat * r.toNat < 2 ^ 32 * 2 ^ 32 :=
    Nat.mul_lt_mul'' a.toNat_lt r.toNat_lt
  have high : a.toNat * r.toNat / 2 ^ 32 < 2 ^ 32 := Nat.div_lt_of_lt_mul product
  unfold reciprocalDivide
  rw [UInt64.toNat_toUInt32, UInt64.toNat_shiftRight, UInt64.toNat_mul, UInt32.toNat_toUInt64,
    UInt32.toNat_toUInt64, Nat.mod_eq_of_lt (show a.toNat * r.toNat < 2 ^ 64 by omega),
    Nat.shiftRight_eq_div_pow]
  exact Nat.mod_eq_of_lt high

theorem flexArrayNrBasePtrs_eq : flexArrayNrBasePtrs = 510 := rfl

/-- Below the capacity of the parts, the reciprocal of two to 2048 elements a part, or of a
page of single bytes, divides exactly: the error of the rounding times the index stays below
`2^32`. -/
theorem reciprocal_exact {k a : Nat} (two : 2 ≤ k) (sizes : k ≤ 2048 ∨ k = 4096)
    (below : a < flexArrayNrBasePtrs * k) : a * ((2 ^ 32 + k - 1) / k) / 2 ^ 32 = a / k := by
  rw [flexArrayNrBasePtrs_eq] at below
  rcases sizes with small | page
  · apply Reciprocal.mul_ceil_div_eq_div (by omega)
    calc a * (k - 1) ≤ (510 * 2048) * 2047 := Nat.mul_le_mul (by omega) (by omega)
      _ < 2 ^ 32 := by norm_num
  · -- 4096 divides `2^32`: the reciprocal has no error
    subst page
    exact Reciprocal.mul_div_eq_div (by norm_num) (by norm_num) (by norm_num)

/-- For every divisor from 2 on, `reciprocal_divide(a, reciprocal_value(b))` is the quotient or
one more: the reciprocal rounded up never loses, and gains less than one unit on every `u32`. -/
theorem reciprocalDivide_bounds {b : UInt32} (two : 2 ≤ b.toNat) (a : UInt32) :
    (a / b).toNat ≤ (reciprocalDivide a (reciprocalValue b)).toNat ∧
      (reciprocalDivide a (reciprocalValue b)).toNat ≤ (a / b).toNat + 1 := by
  rw [reciprocalDivide_toNat, reciprocalValue_toNat two, UInt32.toNat_div]
  exact ⟨Reciprocal.div_le_mul_div (by norm_num) (Reciprocal.le_ceil_mul (by omega)),
    Reciprocal.mul_div_le_div_succ (by omega) (Reciprocal.ceil_mul_lt (by omega)) a.toNat_lt⟩

theorem reciprocalDivide_bounds_three :
    2 ≤ (3 : UInt32).toNat ∧
      ((0xfffffffe : UInt32) / 3).toNat ≤ (reciprocalDivide 0xfffffffe (reciprocalValue 3)).toNat ∧
        (reciprocalDivide 0xfffffffe (reciprocalValue 3)).toNat ≤ ((0xfffffffe : UInt32) / 3).toNat + 1 :=
  ⟨by decide, reciprocalDivide_bounds (by decide) 0xfffffffe⟩

/-- `reciprocal_value(3)` is `0x55555556`, above `2^32 / 3` by `2/3`: at `0xfffffffe` the error
reaches a whole unit and the quotient comes out one too large. `reciprocal_value(1)` is `2^32`
cut to 0, so every quotient by 1 comes out 0. -/
theorem reciprocalDivide_exceeds_quotient :
    reciprocalDivide 0xfffffffe (reciprocalValue 3) = 0x55555555 ∧ (0xfffffffe : UInt32) / 3 = 0x55555554 ∧
      reciprocalDivide 1 (reciprocalValue 1) = 0 := by
  decide

/-! ### The layout `flex_array_alloc` fixes -/

/-- The fields `flex_array_alloc` sets, which no later call changes. -/
def FlexArray.layout (fa : FlexArray) : Nat × Nat × Nat × UInt32 :=
  (fa.elementSize, fa.totalNrElements, fa.elemsPerPart, fa.reciprocalElems)

/-- The layout `flex_array_alloc` makes: the elements a part of `element_size`, their reciprocal,
and no more elements than the parts hold. -/
structure FlexArray.Wf (fa : FlexArray) : Prop where
  elemsPerPart_eq : fa.elemsPerPart = flexArrayElementsPerPart fa.elementSize
  reciprocalElems_eq :
    0 < fa.elementSize → fa.reciprocalElems = reciprocalValue fa.elemsPerPart.toUInt32
  total_le : fa.totalNrElements ≤ flexArrayNrBasePtrs * fa.elemsPerPart

theorem FlexArray.fields_of_layout {fa fa' : FlexArray} (same : fa'.layout = fa.layout) :
    fa'.elementSize = fa.elementSize ∧ fa'.totalNrElements = fa.totalNrElements ∧
      fa'.elemsPerPart = fa.elemsPerPart ∧ fa'.reciprocalElems = fa.reciprocalElems := by
  simpa only [FlexArray.layout, Prod.mk.injEq] using same

theorem FlexArray.Wf.of_layout {fa fa' : FlexArray} (same : fa'.layout = fa.layout)
    (wf : fa.Wf) : fa'.Wf := by
  obtain ⟨size, total, perPart, reciprocal⟩ := FlexArray.fields_of_layout same
  refine ⟨?_, ?_, ?_⟩
  · rw [size, perPart]
    exact wf.elemsPerPart_eq
  · rw [size, perPart, reciprocal]
    exact wf.reciprocalElems_eq
  · rw [total, perPart]
    exact wf.total_le

theorem flexArrayAlloc_wf {elementSize : Nat} {total : UInt32} {gfpZero kmallocOk : Bool}
    {fa : FlexArray} (h : flexArrayAlloc elementSize total gfpZero kmallocOk = some fa) :
    fa.Wf ∧ fa.elementSize = elementSize ∧ fa.totalNrElements = total.toNat := by
  unfold flexArrayAlloc at h
  by_cases zero : elementSize = 0
  · subst zero
    simp only [ne_eq, not_true_eq_false, if_false] at h
    split_ifs at h with big fails fits
    all_goals
      obtain rfl := Option.some.inj h
      exact ⟨⟨by simp [flexArrayElementsPerPart], by simp, by dsimp only; omega⟩, rfl, rfl⟩
  · simp only [ne_eq, zero, not_false_eq_true, if_true] at h
    split_ifs at h with big fails fits
    all_goals
      obtain rfl := Option.some.inj h
      exact ⟨⟨rfl, fun _ => rfl, by dsimp only; omega⟩, rfl, rfl⟩

/-! ### Part numbers and offsets -/

section Layout

variable {fa : FlexArray} (wf : fa.Wf)
include wf

theorem FlexArray.Wf.elemsPerPart_cases (pos : 0 < fa.elementSize)
    (small : fa.elementSize ≤ 2048) :
    2 ≤ fa.elemsPerPart ∧ (fa.elemsPerPart ≤ 2048 ∨ fa.elemsPerPart = 4096) ∧
      fa.elemsPerPart * fa.elementSize ≤ flexArrayPartSize := by
  rw [wf.elemsPerPart_eq]
  unfold flexArrayElementsPerPart flexArrayPartSize pageSize
  refine ⟨(Nat.le_div_iff_mul_le pos).mpr (by omega), ?_, Nat.div_mul_le_self _ _⟩
  rcases Nat.lt_or_ge fa.elementSize 2 with one | two
  · right
    rw [show fa.elementSize = 1 by omega]
  · left
    exact Nat.div_le_of_le_mul (by omega)

theorem FlexArray.Wf.partNr_toNat (pos : 0 < fa.elementSize) (small : fa.elementSize ≤ 2048)
    {n : UInt32} (hn : n.toNat < fa.totalNrElements) :
    (faElementToPartNr fa n).toNat = n.toNat / fa.elemsPerPart := by
  obtain ⟨two, sizes, -⟩ := wf.elemsPerPart_cases pos small
  have perPart : fa.elemsPerPart.toUInt32.toNat = fa.elemsPerPart := by
    rw [UInt32.toNat_ofNat', Nat.mod_eq_of_lt (by omega)]
  rw [faElementToPartNr, reciprocalDivide_toNat, wf.reciprocalElems_eq pos,
    reciprocalValue_toNat (by omega), perPart]
  exact reciprocal_exact two sizes (lt_of_lt_of_le hn wf.total_le)

theorem FlexArray.Wf.indexInsidePart_toNat (pos : 0 < fa.elementSize)
    (small : fa.elementSize ≤ 2048) {n : UInt32} (hn : n.toNat < fa.totalNrElements) :
    (indexInsidePart fa n (faElementToPartNr fa n)).toNat =
      n.toNat % fa.elemsPerPart * fa.elementSize := by
  obtain ⟨two, sizes, fits⟩ := wf.elemsPerPart_cases pos small
  have perPart : fa.elemsPerPart.toUInt32.toNat = fa.elemsPerPart := by
    rw [UInt32.toNat_ofNat', Nat.mod_eq_of_lt (by omega)]
  have size : fa.elementSize.toUInt32.toNat = fa.elementSize := by
    rw [UInt32.toNat_ofNat', Nat.mod_eq_of_lt (by omega)]
  -- the part's first element, `part_nr * elems_per_part`, does not wrap
  have first : (faElementToPartNr fa n * fa.elemsPerPart.toUInt32).toNat =
      n.toNat / fa.elemsPerPart * fa.elemsPerPart := by
    rw [UInt32.toNat_mul, wf.partNr_toNat pos small hn, perPart,
      Nat.mod_eq_of_lt (lt_of_le_of_lt (Nat.div_mul_le_self _ _) n.toNat_lt)]
  have offset : (n - faElementToPartNr fa n * fa.elemsPerPart.toUInt32).toNat =
      n.toNat % fa.elemsPerPart := by
    rw [UInt32.toNat_sub_of_le _ _ (UInt32.le_iff_toNat_le.mpr (by
      rw [first]; exact Nat.div_mul_le_self _ _)), first, Nat.mod_eq_sub_div_mul]
  have inPart : n.toNat % fa.elemsPerPart * fa.elementSize < 2 ^ 32 :=
    calc n.toNat % fa.elemsPerPart * fa.elementSize
        < fa.elemsPerPart * fa.elementSize :=
          Nat.mul_lt_mul_of_pos_right (Nat.mod_lt _ (by omega)) pos
      _ ≤ flexArrayPartSize := fits
      _ < 2 ^ 32 := by decide
  unfold indexInsidePart
  rw [UInt32.toNat_mul, offset, size, Nat.mod_eq_of_lt inPart]

end Layout

theorem indexInsidePart_zero_toNat {fa : FlexArray} (fits : elementsFitInBase fa = true)
    {n : UInt32} (hn : n.toNat < fa.totalNrElements) :
    (indexInsidePart fa n 0).toNat = n.toNat * fa.elementSize := by
  have inBase : fa.elementSize * fa.totalNrElements ≤ flexArrayBaseBytesLeft :=
    of_decide_eq_true fits
  have below : n.toNat * fa.elementSize < 2 ^ 32 :=
    calc n.toNat * fa.elementSize ≤ fa.totalNrElements * fa.elementSize :=
          Nat.mul_le_mul_right _ hn.le
      _ = fa.elementSize * fa.totalNrElements := Nat.mul_comm _ _
      _ < 2 ^ 32 := lt_of_le_of_lt inBase (by decide)
  have size : fa.elementSize.toUInt32.toNat = fa.elementSize := by
    have : fa.elementSize ≤ fa.elementSize * fa.totalNrElements :=
      Nat.le_mul_of_pos_right _ (by omega)
    rw [UInt32.toNat_ofNat', Nat.mod_eq_of_lt (lt_of_le_of_lt this (lt_of_le_of_lt inBase (by decide)))]
  unfold indexInsidePart
  rw [UInt32.zero_mul, UInt32.sub_zero, UInt32.toNat_mul, size, Nat.mod_eq_of_lt below]

/-! ### Slots -/

/-- The page (`none` for the base) and the offset of element `n`, where put, clear and get reach
it. -/
def faSlot (fa : FlexArray) (n : UInt32) : Option Nat × Nat :=
  if elementsFitInBase fa then (none, (indexInsidePart fa n 0).toNat)
  else (some (faElementToPartNr fa n).toNat, (indexInsidePart fa n (faElementToPartNr fa n)).toNat)

/-- A slot of `size` bytes lies whole in its page: the base area, or one of the
`FLEX_ARRAY_NR_BASE_PTRS` part pages. -/
def SlotWithin (size : Nat) : Option Nat × Nat → Prop
  | (none, off) => off + size ≤ flexArrayBaseBytesLeft
  | (some p, off) => p < flexArrayNrBasePtrs ∧ off + size ≤ flexArrayPartSize

/-- Two slots of `size` bytes share no byte. -/
def SlotsApart (size : Nat) (a b : Option Nat × Nat) : Prop :=
  a.1 ≠ b.1 ∨ a.2 + size ≤ b.2 ∨ b.2 + size ≤ a.2

theorem faSlot_congr {fa fa' : FlexArray} (same : fa'.layout = fa.layout) (n : UInt32) :
    faSlot fa' n = faSlot fa n := by
  obtain ⟨size, total, perPart, reciprocal⟩ := FlexArray.fields_of_layout same
  unfold faSlot elementsFitInBase faElementToPartNr indexInsidePart
  rw [size, total, perPart, reciprocal]

theorem mul_apart {a b : Nat} (size : Nat) (ne : a ≠ b) :
    a * size + size ≤ b * size ∨ b * size + size ≤ a * size := by
  rcases Nat.lt_or_gt_of_ne ne with lt | gt
  · left
    rw [← Nat.succ_mul]
    exact Nat.mul_le_mul_right _ lt
  · right
    rw [← Nat.succ_mul]
    exact Nat.mul_le_mul_right _ gt

section Slots

variable {fa : FlexArray} (wf : fa.Wf) (pos : 0 < fa.elementSize)
  (small : fa.elementSize ≤ 2048)
include wf pos small

theorem FlexArray.Wf.faSlot_within {n : UInt32} (hn : n.toNat < fa.totalNrElements) :
    SlotWithin fa.elementSize (faSlot fa n) := by
  unfold faSlot
  split
  · rename_i fits
    have inBase : fa.elementSize * fa.totalNrElements ≤ flexArrayBaseBytesLeft :=
      of_decide_eq_true fits
    show (indexInsidePart fa n 0).toNat + fa.elementSize ≤ flexArrayBaseBytesLeft
    rw [indexInsidePart_zero_toNat fits hn, ← Nat.succ_mul, Nat.mul_comm]
    exact le_trans (Nat.mul_le_mul_left _ hn) inBase
  · obtain ⟨two, -, fits⟩ := wf.elemsPerPart_cases pos small
    have total := wf.total_le
    refine ⟨?_, ?_⟩
    · rw [wf.partNr_toNat pos small hn]
      exact Nat.div_lt_of_lt_mul (by rw [Nat.mul_comm]; omega)
    · rw [wf.indexInsidePart_toNat pos small hn, ← Nat.succ_mul]
      exact le_trans (Nat.mul_le_mul_right _ (Nat.mod_lt _ (by omega))) fits

theorem FlexArray.Wf.faSlot_apart {n m : UInt32} (hn : n.toNat < fa.totalNrElements)
    (hm : m.toNat < fa.totalNrElements) (ne : n ≠ m) :
    SlotsApart fa.elementSize (faSlot fa n) (faSlot fa m) := by
  have ne' : n.toNat ≠ m.toNat := fun h => ne (UInt32.toNat_inj.mp h)
  unfold SlotsApart faSlot
  split
  · rename_i fits
    right
    rw [indexInsidePart_zero_toNat fits hn, indexInsidePart_zero_toNat fits hm]
    exact mul_apart _ ne'
  · obtain ⟨two, -, -⟩ := wf.elemsPerPart_cases pos small
    rw [wf.partNr_toNat pos small hn, wf.partNr_toNat pos small hm,
      wf.indexInsidePart_toNat pos small hn, wf.indexInsidePart_toNat pos small hm]
    by_cases samePart : n.toNat / fa.elemsPerPart = m.toNat / fa.elemsPerPart
    · -- in one part the positions differ
      right
      apply mul_apart
      intro sameOffset
      have n_eq := Nat.div_add_mod n.toNat fa.elemsPerPart
      have m_eq := Nat.div_add_mod m.toNat fa.elemsPerPart
      rw [samePart, sameOffset] at n_eq
      omega
    · left
      simpa using samePart

end Slots

/-- From 2049 bytes an element, a part holds one, whose reciprocal is 0: every element of an
array that does not fit in the base goes to part 0, at `element_nr * element_size`. -/
theorem FlexArray.Wf.faSlot_large_elements {fa : FlexArray} (wf : fa.Wf)
    (large : 2048 < fa.elementSize) (page : fa.elementSize ≤ pageSize)
    (apart : elementsFitInBase fa = false) {n : UInt32} (hn : n.toNat < fa.totalNrElements) :
    faSlot fa n = (some 0, n.toNat * fa.elementSize) := by
  have one : fa.elemsPerPart = 1 := by
    rw [wf.elemsPerPart_eq]
    unfold flexArrayElementsPerPart flexArrayPartSize
    exact Nat.div_eq_of_lt_le (by unfold pageSize at page ⊢; omega) (by unfold pageSize; omega)
  have total := wf.total_le
  rw [one, flexArrayNrBasePtrs_eq] at total
  have part : faElementToPartNr fa n = 0 := by
    rw [faElementToPartNr, wf.reciprocalElems_eq (by omega), one]
    apply UInt32.toNat_inj.mp
    rw [reciprocalDivide_toNat, show Nat.toUInt32 1 = 1 from rfl, reciprocalValue_one]
    simp
  have below : n.toNat * fa.elementSize < 2 ^ 32 :=
    calc n.toNat * fa.elementSize ≤ 510 * pageSize := Nat.mul_le_mul (by omega) page
      _ < 2 ^ 32 := by decide
  have size : fa.elementSize.toUInt32.toNat = fa.elementSize := by
    rw [UInt32.toNat_ofNat', Nat.mod_eq_of_lt (by unfold pageSize at page; omega)]
  unfold faSlot indexInsidePart
  rw [apart, part, UInt32.zero_mul, UInt32.sub_zero, UInt32.toNat_mul, size,
    Nat.mod_eq_of_lt below]
  rfl

/-- An array of two page-sized elements: `flex_array_alloc` accepts it, the elements do not fit
in the base, and the second element is in part 0 at offset 4096, so its 4096 bytes lie past the
end of the part. -/
theorem flexArray_page_element_past_part :
    (flexArrayAlloc 4096 2 false true).map (fun fa => (elementsFitInBase fa, faSlot fa 1)) =
      some (false, some 0, 4096) := by
  decide

/-! ### What put, clear and get do -/

/-- The page a slot names: the base for `none`, the part `parts[]` points to otherwise. -/
def FlexArray.page (fa : FlexArray) : Option Nat → Option (Nat → UInt8)
  | none => some fa.base
  | some p => fa.parts p

theorem flexArrayGet_eq (fa : FlexArray) (n : UInt32) :
    flexArrayGet fa n =
      if fa.elementSize = 0 ∨ fa.totalNrElements ≤ n.toNat then none
      else (fa.page (faSlot fa n).1).map fun pg => read pg (faSlot fa n).2 fa.elementSize := by
  unfold flexArrayGet faSlot
  by_cases zero : fa.elementSize = 0
  · rw [if_pos zero, if_pos (Or.inl zero)]
  by_cases big : fa.totalNrElements ≤ n.toNat
  · rw [if_neg zero, if_pos big, if_pos (Or.inr big)]
  rw [if_neg zero, if_neg big, if_neg (not_or.mpr ⟨zero, big⟩)]
  split
  · rfl
  · simp only [FlexArray.page]
    split <;> simp_all

/-- What a put or a clear that succeeds does: `src` is copied over the slot of `n`, in the page
that was there or a fresh one, and every other page stays. -/
structure WritesSlot (fa fa' : FlexArray) (n : UInt32) (src : Nat → UInt8) : Prop where
  layout : fa'.layout = fa.layout
  other : ∀ q, q ≠ (faSlot fa n).1 → fa'.page q = fa.page q
  slot : ∃ pg, fa'.page (faSlot fa n).1 = some (memcpy pg (faSlot fa n).2 src 0 fa.elementSize) ∧
    ∀ old, fa.page (faSlot fa n).1 = some old → pg = old

theorem faGetPart_spec {fa fa' : FlexArray} {partNr : Nat} {gfpZero kmallocOk : Bool}
    {part : Nat → UInt8} (h : faGetPart fa partNr gfpZero kmallocOk = some (fa', part)) :
    fa' = { fa with parts := Function.update fa.parts partNr (some part) } ∧
      ∀ old, fa.parts partNr = some old → part = old := by
  unfold faGetPart at h
  split at h
  · rename_i old there
    obtain ⟨rfl, rfl⟩ := Prod.mk.inj (Option.some.inj h)
    refine ⟨?_, fun old' h' => Option.some.inj (there.symm.trans h')⟩
    rw [Function.update_eq_self_iff.mpr there.symm]
  · rename_i none
    split at h
    · obtain ⟨rfl, rfl⟩ := Prod.mk.inj (Option.some.inj h)
      exact ⟨rfl, fun old h' => by simp [none] at h'⟩
    · cases h

theorem page_update_parts (fa : FlexArray) {p : Nat} (pg : Option (Nat → UInt8)) (q : Option Nat) :
    ({ fa with parts := Function.update fa.parts p pg } : FlexArray).page q =
      if q = some p then pg else fa.page q := by
  cases q with
  | none => rfl
  | some r =>
    by_cases same : r = p
    · subst same
      simp [FlexArray.page]
    · simp [FlexArray.page, same]

theorem writesSlot_base {fa : FlexArray} {n : UInt32} (src : Nat → UInt8)
    (fits : elementsFitInBase fa = true) :
    WritesSlot fa { fa with base := memcpy fa.base (indexInsidePart fa n 0).toNat src 0 fa.elementSize }
      n src := by
  have slot : faSlot fa n = (none, (indexInsidePart fa n 0).toNat) := by simp [faSlot, fits]
  refine ⟨rfl, ?_, fa.base, ?_, ?_⟩
  · intro q other
    rw [slot] at other
    cases q with
    | none => exact absurd rfl other
    | some p => rfl
  · rw [slot]
    rfl
  · rw [slot]
    exact fun old h => Option.some.inj h

theorem flexArrayPut_keeps {fa : FlexArray} {n : UInt32} {src : Nat → UInt8}
    {gfpZero kmallocOk : Bool}
    (h : (flexArrayPut fa n src gfpZero kmallocOk).2 ≠ .ok () ∨ fa.elementSize = 0) :
    (flexArrayPut fa n src gfpZero kmallocOk).1 = fa := by
  unfold flexArrayPut at h ⊢
  dsimp only at h ⊢
  by_cases big : fa.totalNrElements ≤ n.toNat
  · rw [if_pos big]
  by_cases zero : fa.elementSize = 0
  · rw [if_neg big, if_pos zero]
  rw [if_neg big, if_neg zero] at h ⊢
  simp only [zero, or_false] at h
  by_cases fits : elementsFitInBase fa = true
  · rw [if_pos fits] at h
    exact absurd rfl h
  rw [if_neg fits] at h ⊢
  rcases hget : faGetPart fa (faElementToPartNr fa n).toNat gfpZero kmallocOk with _ | ⟨fa1, part⟩
  · rfl
  · rw [hget] at h
    exact absurd rfl h

theorem flexArrayPut_writes {fa : FlexArray} {n : UInt32} {src : Nat → UInt8}
    {gfpZero kmallocOk : Bool} (pos : 0 < fa.elementSize)
    (ok : (flexArrayPut fa n src gfpZero kmallocOk).2 = .ok ()) :
    n.toNat < fa.totalNrElements ∧ WritesSlot fa (flexArrayPut fa n src gfpZero kmallocOk).1 n src := by
  unfold flexArrayPut at ok ⊢
  dsimp only at ok ⊢
  have below : n.toNat < fa.totalNrElements := by
    by_contra big
    rw [if_pos (not_lt.mp big)] at ok
    cases ok
  rw [if_neg (not_le.mpr below), if_neg (Nat.pos_iff_ne_zero.mp pos)] at ok ⊢
  refine ⟨below, ?_⟩
  by_cases fits : elementsFitInBase fa = true
  · -- the element is written in the base
    rw [if_pos fits]
    exact writesSlot_base src fits
  · -- the element is written in its part, installed first if need be
    have slot : faSlot fa n = (some (faElementToPartNr fa n).toNat,
        (indexInsidePart fa n (faElementToPartNr fa n)).toNat) := by simp [faSlot, fits]
    rw [if_neg fits] at ok ⊢
    rcases hget : faGetPart fa (faElementToPartNr fa n).toNat gfpZero kmallocOk with _ | ⟨fa1, part⟩
    · rw [hget] at ok
      cases ok
    · obtain ⟨rfl, was⟩ := faGetPart_spec hget
      refine ⟨rfl, ?_, part, ?_, ?_⟩
      · intro q other
        rw [slot] at other
        rw [page_update_parts, if_neg other, page_update_parts, if_neg other]
      · rw [slot, page_update_parts, if_pos rfl]
        rfl
      · rw [slot]
        exact was

theorem flexArrayClear_keeps {fa : FlexArray} {n : UInt32}
    (h : (flexArrayClear fa n).2 ≠ .ok () ∨ fa.elementSize = 0) : (flexArrayClear fa n).1 = fa := by
  unfold flexArrayClear at h ⊢
  dsimp only at h ⊢
  by_cases big : fa.totalNrElements ≤ n.toNat
  · rw [if_pos big]
  by_cases zero : fa.elementSize = 0
  · rw [if_neg big, if_pos zero]
  rw [if_neg big, if_neg zero] at h ⊢
  simp only [zero, or_false] at h
  by_cases fits : elementsFitInBase fa = true
  · rw [if_pos fits] at h
    exact absurd rfl h
  rw [if_neg fits] at h ⊢
  rcases there : fa.parts (faElementToPartNr fa n).toNat with _ | part
  · rfl
  · rw [there] at h
    exact absurd rfl h

theorem flexArrayClear_writes {fa : FlexArray} {n : UInt32} (pos : 0 < fa.elementSize)
    (ok : (flexArrayClear fa n).2 = .ok ()) :
    n.toNat < fa.totalNrElements ∧
      WritesSlot fa (flexArrayClear fa n).1 n (fun _ => flexArrayFree) := by
  unfold flexArrayClear at ok ⊢
  dsimp only at ok ⊢
  have below : n.toNat < fa.totalNrElements := by
    by_contra big
    rw [if_pos (not_lt.mp big)] at ok
    cases ok
  rw [if_neg (not_le.mpr below), if_neg (Nat.pos_iff_ne_zero.mp pos)] at ok ⊢
  refine ⟨below, ?_⟩
  by_cases fits : elementsFitInBase fa = true
  · rw [if_pos fits]
    exact writesSlot_base (fun _ => flexArrayFree) fits
  · -- a clear installs no part: a missing one is `-EINVAL`
    have slot : faSlot fa n = (some (faElementToPartNr fa n).toNat,
        (indexInsidePart fa n (faElementToPartNr fa n)).toNat) := by simp [faSlot, fits]
    rw [if_neg fits] at ok ⊢
    rcases there : fa.parts (faElementToPartNr fa n).toNat with _ | part
    · rw [there] at ok
      cases ok
    · refine ⟨rfl, ?_, part, ?_, ?_⟩
      · intro q other
        rw [slot] at other
        rw [page_update_parts, if_neg other]
      · rw [slot, page_update_parts, if_pos rfl]
        rfl
      · rw [slot]
        exact fun old h => Option.some.inj (there.symm.trans h)

/-! ### Get after put -/

theorem WritesSlot.get_self {fa fa' : FlexArray} {n : UInt32} {src : Nat → UInt8}
    (w : WritesSlot fa fa' n src) (pos : 0 < fa.elementSize)
    (hn : n.toNat < fa.totalNrElements) :
    flexArrayGet fa' n = some (read src 0 fa.elementSize) := by
  obtain ⟨size, total, -, -⟩ := FlexArray.fields_of_layout w.layout
  obtain ⟨pg, written, -⟩ := w.slot
  rw [flexArrayGet_eq, faSlot_congr w.layout, size, total, if_neg (by omega), written,
    Option.map_some, read_memcpy]

theorem WritesSlot.get_other {fa fa' : FlexArray} {n m : UInt32} {src : Nat → UInt8}
    (w : WritesSlot fa fa' n src) (wf : fa.Wf) (pos : 0 < fa.elementSize)
    (small : fa.elementSize ≤ 2048) (hn : n.toNat < fa.totalNrElements) (ne : m ≠ n)
    {v : List UInt8} (hv : flexArrayGet fa m = some v) : flexArrayGet fa' m = some v := by
  obtain ⟨size, total, -, -⟩ := FlexArray.fields_of_layout w.layout
  rw [flexArrayGet_eq] at hv
  have hm : m.toNat < fa.totalNrElements := by
    by_contra big
    rw [if_pos (Or.inr (by omega))] at hv
    cases hv
  rw [if_neg (by omega)] at hv
  obtain ⟨old, page, read_old⟩ := Option.map_eq_some_iff.mp hv
  rw [flexArrayGet_eq, faSlot_congr w.layout, size, total, if_neg (by omega)]
  by_cases samePage : (faSlot fa m).1 = (faSlot fa n).1
  · -- the write went to `m`'s page, beside `m`'s slot
    obtain ⟨pg, written, was⟩ := w.slot
    obtain rfl := was old (samePage ▸ page)
    rw [samePage, written, Option.map_some, ← read_old]
    rcases wf.faSlot_apart pos small hn hm (Ne.symm ne) with otherPage | apart
    · exact absurd samePage.symm otherPage
    · rw [read_memcpy_of_disjoint _ _ apart]
  · rw [w.other _ samePage, page, Option.map_some, read_old]

/-- A call of `flex_array_put` or `flex_array_clear`, with its arguments. -/
inductive FlexCall where
  | put (n : UInt32) (src : Nat → UInt8) (gfpZero kmallocOk : Bool)
  | clear (n : UInt32)

def FlexCall.index : FlexCall → UInt32
  | .put n _ _ _ => n
  | .clear n => n

def FlexCall.apply (fa : FlexArray) : FlexCall → FlexArray
  | .put n src gfpZero kmallocOk => (flexArrayPut fa n src gfpZero kmallocOk).1
  | .clear n => (flexArrayClear fa n).1

theorem FlexCall.apply_cases (fa : FlexArray) (c : FlexCall) (pos : 0 < fa.elementSize) :
    c.apply fa = fa ∨
      c.index.toNat < fa.totalNrElements ∧ ∃ src, WritesSlot fa (c.apply fa) c.index src := by
  cases c with
  | put n src gfpZero kmallocOk =>
    by_cases ok : (flexArrayPut fa n src gfpZero kmallocOk).2 = .ok ()
    · obtain ⟨below, w⟩ := flexArrayPut_writes pos ok
      exact .inr ⟨below, src, w⟩
    · exact .inl (flexArrayPut_keeps (.inl ok))
  | clear n =>
    by_cases ok : (flexArrayClear fa n).2 = .ok ()
    · obtain ⟨below, w⟩ := flexArrayClear_writes pos ok
      exact .inr ⟨below, _, w⟩
    · exact .inl (flexArrayClear_keeps (.inl ok))

theorem flexArrayGet_foldl_other {fa : FlexArray} (wf : fa.Wf) (pos : 0 < fa.elementSize)
    (small : fa.elementSize ≤ 2048) {n : UInt32} {v : List UInt8}
    (hv : flexArrayGet fa n = some v) (calls : List FlexCall)
    (others : ∀ c ∈ calls, c.index ≠ n) : flexArrayGet (calls.foldl FlexCall.apply fa) n = some v := by
  induction calls generalizing fa with
  | nil => exact hv
  | cons c calls ih =>
    have step : flexArrayGet (c.apply fa) n = some v ∧ (c.apply fa).layout = fa.layout := by
      rcases c.apply_cases fa pos with kept | ⟨below, src, w⟩
      · rw [kept]
        exact ⟨hv, rfl⟩
      · exact ⟨w.get_other wf pos small below (others c (by simp)).symm hv, w.layout⟩
    obtain ⟨size, -, -, -⟩ := FlexArray.fields_of_layout step.2
    exact ih (wf.of_layout step.2) (size ▸ pos) (size ▸ small) step.1
      fun c' mem => others c' (List.mem_cons_of_mem _ mem)

/-- Up to 2048 bytes an element, after a put that succeeds `flex_array_get` returns the bytes
stored until a put or a clear at the same index. -/
theorem flexArrayGet_after_put {fa : FlexArray} (wf : fa.Wf) (pos : 0 < fa.elementSize)
    (small : fa.elementSize ≤ 2048) {n : UInt32} {src : Nat → UInt8} {gfpZero kmallocOk : Bool}
    (ok : (flexArrayPut fa n src gfpZero kmallocOk).2 = .ok ()) (calls : List FlexCall)
    (others : ∀ c ∈ calls, c.index ≠ n) :
    flexArrayGet (calls.foldl FlexCall.apply (flexArrayPut fa n src gfpZero kmallocOk).1) n =
      some (read src 0 fa.elementSize) := by
  obtain ⟨below, w⟩ := flexArrayPut_writes pos ok
  obtain ⟨size, -, -, -⟩ := FlexArray.fields_of_layout w.layout
  exact flexArrayGet_foldl_other (wf.of_layout w.layout) (size ▸ pos) (size ▸ small)
    (w.get_self pos below) calls others

set_option maxRecDepth 10000 in
/-- An array of 2000 4-byte elements does not fit in the base, so element 1500 goes in a part
allocated on demand, and survives a clear of element 5 and a put of element 1600 in another part. -/
theorem flexArrayGet_after_put_parts :
    let fa : FlexArray := ⟨4, 2000, flexArrayElementsPerPart 4,
      reciprocalValue (flexArrayElementsPerPart 4).toUInt32, fun _ => none, fun _ => 0⟩
    flexArrayAlloc 4 2000 true true = some fa ∧ elementsFitInBase fa = false ∧ fa.Wf ∧ 0 < fa.elementSize ∧
      fa.elementSize ≤ 2048 ∧ (flexArrayPut fa 1500 (fun _ => 9) true true).2 = .ok () ∧
      flexArrayGet ([FlexCall.clear 5, .put 1600 (fun _ => 1) true true].foldl FlexCall.apply
        (flexArrayPut fa 1500 (fun _ => 9) true true).1) 1500 = some (read (fun _ => 9) 0 fa.elementSize) := by
  intro fa
  have alloc : flexArrayAlloc 4 2000 true true = some fa := rfl
  have wf : fa.Wf := (flexArrayAlloc_wf alloc).1
  have ok : (flexArrayPut fa 1500 (fun _ => 9) true true).2 = .ok () := rfl
  have pos : 0 < fa.elementSize := Nat.succ_pos 3
  have small : fa.elementSize ≤ 2048 := (by decide : 4 ≤ 2048)
  exact ⟨alloc, rfl, wf, pos, small, ok, flexArrayGet_after_put wf pos small ok _ (by decide)⟩

end LinuxKernel
