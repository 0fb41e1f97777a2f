import LinuxKernel.Lib.IdrTree

/-!
# Finding a free id

`sub_alloc` and `idr_get_empty_slot` over a tree that keeps `Wf`. Both keep the invariant and
every id's bit and slot, and the id they hand out is the first one from the start whose bit is
clear, as long as the search stays below the ids the layers reach.
-/

namespace LinuxKernel

open Bitmap IdrLayer

variable {α : Type} {P : IdrLayer α → Prop}

namespace Idr

/-- The invariant of an `idr` whose leaves keep `P`. -/
structure Wf (P : IdrLayer α → Prop) (idp : Idr α) : Prop where
  layers_le : idp.layers ≤ maxLevel - 1
  top_none : idp.top = none → idp.layers = 0
  top_some : ∀ p, idp.top = some p → 0 < idp.layers ∧ IdrLayer.Wf P (idp.layers - 1) p

/-- The bit of `id` in the tree; clear past the ids its layers reach. -/
def bit (idp : Idr α) (id : Nat) : Bool :=
  match idp.top with
  | some p => decide (id < 2 ^ (6 * idp.layers)) && p.leafBit id (idp.layers - 1)
  | none => false

/-- The slot of `id` in the tree. -/
def slot (idp : Idr α) (id : Nat) : IdrSlot α :=
  match idp.top with
  | some p => if id < 2 ^ (6 * idp.layers) then p.slotAt id (idp.layers - 1) else .null
  | none => .null

/-- What a change of the tree keeps: the invariant and every id's bit and slot, with no layer
taken from the free list beyond those it had. -/
structure Keeps (P : IdrLayer α → Prop) (idp idp' : Idr α) : Prop where
  wf : idp'.Wf P
  free : idp'.idFreeCnt ≤ idp.idFreeCnt
  bit : ∀ j, idp'.bit j = idp.bit j
  slot : ∀ j, idp'.slot j = idp.slot j

theorem Keeps.refl {idp : Idr α} (w : idp.Wf P) : Keeps P idp idp :=
  ⟨w, le_rfl, fun _ => rfl, fun _ => rfl⟩

theorem Keeps.trans {idp₁ idp₂ idp₃ : Idr α} (k₁ : Keeps P idp₁ idp₂) (k₂ : Keeps P idp₂ idp₃) :
    Keeps P idp₁ idp₃ :=
  ⟨k₂.wf, k₂.free.trans k₁.free, fun j => (k₂.bit j).trans (k₁.bit j), fun j => (k₂.slot j).trans (k₁.slot j)⟩

/-- Every id from `start` up to `id` has its bit set. -/
def FullFrom (idp : Idr α) (start id : Nat) : Prop := ∀ j, start ≤ j → j < id → idp.bit j = true

theorem FullFrom.trans {idp : Idr α} {start id id' : Nat} (h₁ : FullFrom idp start id)
    (h₂ : ∀ j, id ≤ j → j < id' → idp.bit j = true) : FullFrom idp start id' := fun j hs hj => by
  by_cases lt : j < id
  · exact h₁ j hs lt
  · exact h₂ j (by omega) hj

/-- What `sub_alloc` reports for a search from `start` that got to `id`: a found id is past
`id`, and has a leaf; while the search stays below the ids the layers reach, what it passed is
full and a found id is clear. -/
def Reports (idp idp' : Idr α) (start id : Nat) : IdrAlloc → Prop
  | .found id' => id ≤ id' ∧ (∃ top p, idp'.top = some top ∧ top.leaf id' (idp.layers - 1) = some p) ∧
      (id < 2 ^ (6 * idp.layers) → start ≤ id → FullFrom idp start id →
        id' < 2 ^ (6 * idp.layers) ∧ FullFrom idp start id' ∧ idp.bit id' = false)
  | .needToGrow id' => id ≤ id' ∧
      (id < 2 ^ (6 * idp.layers) → start ≤ id → FullFrom idp start id →
        2 ^ (6 * idp.layers) ≤ id' ∧ FullFrom idp start id')
  | _ => True

variable {idp idp₁ idp' : Idr α} {start id : Nat} {r : IdrAlloc}

theorem Reports.of_keeps (k : Keeps P idp idp₁) (layers : idp₁.layers = idp.layers)
    (h : Reports idp₁ idp' start id r) : Reports idp idp' start id r := by
  have full : ∀ i, FullFrom idp₁ start i ↔ FullFrom idp start i := fun i => by
    simp only [FullFrom, k.bit]
  cases r with
  | found id' =>
    obtain ⟨le, leaf, below⟩ := h
    rw [layers] at leaf below
    refine ⟨le, leaf, fun hid hs hf => ?_⟩
    obtain ⟨lt, hf', clear⟩ := below hid hs ((full id).mpr hf)
    exact ⟨lt, (full id').mp hf', (k.bit id').symm.trans clear⟩
  | needToGrow id' =>
    obtain ⟨le, below⟩ := h
    rw [layers] at below
    refine ⟨le, fun hid hs hf => ?_⟩
    obtain ⟨ge, hf'⟩ := below hid hs ((full id).mpr hf)
    exact ⟨ge, (full id').mp hf'⟩
  | _ => trivial

theorem Reports.of_advance {id₁ : Nat} (le : id ≤ id₁)
    (adv : id < 2 ^ (6 * idp.layers) → start ≤ id → FullFrom idp start id →
      id₁ < 2 ^ (6 * idp.layers) ∧ FullFrom idp start id₁)
    (h : Reports idp idp' start id₁ r) : Reports idp idp' start id r := by
  cases r with
  | found id' =>
    obtain ⟨le', leaf, below⟩ := h
    refine ⟨le.trans le', leaf, fun hid hs hf => ?_⟩
    obtain ⟨lt, hf'⟩ := adv hid hs hf
    exact below lt (hs.trans le) hf'
  | needToGrow id' =>
    obtain ⟨le', below⟩ := h
    refine ⟨le.trans le', fun hid hs hf => ?_⟩
    obtain ⟨lt, hf'⟩ := adv hid hs hf
    exact below lt (hs.trans le) hf'
  | _ => trivial

theorem Keeps.fullFrom (k : Keeps P idp idp') {i : Nat} : FullFrom idp' start i ↔ FullFrom idp start i := by
  simp only [FullFrom, k.bit]

/-- What `idr_get_empty_slot` reports for a search from `start` that went on from `id`: a found
id is past `id` and has a leaf, and below the ids of `MAX_LEVEL - 1` layers it is the first clear
id from `start`. -/
def Found (idp' : Idr α) (start id : Nat) : IdrAlloc → Prop
  | .found id' => id ≤ id' ∧ (∃ top p, idp'.top = some top ∧ top.leaf id' (idp'.layers - 1) = some p) ∧
      (id' < 2 ^ (6 * (maxLevel - 1)) →
        id' < 2 ^ (6 * idp'.layers) ∧ FullFrom idp' start id' ∧ idp'.bit id' = false)
  | .needToGrow _ => False
  | _ => True

theorem Found.of_le {id₂ : Nat} (le : id ≤ id₂) (h : Found idp' start id₂ r) : Found idp' start id r := by
  cases r with
  | found id' => exact ⟨le.trans h.1, h.2⟩
  | needToGrow => exact h.elim
  | _ => trivial

end Idr

open Idr

/-! ### The ids of the search -/

theorem shiftLeft_layers (L : Nat) : 1 <<< (L * idrBits) = 2 ^ (6 * L) := by
  rw [Nat.shiftLeft_eq, Nat.one_mul, Nat.mul_comm]; rfl

theorem upId_eq (id l : Nat) : (id ||| ((1 <<< (idrBits * l)) - 1)) + 1 = Digits.next 6 id l := by
  rw [Nat.shiftLeft_eq, Nat.one_mul]
  exact Digits.or_add_one_eq_next id l

theorem jumpId_eq (id l : Nat) (m : Fin 64) :
    ((id >>> (idrBits * l)) ^^^ ↑(idrDigit id l) ^^^ ↑m) <<< (idrBits * l) = Digits.first 6 id l m := by
  rw [idrDigit_val]
  exact Digits.xor_shift_eq_first id l m m.isLt

/-! ### One round of `sub_alloc` -/

def jumpId (id l : Nat) (m : Fin 64) : Nat := if m ≠ idrDigit id l then Digits.first 6 id l m else id

theorem jumpId_code (id l : Nat) (m : Fin 64) :
    (if m ≠ idrDigit id l then ((id >>> (idrBits * l)) ^^^ ↑(idrDigit id l) ^^^ ↑m) <<< (idrBits * l)
      else id) = jumpId id l m := by
  rw [jumpId_eq]; rfl

def newChild (l : Nat) (m : Fin 64) (p : IdrLayer α) : IdrLayer α :=
  { p.setSlot m (.layer (IdrLayer.empty (l - 1))) with count := p.count + 1 }

theorem subAlloc_succ_cases {fuel : Nat} {idp idp' : Idr α} {id l : Nat} {r : IdrAlloc}
    (h : subAlloc (fuel + 1) idp id l = some (idp', r)) :
    ∃ T p, idp.top = some T ∧ T.descend id (idp.layers - 1) (idp.layers - 1 - l) = some p ∧
      ((findNextZero p.bitmap (idrDigit id l) = idrSize ∧ Digits.next 6 id (l + 1) < maxIdBit ∧
          ((2 ^ (6 * idp.layers) ≤ Digits.next 6 id (l + 1) ∧ idp' = idp ∧
              r = .needToGrow (Digits.next 6 id (l + 1))) ∨
           (Digits.next 6 id (l + 1) < 2 ^ (6 * idp.layers) ∧
             (subAlloc fuel idp (Digits.next 6 id (l + 1)) (l + 1) = some (idp', r) ∨
              subAlloc fuel idp (Digits.next 6 id (l + 1)) (idp.layers - 1) = some (idp', r))))) ∨
       ∃ m : Fin 64, (m : Nat) = findNextZero p.bitmap (idrDigit id l) ∧
         ((idp' = idp ∧ r = .nomoreSpace) ∨
          (jumpId id l m < maxIdBit ∧
           ((l = 0 ∧ idp' = idp ∧ r = .found (jumpId id l m)) ∨
            (0 < l ∧ (∃ q, p.ary m = .layer q) ∧
              subAlloc fuel idp (jumpId id l m) (l - 1) = some (idp', r)) ∨
            (0 < l ∧ (∀ q, p.ary m ≠ .layer q) ∧
              ((idp.idFreeCnt = 0 ∧ idp' = idp ∧ r = .noFree) ∨
               (0 < idp.idFreeCnt ∧
                 subAlloc fuel { idp with
                     top := some (T.modifyAt (jumpId id l m) (newChild l m) (idp.layers - 1)
                       (idp.layers - 1 - l)),
                     idFreeCnt := idp.idFreeCnt - 1 } (jumpId id l m) (l - 1) = some (idp', r)))))))) := by
  obtain ⟨T, hT⟩ : ∃ T, idp.top = some T := by
    cases hT : idp.top with
    | none => simp [subAlloc, hT] at h
    | some T => exact ⟨T, rfl⟩
  obtain ⟨p, hd⟩ : ∃ p, T.descend id (idp.layers - 1) (idp.layers - 1 - l) = some p := by
    cases hd : T.descend id (idp.layers - 1) (idp.layers - 1 - l) with
    | none => simp [subAlloc, hT, hd] at h
    | some p => exact ⟨p, rfl⟩
  refine ⟨T, p, hT, hd, ?_⟩
  simp only [subAlloc, hT, hd, Option.bind_eq_bind, Option.bind_some] at h
  split at h
  · rename_i hm
    rw [upId_eq, shiftLeft_layers] at h
    split_ifs at h with h₁ h₂ h₃
    · cases h
      exact .inl ⟨hm, by omega, .inl ⟨h₂, rfl, rfl⟩⟩
    · exact .inl ⟨hm, by omega, .inr ⟨by omega, .inl h⟩⟩
    · exact .inl ⟨hm, by omega, .inr ⟨by omega, .inr h⟩⟩
  · rename_i hm
    have lt : findNextZero p.bitmap ↑(idrDigit id l) < 64 := by
      have := findNextZero_le p.bitmap ↑(idrDigit id l)
      simp only [idrSize] at hm
      omega
    obtain ⟨m, hmv⟩ : ∃ m : Fin 64, (m : Nat) = findNextZero p.bitmap ↑(idrDigit id l) := ⟨⟨_, lt⟩, rfl⟩
    have e : (⟨findNextZero p.bitmap ↑(idrDigit id l), lt⟩ : Fin 64) = m := Fin.ext hmv.symm
    rw [e, ← hmv, jumpId_code] at h
    refine .inr ⟨m, hmv, ?_⟩
    by_cases h₁ : maxIdBit ≤ jumpId id l m
    · rw [if_pos h₁] at h
      cases h
      exact .inl ⟨rfl, rfl⟩
    rw [if_neg h₁] at h
    refine .inr ⟨by omega, ?_⟩
    by_cases h₂ : l = 0
    · rw [if_pos h₂] at h
      cases h
      exact .inl ⟨h₂, rfl, rfl⟩
    rw [if_neg h₂] at h
    split at h
    · exact .inr (.inl ⟨by omega, ⟨_, ‹_›⟩, h⟩)
    · rename_i hq
      refine .inr (.inr ⟨by omega, hq, ?_⟩)
      split_ifs at h with h₃
      · cases h
        exact .inl ⟨h₃, rfl, rfl⟩
      · exact .inr ⟨by omega, h⟩

section Round

variable {idp : Idr α} {T p : IdrLayer α} {id l : Nat}

theorem Idr.Wf.top {idp : Idr α} (w : idp.Wf P) (hT : idp.top = some T) :
    0 < idp.layers ∧ IdrLayer.Wf P (idp.layers - 1) T :=
  w.top_some T hT

theorem bit_eq_leafBit (hT : idp.top = some T) {j : Nat} (hj : j < 2 ^ (6 * idp.layers)) :
    idp.bit j = T.leafBit j (idp.layers - 1) := by
  simp [Idr.bit, hT, hj]

theorem leafBit_of_block (hl : l < idp.layers) (hd : T.descend id (idp.layers - 1) (idp.layers - 1 - l) = some p)
    {j : Nat} (block : j / 2 ^ (6 * (l + 1)) = id / 2 ^ (6 * (l + 1))) :
    T.leafBit j (idp.layers - 1) = p.leafBit j l := by
  have a : Agree j id ((idp.layers - 1) + 1 - (idp.layers - 1 - l)) (idp.layers - 1) := by
    rw [show (idp.layers - 1) + 1 - (idp.layers - 1 - l) = l + 1 by omega]
    exact agree_of_div_eq block _
  rw [leafBit_of_descend (by omega) ((descend_congr (by omega) a).trans hd)]
  congr 1
  omega

/-- The ids a round passes over are full: from `id` to `m`'s block when a clear bit `m` was found
at or after `id`'s slot, or to the end of the layer when none was. -/
theorem leafBit_of_passed (hP : IdrLayer.Wf P l p) {m j : Nat}
    (set : ∀ d : Nat, (idrDigit id l : Nat) ≤ d → d < m → p.bitmap.getLsbD d = true)
    (block : j / 2 ^ (6 * (l + 1)) = id / 2 ^ (6 * (l + 1))) (above : id ≤ j)
    (below : (idrDigit j l : Nat) < m) : p.leafBit j l = true :=
  hP.leafBit_of_bit (set _ (by
    rw [idrDigit_val, idrDigit_val]
    exact Digits.digit_le_of_div_eq block.symm above) below)

theorem lookup_of_not_layer {j h : Nat} (hq : ∀ q, p.ary (idrDigit j (h + 1)) ≠ .layer q) :
    p.leafBit j (h + 1) = false ∧ p.slotAt j (h + 1) = .null := by
  unfold leafBit slotAt
  rw [leaf_succ]
  cases e : p.ary (idrDigit j (h + 1)) with
  | layer q => exact absurd e (hq q)
  | _ => exact ⟨rfl, rfl⟩

/-- The new child in the free slot `m` of a layer at level `l + 1` keeps the layer's invariant and
hides no id: the slot was `NULL`, and the child is empty. -/
theorem IdrLayer.Wf.newChild (hP₀ : P (IdrLayer.empty 0)) {m : Fin 64} (hp : IdrLayer.Wf P (l + 1) p)
    (hq : ∀ q, p.ary m ≠ .layer q) : IdrLayer.Wf P (l + 1) (newChild (l + 1) m p) := by
  have slot := Interior.slot hp m
  have bit : p.bitmap.getLsbD m = false := slot.bit_eq_false hq
  have null : (p.ary m).isNull = true := by
    revert slot hq
    cases p.ary m with
    | null => intro _ _; rfl
    | item => intro _ slot; exact slot.elim
    | layer q => intro hq _; exact absurd rfl (hq q)
  refine Interior.replace (p := p) (B := p.bitmap) hp (fun _ _ _ _ hq => hq) (fun _ _ => rfl) ?_
    (by rw [used_setSlot_fill _ _ _ null rfl, Interior.count hp])
  refine ⟨IdrLayer.Wf.empty hP₀ l, ?_⟩
  rw [bit]
  constructor
  · intro h
    cases h
  · intro full
    exact absurd full (bitmap_ne_full (n := 0) (by simp [IdrLayer.empty]))

theorem lookup_newChild {m : Fin 64} (hq : ∀ q, p.ary m ≠ .layer q) (j : Nat) :
    (newChild (l + 1) m p).leafBit j (l + 1) = p.leafBit j (l + 1) ∧
      (newChild (l + 1) m p).slotAt j (l + 1) = p.slotAt j (l + 1) := by
  have ary : (newChild (l + 1) m p).ary = (p.setSlot m (.layer (IdrLayer.empty l))).ary := rfl
  rw [leafBit_succ_of_ary_eq ary, slotAt_succ_of_ary_eq ary,
    leafBit_setSlot_layer, slotAt_setSlot_layer]
  by_cases hj : idrDigit j (l + 1) = m
  · rw [if_pos hj, if_pos hj, leafBit_empty, slotAt_empty]
    subst hj
    exact (lookup_of_not_layer hq).imp Eq.symm Eq.symm
  · rw [if_neg hj, if_neg hj]
    exact ⟨rfl, rfl⟩

theorem keeps_of_top {idp' : Idr α} {T' : IdrLayer α} (w : idp.Wf P) (hT : idp.top = some T)
    (hT' : idp'.top = some T') (layers : idp'.layers = idp.layers) (free : idp'.idFreeCnt ≤ idp.idFreeCnt)
    (wT' : IdrLayer.Wf P (idp.layers - 1) T')
    (look : ∀ j, T'.leafBit j (idp.layers - 1) = T.leafBit j (idp.layers - 1) ∧
      T'.slotAt j (idp.layers - 1) = T.slotAt j (idp.layers - 1)) :
    Keeps P idp idp' := by
  have pos := (w.top hT).1
  refine ⟨⟨layers ▸ w.layers_le, fun h => (by rw [hT'] at h; cases h), fun q hq => ?_⟩, free,
    fun j => ?_, fun j => ?_⟩
  · rw [hT'] at hq
    cases hq
    exact ⟨layers ▸ pos, layers ▸ wT'⟩
  · simp only [Idr.bit, hT, hT', layers, (look j).1]
  · simp only [Idr.slot, hT, hT', layers, (look j).2]

theorem keeps_create (hP₀ : P (IdrLayer.empty 0)) (w : idp.Wf P) (hT : idp.top = some T)
    (hl : l + 1 < idp.layers) {j : Nat}
    (hd : T.descend j (idp.layers - 1) (idp.layers - 1 - (l + 1)) = some p) {m : Fin 64}
    (hq : ∀ q, p.ary m ≠ .layer q) :
    Keeps P idp { idp with
      top := some (T.modifyAt j (newChild (l + 1) m) (idp.layers - 1) (idp.layers - 1 - (l + 1))),
      idFreeCnt := idp.idFreeCnt - 1 } := by
  have wT := (w.top hT).2
  have hk : idp.layers - 1 - (l + 1) ≤ idp.layers - 1 := Nat.sub_le _ _
  have lvl : idp.layers - 1 - (idp.layers - 1 - (l + 1)) = l + 1 := by omega
  have wp : IdrLayer.Wf P (l + 1) p := lvl ▸ wT.descend hk hd
  refine keeps_of_top w hT rfl rfl (Nat.sub_le _ _) (wT.modifyAt hk fun p' hp' => ?_)
    (lookup_modifyAt hk fun p' hp' => ?_)
  · rw [hd] at hp'
    cases hp'
    rw [lvl]
    exact ⟨rfl, IdrLayer.Wf.newChild hP₀ wp hq⟩
  · rw [hd] at hp'
    cases hp'
    rw [lvl]
    exact lookup_newChild hq

theorem Idr.Wf.round (w : idp.Wf P) (hT : idp.top = some T) (hl : l < idp.layers)
    (hd : T.descend id (idp.layers - 1) (idp.layers - 1 - l) = some p) : IdrLayer.Wf P l p := by
  have wp := (w.top hT).2.descend (Nat.sub_le _ _) hd
  rwa [show idp.layers - 1 - (idp.layers - 1 - l) = l by omega] at wp

theorem bit_of_lt_next (w : idp.Wf P) (hT : idp.top = some T) (hl : l < idp.layers)
    (hd : T.descend id (idp.layers - 1) (idp.layers - 1 - l) = some p)
    (hm : findNextZero p.bitmap (idrDigit id l) = idrSize) {j : Nat} (h₁ : id ≤ j)
    (h₂ : j < Digits.next 6 id (l + 1)) (hj : j < 2 ^ (6 * idp.layers)) : idp.bit j = true := by
  have block := Digits.div_eq_of_lt_next h₁ h₂
  have set : ∀ d : Nat, (idrDigit id l : Nat) ≤ d → d < 64 → p.bitmap.getLsbD d = true :=
    fun d hn hd => getLsbD_of_lt_findNextZero hn (by rw [hm]; exact hd)
  rw [bit_eq_leafBit hT hj, leafBit_of_block hl hd block]
  exact leafBit_of_passed (w.round hT hl hd) set block h₁ (idrDigit j l).isLt

theorem jumpId_spec (id l : Nat) {m : Fin 64} (hn : (idrDigit id l : Nat) ≤ m) :
    id ≤ jumpId id l m ∧ jumpId id l m / 2 ^ (6 * (l + 1)) = id / 2 ^ (6 * (l + 1)) ∧
      idrDigit (jumpId id l m) l = m := by
  unfold jumpId
  split_ifs with hm
  · have lt : Digits.digit 6 id l < m := by
      rw [← idrDigit_val]
      exact lt_of_le_of_ne hn (fun e => hm (Fin.ext e).symm)
    refine ⟨(Digits.lt_first lt).le, Digits.first_div_succ m.isLt, Fin.ext ?_⟩
    rw [idrDigit_val]
    exact Digits.digit_first m.isLt
  · exact ⟨le_rfl, rfl, (not_not.mp hm).symm⟩

theorem bit_of_lt_jumpId (w : idp.Wf P) (hT : idp.top = some T) (hl : l < idp.layers)
    (hd : T.descend id (idp.layers - 1) (idp.layers - 1 - l) = some p) {m : Fin 64}
    (hmv : (m : Nat) = findNextZero p.bitmap (idrDigit id l)) {j : Nat} (h₁ : id ≤ j)
    (h₂ : j < jumpId id l m) (hj : j < 2 ^ (6 * idp.layers)) : idp.bit j = true := by
  have set : ∀ d : Nat, (idrDigit id l : Nat) ≤ d → d < m → p.bitmap.getLsbD d = true :=
    fun d hn hd => getLsbD_of_lt_findNextZero hn (hmv ▸ hd)
  unfold jumpId at h₂
  split_ifs at h₂ with hm
  · obtain ⟨block, -, below⟩ := Digits.between_first m.isLt h₁ h₂
    rw [bit_eq_leafBit hT hj, leafBit_of_block hl hd block]
    exact leafBit_of_passed (w.round hT hl hd) set block h₁ (by rw [idrDigit_val]; exact below)
  · omega

theorem descend_jumpId (hl : l < idp.layers)
    (hd : T.descend id (idp.layers - 1) (idp.layers - 1 - l) = some p) {m : Fin 64}
    (hn : (idrDigit id l : Nat) ≤ m) :
    T.descend (jumpId id l m) (idp.layers - 1) (idp.layers - 1 - l) = some p := by
  have a : Agree (jumpId id l m) id ((idp.layers - 1) + 1 - (idp.layers - 1 - l)) (idp.layers - 1) := by
    rw [show (idp.layers - 1) + 1 - (idp.layers - 1 - l) = l + 1 by omega]
    exact agree_of_div_eq (jumpId_spec id l hn).2.1 _
  exact (descend_congr (Nat.sub_le _ _) a).trans hd

theorem digit_le_of_found {m : Fin 64} (hmv : (m : Nat) = findNextZero p.bitmap (idrDigit id l)) :
    (idrDigit id l : Nat) ≤ m ∧ p.bitmap.getLsbD m = false := by
  rw [hmv]
  exact findNextZero_clear (hmv ▸ m.isLt)

theorem advance_jumpId (w : idp.Wf P) (hT : idp.top = some T) (hl : l < idp.layers)
    (hd : T.descend id (idp.layers - 1) (idp.layers - 1 - l) = some p) {m : Fin 64}
    (hmv : (m : Nat) = findNextZero p.bitmap (idrDigit id l)) {start : Nat}
    (hid : id < 2 ^ (6 * idp.layers)) (hf : FullFrom idp start id) :
    jumpId id l m < 2 ^ (6 * idp.layers) ∧ FullFrom idp start (jumpId id l m) := by
  have block := (jumpId_spec id l (digit_le_of_found hmv).1).2.1
  have lt := Digits.lt_of_div_eq block (by omega : l + 1 ≤ idp.layers) hid
  exact ⟨lt, hf.trans fun j h₁ h₂ => bit_of_lt_jumpId w hT hl hd hmv h₁ h₂ (by omega)⟩

theorem reports_found (w : idp.Wf P) (hT : idp.top = some T) (hl : 0 < idp.layers)
    (hd : T.descend id (idp.layers - 1) (idp.layers - 1 - 0) = some p) {m : Fin 64}
    (hmv : (m : Nat) = findNextZero p.bitmap (idrDigit id 0)) {start : Nat} :
    Reports idp idp start id (.found (jumpId id 0 m)) := by
  obtain ⟨hn, clear⟩ := digit_le_of_found hmv
  obtain ⟨le, -, digit⟩ := jumpId_spec id 0 hn
  have hd' := descend_jumpId hl hd hn
  rw [Nat.sub_zero] at hd'
  refine ⟨le, ⟨T, p, hT, hd'⟩, fun hid _ hf => ?_⟩
  obtain ⟨lt, hf'⟩ := advance_jumpId w hT hl hd hmv hid hf
  refine ⟨lt, hf', ?_⟩
  rw [bit_eq_leafBit hT lt, leafBit_of_descend le_rfl hd', Nat.sub_self]
  simpa [leafBit, digit] using clear

end Round

/-! ### Growing the tree -/

section Grow

variable {idp : Idr α} {T : IdrLayer α}

theorem pow_lt_pow_succ {L j : Nat} (hj : j < 2 ^ (6 * L)) : j < 2 ^ (6 * (L + 1)) :=
  lt_of_lt_of_le hj (Nat.pow_le_pow_right (by norm_num) (by omega))

theorem lookup_of_taller {idp' : Idr α} {T' : IdrLayer α} (hT : idp.top = some T)
    (hT' : idp'.top = some T') (layers : idp'.layers = idp.layers + 1)
    (old : ∀ j, j < 2 ^ (6 * idp.layers) → T'.leafBit j idp.layers = T.leafBit j (idp.layers - 1) ∧
      T'.slotAt j idp.layers = T.slotAt j (idp.layers - 1))
    (new : ∀ j, 2 ^ (6 * idp.layers) ≤ j → j < 2 ^ (6 * (idp.layers + 1)) →
      T'.leafBit j idp.layers = false ∧ T'.slotAt j idp.layers = .null) (j : Nat) :
    idp'.bit j = idp.bit j ∧ idp'.slot j = idp.slot j := by
  simp only [Idr.bit, Idr.slot, hT, hT', layers, Nat.add_sub_cancel]
  by_cases hj : j < 2 ^ (6 * idp.layers)
  · simp [hj, pow_lt_pow_succ hj, old j hj]
  · by_cases hj' : j < 2 ^ (6 * (idp.layers + 1))
    · simp [hj, hj', new j (by omega) hj']
    · simp [hj, hj']

theorem keeps_of_taller {idp' : Idr α} {T' : IdrLayer α} (hT : idp.top = some T)
    (hT' : idp'.top = some T') (layers : idp'.layers = idp.layers + 1)
    (le : idp'.layers ≤ maxLevel - 1) (free : idp'.idFreeCnt ≤ idp.idFreeCnt)
    (wT' : IdrLayer.Wf P idp.layers T')
    (old : ∀ j, j < 2 ^ (6 * idp.layers) → T'.leafBit j idp.layers = T.leafBit j (idp.layers - 1) ∧
      T'.slotAt j idp.layers = T.slotAt j (idp.layers - 1))
    (new : ∀ j, 2 ^ (6 * idp.layers) ≤ j → j < 2 ^ (6 * (idp.layers + 1)) →
      T'.leafBit j idp.layers = false ∧ T'.slotAt j idp.layers = .null) :
    Keeps P idp idp' := by
  have same := lookup_of_taller hT hT' layers old new
  refine ⟨⟨le, fun h => (by rw [hT'] at h; cases h), fun q hq => ?_⟩, free, fun j => (same j).1,
    fun j => (same j).2⟩
  rw [hT'] at hq
  cases hq
  rw [layers, Nat.add_sub_cancel]
  exact ⟨Nat.succ_pos _, wT'⟩

theorem lookup_of_only_child {h : Nat} {q : IdrLayer α} (h0 : T.ary 0 = .layer q)
    (others : ∀ m : Fin 64, m ≠ 0 → ∀ q', T.ary m ≠ .layer q') :
    (∀ j, j < 2 ^ (6 * (h + 1)) → T.leafBit j (h + 1) = q.leafBit j h ∧ T.slotAt j (h + 1) = q.slotAt j h) ∧
    (∀ j, 2 ^ (6 * (h + 1)) ≤ j → j < 2 ^ (6 * (h + 1 + 1)) →
      T.leafBit j (h + 1) = false ∧ T.slotAt j (h + 1) = .null) := by
  refine ⟨fun j hj => ?_, fun j h₁ h₂ => ?_⟩
  · have digit : idrDigit j (h + 1) = 0 :=
      Fin.ext (by rw [idrDigit_val]; exact Digits.digit_eq_zero_of_lt hj le_rfl)
    rw [← digit] at h0
    exact ⟨leafBit_of_leaf_child h0, slotAt_of_leaf_child h0⟩
  · have digit : idrDigit j (h + 1) ≠ 0 := fun e => by
      have pos := Digits.digit_pos h₁ h₂
      rw [← idrDigit_val, e] at pos
      exact absurd pos (lt_irrefl 0)
    exact lookup_of_not_layer (others _ digit)

section
-- the policy of the leaves holds nothing in a leaf whose count is zero
variable (hP : ∀ q : IdrLayer α, P q → q.count = 0 → ∀ n : Fin 64, q.ary n = .null ∧ q.bitmap.getLsbD n = false)

include hP in
theorem keeps_raise (w : idp.Wf P) (hT : idp.top = some T) (hc : T.count = 0)
    (hl : idp.layers < maxLevel - 1) :
    Keeps P idp { idp with top := some { T with layer := T.layer + 1 }, layers := idp.layers + 1 } := by
  obtain ⟨pos, wT⟩ := w.top hT
  have null := wT.null_of_count_eq_zero hP hc
  have gone : ∀ j, ({ T with layer := T.layer + 1 } : IdrLayer α).leafBit j idp.layers = false ∧
      ({ T with layer := T.layer + 1 } : IdrLayer α).slotAt j idp.layers = .null := fun j => by
    obtain ⟨h, hL⟩ : ∃ h, idp.layers = h + 1 := ⟨idp.layers - 1, by omega⟩
    rw [hL]
    exact lookup_of_not_layer fun q => by simp [(null _).1]
  refine keeps_of_taller hT rfl rfl (by simp only; omega) le_rfl ?_ (fun j _ => ?_) (fun j _ _ => gone j)
  · obtain ⟨h, hL⟩ : ∃ h, idp.layers = h + 1 := ⟨idp.layers - 1, by omega⟩
    rw [hL]
    refine ⟨by simp [wT.layer_eq, hL], ?_, fun n => ?_⟩
    · show T.count = Bitmap.count _
      rw [hc, eq_comm, count_eq_zero]
      intro n
      simp [(null n).1, IdrSlot.isNull]
    · show SlotWf _ (T.ary n) (T.bitmap.getLsbD n)
      rw [(null n).1, (null n).2]
      rfl
  · rw [(gone j).1, (gone j).2, (wT.lookup_of_count_eq_zero hP hc j).1, (wT.lookup_of_count_eq_zero hP hc j).2]
    exact ⟨rfl, rfl⟩

end

theorem keeps_newTop (hP₀ : P (IdrLayer.empty 0)) (w : idp.Wf P) (hT : idp.top = some T)
    (hl : idp.layers < maxLevel - 1) :
    Keeps P idp { idp with
      top := some { (IdrLayer.empty (idp.layers + 1 - 1)).setSlot 0 (.layer T) with
        count := 1, bitmap := if T.bitmap = idrFull then setBit 0 0 else 0 },
      layers := idp.layers + 1, idFreeCnt := idp.idFreeCnt - 1 } := by
  obtain ⟨pos, wT⟩ := w.top hT
  obtain ⟨h, hL⟩ : ∃ h, idp.layers = h + 1 := ⟨idp.layers - 1, by omega⟩
  have wT' : IdrLayer.Wf P h T := by
    rw [hL, Nat.add_sub_cancel] at wT
    exact wT
  have bits : ∀ n : Fin 64, (if T.bitmap = idrFull then setBit (0 : BitVec 64) 0 else 0).getLsbD n =
      (decide (n = 0) && decide (T.bitmap = idrFull)) := fun n => by
    split_ifs with hf
    · rw [getLsbD_setBit]
      by_cases hn : n = 0
      · subst hn
        simp [hf]
      · have hn' : (n : Nat) ≠ 0 := fun e => hn (Fin.ext e)
        simp [hf, hn, Ne.symm hn']
    · simp [hf]
  have child := lookup_of_only_child (h := h) (T := { (IdrLayer.empty (h + 1 + 1 - 1)).setSlot 0 (.layer T) with
      count := 1, bitmap := if T.bitmap = idrFull then setBit 0 0 else 0 }) (q := T) (by simp)
    (fun m hm q => by simp [hm, IdrLayer.empty])
  refine keeps_of_taller hT rfl rfl (by simp only; omega) (Nat.sub_le _ _) ?_ (fun j hj => ?_)
    (fun j h₁ h₂ => ?_)
  · rw [hL]
    refine Interior.replace (p := IdrLayer.empty (h + 1)) (IdrLayer.Wf.empty hP₀ (h + 1))
      (fun _ _ q hq => by simp [IdrLayer.empty] at hq)
      (fun n hn => by rw [bits]; simp [hn, IdrLayer.empty]) ⟨wT', ?_⟩
      (by rw [used_setSlot_fill _ _ _ rfl rfl]; rfl)
    rw [bits]
    simp
  · rw [hL] at hj ⊢
    rw [Nat.add_sub_cancel]
    exact child.1 j hj
  · rw [hL] at h₁ h₂ ⊢
    exact child.2 j h₁ h₂

theorem keeps_shrink {q : IdrLayer α} (w : idp.Wf P) (hT : idp.top = some T) (hc : T.count = 1)
    (hl : 1 < idp.layers) (h0 : T.ary 0 = .layer q) :
    Keeps P idp { idp with top := some q, layers := idp.layers - 1 } := by
  obtain ⟨pos, wT⟩ := w.top hT
  obtain ⟨h, hL⟩ : ∃ h, idp.layers = h + 2 := ⟨idp.layers - 2, by omega⟩
  rw [hL] at wT
  have used : T.used = 1 := (Interior.count wT).symm.trans hc
  have wq : IdrLayer.Wf P h q := by
    have slot := Interior.slot wT 0
    rw [h0] at slot
    exact slot.1
  have others : ∀ m : Fin 64, m ≠ 0 → ∀ q', T.ary m ≠ .layer q' := fun m hm q' e => by
    have null := eq_false_of_count_eq_one used (n := 0) (by simp [h0, IdrSlot.isNull]) hm
    simp [e, IdrSlot.isNull] at null
  obtain ⟨old, new⟩ := lookup_of_only_child (h := h) h0 others
  have same := lookup_of_taller
    (show ({ idp with top := some q, layers := idp.layers - 1 } : Idr α).top = some q from rfl) hT
    (by simp only; omega) (fun j hj => by simp only [hL] at hj ⊢; exact old j hj)
    (fun j h₁ h₂ => by simp only [hL] at h₁ h₂ ⊢; exact new j h₁ h₂)
  refine ⟨⟨by have := w.layers_le; simp only; omega, fun e => (by cases e), fun q' hq' => ?_⟩, le_rfl,
    fun j => (same j).1.symm, fun j => (same j).2.symm⟩
  cases hq'
  simp only [hL]
  exact ⟨by omega, wq⟩

theorem keeps_same (w : idp.Wf P) (hT : idp.top = some T) :
    Keeps P idp { idp with top := some T, layers := idp.layers, idFreeCnt := idp.idFreeCnt } := by
  obtain ⟨top, layers, free⟩ := idp
  cases hT
  exact Keeps.refl w

/-- The growing loop of `idr_get_empty_slot` keeps the tree, and when it may add as many layers as
the tree may have, it stops with all of them or with `id` below the ids they reach. -/
theorem idrGrow_spec (hP₀ : P (IdrLayer.empty 0))
    (hP : ∀ q : IdrLayer α, P q → q.count = 0 → ∀ n : Fin 64, q.ary n = .null ∧ q.bitmap.getLsbD n = false)
    (id : Nat) :
    ∀ {k : Nat} {idp : Idr α} {T T' : IdrLayer α} {L' free' : Nat}, idp.Wf P → idp.top = some T →
      idrGrow id k T idp.layers idp.idFreeCnt = some (T', L', free') →
      Keeps P idp { idp with top := some T', layers := L', idFreeCnt := free' } ∧
      (maxLevel - 1 ≤ k + idp.layers → L' = maxLevel - 1 ∨ id < 2 ^ (6 * L'))
  | 0, idp, T, T', L', free', w, hT, h => by
    simp only [idrGrow, Option.some.injEq, Prod.mk.injEq] at h
    obtain ⟨rfl, rfl, rfl⟩ := h
    exact ⟨keeps_same w hT, fun hk => .inl (by have := w.layers_le; omega)⟩
  | k + 1, idp, T, T', L', free', w, hT, h => by
    rw [idrGrow, shiftLeft_layers] at h
    by_cases grow : idp.layers < maxLevel - 1 ∧ id ≥ 2 ^ (6 * idp.layers)
    · rw [if_pos grow] at h
      by_cases hc : T.count = 0
      · -- an empty top moves up
        rw [if_pos hc] at h
        have k₁ := keeps_raise hP w hT hc grow.1
        obtain ⟨k₂, fits⟩ := idrGrow_spec hP₀ hP id k₁.wf rfl h
        exact ⟨k₁.trans k₂, fun hk => fits (by simp only; omega)⟩
      rw [if_neg hc] at h
      by_cases hfree : idp.idFreeCnt = 0
      · rw [if_pos hfree] at h
        cases h
      rw [if_neg hfree] at h
      have k₁ := keeps_newTop hP₀ w hT grow.1
      obtain ⟨k₂, fits⟩ := idrGrow_spec hP₀ hP id k₁.wf rfl h
      exact ⟨k₁.trans k₂, fun hk => fits (by simp only; omega)⟩
    · rw [if_neg grow, Option.some.injEq, Prod.mk.injEq, Prod.mk.injEq] at h
      obtain ⟨rfl, rfl, rfl⟩ := h
      refine ⟨keeps_same w hT, fun _ => ?_⟩
      have := w.layers_le
      by_cases hl : idp.layers < maxLevel - 1
      · exact .inr (by have := not_and.mp grow hl; omega)
      · exact .inl (by omega)

end Grow

/-! ### The whole search -/

theorem subAlloc_spec (hP₀ : P (IdrLayer.empty 0)) (start : Nat) :
    ∀ {fuel : Nat} {idp idp' : Idr α} {id l : Nat} {r : IdrAlloc}, idp.Wf P → l < idp.layers →
      subAlloc fuel idp id l = some (idp', r) →
      Keeps P idp idp' ∧ idp'.layers = idp.layers ∧ Reports idp idp' start id r := by
  intro fuel
  induction fuel with
  | zero =>
    intro idp idp' id l r _ _ h
    simp [subAlloc] at h
  | succ fuel ih =>
    intro idp idp' id l r w hl h
    obtain ⟨T, p, hT, hd, ⟨hm, -, up⟩ | ⟨m, hmv, down⟩⟩ := subAlloc_succ_cases h
    · -- no clear bit from the slot of `id` on: up to the next block at level `l + 1`
      have lt := Digits.lt_next (k := 6) id (l + 1)
      have adv : id < 2 ^ (6 * idp.layers) → FullFrom idp start id →
          FullFrom idp start (Digits.next 6 id (l + 1)) := fun hid hf =>
        have le := Digits.next_le hid (by omega : l + 1 ≤ idp.layers)
        hf.trans fun j h₁ h₂ => bit_of_lt_next w hT hl hd hm h₁ h₂ (by omega)
      rcases up with ⟨ge, rfl, rfl⟩ | ⟨nlt, rec | rec⟩
      · exact ⟨Keeps.refl w, rfl, lt.le, fun hid _ hf => ⟨ge, adv hid hf⟩⟩
      · have hl' : 6 * (l + 1) < 6 * idp.layers :=
          (Nat.pow_lt_pow_iff_right (by norm_num)).mp (lt_of_le_of_lt (Digits.pow_le_next id (l + 1)) nlt)
        obtain ⟨k, layers, rep⟩ := ih w (by omega) rec
        exact ⟨k, layers, rep.of_advance lt.le fun hid _ hf => ⟨nlt, adv hid hf⟩⟩
      · obtain ⟨k, layers, rep⟩ := ih w (by omega) rec
        exact ⟨k, layers, rep.of_advance lt.le fun hid _ hf => ⟨nlt, adv hid hf⟩⟩
    · -- the clear bit `m`: on to its id, one level down
      have hn := (digit_le_of_found hmv).1
      have le := (jumpId_spec id l hn).1
      have adv : id < 2 ^ (6 * idp.layers) → start ≤ id → FullFrom idp start id →
          jumpId id l m < 2 ^ (6 * idp.layers) ∧ FullFrom idp start (jumpId id l m) :=
        fun hid _ hf => advance_jumpId w hT hl hd hmv hid hf
      rcases down with ⟨rfl, rfl⟩ | ⟨-, ⟨rfl, rfl, rfl⟩ | ⟨pos, -, rec⟩ | ⟨pos, hq, ⟨-, rfl, rfl⟩ | ⟨-, rec⟩⟩⟩
      · exact ⟨Keeps.refl w, rfl, trivial⟩
      · exact ⟨Keeps.refl w, rfl, reports_found w hT hl hd hmv⟩
      · obtain ⟨k, layers, rep⟩ := ih w (by omega) rec
        exact ⟨k, layers, rep.of_advance le adv⟩
      · exact ⟨Keeps.refl w, rfl, trivial⟩
      · -- a missing layer is taken from the free list first
        obtain ⟨l, rfl⟩ : ∃ l', l = l' + 1 := ⟨l - 1, by omega⟩
        have k₁ := keeps_create hP₀ w hT hl (descend_jumpId hl hd hn) hq
        obtain ⟨k, layers, rep⟩ := ih k₁.wf (by simpa using hl.trans' (Nat.lt_succ_self l)) rec
        exact ⟨k₁.trans k, layers, (rep.of_keeps k₁ rfl).of_advance le adv⟩

/-! ### `idr_get_empty_slot` -/

theorem idrGetEmptySlot_tail {fuel : Nat} {idp' : Idr α} {id : Nat} {r : IdrAlloc} {T : IdrLayer α}
    {L free : Nat}
    (h : ((subAlloc fuel { top := some T, layers := L, idFreeCnt := free } id (L - 1)).bind fun r =>
      match r.2 with
      | .needToGrow id => idrGetEmptySlot fuel r.1 id
      | _ => some r) = some (idp', r)) :
    ∃ idp₁ r₁, subAlloc fuel { top := some T, layers := L, idFreeCnt := free } id (L - 1) = some (idp₁, r₁) ∧
      ((∃ id₂, r₁ = .needToGrow id₂ ∧ idrGetEmptySlot fuel idp₁ id₂ = some (idp', r)) ∨
       ((∀ id₂, r₁ ≠ .needToGrow id₂) ∧ idp' = idp₁ ∧ r = r₁)) := by
  rw [Option.bind_eq_some_iff] at h
  obtain ⟨⟨idp₁, r₁⟩, hs, h⟩ := h
  refine ⟨idp₁, r₁, hs, ?_⟩
  cases r₁ with
  | needToGrow id₂ => exact .inl ⟨id₂, rfl, h⟩
  | _ =>
    simp only [Option.some.injEq, Prod.mk.injEq] at h
    obtain ⟨rfl, rfl⟩ := h
    exact .inr ⟨fun _ e => (by cases e), rfl, rfl⟩

theorem idrGetEmptySlot_succ_cases {fuel : Nat} {idp idp' : Idr α} {id : Nat} {r : IdrAlloc}
    (h : idrGetEmptySlot (fuel + 1) idp id = some (idp', r)) :
    (idp' = idp ∧ r = .noFree) ∨
    ∃ idp₀ T₀ T L free idp₁ r₁,
      ((idp.top = some T₀ ∧ idp₀ = idp) ∨
        (idp.top = none ∧ 0 < idp.idFreeCnt ∧ T₀ = IdrLayer.empty 0 ∧
          idp₀ = { idp with top := some T₀, layers := 1, idFreeCnt := idp.idFreeCnt - 1 })) ∧
      idrGrow id (maxLevel - 1) T₀ idp₀.layers idp₀.idFreeCnt = some (T, L, free) ∧
      subAlloc fuel { idp with top := some T, layers := L, idFreeCnt := free } id (L - 1) = some (idp₁, r₁) ∧
      ((∃ id₂, r₁ = .needToGrow id₂ ∧ idrGetEmptySlot fuel idp₁ id₂ = some (idp', r)) ∨
       ((∀ id₂, r₁ ≠ .needToGrow id₂) ∧ idp' = idp₁ ∧ r = r₁)) := by
  rw [idrGetEmptySlot] at h
  cases hT : idp.top with
  | some T₀ =>
    simp only [hT, Option.bind_some] at h
    split at h
    · cases h
      exact .inl ⟨rfl, rfl⟩
    · rename_i T L free hg
      obtain ⟨idp₁, r₁, hs, tail⟩ := idrGetEmptySlot_tail h
      exact .inr ⟨idp, T₀, T, L, free, idp₁, r₁, .inl ⟨rfl, rfl⟩, hg, hs, tail⟩
  | none =>
    simp only [hT] at h
    by_cases hfree : idp.idFreeCnt = 0
    · simp only [hfree, if_true, Option.bind_none] at h
      cases h
      exact .inl ⟨rfl, rfl⟩
    simp only [hfree, if_false, Option.bind_some] at h
    split at h
    · cases h
      exact .inl ⟨rfl, rfl⟩
    · rename_i T L free hg
      obtain ⟨idp₁, r₁, hs, tail⟩ := idrGetEmptySlot_tail h
      exact .inr ⟨_, _, T, L, free, idp₁, r₁, .inr ⟨rfl, by omega, rfl, rfl⟩, hg, hs, tail⟩
theorem keeps_start (hP₀ : P (IdrLayer.empty 0)) {idp : Idr α} (hT : idp.top = none) :
    Keeps P idp { idp with top := some (IdrLayer.empty 0), layers := 1, idFreeCnt := idp.idFreeCnt - 1 } := by
  refine ⟨⟨show 1 ≤ maxLevel - 1 by decide, fun h => (by cases h), fun q hq => ?_⟩, Nat.sub_le _ _,
    fun j => ?_, fun j => ?_⟩
  · cases hq
    exact ⟨Nat.one_pos, IdrLayer.Wf.empty hP₀ 0⟩
  · simp [Idr.bit, hT, leafBit_empty]
  · simp [Idr.slot, hT, slotAt_empty]

theorem idrGetEmptySlot_spec (hP₀ : P (IdrLayer.empty 0))
    (hP : ∀ q : IdrLayer α, P q → q.count = 0 → ∀ n : Fin 64, q.ary n = .null ∧ q.bitmap.getLsbD n = false)
    (start : Nat) :
    ∀ {fuel : Nat} {idp idp' : Idr α} {id : Nat} {r : IdrAlloc}, idp.Wf P → start ≤ id →
      (id < 2 ^ (6 * (maxLevel - 1)) → FullFrom idp start id) →
      idrGetEmptySlot fuel idp id = some (idp', r) → Keeps P idp idp' ∧ Found idp' start id r := by
  intro fuel
  induction fuel with
  | zero =>
    intro idp idp' id r _ _ _ h
    simp [idrGetEmptySlot] at h
  | succ fuel ih =>
    intro idp idp' id r w hs hf h
    rcases idrGetEmptySlot_succ_cases h with ⟨rfl, rfl⟩ | ⟨idp₀, T₀, T, L, free, idp₁, r₁, first, hg, hsub, tail⟩
    · exact ⟨Keeps.refl w, trivial⟩
    -- the tree `build_up` starts from, grown until `id` fits
    obtain ⟨k₀, hT₀⟩ : Keeps P idp idp₀ ∧ idp₀.top = some T₀ := by
      rcases first with ⟨hT, rfl⟩ | ⟨hT, -, rfl, rfl⟩
      · exact ⟨Keeps.refl w, hT⟩
      · exact ⟨keeps_start hP₀ hT, rfl⟩
    obtain ⟨k₁, fits⟩ := idrGrow_spec hP₀ hP id k₀.wf hT₀ hg
    have kg : Keeps P idp { idp with top := some T, layers := L, idFreeCnt := free } := k₀.trans k₁
    have below : id < 2 ^ (6 * (maxLevel - 1)) → id < 2 ^ (6 * L) := fun hid => by
      rcases fits (by omega) with e | lt
      · rw [e]
        exact hid
      · exact lt
    have pos : 0 < L := (kg.wf.top_some T rfl).1
    obtain ⟨k₂, layers, rep⟩ := subAlloc_spec hP₀ start kg.wf (show L - 1 < L by omega) hsub
    rcases tail with ⟨id₂, rfl, rec⟩ | ⟨other, rfl, rfl⟩
    · -- the tree has to grow again for `id₂`
      obtain ⟨le, grow⟩ := rep
      have hf₂ : id₂ < 2 ^ (6 * (maxLevel - 1)) → FullFrom idp₁ start id₂ := fun hid₂ => by
        have hid := lt_of_le_of_lt le hid₂
        exact k₂.fullFrom.mpr (grow (below hid) hs (kg.fullFrom.mpr (hf hid))).2
      obtain ⟨k₃, found⟩ := ih k₂.wf (hs.trans le) hf₂ rec
      exact ⟨(kg.trans k₂).trans k₃, found.of_le le⟩
    · cases r with
      | found id' =>
        obtain ⟨le, leaf, first⟩ := rep
        refine ⟨kg.trans k₂, le, layers ▸ leaf, fun hid' => ?_⟩
        obtain ⟨lt, full, clear⟩ := first (below (lt_of_le_of_lt le hid')) hs (kg.fullFrom.mpr (hf (lt_of_le_of_lt le hid')))
        exact ⟨layers ▸ lt, k₂.fullFrom.mpr full, (k₂.bit id').trans clear⟩
      | needToGrow id₂ => exact absurd rfl (other id₂)
      | _ => exact ⟨kg.trans k₂, trivial⟩

end LinuxKernel
