import LinuxKernel.Lib.IdrAlloc

/-!
# The `idr` as a map from ids to pointers

The leaves of an `idr` count the ids they have handed out and hold a pointer only in an allocated
slot. Over that policy the tree keeps `Idr.Wf` through `idr_pre_get`, `idr_get_new_above` and
`idr_remove`, and `idr_find` reads the map the bits and slots give.
-/

namespace LinuxKernel

open Bitmap IdrLayer Idr

variable {α : Type}

/-- A leaf of an `idr`: its count is the number of ids it has handed out, a pointer sits only in
an allocated slot, and no slot holds a layer. -/
structure IdrLeaf (p : IdrLayer α) : Prop where
  count : p.count = weight p.bitmap
  item : ∀ n a, p.ary n = .item a → p.bitmap.getLsbD n = true
  no_layer : ∀ n q, p.ary n ≠ .layer q

/-- A leaf whose slot `d` has been filled and counted, before `idr_mark_full` sets its bit. -/
structure IdrFilling (d : Fin 64) (p : IdrLayer α) : Prop where
  count : p.count = weight p.bitmap + 1
  clear : p.bitmap.getLsbD d = false
  item : ∀ n a, n ≠ d → p.ary n = .item a → p.bitmap.getLsbD n = true
  no_layer : ∀ n q, p.ary n ≠ .layer q

namespace IdrLeaf

variable {q : IdrLayer α} {d : Fin 64}

theorem empty : IdrLeaf (IdrLayer.empty 0 : IdrLayer α) := by
  refine ⟨?_, fun _ _ h => (by cases h), fun _ _ h => (by cases h)⟩
  show 0 = Bitmap.count _
  rw [eq_comm, count_eq_zero]
  intro n
  simp [IdrLayer.empty]

theorem null_of_count_eq_zero (hq : IdrLeaf q) (hc : q.count = 0) (n : Fin 64) :
    q.ary n = .null ∧ q.bitmap.getLsbD n = false := by
  have bit : q.bitmap.getLsbD n = false := count_eq_zero.mp (show Bitmap.count _ = 0 by rw [← weight, ← hq.count, hc]) n
  refine ⟨?_, bit⟩
  cases e : q.ary n with
  | null => rfl
  | item a =>
    rw [hq.item n a e] at bit
    cases bit
  | layer q' => exact absurd e (hq.no_layer n q')

theorem clear (hq : IdrLeaf q) (set : q.bitmap.getLsbD d = true) :
    IdrLeaf { q.setSlot d .null with bitmap := clearBit q.bitmap d, count := q.count - 1 } := by
  have weight := weight_clearBit set
  have count := hq.count
  refine ⟨by simp only; omega, fun n a h => ?_, fun n q' => ?_⟩
  · have hn : n ≠ d := fun e => by
      subst e
      simp at h
    simp only [setSlot_ary_of_ne _ _ hn] at h
    have hn' : (d : Nat) ≠ n := fun e => hn (Fin.ext e.symm)
    rw [getLsbD_clearBit, hq.item n a h]
    simp [hn']
  · by_cases hn : n = d
    · subst hn
      simp
    · simp only [setSlot_ary_of_ne _ _ hn]
      exact hq.no_layer n q'

theorem fill (hq : IdrLeaf q) (clear : q.bitmap.getLsbD d = false) (ptr : Option α) :
    IdrFilling d { q.setSlot d (.ofPtr ptr) with count := q.count + 1 } := by
  refine ⟨by simp only [setSlot_bitmap]; rw [hq.count], clear, fun n a hn h => ?_, fun n q' => ?_⟩
  · simp only [setSlot_ary_of_ne _ _ hn] at h
    exact hq.item n a h
  · by_cases hn : n = d
    · subst hn
      cases ptr <;> simp [IdrSlot.ofPtr]
    · simp only [setSlot_ary_of_ne _ _ hn]
      exact hq.no_layer n q'

end IdrLeaf

theorem IdrFilling.mark {d : Fin 64} {q : IdrLayer α} (hq : IdrFilling d q) :
    IdrLeaf { q with bitmap := setBit q.bitmap d } := by
  refine ⟨?_, fun n a h => ?_, hq.no_layer⟩
  · rw [hq.count, weight_setBit hq.clear]
  · rw [getLsbD_setBit]
    by_cases hn : n = d
    · subst hn
      simp
    · rw [hq.item n a hn h, Bool.true_or]

/-! ### `idr_find` -/

theorem idrFindLoop_wf {j : Nat} : ∀ {h : Nat} {p : IdrLayer α}, IdrLayer.Wf IdrLeaf h p →
    idrFindLoop j (h + 1) (.layer p) = some (p.slotAt j h).ptr
  | 0, p, w => by
    have leaf : IdrLeaf p := w.2
    rw [idrFindLoop, if_neg (by rw [w.1]; exact not_not.mpr rfl)]
    cases e : p.ary (idrDigit j 0) with
    | null => simp [idrFindLoop, slotAt, e, IdrSlot.ptr]
    | item a => simp [idrFindLoop, slotAt, e, IdrSlot.ptr]
    | layer q => exact absurd e (leaf.no_layer _ q)
  | h + 1, p, w => by
    rw [idrFindLoop, if_neg (by rw [Interior.layer w]; exact not_not.mpr rfl)]
    have slot := Interior.slot w (idrDigit j (h + 1))
    cases e : p.ary (idrDigit j (h + 1)) with
    | null =>
      rw [(lookup_of_not_layer (p := p) fun q h => by rw [e] at h; cases h).2]
      rfl
    | item a =>
      rw [e] at slot
      exact slot.elim
    | layer q =>
      rw [e] at slot
      rw [slotAt_of_leaf_child e]
      exact idrFindLoop_wf slot.1

theorem and_maxIdMask {j : Nat} (hj : j < maxIdBit) : j &&& maxIdMask = j := by
  have bit : maxIdBit = 2 ^ 31 := by decide
  rw [maxIdMask, bit, Nat.and_two_pow_sub_one_eq_mod, Nat.mod_eq_of_lt (bit ▸ hj)]

theorem idrFind_eq {idp : Idr α} (w : idp.Wf IdrLeaf) {j : Nat} (hj : j < maxIdBit) :
    idrFind idp j = some (idp.slot j).ptr := by
  unfold idrFind
  cases hT : idp.top with
  | none => simp [Idr.slot, hT, IdrSlot.ptr]
  | some p =>
    obtain ⟨pos, wp⟩ := w.top hT
    have height : p.layer + 1 = idp.layers := by rw [wp.layer_eq]; omega
    have shift : 1 <<< ((p.layer + 1) * idrBits) = 2 ^ (6 * idp.layers) := by rw [shiftLeft_layers, height]
    simp only [and_maxIdMask hj, shift, Idr.slot, hT]
    by_cases hj' : j < 2 ^ (6 * idp.layers)
    · rw [if_neg (not_le.mpr hj'), if_pos hj', show idp.layers - 1 = p.layer by omega]
      rw [show idp.layers - 1 = p.layer by omega] at wp
      exact idrFindLoop_wf wp
    · rw [if_pos (not_lt.mp hj'), if_neg hj']
      rfl

/-! ### `idr_get_new_above` -/

/-- The tree after `idr_get_new_above_int` has put `ptr` in the slot of `id` below the top `T` and
marked the path full. -/
def idrFill (idp : Idr α) (T : IdrLayer α) (id : Nat) (ptr : Option α) : Idr α :=
  { idp with top := some ((T.modifyAt id
      (fun p => { p.setSlot (idrDigit id 0) (.ofPtr ptr) with count := p.count + 1 })
      (idp.layers - 1) (idp.layers - 1)).markFull id (idp.layers - 1)).1 }

theorem idrGetNewAboveInt_some {fuel : Nat} {idp : Idr α} {ptr : Option α} {start : Nat}
    {res : Idr α × IdrAlloc} (h : idrGetNewAboveInt fuel idp ptr start = some res) :
    ∃ idp₁ r, idrGetEmptySlot fuel idp start = some (idp₁, r) ∧
      ((∃ id T, r = .found id ∧ idp₁.top = some T ∧ res = (idrFill idp₁ T id ptr, .found id)) ∨
        ((∀ id, r ≠ .found id) ∧ res = (idp₁, r))) := by
  unfold idrGetNewAboveInt at h
  rw [Option.bind_eq_some_iff] at h
  obtain ⟨⟨idp₁, r⟩, hs, h⟩ := h
  refine ⟨idp₁, r, hs, ?_⟩
  cases r with
  | found id =>
    cases hT : idp₁.top with
    | some T =>
      simp only [hT, Option.some.injEq] at h
      exact .inl ⟨id, T, rfl, rfl, h.symm⟩
    | none => simp [hT] at h
  | _ =>
    simp only [Option.some.injEq] at h
    exact .inr ⟨fun _ e => (by cases e), h.symm⟩

theorem idrGetNewAbove_ok {fuel : Nat} {idp idp' : Idr α} {ptr : Option α} {start id : Nat}
    (h : idrGetNewAbove fuel idp ptr start = some (idp', .ok id)) :
    ∃ idp₁ T, idrGetEmptySlot fuel idp start = some (idp₁, .found id) ∧ idp₁.top = some T ∧
      idp' = idrFill idp₁ T id ptr := by
  unfold idrGetNewAbove at h
  rw [Option.map_eq_some_iff] at h
  obtain ⟨res, h, e⟩ := h
  obtain ⟨idp₁, r, hs, ⟨id₁, T, rfl, hT, rfl⟩ | ⟨notFound, rfl⟩⟩ := idrGetNewAboveInt_some h
  · simp only [Prod.mk.injEq, Except.ok.injEq] at e
    obtain ⟨rfl, rfl⟩ := e
    exact ⟨idp₁, T, hs, hT, rfl⟩
  · -- a failed search is returned as an error
    cases r with
    | found id₁ => exact absurd rfl (notFound id₁)
    | _ => simp at e

theorem idrGetNewAbove_error {fuel : Nat} {idp idp' : Idr α} {ptr : Option α} {start : Nat}
    {err : Errno} (h : idrGetNewAbove fuel idp ptr start = some (idp', .error err)) :
    ∃ r, idrGetEmptySlot fuel idp start = some (idp', r) ∧ ∀ id, r ≠ .found id := by
  unfold idrGetNewAbove at h
  rw [Option.map_eq_some_iff] at h
  obtain ⟨res, h, e⟩ := h
  obtain ⟨idp₁, r, hs, ⟨id₁, T, rfl, hT, rfl⟩ | ⟨notFound, rfl⟩⟩ := idrGetNewAboveInt_some h
  · simp at e
  · cases r with
    | found id₁ => exact absurd rfl (notFound id₁)
    | _ =>
      simp only [Prod.mk.injEq] at e
      obtain ⟨rfl, -⟩ := e
      exact ⟨_, hs, notFound⟩

theorem agree_iff_eq {idp : Idr α} {j id : Nat} (pos : 0 < idp.layers) (hj : j < 2 ^ (6 * idp.layers))
    (hid : id < 2 ^ (6 * idp.layers)) : Agree j id 0 (idp.layers - 1) ↔ j = id := by
  have reach : idp.layers - 1 + 1 = idp.layers := by omega
  refine ⟨fun a => eq_of_agree (reach ▸ hj) (reach ▸ hid) a, fun e => ?_⟩
  subst e
  exact fun _ _ _ => rfl

theorem idrFill_spec {idp : Idr α} {T : IdrLayer α} {id : Nat} (ptr : Option α) (w : idp.Wf IdrLeaf)
    (hT : idp.top = some T) (leaf : ∃ p, T.leaf id (idp.layers - 1) = some p)
    (hid : id < 2 ^ (6 * idp.layers)) (clear : idp.bit id = false) :
    (idrFill idp T id ptr).Wf IdrLeaf ∧ ∀ j, (idrFill idp T id ptr).bit j = (idp.bit j || decide (j = id)) ∧
      (idrFill idp T id ptr).slot j = if j = id then .ofPtr ptr else idp.slot j := by
  obtain ⟨p, hp⟩ := leaf
  obtain ⟨pos, wT⟩ := w.top hT
  have bitp : p.bitmap.getLsbD (idrDigit id 0) = false := by
    have hb := (bit_eq_leafBit hT hid).symm.trans clear
    simpa [leafBit, hp] using hb
  have wOn : WfOn _ (IdrFilling (idrDigit id 0)) id _ _ := wT.modifyAt_leaf
    (f := fun p => { p.setSlot (idrDigit id 0) (.ofPtr ptr) with count := p.count + 1 }) fun q hq wq => by
      rw [hp] at hq
      cases hq
      exact ⟨wq.fill bitp ptr, rfl, rfl⟩
  have filled := leaf_modifyAt_leaf (f := fun p => { p.setSlot (idrDigit id 0) (.ofPtr ptr) with
    count := p.count + 1 }) hp (j := id) fun _ _ _ => rfl
  have look := lookup_modifyAt_leaf (f := fun p => { p.setSlot (idrDigit id 0) (.ofPtr ptr) with
    count := p.count + 1 }) hp rfl (fun n hn => setSlot_ary_of_ne _ _ hn)
  refine ⟨⟨w.layers_le, fun e => (by cases e), fun q hq => ?_⟩, fun j => ?_⟩
  · cases hq
    exact ⟨pos, (wOn.markFull fun q hq => hq.mark).1⟩
  · simp only [idrFill, Idr.bit, Idr.slot, leafBit_markFull j _ _ (by rw [filled]; rfl), slotAt_markFull,
      (look j).1, (look j).2, hT]
    by_cases hj : j < 2 ^ (6 * idp.layers)
    · simp only [hj, decide_true, Bool.true_and, agree_iff_eq pos hj hid]
      by_cases e : j = id
      · subst e
        simp
      · simp [e]
    · have ne : j ≠ id := fun e => hj (e ▸ hid)
      simp [hj, ne]

/-! ### `idr_remove` -/

/-- The tree after `sub_remove` of `id`: the top freed with its last id, or what is left of it. -/
def Idr.removePath (idp : Idr α) (id : Nat) : Idr α :=
  match idp.top with
  | none => idp
  | some top =>
    match top.subRemove id (idp.layers - 1) with
    | (none, _) => { idp with top := none, layers := 0 }
    | (some top, _) => { idp with top := some top }

/-- `idr_remove` dropping a top whose single child sits in slot 0. -/
def Idr.shrink (idp : Idr α) : Idr α :=
  match idp.top with
  | some top =>
    if top.count = 1 ∧ idp.layers > 1 then
      match top.ary 0 with
      | .layer p => { idp with top := some p, layers := idp.layers - 1 }
      | _ => idp
    else idp
  | none => idp

theorem idrRemove_eq (idp : Idr α) (id : Nat) :
    idrRemove idp id = { (idp.removePath (id &&& maxIdMask)).shrink with
      idFreeCnt := if (idp.removePath (id &&& maxIdMask)).shrink.idFreeCnt ≥ idrFreeMax then idrFreeMax - 1
        else (idp.removePath (id &&& maxIdMask)).shrink.idFreeCnt } := rfl

theorem lookup_of_removed {idp : Idr α} {T : IdrLayer α} {r : Option (IdrLayer α)} {id j : Nat}
    (pos : 0 < idp.layers) (hT : idp.top = some T) (hid : id < 2 ^ (6 * idp.layers))
    (look : leafBitOf r j (idp.layers - 1) =
        (T.leafBit j (idp.layers - 1) && !decide (Agree j id 0 (idp.layers - 1))) ∧
      slotAtOf r j (idp.layers - 1) = if Agree j id 0 (idp.layers - 1) then .null else T.slotAt j (idp.layers - 1)) :
    (decide (j < 2 ^ (6 * idp.layers)) && leafBitOf r j (idp.layers - 1)) = (idp.bit j && !decide (j = id)) ∧
      (if j < 2 ^ (6 * idp.layers) then slotAtOf r j (idp.layers - 1) else .null) =
        if j = id then .null else idp.slot j := by
  by_cases hj : j < 2 ^ (6 * idp.layers)
  · simp only [agree_iff_eq pos hj hid] at look
    rw [bit_eq_leafBit hT hj, look.1, look.2]
    by_cases e : j = id
    · simp [e]
    · simp [e, hj, Idr.slot, hT]
  · have ne : j ≠ id := fun e => hj (e ▸ hid)
    simp [hj, ne, Idr.bit, Idr.slot, hT]

theorem removePath_spec {idp : Idr α} (w : idp.Wf IdrLeaf) {id : Nat} (set : idp.bit id = true) :
    (idp.removePath id).Wf IdrLeaf ∧ ∀ j, (idp.removePath id).bit j = (idp.bit j && !decide (j = id)) ∧
      (idp.removePath id).slot j = if j = id then .null else idp.slot j := by
  obtain ⟨T, hT⟩ : ∃ T, idp.top = some T := by
    cases hT : idp.top with
    | none => simp [Idr.bit, hT] at set
    | some T => exact ⟨T, rfl⟩
  have hid : id < 2 ^ (6 * idp.layers) := by
    simp only [Idr.bit, hT, Bool.and_eq_true, decide_eq_true_eq] at set
    exact set.1
  obtain ⟨pos, wT⟩ := w.top hT
  have leafSet := (bit_eq_leafBit hT hid).symm.trans set
  obtain ⟨-, fresh, look⟩ := wT.wfOn.subRemove (fun q hq hc n => hq.null_of_count_eq_zero hc n)
    (fun q hq set => hq.clear set) leafSet
  unfold Idr.removePath
  rw [hT]
  dsimp only
  rcases hr : T.subRemove id (idp.layers - 1) with ⟨_ | top', found⟩
  · -- the last id went, and the top with it
    rw [hr] at look
    refine ⟨⟨Nat.zero_le _, fun _ => rfl, fun p e => (by cases e)⟩, fun j => ?_⟩
    have same := lookup_of_removed pos hT hid (look j)
    simp only [leafBitOf, slotAtOf, Option.elim, Bool.and_false, ite_self] at same
    simpa [Idr.bit, Idr.slot] using same
  · rw [hr] at fresh look
    refine ⟨⟨w.layers_le, fun e => (by cases e), fun q hq => ?_⟩, fun j => ?_⟩
    · cases hq
      exact ⟨pos, (fresh top' rfl).1⟩
    · exact lookup_of_removed pos hT hid (look j)

theorem keeps_shrinkTop {P : IdrLayer α → Prop} {idp : Idr α} (w : idp.Wf P) : Keeps P idp idp.shrink := by
  unfold Idr.shrink
  cases hT : idp.top with
  | none => exact Keeps.refl w
  | some T =>
    dsimp only
    split_ifs with h
    · split
      · rename_i q hq
        exact keeps_shrink w hT h.1 h.2 hq
      · exact Keeps.refl w
    · exact Keeps.refl w

theorem keeps_free {P : IdrLayer α → Prop} {idp : Idr α} (w : idp.Wf P) {c : Nat} (hc : c ≤ idp.idFreeCnt) :
    Keeps P idp { idp with idFreeCnt := c } :=
  ⟨⟨w.layers_le, w.top_none, w.top_some⟩, hc, fun _ => rfl, fun _ => rfl⟩

theorem lt_of_bit {P : IdrLayer α → Prop} {idp : Idr α} (w : idp.Wf P) {j : Nat} (h : idp.bit j = true) :
    j < 2 ^ (6 * (maxLevel - 1)) := by
  have reach : j < 2 ^ (6 * idp.layers) := by
    unfold Idr.bit at h
    split at h
    · simp only [Bool.and_eq_true, decide_eq_true_eq] at h
      exact h.1
    · cases h
  exact lt_of_lt_of_le reach (Nat.pow_le_pow_right (by norm_num) (Nat.mul_le_mul_left 6 w.layers_le))

theorem lt_maxIdBit {j : Nat} (h : j < 2 ^ (6 * (maxLevel - 1))) : j < maxIdBit :=
  lt_of_lt_of_le h (by decide)

theorem idrRemove_spec {idp : Idr α} (w : idp.Wf IdrLeaf) {id : Nat} (set : idp.bit id = true) :
    (idrRemove idp id).Wf IdrLeaf ∧ ∀ j, (idrRemove idp id).bit j = (idp.bit j && !decide (j = id)) ∧
      (idrRemove idp id).slot j = if j = id then .null else idp.slot j := by
  have mask : id &&& maxIdMask = id := and_maxIdMask (lt_maxIdBit (lt_of_bit w set))
  obtain ⟨w₁, look⟩ := removePath_spec w set
  have k₂ := keeps_shrinkTop w₁
  rw [idrRemove_eq, mask]
  have k := k₂.trans (keeps_free k₂.wf (c := if (idp.removePath id).shrink.idFreeCnt ≥ idrFreeMax then
    idrFreeMax - 1 else (idp.removePath id).shrink.idFreeCnt) (by split_ifs <;> omega))
  exact ⟨k.wf, fun j => ⟨(k.bit j).trans (look j).1, (k.slot j).trans (look j).2⟩⟩

/-! ### Every reachable `idr` -/

/-- The map an `idr` gives: an id whose bit is set is allocated, with the pointer its slot holds. -/
def Idr.entry (idp : Idr α) (j : Nat) : Option (Option α) :=
  if idp.bit j then some (idp.slot j).ptr else none

@[simp] theorem ptr_ofPtr (ptr : Option α) : (IdrSlot.ofPtr ptr).ptr = ptr := by
  cases ptr <;> rfl

/-- The `idr`s reachable from `idr_init` with the map of the ids handed out and not yet removed:
`idr_pre_get`, an `idr_get_new_above` that hands out an id below `2^30` or fails, and
`idr_remove` of an allocated id. -/
inductive IdrReachable : Idr α → (Nat → Option (Option α)) → Prop
  | init : IdrReachable idrInit fun _ => none
  | preGet {idp : Idr α} {A : Nat → Option (Option α)} (avail : Nat) :
      IdrReachable idp A → IdrReachable (idrPreGet idp avail).1 A
  | getNewAbove {idp idp' : Idr α} {A : Nat → Option (Option α)} {fuel : Nat} {ptr : Option α}
      {start id : Nat} : IdrReachable idp A → idrGetNewAbove fuel idp ptr start = some (idp', .ok id) →
      id < 2 ^ (6 * (maxLevel - 1)) → IdrReachable idp' (Function.update A id (some ptr))
  | getNewAboveFails {idp idp' : Idr α} {A : Nat → Option (Option α)} {fuel : Nat} {ptr : Option α}
      {start : Nat} {err : Errno} : IdrReachable idp A →
      idrGetNewAbove fuel idp ptr start = some (idp', .error err) → IdrReachable idp' A
  | remove {idp : Idr α} {A : Nat → Option (Option α)} {id : Nat} :
      IdrReachable idp A → A id ≠ none → IdrReachable (idrRemove idp id) (Function.update A id none)

theorem ptr_slot_of_bit {idp : Idr α} (w : idp.Wf IdrLeaf) {j : Nat} (hb : idp.bit j = false) :
    (idp.slot j).ptr = none := by
  unfold Idr.slot
  cases hT : idp.top with
  | none => rfl
  | some T =>
    dsimp only
    split_ifs with hj
    · have wT := (w.top hT).2
      rw [bit_eq_leafBit hT hj] at hb
      unfold leafBit at hb
      unfold slotAt
      cases hl : T.leaf j (idp.layers - 1) with
      | none => rfl
      | some q =>
        simp only [hl] at hb ⊢
        have leaf := (wT.leaf_wf hl).2
        cases e : q.ary (idrDigit j 0) with
        | null => rfl
        | item a =>
          rw [leaf.item _ a e] at hb
          cases hb
        | layer q' => exact absurd e (leaf.no_layer _ q')
    · rfl

section Steps

variable {idp idp' : Idr α} {A : Nat → Option (Option α)}

theorem entry_of_keeps {P : IdrLayer α → Prop} (k : Keeps P idp idp') (j : Nat) : idp'.entry j = idp.entry j := by
  simp only [Idr.entry, k.bit, k.slot]

theorem idrPreGet_keeps (w : idp.Wf IdrLeaf) (avail : Nat) :
    (idrPreGet idp avail).1.Wf IdrLeaf ∧ ∀ j, (idrPreGet idp avail).1.entry j = idp.entry j := by
  unfold idrPreGet
  split_ifs <;> exact ⟨⟨w.layers_le, w.top_none, w.top_some⟩, fun _ => rfl⟩

theorem getNewAbove_step (w : idp.Wf IdrLeaf) (hA : ∀ j, idp.entry j = A j) {fuel : Nat} {ptr : Option α}
    {start id : Nat} (h : idrGetNewAbove fuel idp ptr start = some (idp', .ok id))
    (hid : id < 2 ^ (6 * (maxLevel - 1))) :
    idp'.Wf IdrLeaf ∧ ∀ j, idp'.entry j = Function.update A id (some ptr) j := by
  obtain ⟨idp₁, T, hs, hT, rfl⟩ := idrGetNewAbove_ok h
  obtain ⟨k, -, leaf, first⟩ := idrGetEmptySlot_spec IdrLeaf.empty
    (fun q hq hc n => hq.null_of_count_eq_zero hc n) start w le_rfl
    (fun _ _ h₁ h₂ => absurd h₂ (not_lt.mpr h₁)) hs
  obtain ⟨lt, -, clear⟩ := first hid
  obtain ⟨top, p, hT', hp⟩ := leaf
  rw [hT] at hT'
  cases hT'
  obtain ⟨w', look⟩ := idrFill_spec ptr k.wf hT ⟨p, hp⟩ lt clear
  refine ⟨w', fun j => ?_⟩
  rw [Idr.entry, (look j).1, (look j).2]
  by_cases e : j = id
  · subst e
    simp
  · rw [Function.update_of_ne e, ← hA j, ← entry_of_keeps k j]
    simp [e, Idr.entry]

theorem getNewAboveFails_step (w : idp.Wf IdrLeaf) {fuel : Nat} {ptr : Option α} {start : Nat} {err : Errno}
    (h : idrGetNewAbove fuel idp ptr start = some (idp', .error err)) :
    idp'.Wf IdrLeaf ∧ ∀ j, idp'.entry j = idp.entry j := by
  obtain ⟨r, hs, -⟩ := idrGetNewAbove_error h
  obtain ⟨k, -⟩ := idrGetEmptySlot_spec IdrLeaf.empty (fun q hq hc n => hq.null_of_count_eq_zero hc n)
    start w le_rfl (fun _ _ h₁ h₂ => absurd h₂ (not_lt.mpr h₁)) hs
  exact ⟨k.wf, entry_of_keeps k⟩

theorem remove_step (w : idp.Wf IdrLeaf) (hA : ∀ j, idp.entry j = A j) {id : Nat} (allocated : A id ≠ none) :
    (idrRemove idp id).Wf IdrLeaf ∧ ∀ j, (idrRemove idp id).entry j = Function.update A id none j := by
  have set : idp.bit id = true := by
    rw [← hA id, Idr.entry] at allocated
    by_contra clear
    simp [clear] at allocated
  obtain ⟨w', look⟩ := idrRemove_spec w set
  refine ⟨w', fun j => ?_⟩
  rw [Idr.entry, (look j).1, (look j).2]
  by_cases e : j = id
  · subst e
    simp
  · rw [Function.update_of_ne e, ← hA j]
    simp [e, Idr.entry]

end Steps

/-- Every reachable `idr` keeps the layered invariant, its bits and slots give the map of the ids
handed out, `idr_find` reads that map, and `idr_remove` of an allocated id frees exactly that id. -/
theorem idr_reachable_invariant {idp : Idr α} {A : Nat → Option (Option α)} (h : IdrReachable idp A) :
    idp.Wf IdrLeaf ∧ (∀ j, idp.entry j = A j) ∧ (∀ j, j < maxIdBit → idrFind idp j = some (A j).join) ∧
      ∀ id, A id ≠ none → ∀ j, (idrRemove idp id).entry j = Function.update A id none j := by
  have inv : idp.Wf IdrLeaf ∧ ∀ j, idp.entry j = A j := by
    induction h with
    | init => exact ⟨⟨Nat.zero_le _, fun _ => rfl, fun _ e => (by cases e)⟩, fun _ => rfl⟩
    | preGet avail _ ih =>
      obtain ⟨w, look⟩ := idrPreGet_keeps ih.1 avail
      exact ⟨w, fun j => (look j).trans (ih.2 j)⟩
    | getNewAbove _ hs hid ih => exact getNewAbove_step ih.1 ih.2 hs hid
    | getNewAboveFails _ hs ih =>
      obtain ⟨w, look⟩ := getNewAboveFails_step ih.1 hs
      exact ⟨w, fun j => (look j).trans (ih.2 j)⟩
    | remove _ allocated ih => exact remove_step ih.1 ih.2 allocated
  obtain ⟨w, hA⟩ := inv
  refine ⟨w, hA, fun j hj => ?_, fun id allocated => (remove_step w hA allocated).2⟩
  rw [idrFind_eq w hj, ← hA j, Idr.entry]
  by_cases b : idp.bit j
  · simp [b]
  · simp [b, ptr_slot_of_bit w (Bool.eq_false_iff.mpr b)]

/-- After `idr_pre_get` and an `idr_get_new_above` from 5 that hands out 5 for the pointer 7:
`idr_find` reads 7 at 5 and nothing at 6. -/
theorem idr_reachable_invariant_one_id :
    ∃ idp : Idr Nat, idrGetNewAbove 20 (idrPreGet (idrInit : Idr Nat) idrFreeMax).1 (some 7) 5 =
        some (idp, .ok 5) ∧
      idp.Wf IdrLeaf ∧ idrFind idp 5 = some (some 7) ∧ idrFind idp 6 = some none := by
  obtain ⟨idp, got⟩ : ∃ idp : Idr Nat,
      idrGetNewAbove 20 (idrPreGet (idrInit : Idr Nat) idrFreeMax).1 (some 7) 5 = some (idp, .ok 5) :=
    ⟨_, rfl⟩
  have reach : IdrReachable idp (Function.update (fun _ => none) 5 (some (some 7))) :=
    .getNewAbove (.preGet idrFreeMax .init) got (by decide)
  obtain ⟨wf, -, find, -⟩ := idr_reachable_invariant reach
  refine ⟨idp, got, wf, ?_, ?_⟩
  · rw [find 5 (by decide)]
    simp
  · rw [find 6 (by decide)]
    simp

/-- Without the bound on the ids handed out, the map breaks: from `2^30` on an id is handed out
whose bit is never set, while the bit of id 0, which was never handed out, is. -/
theorem idrGetNewAbove_sets_unallocated_bit :
    ((idrGetNewAbove 20 (idrPreGet (idrInit : Idr Nat) idrFreeMax).1 (some 7) (2 ^ 30)).map fun r =>
      (r.2, r.1.bit 0, r.1.bit (2 ^ 30))) = some (.ok (2 ^ 30), true, false) := by
  decide

end LinuxKernel
