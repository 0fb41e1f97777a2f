import LinuxKernel.Lib.Idr
import LinuxKernel.Foundation.Digits

/-!
# The idr tree and its invariant

A layer counts its used slots and has a slot's bit set exactly when the layer below is full.
`modifyAt`, `markFull` and `subRemove` change the path of one id; `WfOn` is the invariant with
another policy on one leaf, between a change and the walk up that repairs it.
-/

namespace LinuxKernel

open Bitmap

variable {α : Type}

theorem idrDigit_val (id l : Nat) : (idrDigit id l).val = Digits.digit 6 id l :=
  Digits.shiftRight_and_eq_digit id l

theorem idrDigit_eq_iff {i j l : Nat} : idrDigit i l = idrDigit j l ↔ Digits.digit 6 i l = Digits.digit 6 j l := by
  rw [Fin.ext_iff, idrDigit_val, idrDigit_val]

/-- `i` and `j` take the same slots at the levels from `lo` to `hi`. -/
def Agree (i j lo hi : Nat) : Prop := ∀ l, lo ≤ l → l ≤ hi → idrDigit i l = idrDigit j l

instance (i j lo hi : Nat) : Decidable (Agree i j lo hi) :=
  decidable_of_iff (∀ l, l ≤ hi → lo ≤ l → idrDigit i l = idrDigit j l)
    ⟨fun h l h₁ h₂ => h l h₂ h₁, fun h l h₂ h₁ => h l h₁ h₂⟩

theorem Agree.symm {i j lo hi : Nat} (h : Agree i j lo hi) : Agree j i lo hi :=
  fun l h₁ h₂ => (h l h₁ h₂).symm

theorem agree_succ {i j lo h : Nat} (hlo : lo ≤ h + 1) :
    Agree i j lo (h + 1) ↔ idrDigit i (h + 1) = idrDigit j (h + 1) ∧ Agree i j lo h := by
  constructor
  · intro a
    exact ⟨a (h + 1) hlo le_rfl, fun l h₁ h₂ => a l h₁ (by omega)⟩
  · rintro ⟨top, a⟩ l h₁ h₂
    rcases Nat.lt_or_eq_of_le h₂ with lt | rfl
    exacts [a l h₁ (by omega), top]

theorem agree_zero {i j : Nat} : Agree i j 0 0 ↔ idrDigit i 0 = idrDigit j 0 :=
  ⟨fun a => a 0 le_rfl le_rfl, fun e l _ h₂ => by rw [Nat.le_zero.mp h₂]; exact e⟩

theorem agree_of_lt {i j lo hi : Nat} (h : hi < lo) : Agree i j lo hi :=
  fun _ h₁ h₂ => absurd (lt_of_lt_of_le h h₁) (by omega)

theorem agree_of_div_eq {i j lo : Nat} (h : i / 2 ^ (6 * lo) = j / 2 ^ (6 * lo)) (hi : Nat) :
    Agree i j lo hi :=
  fun _ h₁ _ => idrDigit_eq_iff.mpr (Digits.digit_eq_of_div_eq h h₁)

theorem eq_of_agree {i j h : Nat} (hi : i < 2 ^ (6 * (h + 1))) (hj : j < 2 ^ (6 * (h + 1)))
    (a : Agree i j 0 h) : i = j :=
  Digits.eq_of_digits hi hj fun l hl => idrDigit_eq_iff.mp (a l (Nat.zero_le _) (by omega))

namespace IdrSlot

/-- Whether the slot is `NULL`. -/
def isNull : IdrSlot α → Bool
  | .null => true
  | _ => false

def ptr : IdrSlot α → Option α
  | .item a => some a
  | _ => none

end IdrSlot

namespace IdrLayer

@[simp] theorem setSlot_ary_self (p : IdrLayer α) (n : Fin 64) (s : IdrSlot α) :
    (p.setSlot n s).ary n = s := by
  simp [setSlot]

@[simp] theorem setSlot_ary_of_ne (p : IdrLayer α) {n m : Fin 64} (s : IdrSlot α) (h : m ≠ n) :
    (p.setSlot n s).ary m = p.ary m := by
  simp [setSlot, h]

@[simp] theorem setSlot_bitmap (p : IdrLayer α) (n : Fin 64) (s : IdrSlot α) :
    (p.setSlot n s).bitmap = p.bitmap := rfl

@[simp] theorem setSlot_count (p : IdrLayer α) (n : Fin 64) (s : IdrSlot α) :
    (p.setSlot n s).count = p.count := rfl

@[simp] theorem setSlot_layer (p : IdrLayer α) (n : Fin 64) (s : IdrSlot α) :
    (p.setSlot n s).layer = p.layer := rfl

/-! ### Counting used slots -/

def used (p : IdrLayer α) : Nat := Bitmap.count fun n => !(p.ary n).isNull

theorem used_setSlot_of_isNull (p : IdrLayer α) (n : Fin 64) (s : IdrSlot α)
    (h : (p.ary n).isNull = s.isNull) : (p.setSlot n s).used = p.used := by
  unfold used
  congr 1
  funext m
  by_cases hm : m = n
  · subst hm
    simp [h]
  · simp [hm]

theorem used_setSlot_fill (p : IdrLayer α) (n : Fin 64) (s : IdrSlot α) (hp : (p.ary n).isNull = true)
    (hs : s.isNull = false) : (p.setSlot n s).used = p.used + 1 := by
  unfold used
  exact count_of_set (n := n) (by simp [hp]) (by simp [hs]) fun m hm => by simp [hm]

theorem used_setSlot_null (p : IdrLayer α) (n : Fin 64) (hp : (p.ary n).isNull = false) :
    (p.setSlot n .null).used + 1 = p.used := by
  unfold used
  exact (count_of_set (n := n) (by simp [IdrSlot.isNull]) (by simp [hp]) fun m hm => by simp [hm]).symm

theorem eq_null_of_used_eq_zero {p : IdrLayer α} (h : p.used = 0) (n : Fin 64) : p.ary n = .null := by
  have := count_eq_zero.mp (show Bitmap.count _ = 0 from h) n
  revert this
  cases p.ary n <;> simp [IdrSlot.isNull]

/-! ### The invariant -/

/-- A slot of a layer above the leaves with its bit: `NULL` with the bit clear, or a layer that
keeps `W`, with the bit set exactly when that layer's bitmap is full. -/
def SlotWf (W : IdrLayer α → Prop) : IdrSlot α → Bool → Prop
  | .null, b => b = false
  | .item _, _ => False
  | .layer q, b => W q ∧ (b = true ↔ q.bitmap = idrFull)

/-- A layer at level `h + 1` whose child in slot `n` keeps `W n`. -/
structure Interior (W : Fin 64 → IdrLayer α → Prop) (h : Nat) (p : IdrLayer α) : Prop where
  layer : p.layer = h + 1
  count : p.count = p.used
  slot : ∀ n, SlotWf (W n) (p.ary n) (p.bitmap.getLsbD n)

/-- The invariant of a layer at level `h`, with the policy `P` on its leaves. -/
def Wf (P : IdrLayer α → Prop) : Nat → IdrLayer α → Prop
  | 0, p => p.layer = 0 ∧ P p
  | h + 1, p => Interior (fun _ q => Wf P h q) h p

/-- `Wf`, with `Q` in place of `P` on the leaf of `id`. -/
def WfOn (P Q : IdrLayer α → Prop) (id : Nat) : Nat → IdrLayer α → Prop
  | 0, p => p.layer = 0 ∧ Q p
  | h + 1, p => Interior (fun n q => if n = idrDigit id (h + 1) then WfOn P Q id h q else Wf P h q) h p

variable {P Q : IdrLayer α → Prop} {id h : Nat} {p : IdrLayer α}

theorem SlotWf.mono {W W' : IdrLayer α → Prop} {s : IdrSlot α} {b : Bool}
    (hW : ∀ q, s = .layer q → W q → W' q) (hs : SlotWf W s b) : SlotWf W' s b := by
  cases s with
  | null => exact hs
  | item => exact hs.elim
  | layer q => exact ⟨hW q rfl hs.1, hs.2⟩

theorem Interior.mono {W W' : Fin 64 → IdrLayer α → Prop}
    (hW : ∀ n q, p.ary n = .layer q → W n q → W' n q) (hp : Interior W h p) : Interior W' h p :=
  ⟨hp.layer, hp.count, fun n => (hp.slot n).mono fun q hq => hW n q hq⟩

theorem SlotWf.bit_eq_false {W : IdrLayer α → Prop} {s : IdrSlot α} {b : Bool}
    (hs : SlotWf W s b) (h : ∀ q, s ≠ .layer q) : b = false := by
  cases s with
  | null => exact hs
  | item => exact hs.elim
  | layer q => exact absurd rfl (h q)

theorem Wf.layer_eq : ∀ {h : Nat} {p : IdrLayer α}, Wf P h p → p.layer = h
  | 0, _, w => w.1
  | _ + 1, _, w => Interior.layer w

theorem Wf.wfOn : ∀ {h : Nat} {p : IdrLayer α}, Wf P h p → WfOn P P id h p
  | 0, _, w => w
  | _ + 1, _, w => Interior.mono (fun n _ _ hq => by split <;> first | exact hq.wfOn | exact hq) w

theorem WfOn.wf_of_not_layer {p : IdrLayer α} (w : WfOn P Q id (h + 1) p)
    (hn : ∀ q, p.ary (idrDigit id (h + 1)) ≠ .layer q) : Wf P (h + 1) p :=
  Interior.mono (fun n q hq hW => by
    by_cases e : n = idrDigit id (h + 1)
    · subst e
      exact absurd hq (hn q)
    · simpa [e] using hW) w

theorem Interior.replace {W W' : Fin 64 → IdrLayer α → Prop} {d : Fin 64} {s : IdrSlot α}
    {B : BitVec 64} {c : Nat} (hp : Interior W h p)
    (others : ∀ n, n ≠ d → ∀ q, p.ary n = .layer q → W n q → W' n q)
    (bits : ∀ n : Fin 64, n ≠ d → B.getLsbD n = p.bitmap.getLsbD n)
    (slot : SlotWf (W' d) s (B.getLsbD d)) (count : c = (p.setSlot d s).used) :
    Interior W' h { p.setSlot d s with bitmap := B, count := c } := by
  refine ⟨hp.layer, count, fun n => ?_⟩
  show SlotWf (W' n) ((p.setSlot d s).ary n) (B.getLsbD n)
  by_cases hn : n = d
  · subst hn
    rw [setSlot_ary_self]
    exact slot
  · rw [setSlot_ary_of_ne _ _ hn, bits n hn]
    exact (hp.slot n).mono fun q hq => others n hn q hq

theorem bitmap_ne_full {b : BitVec 64} {n : Fin 64} (h : b.getLsbD n = false) : b ≠ idrFull := fun full => by
  rw [(eq_allOnes_iff b).mp full n n.isLt] at h
  cases h

theorem full_of_mono {a b : BitVec 64} (mono : ∀ n : Fin 64, a.getLsbD n = true → b.getLsbD n = true)
    (full : a = idrFull) : b = idrFull :=
  (eq_allOnes_iff b).mpr fun m hm => mono ⟨m, hm⟩ ((eq_allOnes_iff a).mp full m hm)

/-! ### The leaf of an id -/

/-- The leaf of `id` below `p` at level `h`: where a walk down from `p` leaves `pa[0]`. -/
def leaf (id h : Nat) (p : IdrLayer α) : Option (IdrLayer α) := p.descend id h h

/-- The bit of `id` in its leaf; clear if it has none. -/
def leafBit (id h : Nat) (p : IdrLayer α) : Bool :=
  match p.leaf id h with
  | some q => q.bitmap.getLsbD (idrDigit id 0)
  | none => false

/-- The slot of `id` in its leaf; `NULL` if it has none. -/
def slotAt (id h : Nat) (p : IdrLayer α) : IdrSlot α :=
  match p.leaf id h with
  | some q => q.ary (idrDigit id 0)
  | none => .null

@[simp] theorem descend_zero (j H : Nat) (T : IdrLayer α) : T.descend j H 0 = some T := rfl

theorem descend_succ (j H k : Nat) (T : IdrLayer α) :
    T.descend j H (k + 1) =
      match T.ary (idrDigit j H) with
      | .layer q => q.descend j (H - 1) k
      | _ => none := rfl

@[simp] theorem leaf_zero (j : Nat) (T : IdrLayer α) : T.leaf j 0 = some T := rfl

theorem leaf_succ (j h : Nat) (T : IdrLayer α) :
    T.leaf j (h + 1) =
      match T.ary (idrDigit j (h + 1)) with
      | .layer q => q.leaf j h
      | _ => none := rfl

theorem leafBit_of_leaf_child {p q : IdrLayer α} {j h : Nat} (hp : p.ary (idrDigit j (h + 1)) = .layer q) :
    p.leafBit j (h + 1) = q.leafBit j h := by
  simp only [leafBit, leaf_succ, hp]

theorem slotAt_of_leaf_child {p q : IdrLayer α} {j h : Nat} (hp : p.ary (idrDigit j (h + 1)) = .layer q) :
    p.slotAt j (h + 1) = q.slotAt j h := by
  simp only [slotAt, leaf_succ, hp]

theorem descend_add (j k k' : Nat) : ∀ (H : Nat) (T : IdrLayer α),
    T.descend j H (k + k') = (T.descend j H k).bind fun p => p.descend j (H - k) k' := by
  induction k with
  | zero => intro H T; simp
  | succ k ih =>
    intro H T
    rw [Nat.add_right_comm, descend_succ, descend_succ]
    cases T.ary (idrDigit j H) <;> simp [ih, Nat.sub_sub, Nat.add_comm 1 k]

theorem descend_congr {i j : Nat} : ∀ {H k : Nat} {T : IdrLayer α}, k ≤ H → Agree i j (H + 1 - k) H →
    T.descend i H k = T.descend j H k
  | _, 0, _, _, _ => rfl
  | H, k + 1, T, hk, a => by
    have top : idrDigit i H = idrDigit j H := a H (by omega) le_rfl
    rw [descend_succ, descend_succ, top]
    cases T.ary (idrDigit j H) with
    | layer q => exact descend_congr (by omega) fun l h₁ h₂ => a l (by omega) (by omega)
    | _ => rfl

theorem leaf_eq_bind {j H k : Nat} (hk : k ≤ H) (T : IdrLayer α) :
    T.leaf j H = (T.descend j H k).bind fun p => p.leaf j (H - k) := by
  unfold leaf
  rw [← descend_add, Nat.add_sub_cancel' hk]

theorem leafBit_of_descend {j H k : Nat} {T : IdrLayer α} (hk : k ≤ H) (hd : T.descend j H k = some p) :
    T.leafBit j H = p.leafBit j (H - k) := by
  simp only [leafBit, leaf_eq_bind hk T, hd, Option.bind_some]

theorem leafBit_congr {i j h : Nat} (a : Agree i j 0 h) (p : IdrLayer α) : p.leafBit i h = p.leafBit j h := by
  have path : p.leaf i h = p.leaf j h := descend_congr le_rfl fun l h₁ h₂ => a l (by omega) h₂
  simp only [leafBit, path, a 0 le_rfl (Nat.zero_le h)]

theorem Wf.descend {H k : Nat} {T : IdrLayer α} (w : Wf P H T) (hk : k ≤ H) (hd : T.descend id H k = some p) :
    Wf P (H - k) p := by
  induction k generalizing H T with
  | zero =>
    cases hd
    exact w
  | succ k ih =>
    obtain ⟨H, rfl⟩ : ∃ H', H = H' + 1 := ⟨H - 1, by omega⟩
    rw [descend_succ] at hd
    have slot := Interior.slot w (idrDigit id (H + 1))
    revert hd slot
    cases T.ary (idrDigit id (H + 1)) with
    | layer q =>
      intro hd slot
      simpa [Nat.add_sub_add_right] using ih slot.1 (by omega) hd
    | _ => intro hd; cases hd

theorem Wf.leaf_wf {H : Nat} {T : IdrLayer α} (w : Wf P H T) (hl : T.leaf id H = some p) :
    p.layer = 0 ∧ P p := by
  have leaf := w.descend le_rfl hl
  rw [Nat.sub_self] at leaf
  exact leaf

/-! ### Empty layers -/

theorem Wf.empty (hP : P (empty 0)) : ∀ h, Wf P h (empty h : IdrLayer α)
  | 0 => ⟨rfl, hP⟩
  | _ + 1 => ⟨rfl, (count_eq_zero.mpr fun _ => rfl).symm, fun _ => by simp [IdrLayer.empty, SlotWf]⟩

theorem leafBit_empty (j : Nat) : ∀ h, (empty h : IdrLayer α).leafBit j h = false
  | 0 => by simp [leafBit, IdrLayer.empty]
  | _ + 1 => by simp [leafBit, leaf_succ, IdrLayer.empty]

theorem slotAt_empty (j : Nat) : ∀ h, (empty h : IdrLayer α).slotAt j h = .null
  | 0 => rfl
  | _ + 1 => by simp [slotAt, leaf_succ, IdrLayer.empty]

/-! ### Full subtrees -/

theorem idrDigit_zero_of_lt {m : Nat} (hm : m < 64) : idrDigit m 0 = ⟨m, hm⟩ :=
  Fin.ext (by rw [idrDigit_val, Digits.digit, Nat.mul_zero, Nat.pow_zero, Nat.div_one]; exact Nat.mod_eq_of_lt hm)

theorem Wf.bitmap_eq_full_iff : ∀ {h : Nat} {q : IdrLayer α}, Wf P h q →
    (q.bitmap = idrFull ↔ ∀ j, q.leafBit j h = true)
  | 0, q, _ => by
    unfold idrFull
    rw [eq_allOnes_iff]
    constructor
    · intro all j
      exact all _ (idrDigit j 0).isLt
    · intro all m hm
      have := all m
      rwa [leafBit, leaf_zero, idrDigit_zero_of_lt hm] at this
  | h + 1, q, w => by
    unfold idrFull
    rw [eq_allOnes_iff]
    constructor
    · intro all j
      have slot := Interior.slot w (idrDigit j (h + 1))
      have bit := all _ (idrDigit j (h + 1)).isLt
      revert slot
      cases hc : q.ary (idrDigit j (h + 1)) with
      | null =>
        intro slot
        rw [show q.bitmap.getLsbD (idrDigit j (h + 1)) = false from slot] at bit
        cases bit
      | item => intro slot; exact slot.elim
      | layer c =>
        intro slot
        rw [leafBit_of_leaf_child hc]
        exact (Wf.bitmap_eq_full_iff slot.1).mp (slot.2.mp bit) j
    · intro all m hm
      obtain ⟨j₀, hj₀, -⟩ := Digits.exists_digit (k := 6) 0 (h + 1) m hm
      have digit₀ : idrDigit j₀ (h + 1) = ⟨m, hm⟩ := Fin.ext (by rw [idrDigit_val, hj₀])
      have slot := Interior.slot w ⟨m, hm⟩
      have b₀ := all j₀
      unfold leafBit at b₀
      rw [leaf_succ, digit₀] at b₀
      revert slot b₀
      cases hc : q.ary ⟨m, hm⟩ with
      | layer c =>
        intro slot _
        refine slot.2.mpr ((Wf.bitmap_eq_full_iff slot.1).mpr fun j => ?_)
        -- the id with `j`'s slots below `h + 1` and `m` at `h + 1` reaches `j`'s bit in `c`
        obtain ⟨j', hj', low⟩ := Digits.exists_digit (k := 6) j (h + 1) m hm
        have dj' : idrDigit j' (h + 1) = ⟨m, hm⟩ := Fin.ext (by rw [idrDigit_val, hj'])
        have a : Agree j' j 0 h := fun l _ hl => idrDigit_eq_iff.mpr (low l (by omega))
        rw [← leafBit_congr a, ← leafBit_of_leaf_child (dj' ▸ hc)]
        exact all j'
      | _ => intro _ b₀; simp at b₀

theorem Wf.leafBit_of_bit {j : Nat} : ∀ {h : Nat} {p : IdrLayer α}, Wf P h p →
    p.bitmap.getLsbD (idrDigit j h) = true → p.leafBit j h = true
  | 0, _, _, bit => bit
  | h + 1, p, w, bit => by
    have slot := Interior.slot w (idrDigit j (h + 1))
    revert slot
    cases hc : p.ary (idrDigit j (h + 1)) with
    | null =>
      intro slot
      rw [show p.bitmap.getLsbD (idrDigit j (h + 1)) = false from slot] at bit
      cases bit
    | item => intro slot; exact slot.elim
    | layer c =>
      intro slot
      rw [leafBit_of_leaf_child hc]
      exact (slot.1.bitmap_eq_full_iff).mp (slot.2.mp bit) j

/-! ### Changing one layer of a path -/

@[simp] theorem modifyAt_zero (f : IdrLayer α → IdrLayer α) (H : Nat) (T : IdrLayer α) :
    T.modifyAt id f H 0 = f T := rfl

theorem modifyAt_succ (f : IdrLayer α → IdrLayer α) (H k : Nat) (T : IdrLayer α) :
    T.modifyAt id f H (k + 1) =
      match T.ary (idrDigit id H) with
      | .layer q => T.setSlot (idrDigit id H) (.layer (q.modifyAt id f (H - 1) k))
      | _ => T := rfl

variable {f : IdrLayer α → IdrLayer α}

theorem descend_modifyAt_self : ∀ (H k : Nat) (T : IdrLayer α),
    (T.modifyAt id f H k).descend id H k = (T.descend id H k).map f
  | _, 0, _ => rfl
  | H, k + 1, T => by
    rw [modifyAt_succ, descend_succ]
    cases hT : T.ary (idrDigit id H) with
    | layer q => simp [descend_succ, hT, descend_modifyAt_self]
    | _ => simp [descend_succ, hT]

theorem leaf_modifyAt_of_not_agree {j : Nat} : ∀ {H k : Nat} {T : IdrLayer α}, k ≤ H →
    ¬Agree j id (H + 1 - k) H → (T.modifyAt id f H k).leaf j H = T.leaf j H
  | H, 0, _, _, na => absurd (agree_of_lt (by omega)) na
  | H, k + 1, T, hk, na => by
    obtain ⟨H, rfl⟩ : ∃ H', H = H' + 1 := ⟨H - 1, by omega⟩
    rw [modifyAt_succ]
    cases hT : T.ary (idrDigit id (H + 1)) with
    | layer q =>
      simp only [Nat.add_sub_cancel]
      rw [leaf_succ, leaf_succ]
      by_cases same : idrDigit j (H + 1) = idrDigit id (H + 1)
      · have na' : ¬Agree j id (H + 1 - k) H := fun a =>
          na ((agree_succ (by omega)).mpr ⟨same, by simpa [Nat.add_sub_add_right] using a⟩)
        rw [same, setSlot_ary_self, hT]
        exact leaf_modifyAt_of_not_agree (by omega) na'
      · rw [setSlot_ary_of_ne _ _ same]
    | _ => rfl

theorem leaf_modifyAt_of_agree {j H k : Nat} {T : IdrLayer α} (hk : k ≤ H) (a : Agree j id (H + 1 - k) H) :
    (T.modifyAt id f H k).leaf j H = (T.descend id H k).bind fun p => (f p).leaf j (H - k) := by
  rw [leaf_eq_bind hk, descend_congr hk a, descend_modifyAt_self, Option.bind_map]
  rfl

theorem bitmap_modifyAt {H k : Nat} {T : IdrLayer α}
    (hf : ∀ p, T.descend id H k = some p → (f p).bitmap = p.bitmap) :
    (T.modifyAt id f H k).bitmap = T.bitmap := by
  cases k with
  | zero => exact hf T rfl
  | succ k =>
    rw [modifyAt_succ]
    cases T.ary (idrDigit id H) <;> rfl

theorem Wf.modifyAt : ∀ {H k : Nat} {T : IdrLayer α}, Wf P H T → k ≤ H →
    (∀ p, T.descend id H k = some p → (f p).bitmap = p.bitmap ∧ Wf P (H - k) (f p)) →
    Wf P H (T.modifyAt id f H k)
  | _, 0, T, _, _, hf => (hf T rfl).2
  | H, k + 1, T, w, hk, hf => by
    obtain ⟨H, rfl⟩ : ∃ H', H = H' + 1 := ⟨H - 1, by omega⟩
    rw [modifyAt_succ]
    have slot := Interior.slot w (idrDigit id (H + 1))
    cases hT : T.ary (idrDigit id (H + 1)) with
    | layer q =>
      rw [hT] at slot
      dsimp only
      have hf' : ∀ p, q.descend id H k = some p → (f p).bitmap = p.bitmap ∧ Wf P (H - k) (f p) :=
        fun p hp => by simpa [Nat.add_sub_add_right] using hf p (by rw [descend_succ, hT]; exact hp)
      have keep := bitmap_modifyAt (fun p hp => (hf' p hp).1)
      refine ⟨by rw [setSlot_layer]; exact Interior.layer w, ?_, fun n => ?_⟩
      · rw [setSlot_count, Interior.count w, used_setSlot_of_isNull _ _ _ (by simp [hT, IdrSlot.isNull])]
      · by_cases hn : n = idrDigit id (H + 1)
        · subst hn
          simp only [setSlot_ary_self, setSlot_bitmap, Nat.add_sub_cancel]
          exact ⟨Wf.modifyAt slot.1 (by omega) hf', keep ▸ slot.2⟩
        · simpa [hn] using Interior.slot w n
    | _ => exact w

theorem lookup_modifyAt {H k : Nat} {T : IdrLayer α} (hk : k ≤ H)
    (hf : ∀ p, T.descend id H k = some p → ∀ j, (f p).leafBit j (H - k) = p.leafBit j (H - k) ∧
      (f p).slotAt j (H - k) = p.slotAt j (H - k)) (j : Nat) :
    (T.modifyAt id f H k).leafBit j H = T.leafBit j H ∧ (T.modifyAt id f H k).slotAt j H = T.slotAt j H := by
  by_cases a : Agree j id (H + 1 - k) H
  · have path := leaf_modifyAt_of_agree (f := f) (T := T) hk a
    unfold leafBit slotAt
    rw [path, leaf_eq_bind hk T, descend_congr hk a]
    cases hd : T.descend id H k with
    | none => exact ⟨rfl, rfl⟩
    | some p =>
      obtain ⟨hb, hs⟩ := hf p hd j
      exact ⟨hb, hs⟩
  · have path := leaf_modifyAt_of_not_agree (f := f) (T := T) hk a
    unfold leafBit slotAt
    rw [path]
    exact ⟨rfl, rfl⟩

theorem Wf.modifyAt_leaf : ∀ {H : Nat} {T : IdrLayer α}, Wf P H T →
    (∀ p, T.leaf id H = some p → P p → Q (f p) ∧ (f p).layer = p.layer ∧ (f p).bitmap = p.bitmap) →
    WfOn P Q id H (T.modifyAt id f H H)
  | 0, T, w, hf => by
    obtain ⟨hq, hl, -⟩ := hf T rfl w.2
    exact ⟨hl.trans w.1, hq⟩
  | H + 1, T, w, hf => by
    rw [modifyAt_succ]
    have slot := Interior.slot w (idrDigit id (H + 1))
    cases hT : T.ary (idrDigit id (H + 1)) with
    | layer q =>
      rw [hT] at slot
      dsimp only
      have hf' : ∀ p, q.leaf id H = some p → P p → Q (f p) ∧ (f p).layer = p.layer ∧ (f p).bitmap = p.bitmap :=
        fun p hp => hf p (by rw [leaf_succ, hT]; exact hp)
      have keep : (q.modifyAt id f H H).bitmap = q.bitmap :=
        bitmap_modifyAt fun p hp => (hf' p hp (slot.1.leaf_wf hp).2).2.2
      refine Interior.replace (B := T.bitmap) w (fun n hn q _ hq => by simpa [hn] using hq) (fun _ _ => rfl)
        ⟨by simpa using Wf.modifyAt_leaf slot.1 hf', keep ▸ slot.2⟩
        (by rw [Interior.count w, used_setSlot_of_isNull _ _ _ (by simp [hT, IdrSlot.isNull])])
    | _ =>
      exact Interior.mono (fun n q hq hW => by
        by_cases hn : n = idrDigit id (H + 1)
        · subst hn
          rw [hT] at hq
          cases hq
        · simpa [hn] using hW) w

theorem leaf_modifyAt_leaf {H : Nat} {T p : IdrLayer α} (hp : T.leaf id H = some p) {j : Nat}
    (a : Agree j id 1 H) : (T.modifyAt id f H H).leaf j H = some (f p) := by
  have a' : Agree j id (H + 1 - H) H := by
    rw [Nat.add_sub_cancel_left]
    exact a
  rw [leaf_modifyAt_of_agree le_rfl a', Nat.sub_self]
  unfold leaf at hp
  rw [hp]
  rfl

theorem lookup_modifyAt_leaf {H : Nat} {T p : IdrLayer α} (hp : T.leaf id H = some p)
    (keep : (f p).bitmap = p.bitmap) (same : ∀ n, n ≠ idrDigit id 0 → (f p).ary n = p.ary n) (j : Nat) :
    (T.modifyAt id f H H).leafBit j H = T.leafBit j H ∧
      (T.modifyAt id f H H).slotAt j H = if Agree j id 0 H then (f p).ary (idrDigit id 0) else T.slotAt j H := by
  by_cases a : Agree j id 1 H
  · have old : T.leaf j H = some p :=
      (descend_congr le_rfl (by rw [Nat.add_sub_cancel_left]; exact a)).trans hp
    simp only [leafBit, slotAt, leaf_modifyAt_leaf hp a, old, keep, true_and]
    by_cases d : idrDigit j 0 = idrDigit id 0
    · have a₀ : Agree j id 0 H := fun l _ h₂ => by
        rcases Nat.eq_zero_or_pos l with rfl | pos
        · exact d
        · exact a l pos h₂
      rw [if_pos a₀, d]
    · rw [if_neg fun a₀ => d (a₀ 0 le_rfl (Nat.zero_le _)), same _ d]
  · have path := leaf_modifyAt_of_not_agree (f := f) (T := T) le_rfl
      (by rw [Nat.add_sub_cancel_left]; exact a)
    unfold leafBit slotAt
    rw [path, if_neg fun a₀ => a fun l _ h₂ => a₀ l (Nat.zero_le _) h₂]
    exact ⟨rfl, rfl⟩

/-! ### Marking a path full -/

theorem markFull_zero (p : IdrLayer α) :
    p.markFull id 0 = ({ p with bitmap := setBit p.bitmap (idrDigit id 0) },
      decide (setBit p.bitmap (idrDigit id 0) = idrFull)) := rfl

theorem markFull_ary (h : Nat) (p : IdrLayer α) :
    (p.markFull id (h + 1)).1.ary =
      match p.ary (idrDigit id (h + 1)) with
      | .layer q => (p.setSlot (idrDigit id (h + 1)) (.layer (q.markFull id h).1)).ary
      | _ => p.ary := by
  simp only [IdrLayer.markFull]
  cases p.ary (idrDigit id (h + 1)) with
  | layer q =>
    dsimp only
    split <;> rfl
  | _ => rfl

theorem leaf_of_ary_eq {p p' : IdrLayer α} (h : p.ary = p'.ary) (j k : Nat) :
    p.leaf j (k + 1) = p'.leaf j (k + 1) := by
  rw [leaf_succ, leaf_succ, h]

theorem leaf_setSlot_layer (p : IdrLayer α) (d : Fin 64) (q' : IdrLayer α) (j h : Nat) :
    (p.setSlot d (.layer q')).leaf j (h + 1) = if idrDigit j (h + 1) = d then q'.leaf j h else p.leaf j (h + 1) := by
  rw [leaf_succ, leaf_succ]
  by_cases hj : idrDigit j (h + 1) = d
  · rw [if_pos hj, hj, setSlot_ary_self]
  · rw [if_neg hj, setSlot_ary_of_ne _ _ hj]

/-- `idr_mark_full` from a tree in `WfOn` whose leaf of `id` keeps `P` once its bit is set:
the tree keeps `Wf`, no bit is cleared, and the flag says the top came out full. -/
theorem WfOn.markFull (hQ : ∀ q, Q q → P { q with bitmap := setBit q.bitmap (idrDigit id 0) }) :
    ∀ {h : Nat} {p : IdrLayer α}, WfOn P Q id h p →
      Wf P h (p.markFull id h).1 ∧ ((p.markFull id h).2 = true ↔ (p.markFull id h).1.bitmap = idrFull) ∧
        ∀ n : Fin 64, p.bitmap.getLsbD n = true → (p.markFull id h).1.bitmap.getLsbD n = true
  | 0, p, w => by
    rw [markFull_zero]
    exact ⟨⟨w.1, hQ p w.2⟩, by simp, fun n hn => by simp [hn]⟩
  | h + 1, p, w => by
    have slot := Interior.slot w (idrDigit id (h + 1))
    simp only [IdrLayer.markFull]
    cases hp : p.ary (idrDigit id (h + 1)) with
    | layer q =>
      rw [hp] at slot
      have wq : WfOn P Q id h q := by simpa using slot.1
      obtain ⟨wr, flag, mono⟩ := WfOn.markFull hQ wq
      have others : ∀ n, n ≠ idrDigit id (h + 1) → ∀ q, p.ary n = .layer q →
          (if n = idrDigit id (h + 1) then WfOn P Q id h q else Wf P h q) → Wf P h q :=
        fun n hn _ _ hW => by simpa [hn] using hW
      have count : p.count = (p.setSlot (idrDigit id (h + 1)) (.layer (q.markFull id h).1)).used := by
        rw [Interior.count w, used_setSlot_of_isNull _ _ _ (by simp [hp, IdrSlot.isNull])]
      dsimp only
      split
      · rename_i full
        refine ⟨Interior.replace w others (fun n hn => ?_) ⟨wr, ?_⟩ count, decide_eq_true_iff, fun n hn => ?_⟩
        · rw [setSlot_bitmap, getLsbD_setBit]
          simp [Fin.val_ne_of_ne (Ne.symm hn)]
        · simpa using flag.mp full
        · simp [hn]
      · rename_i notFull
        have clear : p.bitmap.getLsbD (idrDigit id (h + 1)) = false := by
          cases hb : p.bitmap.getLsbD (idrDigit id (h + 1))
          · rfl
          · exact absurd (flag.mpr (full_of_mono mono (slot.2.mp hb))) notFull
        refine ⟨Interior.replace (B := p.bitmap) w others (fun _ _ => rfl) ⟨wr, ?_⟩ count, ?_, fun n hn => hn⟩
        · rw [clear]
          exact ⟨fun h => absurd h (by decide), fun h => absurd (flag.mpr h) notFull⟩
        · simpa using bitmap_ne_full clear
    | _ =>
      have clear := SlotWf.bit_eq_false slot (by simp [hp])
      exact ⟨w.wf_of_not_layer (by simp [hp]), by simpa using bitmap_ne_full clear, fun n hn => hn⟩

theorem leaf_markFull_succ (j h : Nat) (p : IdrLayer α) :
    (p.markFull id (h + 1)).1.leaf j (h + 1) =
      match p.ary (idrDigit id (h + 1)) with
      | .layer q =>
        if idrDigit j (h + 1) = idrDigit id (h + 1) then (q.markFull id h).1.leaf j h else p.leaf j (h + 1)
      | _ => p.leaf j (h + 1) := by
  cases hp : p.ary (idrDigit id (h + 1)) with
  | layer q =>
    have ary : (p.markFull id (h + 1)).1.ary =
        (p.setSlot (idrDigit id (h + 1)) (.layer (q.markFull id h).1)).ary := by
      rw [markFull_ary, hp]
    rw [leaf_of_ary_eq ary, leaf_setSlot_layer]
  | _ =>
    have ary : (p.markFull id (h + 1)).1.ary = p.ary := by rw [markFull_ary, hp]
    rw [leaf_of_ary_eq ary]

theorem slotAt_markFull (j : Nat) : ∀ (h : Nat) (p : IdrLayer α),
    (p.markFull id h).1.slotAt j h = p.slotAt j h
  | 0, p => rfl
  | h + 1, p => by
    unfold slotAt
    rw [leaf_markFull_succ]
    cases hp : p.ary (idrDigit id (h + 1)) with
    | layer q =>
      dsimp only
      by_cases hj : idrDigit j (h + 1) = idrDigit id (h + 1)
      · have := slotAt_markFull j h q
        unfold slotAt at this
        rw [if_pos hj, this, leaf_succ, hj, hp]
      · rw [if_neg hj]
    | _ => rfl

theorem leafBit_markFull (j : Nat) : ∀ (h : Nat) (p : IdrLayer α), (p.leaf id h).isSome →
    (p.markFull id h).1.leafBit j h = (p.leafBit j h || decide (Agree j id 0 h))
  | 0, p, _ => by
    simp only [leafBit, leaf_zero, markFull_zero, getLsbD_setBit]
    simp [Agree, eq_comm, Fin.ext_iff, (idrDigit id 0).isLt]
  | h + 1, p, hl => by
    unfold leafBit
    rw [leaf_markFull_succ]
    rw [leaf_succ] at hl
    cases hp : p.ary (idrDigit id (h + 1)) with
    | layer q =>
      rw [hp] at hl
      dsimp only
      by_cases hj : idrDigit j (h + 1) = idrDigit id (h + 1)
      · have := leafBit_markFull j h q hl
        unfold leafBit at this
        rw [if_pos hj, this, leaf_succ, hj, hp]
        simp [agree_succ (Nat.zero_le _), hj]
      · rw [if_neg hj]
        simp [agree_succ (Nat.zero_le _), hj]
    | _ => rw [hp] at hl; cases hl

/-! ### Removing an id -/

theorem leafBit_succ_of_ary_eq {p p' : IdrLayer α} (h : p.ary = p'.ary) (j k : Nat) :
    p.leafBit j (k + 1) = p'.leafBit j (k + 1) := by
  simp only [leafBit, leaf_of_ary_eq h]

theorem slotAt_succ_of_ary_eq {p p' : IdrLayer α} (h : p.ary = p'.ary) (j k : Nat) :
    p.slotAt j (k + 1) = p'.slotAt j (k + 1) := by
  simp only [slotAt, leaf_of_ary_eq h]

theorem leafBit_setSlot_layer (p : IdrLayer α) (d : Fin 64) (q' : IdrLayer α) (j h : Nat) :
    (p.setSlot d (.layer q')).leafBit j (h + 1) = if idrDigit j (h + 1) = d then q'.leafBit j h else p.leafBit j (h + 1) := by
  unfold leafBit
  rw [leaf_setSlot_layer]
  split_ifs <;> rfl

theorem slotAt_setSlot_layer (p : IdrLayer α) (d : Fin 64) (q' : IdrLayer α) (j h : Nat) :
    (p.setSlot d (.layer q')).slotAt j (h + 1) = if idrDigit j (h + 1) = d then q'.slotAt j h else p.slotAt j (h + 1) := by
  unfold slotAt
  rw [leaf_setSlot_layer]
  split_ifs <;> rfl

theorem leaf_setSlot_null (p : IdrLayer α) (d : Fin 64) (j h : Nat) :
    (p.setSlot d .null).leaf j (h + 1) = if idrDigit j (h + 1) = d then none else p.leaf j (h + 1) := by
  rw [leaf_succ, leaf_succ]
  by_cases hj : idrDigit j (h + 1) = d
  · rw [if_pos hj, hj, setSlot_ary_self]
  · rw [if_neg hj, setSlot_ary_of_ne _ _ hj]

theorem leafBit_setSlot_null (p : IdrLayer α) (d : Fin 64) (j h : Nat) :
    (p.setSlot d .null).leafBit j (h + 1) = if idrDigit j (h + 1) = d then false else p.leafBit j (h + 1) := by
  unfold leafBit
  rw [leaf_setSlot_null]
  split_ifs <;> rfl

theorem slotAt_setSlot_null (p : IdrLayer α) (d : Fin 64) (j h : Nat) :
    (p.setSlot d .null).slotAt j (h + 1) = if idrDigit j (h + 1) = d then .null else p.slotAt j (h + 1) := by
  unfold slotAt
  rw [leaf_setSlot_null]
  split_ifs <;> rfl

section Remove

-- the policy of the leaves holds nothing in a leaf whose count is zero
variable (hP : ∀ q : IdrLayer α, P q → q.count = 0 → ∀ n : Fin 64, q.ary n = .null ∧ q.bitmap.getLsbD n = false)

include hP in
theorem Wf.lookup_of_count_eq_zero : ∀ {h : Nat} {p : IdrLayer α}, Wf P h p → p.count = 0 →
    ∀ j, p.leafBit j h = false ∧ p.slotAt j h = .null
  | 0, p, w, hc, j => by
    obtain ⟨ary, bit⟩ := hP p w.2 hc (idrDigit j 0)
    exact ⟨bit, ary⟩
  | h + 1, p, w, hc, j => by
    have null := eq_null_of_used_eq_zero ((Interior.count w).symm.trans hc) (idrDigit j (h + 1))
    simp [leafBit, slotAt, leaf_succ, null]

include hP in
theorem Wf.null_of_count_eq_zero : ∀ {h : Nat} {p : IdrLayer α}, Wf P h p → p.count = 0 →
    ∀ n : Fin 64, p.ary n = .null ∧ p.bitmap.getLsbD n = false
  | 0, p, w, hc, n => hP p w.2 hc n
  | _ + 1, p, w, hc, n => by
    have null := eq_null_of_used_eq_zero ((Interior.count w).symm.trans hc) n
    have slot := Interior.slot w n
    rw [null] at slot
    exact ⟨null, slot⟩

/-- What is left of a subtree after a removal: a layer, or nothing once the count reached zero. -/
def leafBitOf (r : Option (IdrLayer α)) (j h : Nat) : Bool := r.elim false fun p => p.leafBit j h

/-- The slot of an id in what is left of a subtree. -/
def slotAtOf (r : Option (IdrLayer α)) (j h : Nat) : IdrSlot α := r.elim .null fun p => p.slotAt j h

include hP in
theorem lookup_freeIfEmpty {h : Nat} {p : IdrLayer α} (w : Wf P h p) (j : Nat) :
    leafBitOf (if p.count = 0 then none else some p) j h = p.leafBit j h ∧
      slotAtOf (if p.count = 0 then none else some p) j h = p.slotAt j h := by
  by_cases hc : p.count = 0
  · obtain ⟨bit, slot⟩ := w.lookup_of_count_eq_zero hP hc j
    simp [hc, leafBitOf, slotAtOf, bit, slot]
  · simp [hc, leafBitOf, slotAtOf]

/-- What `sub_remove` of `id` leaves: the tree keeps `Wf` and is not full, and every id other
than `id` keeps its bit and slot. -/
def Removed (P : IdrLayer α → Prop) (id h : Nat) (p : IdrLayer α) (r : Option (IdrLayer α)) : Prop :=
  (∀ p', r = some p' → Wf P h p' ∧ p'.bitmap ≠ idrFull) ∧
  ∀ j, leafBitOf r j h = (p.leafBit j h && !decide (Agree j id 0 h)) ∧
    slotAtOf r j h = if Agree j id 0 h then .null else p.slotAt j h

include hP in
theorem removed_freeIfEmpty {h : Nat} {p p' : IdrLayer α} (w : Wf P h p') (full : p'.bitmap ≠ idrFull)
    (bit : ∀ j, p'.leafBit j h = (p.leafBit j h && !decide (Agree j id 0 h)))
    (slot : ∀ j, p'.slotAt j h = if Agree j id 0 h then .null else p.slotAt j h) :
    Removed P id h p (if p'.count = 0 then none else some p') := by
  refine ⟨fun p'' hp'' => ?_, fun j => ?_⟩
  · split at hp''
    · cases hp''
    · cases hp''
      exact ⟨w, full⟩
  · obtain ⟨hb, hs⟩ := lookup_freeIfEmpty hP w j
    exact ⟨hb.trans (bit j), hs.trans (slot j)⟩

theorem subRemove_zero (p : IdrLayer α) (set : p.bitmap.getLsbD (idrDigit id 0) = true) :
    p.subRemove id 0 =
      (let p' : IdrLayer α := { p.setSlot (idrDigit id 0) .null with
          bitmap := clearBit p.bitmap (idrDigit id 0), count := p.count - 1 }
        if p'.count = 0 then none else some p', true) := by
  simp [IdrLayer.subRemove, set]

include hP in
theorem WfOn.removed_zero (hQ : ∀ q : IdrLayer α, Q q → q.bitmap.getLsbD (idrDigit id 0) = true →
      P { q.setSlot (idrDigit id 0) .null with
        bitmap := clearBit q.bitmap (idrDigit id 0), count := q.count - 1 })
    {p : IdrLayer α} (w : WfOn P Q id 0 p) (set : p.bitmap.getLsbD (idrDigit id 0) = true) :
    (p.subRemove id 0).2 = true ∧ Removed P id 0 p (p.subRemove id 0).1 := by
  rw [subRemove_zero p set]
  refine ⟨rfl, removed_freeIfEmpty hP ⟨w.1, hQ p w.2 set⟩ (bitmap_ne_full (getLsbD_clearBit_self _ _))
    (fun j => ?_) (fun j => ?_)⟩
  · simp only [leafBit, leaf_zero, getLsbD_clearBit, agree_zero]
    simp [Fin.ext_iff, eq_comm]
  · simp only [slotAt, leaf_zero, agree_zero]
    by_cases hj : idrDigit j 0 = idrDigit id 0
    · simp [hj]
    · simp [hj]

theorem subRemove_succ {p q : IdrLayer α} (hq : p.ary (idrDigit id (h + 1)) = .layer q) :
    p.subRemove id (h + 1) =
      let p₁ : IdrLayer α := { p with bitmap := clearBit p.bitmap (idrDigit id (h + 1)) }
      match q.subRemove id h with
      | (some q', found) => (some (p₁.setSlot (idrDigit id (h + 1)) (.layer q')), found)
      | (none, found) =>
        let p₂ : IdrLayer α := { p₁.setSlot (idrDigit id (h + 1)) .null with count := p₁.count - 1 }
        (if p₂.count = 0 then none else some p₂, found) := by
  rw [IdrLayer.subRemove]
  -- the slot on the path is the layer `q`; the other arms of the match contradict `hq`
  split
  next q' slot =>
    rw [hq] at slot
    cases slot
    rfl
  all_goals simp_all

include hP in
/-- `sub_remove` of an id whose bit is set, in a tree in `WfOn` whose leaf of `id` keeps `P` once
the id's slot and bit are cleared: the id is found, and what is left is `Removed`. -/
theorem WfOn.subRemove (hQ : ∀ q : IdrLayer α, Q q → q.bitmap.getLsbD (idrDigit id 0) = true →
      P { q.setSlot (idrDigit id 0) .null with
        bitmap := clearBit q.bitmap (idrDigit id 0), count := q.count - 1 }) :
    ∀ {h : Nat} {p : IdrLayer α}, WfOn P Q id h p → p.leafBit id h = true →
      (p.subRemove id h).2 = true ∧ Removed P id h p (p.subRemove id h).1
  | 0, p, w, set => w.removed_zero hP hQ set
  | h + 1, p, w, set => by
    have slot := Interior.slot w (idrDigit id (h + 1))
    obtain ⟨q, hq⟩ : ∃ q, p.ary (idrDigit id (h + 1)) = .layer q := by
      unfold leafBit at set
      rw [leaf_succ] at set
      revert set
      cases p.ary (idrDigit id (h + 1)) with
      | layer q => exact fun _ => ⟨q, rfl⟩
      | _ => simp
    rw [hq] at slot
    have wq : WfOn P Q id h q := by simpa using slot.1
    have setq : q.leafBit id h = true := (leafBit_of_leaf_child hq).symm.trans set
    obtain ⟨found, gone, lookups⟩ := WfOn.subRemove hQ wq setq
    have others : ∀ n, n ≠ idrDigit id (h + 1) → ∀ q, p.ary n = .layer q →
        (if n = idrDigit id (h + 1) then WfOn P Q id h q else Wf P h q) → Wf P h q :=
      fun n hn _ _ hW => by simpa [hn] using hW
    have bits : ∀ n : Fin 64, n ≠ idrDigit id (h + 1) →
        (clearBit p.bitmap (idrDigit id (h + 1))).getLsbD n = p.bitmap.getLsbD n := fun n hn => by
      rw [getLsbD_clearBit]
      simp [Fin.val_ne_of_ne (Ne.symm hn)]
    have cleared := getLsbD_clearBit_self p.bitmap (idrDigit id (h + 1))
    -- the levels above `h` agree exactly when the slot at `h + 1` does
    have agree : ∀ j, idrDigit j (h + 1) = idrDigit id (h + 1) → (Agree j id 0 (h + 1) ↔ Agree j id 0 h) :=
      fun j hj => by rw [agree_succ (Nat.zero_le _)]; simp [hj]
    have apart : ∀ j, idrDigit j (h + 1) ≠ idrDigit id (h + 1) → ¬Agree j id 0 (h + 1) :=
      fun j hj a => hj ((agree_succ (Nat.zero_le _)).mp a).1
    rw [subRemove_succ hq]
    cases hr : q.subRemove id h with
    | mk r found' =>
      rw [hr] at found gone lookups
      cases r with
      | some q' =>
        obtain ⟨wq', full'⟩ := gone q' rfl
        refine ⟨found, fun p' hp' => ?_, fun j => ?_⟩
        · cases hp'
          exact ⟨Interior.replace (p := p) (B := clearBit p.bitmap (idrDigit id (h + 1))) (c := p.count) w others bits
            ⟨wq', by rw [cleared]; exact ⟨fun h => absurd h (by decide), fun h => absurd h full'⟩⟩
            (by rw [Interior.count w, used_setSlot_of_isNull _ _ _ (by simp [hq, IdrSlot.isNull])]),
            bitmap_ne_full cleared⟩
        · have ary : ({ p with bitmap := clearBit p.bitmap (idrDigit id (h + 1)) }.setSlot
              (idrDigit id (h + 1)) (.layer q')).ary = (p.setSlot (idrDigit id (h + 1)) (.layer q')).ary := rfl
          obtain ⟨lb, ls⟩ := lookups j
          simp only [leafBitOf, slotAtOf, Option.elim] at lb ls ⊢
          rw [leafBit_succ_of_ary_eq ary, slotAt_succ_of_ary_eq ary, leafBit_setSlot_layer, slotAt_setSlot_layer]
          by_cases hj : idrDigit j (h + 1) = idrDigit id (h + 1)
          · rw [if_pos hj, if_pos hj, lb, ls, leafBit_of_leaf_child (hj ▸ hq), slotAt_of_leaf_child (hj ▸ hq)]
            simp [agree j hj]
          · rw [if_neg hj, if_neg hj]
            simp [apart j hj]
      | none =>
        have count : p.count - 1 = (p.setSlot (idrDigit id (h + 1)) .null).used := by
          have := used_setSlot_null p (idrDigit id (h + 1)) (by simp [hq, IdrSlot.isNull])
          rw [Interior.count w]
          omega
        have ary : ({ p with bitmap := clearBit p.bitmap (idrDigit id (h + 1)) }.setSlot
            (idrDigit id (h + 1)) .null).ary = (p.setSlot (idrDigit id (h + 1)) .null).ary := rfl
        refine ⟨found, removed_freeIfEmpty hP
          (Interior.replace (p := p) (B := clearBit p.bitmap (idrDigit id (h + 1))) w others bits cleared count)
          (bitmap_ne_full cleared) (fun j => ?_) (fun j => ?_)⟩
        · obtain ⟨lb, -⟩ := lookups j
          simp only [leafBitOf, Option.elim] at lb
          show ({ p with bitmap := clearBit p.bitmap (idrDigit id (h + 1)) }.setSlot
            (idrDigit id (h + 1)) .null).leafBit j (h + 1) = _
          rw [leafBit_succ_of_ary_eq ary, leafBit_setSlot_null]
          by_cases hj : idrDigit j (h + 1) = idrDigit id (h + 1)
          · rw [if_pos hj, leafBit_of_leaf_child (hj ▸ hq), lb]
            simp only [agree j hj]
          · rw [if_neg hj]
            simp [apart j hj]
        · obtain ⟨-, ls⟩ := lookups j
          simp only [slotAtOf, Option.elim] at ls
          show ({ p with bitmap := clearBit p.bitmap (idrDigit id (h + 1)) }.setSlot
            (idrDigit id (h + 1)) .null).slotAt j (h + 1) = _
          rw [slotAt_succ_of_ary_eq ary, slotAt_setSlot_null]
          by_cases hj : idrDigit j (h + 1) = idrDigit id (h + 1)
          · rw [if_pos hj, slotAt_of_leaf_child (hj ▸ hq), ls]
            simp only [agree j hj]
            split_ifs <;> rfl
          · rw [if_neg hj]
            simp [apart j hj]

end Remove

end IdrLayer

end LinuxKernel
