import Mathlib

/-!
# Writes guarded by an end

A cursor into a buffer stores an element only below the end and moves on past it:
`if (p < end) *p = c; ++p;`. A formatter made of such writes stores, in a bounded buffer,
the first elements of what it stores in an unbounded one, and its cursor ends at the same
place: both are `putList` of one list, with another bound. `putList_mem` says what memory
holds after it; the padding loops over 16-bit counters are `putList` of a `replicate`.
-/

namespace GuardedWrite

/-- A buffer, indexed from its first element, and the write position, which may run past
its end. -/
structure Cursor (α : Type) where
  mem : Nat → α
  pos : Nat

variable {α : Type}

/-- Position `p` lies below the end; `none` is a buffer with no end. -/
def below (p : Nat) : Option Nat → Bool
  | none => true
  | some e => decide (p < e)

namespace Cursor

/-- `if (p < end) *p = c; ++p;` -/
def put (bound : Option Nat) (c : α) (w : Cursor α) : Cursor α where
  mem := if below w.pos bound then Function.update w.mem w.pos c else w.mem
  pos := w.pos + 1

def putList (bound : Option Nat) : List α → Cursor α → Cursor α
  | [], w => w
  | c :: cs, w => putList bound cs (w.put bound c)

/-- The elements of `l` stored from position `p` on. -/
def writeBlock (mem : Nat → α) (p : Nat) (l : List α) : Nat → α :=
  fun i => if h : p ≤ i ∧ i < p + l.length then l.get ⟨i - p, by omega⟩ else mem i

/-- `if (p < end) memcpy(p, src, min(n, end - p)); p += n;` -/
def copy (bound : Option Nat) (src : List α) (w : Cursor α) : Cursor α :=
  let n :=
    match bound with
    | none => src.length
    | some e => if w.pos < e then min src.length (e - w.pos) else 0
  { mem := writeBlock w.mem w.pos (src.take n), pos := w.pos + src.length }

@[ext] theorem ext {w w' : Cursor α} (hm : w.mem = w'.mem) (hp : w.pos = w'.pos) : w = w' := by
  cases w; cases w'; simp_all

@[simp] theorem putList_nil (bound : Option Nat) (w : Cursor α) : w.putList bound [] = w := rfl

@[simp] theorem putList_cons (bound : Option Nat) (c : α) (cs : List α) (w : Cursor α) :
    w.putList bound (c :: cs) = (w.put bound c).putList bound cs := rfl

theorem putList_append (bound : Option Nat) (l₁ l₂ : List α) (w : Cursor α) :
    w.putList bound (l₁ ++ l₂) = (w.putList bound l₁).putList bound l₂ := by
  induction l₁ generalizing w with
  | nil => rfl
  | cons c cs ih => exact ih _

@[simp] theorem putList_pos (bound : Option Nat) (l : List α) (w : Cursor α) :
    (w.putList bound l).pos = w.pos + l.length := by
  induction l generalizing w with
  | nil => rfl
  | cons c cs ih => simp [ih, put]; omega

theorem putList_mem (bound : Option Nat) (l : List α) (w : Cursor α) (i : Nat) :
    (w.putList bound l).mem i =
      if h : w.pos ≤ i ∧ i < w.pos + l.length ∧ below i bound = true then
        l.get ⟨i - w.pos, by omega⟩
      else w.mem i := by
  induction l generalizing w with
  | nil =>
    rw [dif_neg (fun h => by simp at h; omega)]
    rfl
  | cons c cs ih =>
    rw [putList_cons, ih]
    have hpos : (w.put bound c).pos = w.pos + 1 := rfl
    simp only [hpos]
    by_cases hi : i = w.pos
    · -- the head lands at the start position, if that is below the end
      subst hi
      rw [dif_neg (by omega)]
      by_cases hb : below w.pos bound = true
      · rw [dif_pos ⟨le_refl _, by simp, hb⟩]
        simp [put, hb]
      · rw [dif_neg (fun h => hb h.2.2)]
        simp [put, hb]
    · have hmem : (w.put bound c).mem i = w.mem i := by
        simp only [put]
        split <;> simp [Function.update_of_ne hi]
      by_cases h : w.pos + 1 ≤ i ∧ i < w.pos + 1 + cs.length ∧ below i bound = true
      · rw [dif_pos h, dif_pos ⟨by omega, by simp; omega, h.2.2⟩]
        simp only [List.get_eq_getElem, List.getElem_cons]
        rw [dif_neg (by omega)]
        simp [Nat.sub_sub]
      · rw [dif_neg h, dif_neg (fun ⟨h1, h2, h3⟩ => h ⟨by omega, by simp at h2; omega, h3⟩), hmem]

theorem copy_eq_putList (bound : Option Nat) (src : List α) (w : Cursor α) :
    w.copy bound src = w.putList bound src := by
  ext i
  · rw [putList_mem]
    simp only [copy, writeBlock, List.length_take]
    cases bound with
    | none => simp [below]
    | some e =>
      simp only [below, decide_eq_true_eq]
      split
      · rename_i hlt
        by_cases h : w.pos ≤ i ∧ i < w.pos + src.length ∧ i < e
        · rw [dif_pos h, dif_pos (by omega)]
          simp
        · rw [dif_neg h, dif_neg (by omega)]
      · rw [dif_neg (by omega), dif_neg (by omega)]
  · simp [copy]

/-! ### Guarded runs -/

@[simp] theorem putList_singleton (bound : Option Nat) (c : α) (w : Cursor α) :
    w.putList bound [c] = w.put bound c := rfl

theorem ite_put (p : Prop) [Decidable p] (bound : Option Nat) (c : α) (w : Cursor α) :
    (if p then w.put bound c else w) = w.putList bound (if p then [c] else []) := by
  split <;> rfl

theorem map_range_putList_none (l : List α) (mem : Nat → α) :
    (List.range l.length).map ((⟨mem, 0⟩ : Cursor α).putList none l).mem = l := by
  apply List.ext_get (by simp)
  intro i h1 h2
  simp only [List.get_eq_getElem, List.getElem_map, List.getElem_range]
  rw [putList_mem, dif_pos (by simp only [List.length_map, List.length_range] at h1; simp [below]; omega)]
  simp

theorem putList_some_mem (e : Nat) (l : List α) (mem : Nat → α) (i : Nat) :
    ((⟨mem, 0⟩ : Cursor α).putList (some e) l).mem i =
      if h : i < l.length ∧ i < e then l.get ⟨i, h.1⟩ else mem i := by
  rw [putList_mem]
  by_cases h : i < l.length ∧ i < e
  · rw [dif_pos ⟨Nat.zero_le i, by omega, by simp [below]; omega⟩, dif_pos h]
    simp
  · rw [dif_neg (fun ⟨_, h2, h3⟩ => h ⟨by simpa using h2, by simpa [below] using h3⟩), dif_neg h]

/-! ### Padding loops over a signed 16-bit counter -/

theorem toInt_sub_one {w : Int16} (h : -2 ^ 15 < w.toInt) : (w - 1).toInt = w.toInt - 1 := by
  have := w.toInt_lt
  rw [Int16.toInt_sub]
  simp only [Int16.toInt_one]
  rw [Int.bmod_eq_of_le] <;> simp <;> omega

theorem sub_one_eq_ofInt (v : Int16) : v - 1 = Int16.ofInt (v.toInt - 1) := by
  apply Int16.toInt_inj.mp
  rw [Int16.toInt_sub, Int16.toInt_ofInt, Int16.toInt_one]

/-- `while (--w >= lo) { if (p < end) *p = c; ++p; }` for `lo ≥ 0`, with the counter it
leaves. The counter never wraps: the loop stops at `lo - 1`. -/
def preDecPad (buf : Cursor α) (lo : Nat) (bound : Option Nat) (c : α) (w : Int16) :
    Int16 × Cursor α :=
  if (lo : Int) ≤ (w - 1).toInt then (buf.put bound c).preDecPad lo bound c (w - 1)
  else (w - 1, buf)
termination_by ((w - 1).toInt - lo + 1).toNat
decreasing_by
  have h := toInt_sub_one (w := w - 1) (by omega)
  omega

/-- `while (lo < w--) { if (p < end) *p = c; ++p; }`. Below `-2^15` the test never fails,
since `w` wraps at the bottom: the loop does not end, and the result is `none`. -/
def postDecPad (buf : Cursor α) (lo : Int) (bound : Option Nat) (c : α) (w : Int16) :
    Option (Int16 × Cursor α) :=
  if lo < -2 ^ 15 then none
  else if lo < w.toInt then (buf.put bound c).postDecPad lo bound c (w - 1)
  else some (w - 1, buf)
termination_by (w.toInt - lo).toNat
decreasing_by
  have h := toInt_sub_one (w := w) (by omega)
  omega

/-- The rounds of `while (--w >= lo)`: once for each of `w - 1, ..., lo`. -/
def preDecRounds (lo : Nat) (w : Int16) : Nat := ((w - 1).toInt - lo + 1).toNat

/-- The counter `while (--w >= lo)` leaves. -/
def preDecFinal (lo : Nat) (w : Int16) : Int16 :=
  if (lo : Int) ≤ (w - 1).toInt then Int16.ofInt (lo - 1) else w - 1

theorem preDecPad_eq (buf : Cursor α) (lo : Nat) (bound : Option Nat) (c : α) (w : Int16) :
    buf.preDecPad lo bound c w =
      (preDecFinal lo w, buf.putList bound (List.replicate (preDecRounds lo w) c)) := by
  fun_induction buf.preDecPad lo bound c w with
  | case1 buf w h ih =>
    rw [ih]
    have hw : (w - 1 - 1).toInt = (w - 1).toInt - 1 := toInt_sub_one (by omega)
    -- the first round writes `c` and leaves one round fewer
    have hrounds : preDecRounds lo w = preDecRounds lo (w - 1) + 1 := by
      unfold preDecRounds; omega
    rw [hrounds, List.replicate_succ, putList_cons]
    congr 1
    unfold preDecFinal
    by_cases h' : (lo : Int) ≤ (w - 1 - 1).toInt
    · rw [if_pos h', if_pos h]
    · -- the last round: the counter steps from `lo` to `lo - 1`
      have hlo : (w - 1).toInt = lo := by omega
      rw [if_neg h', if_pos h, sub_one_eq_ofInt (w - 1), hlo]
  | case2 buf w h =>
    have : preDecRounds lo w = 0 := by unfold preDecRounds; omega
    simp only [this, preDecFinal, if_neg h, List.replicate_zero, putList_nil]

/-- The rounds of `while (lo < w--)`: once for each of `w, ..., lo + 1`. -/
def postDecRounds (lo : Int) (w : Int16) : Nat := (w.toInt - lo).toNat

/-- The counter `while (lo < w--)` leaves, when it ends. -/
def postDecFinal (lo : Int) (w : Int16) : Int16 :=
  if lo < w.toInt then Int16.ofInt (lo - 1) else w - 1

theorem postDecPad_eq (buf : Cursor α) (lo : Int) (bound : Option Nat) (c : α) (w : Int16) :
    buf.postDecPad lo bound c w =
      if lo < -2 ^ 15 then none
      else some (postDecFinal lo w, buf.putList bound (List.replicate (postDecRounds lo w) c)) := by
  fun_induction buf.postDecPad lo bound c w with
  | case1 buf w h => rw [if_pos h]
  | case2 buf w h hlt ih =>
    rw [ih, if_neg h, if_neg h]
    have hw : (w - 1).toInt = w.toInt - 1 := toInt_sub_one (by omega)
    have hrounds : postDecRounds lo w = postDecRounds lo (w - 1) + 1 := by
      unfold postDecRounds; omega
    rw [hrounds, List.replicate_succ, putList_cons]
    congr 2
    unfold postDecFinal
    by_cases h' : lo < (w - 1).toInt
    · rw [if_pos h', if_pos hlt]
    · -- the last round; at `lo = -2^15` the counter wraps, as `Int16.ofInt (lo - 1)` does
      have hlo : (w - 1).toInt = lo := by omega
      rw [if_neg h', if_pos hlt, sub_one_eq_ofInt (w - 1), hlo]
  | case3 buf w h hlt =>
    have : postDecRounds lo w = 0 := by unfold postDecRounds; omega
    simp only [if_neg h, this, postDecFinal, if_neg hlt, List.replicate_zero, putList_nil]

theorem ite_preDecPad (p : Prop) [Decidable p] (buf : Cursor α) (lo : Nat) (bound : Option Nat)
    (c : α) (w : Int16) :
    (if p then buf.preDecPad lo bound c w else (w, buf)) =
      (if p then preDecFinal lo w else w,
        buf.putList bound (if p then List.replicate (preDecRounds lo w) c else [])) := by
  split
  · exact preDecPad_eq buf lo bound c w
  · rfl

theorem postDecPad_eq_some (buf : Cursor α) {lo : Int} (bound : Option Nat) (c : α) (w : Int16)
    (h : -2 ^ 15 ≤ lo) :
    buf.postDecPad lo bound c w =
      some (postDecFinal lo w, buf.putList bound (List.replicate (postDecRounds lo w) c)) := by
  rw [postDecPad_eq, if_neg (by omega)]

end Cursor

end GuardedWrite
