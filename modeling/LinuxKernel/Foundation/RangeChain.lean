import Mathlib

/-!
# Chains of half-open ranges

A range `(lo, n)` stands for the integers `[lo, lo + n)`. `Within s l e` says that the ranges
of `l` are non-empty, in increasing order, pairwise disjoint and inside `[s, e]`; `Tiles s l e`
says that besides they leave no gap, so that together they are `[s, e)`. A chain within its
bounds tiles exactly when its lengths add up to `e - s`: a queue of pieces can test for
completeness by counting what it holds.
-/

namespace RangeChain

def hi (r : Int × Int) : Int := r.1 + r.2

def Within : Int → List (Int × Int) → Int → Prop
  | s, [], e => s ≤ e
  | s, r :: l, e => s ≤ r.1 ∧ 0 < r.2 ∧ Within (hi r) l e

def Tiles : Int → List (Int × Int) → Int → Prop
  | s, [], e => s = e
  | s, r :: l, e => r.1 = s ∧ 0 < r.2 ∧ Tiles (hi r) l e

instance decWithin : (s : Int) → (l : List (Int × Int)) → (e : Int) → Decidable (Within s l e)
  | s, [], e => inferInstanceAs (Decidable (s ≤ e))
  | s, r :: l, e =>
    have := decWithin (hi r) l e
    inferInstanceAs (Decidable (s ≤ r.1 ∧ 0 < r.2 ∧ Within (hi r) l e))

instance decTiles : (s : Int) → (l : List (Int × Int)) → (e : Int) → Decidable (Tiles s l e)
  | s, [], e => inferInstanceAs (Decidable (s = e))
  | s, r :: l, e =>
    have := decTiles (hi r) l e
    inferInstanceAs (Decidable (r.1 = s ∧ 0 < r.2 ∧ Tiles (hi r) l e))

/-- Where a chain started at `s` has got to: the end of its last range. -/
def reach (s : Int) : List (Int × Int) → Int
  | [] => s
  | r :: l => reach (hi r) l

def total (l : List (Int × Int)) : Int := (l.map Prod.snd).sum

def covered (l : List (Int × Int)) : Set Int := {x | ∃ r ∈ l, r.1 ≤ x ∧ x < hi r}

variable {s e : Int} {r : Int × Int} {l l₁ l₂ : List (Int × Int)}

@[simp] theorem within_nil : Within s [] e ↔ s ≤ e := Iff.rfl

@[simp] theorem within_cons : Within s (r :: l) e ↔ s ≤ r.1 ∧ 0 < r.2 ∧ Within (hi r) l e :=
  Iff.rfl

@[simp] theorem tiles_nil : Tiles s [] e ↔ s = e := Iff.rfl

@[simp] theorem tiles_cons : Tiles s (r :: l) e ↔ r.1 = s ∧ 0 < r.2 ∧ Tiles (hi r) l e :=
  Iff.rfl

@[simp] theorem reach_nil : reach s [] = s := rfl

@[simp] theorem reach_cons : reach s (r :: l) = reach (hi r) l := rfl

@[simp] theorem total_nil : total [] = 0 := rfl

@[simp] theorem total_cons : total (r :: l) = r.2 + total l := by simp [total]

@[simp] theorem total_append : total (l₁ ++ l₂) = total l₁ + total l₂ := by simp [total]

@[simp] theorem covered_nil : covered [] = ∅ := by simp [covered]

theorem covered_cons : covered (r :: l) = Set.Ico r.1 (hi r) ∪ covered l := by
  ext x
  simp [covered, Set.mem_Ico]

theorem reach_eq_getLast? (s : Int) (l : List (Int × Int)) :
    reach s l = (l.getLast?.map hi).getD s := by
  induction l generalizing s with
  | nil => rfl
  | cons r l ih =>
    rw [reach_cons, ih]
    cases l with
    | nil => rfl
    | cons r' l => rfl

/-! ### Moving the bounds -/

theorem Within.le : Within s l e → s ≤ e := by
  induction l generalizing s with
  | nil => exact id
  | cons r l ih =>
    rintro ⟨hs, hn, hl⟩
    have := ih hl
    simp only [hi] at this
    omega

theorem Within.mono_left {s' : Int} (hs : s' ≤ s) : Within s l e → Within s' l e := by
  cases l with
  | nil => intro h; exact le_trans hs h
  | cons r l => rintro ⟨h, hn, hl⟩; exact ⟨le_trans hs h, hn, hl⟩

theorem Within.mono_right {e' : Int} (he : e ≤ e') : Within s l e → Within s l e' := by
  induction l generalizing s with
  | nil => intro h; exact le_trans h he
  | cons r l ih => rintro ⟨h, hn, hl⟩; exact ⟨h, hn, ih hl⟩

theorem Within.restart {t : Int} (h : Within s l e) (head : ∀ r ∈ l.head?, t ≤ r.1)
    (te : t ≤ e) : Within t l e := by
  cases l with
  | nil => exact te
  | cons r l => exact ⟨head r rfl, h.2⟩

theorem within_append :
    Within s (l₁ ++ l₂) e ↔ Within s l₁ (reach s l₁) ∧ Within (reach s l₁) l₂ e := by
  induction l₁ generalizing s with
  | nil => simp only [List.nil_append, reach_nil, within_nil, le_refl, true_and]
  | cons r l₁ ih =>
    simp only [List.cons_append, within_cons, reach_cons, ih, and_assoc]

/-! ### Counting and covering -/

theorem Within.total_le : Within s l e → s + total l ≤ e := by
  induction l generalizing s with
  | nil => intro h; simpa using h
  | cons r l ih =>
    rintro ⟨hs, -, hl⟩
    have := ih hl
    simp only [hi] at this
    simp only [total_cons]
    omega

theorem Within.tiles_iff : Within s l e → (Tiles s l e ↔ s + total l = e) := by
  induction l generalizing s with
  | nil => intro _; simp
  | cons r l ih =>
    rintro ⟨hs, hn, hl⟩
    have hle := hl.total_le
    simp only [hi] at hle
    rw [tiles_cons, ih hl, total_cons]
    simp only [hi]
    constructor
    · rintro ⟨h1, -, h3⟩
      omega
    · intro h
      exact ⟨by omega, hn, by omega⟩

theorem Within.covered_subset : Within s l e → covered l ⊆ Set.Ico s e := by
  induction l generalizing s with
  | nil => intro _; simp
  | cons r l ih =>
    rintro ⟨hs, hn, hl⟩
    have hle := hl.le
    rw [covered_cons]
    refine Set.union_subset (Set.Ico_subset_Ico hs (by simpa [hi] using hle)) ?_
    exact (ih hl).trans (Set.Ico_subset_Ico_left (by simp only [hi]; omega))

theorem Tiles.within : Tiles s l e → Within s l e := by
  induction l generalizing s with
  | nil => intro h; exact le_of_eq h
  | cons r l ih => rintro ⟨rfl, hn, hl⟩; exact ⟨le_refl _, hn, ih hl⟩

theorem Tiles.covered_eq : Tiles s l e → covered l = Set.Ico s e := by
  induction l generalizing s with
  | nil => rintro rfl; simp
  | cons r l ih =>
    rintro ⟨rfl, hn, hl⟩
    rw [covered_cons, ih hl]
    exact Set.Ico_union_Ico_eq_Ico (by simp only [hi]; omega) hl.within.le

theorem Within.covered_eq_iff : Within s l e → (covered l = Set.Ico s e ↔ Tiles s l e) := by
  intro hw
  refine ⟨fun hcov => ?_, Tiles.covered_eq⟩
  induction l generalizing s with
  | nil =>
    have : ¬ s < e := fun hlt => by
      simpa [← hcov] using (Set.left_mem_Ico.mpr hlt)
    exact le_antisymm hw (not_lt.mp this)
  | cons r l ih =>
    obtain ⟨hs, hn, hl⟩ := hw
    have hsub := hl.covered_subset
    rw [covered_cons] at hcov
    -- `s` is covered, and only the first range can cover it
    have hfirst : r.1 = s := by
      by_contra hne
      have hs' : s ∈ Set.Ico s e := Set.left_mem_Ico.mpr (by
        have := hl.le
        simp only [hi] at this
        omega)
      rw [← hcov] at hs'
      rcases hs' with h | h
      · exact hne (le_antisymm h.1 hs)
      · have := (hsub h).1
        simp only [hi] at this
        omega
    refine ⟨hfirst, hn, ih hl ?_⟩
    -- what the first range leaves of `[s, e)` is what the rest covers
    ext x
    constructor
    · intro hx
      exact hsub hx
    · intro hx
      have hx' : x ∈ Set.Ico s e := ⟨by simp only [hi] at hx; have := hx.1; omega, hx.2⟩
      rw [← hcov] at hx'
      rcases hx' with h | h
      · exact absurd hx.1 (not_le.mpr h.2)
      · exact h

end RangeChain
