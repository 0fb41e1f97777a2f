import Mathlib

/-!
# Extent maps

A list of extents, each sending the ids `first .. first + count - 1` to
`lower .. lower + count - 1`, read as a partial map looked up through the first extent
that holds the id. When the extents are pairwise apart on both sides the map is a partial
bijection, its inverse being the lookup on the lower side. A range held by one extent can
be moved through the map as a whole (rebased); ranges apart before stay apart after.
-/

namespace ExtentMap

structure Extent where
  first : Nat
  lower : Nat
  count : Nat
  deriving DecidableEq, Repr

namespace Extent

def InUpper (e : Extent) (x : Nat) : Prop := e.first ≤ x ∧ x < e.first + e.count

def InLower (e : Extent) (y : Nat) : Prop := e.lower ≤ y ∧ y < e.lower + e.count

instance (e : Extent) (x : Nat) : Decidable (e.InUpper x) := inferInstanceAs (Decidable (_ ∧ _))

instance (e : Extent) (y : Nat) : Decidable (e.InLower y) := inferInstanceAs (Decidable (_ ∧ _))

def toLower (e : Extent) (x : Nat) : Nat := x - e.first + e.lower

def toUpper (e : Extent) (y : Nat) : Nat := y - e.lower + e.first

variable {e : Extent} {x y : Nat}

theorem inLower_toLower (h : e.InUpper x) : e.InLower (e.toLower x) := by
  unfold InUpper at h
  unfold InLower toLower
  omega

theorem toUpper_toLower (h : e.InUpper x) : e.toUpper (e.toLower x) = x := by
  unfold InUpper at h
  unfold toUpper toLower
  omega

theorem inUpper_toUpper (h : e.InLower y) : e.InUpper (e.toUpper y) := by
  unfold InLower at h
  unfold InUpper toUpper
  omega

theorem toLower_toUpper (h : e.InLower y) : e.toLower (e.toUpper y) = y := by
  unfold InLower at h
  unfold toUpper toLower
  omega

/-- Two extents hold disjoint ids on both sides. -/
def Apart (a b : Extent) : Prop :=
  (a.first + a.count ≤ b.first ∨ b.first + b.count ≤ a.first) ∧
    (a.lower + a.count ≤ b.lower ∨ b.lower + b.count ≤ a.lower)

theorem Apart.not_inUpper {a b : Extent} (h : Apart a b) (ha : a.InUpper x) : ¬b.InUpper x := by
  obtain ⟨h, -⟩ := h
  unfold InUpper at *
  omega

theorem Apart.not_inLower {a b : Extent} (h : Apart a b) (ha : a.InLower y) : ¬b.InLower y := by
  obtain ⟨-, h⟩ := h
  unfold InLower at *
  omega

/-- The lower range of `c` lies inside the lower range of `e`. -/
def LowerWithin (c e : Extent) : Prop := e.lower ≤ c.lower ∧ c.lower + c.count ≤ e.lower + e.count

end Extent

open Extent

theorem find?_eq_some_of_pairwise {α : Type} {p : α → Bool} {l : List α} {a : α}
    (hpw : l.Pairwise (fun u v => p u = true → p v = true → False)) (ha : a ∈ l)
    (hp : p a = true) : l.find? p = some a := by
  induction l with
  | nil => cases ha
  | cons b l ih =>
    rw [List.pairwise_cons] at hpw
    rcases List.mem_cons.mp ha with rfl | ha
    · exact List.find?_cons_of_pos hp
    · have hb : ¬p b = true := fun hb => hpw.1 a ha hb hp
      rw [List.find?_cons_of_neg hb]
      exact ih hpw.2 ha

def down (es : List Extent) (x : Nat) : Option Nat :=
  (es.find? fun e => decide (e.InUpper x)).map (·.toLower x)

def up (es : List Extent) (y : Nat) : Option Nat :=
  (es.find? fun e => decide (e.InLower y)).map (·.toUpper y)

/-- `down` of the whole range `x .. x + n - 1` through one extent. -/
def downRange (es : List Extent) (x n : Nat) : Option Nat :=
  (es.find? fun e => decide (e.InUpper x ∧ e.InUpper (x + n - 1))).map (·.toLower x)

/-- Move the lower range of `c` through `es`. -/
def rebase (es : List Extent) (c : Extent) : Option Extent :=
  (downRange es c.lower c.count).map fun y => { c with lower := y }

/-- Pairwise apart extents. -/
def Injective (es : List Extent) : Prop := es.Pairwise Apart

variable {es : List Extent} {e : Extent} {x y : Nat}

theorem exists_of_down_eq_some (hd : down es x = some y) :
    ∃ e ∈ es, e.InUpper x ∧ e.toLower x = y := by
  unfold down at hd
  obtain ⟨e, he, rfl⟩ := Option.map_eq_some_iff.mp hd
  have hx : decide (e.InUpper x) = true := List.find?_some (p := fun (e : Extent) => decide (e.InUpper x)) he
  exact ⟨e, List.mem_of_find?_eq_some he, of_decide_eq_true hx, rfl⟩

theorem exists_of_up_eq_some (hu : up es y = some x) :
    ∃ e ∈ es, e.InLower y ∧ e.toUpper y = x := by
  unfold up at hu
  obtain ⟨e, he, rfl⟩ := Option.map_eq_some_iff.mp hu
  have hy : decide (e.InLower y) = true := List.find?_some (p := fun (e : Extent) => decide (e.InLower y)) he
  exact ⟨e, List.mem_of_find?_eq_some he, of_decide_eq_true hy, rfl⟩

theorem down_eq_some (h : Injective es) (he : e ∈ es) (hx : e.InUpper x) :
    down es x = some (e.toLower x) := by
  have hpw : es.Pairwise fun u v => decide (u.InUpper x) = true → decide (v.InUpper x) = true → False :=
    h.imp fun hab hu hv => hab.not_inUpper (of_decide_eq_true hu) (of_decide_eq_true hv)
  rw [down, find?_eq_some_of_pairwise hpw he (decide_eq_true hx)]
  rfl

theorem up_eq_some (h : Injective es) (he : e ∈ es) (hy : e.InLower y) :
    up es y = some (e.toUpper y) := by
  have hpw : es.Pairwise fun u v => decide (u.InLower y) = true → decide (v.InLower y) = true → False :=
    h.imp fun hab hu hv => hab.not_inLower (of_decide_eq_true hu) (of_decide_eq_true hv)
  rw [up, find?_eq_some_of_pairwise hpw he (decide_eq_true hy)]
  rfl

theorem up_down (h : Injective es) (hd : down es x = some y) : up es y = some x := by
  obtain ⟨e, he, hx, rfl⟩ := exists_of_down_eq_some hd
  rw [up_eq_some h he (inLower_toLower hx), toUpper_toLower hx]

theorem down_up (h : Injective es) (hu : up es y = some x) : down es x = some y := by
  obtain ⟨e, he, hy, rfl⟩ := exists_of_up_eq_some hu
  rw [down_eq_some h he (inUpper_toUpper hy), toLower_toUpper hy]

theorem down_eq_none_of_bound {B : Nat} (hb : ∀ e ∈ es, e.first + e.count ≤ B) (hx : B ≤ x) :
    down es x = none := by
  rw [down, Option.map_eq_none_iff, List.find?_eq_none]
  intro e he hin
  have := hb e he
  have hin := of_decide_eq_true hin
  unfold InUpper at hin
  omega

theorem up_eq_none_of_bound {B : Nat} (hb : ∀ e ∈ es, e.lower + e.count ≤ B) (hy : B ≤ y) :
    up es y = none := by
  rw [up, Option.map_eq_none_iff, List.find?_eq_none]
  intro e he hin
  have := hb e he
  have hin := of_decide_eq_true hin
  unfold InLower at hin
  omega

theorem down_lt_of_bound {B : Nat} (hb : ∀ e ∈ es, e.lower + e.count ≤ B)
    (hd : down es x = some y) : y < B := by
  obtain ⟨e, he, hx, rfl⟩ := exists_of_down_eq_some hd
  have := inLower_toLower hx
  have := hb e he
  unfold InLower at *
  omega

theorem up_lt_of_bound {B : Nat} (hb : ∀ e ∈ es, e.first + e.count ≤ B)
    (hu : up es y = some x) : x < B := by
  obtain ⟨e, he, hy, rfl⟩ := exists_of_up_eq_some hu
  have := inUpper_toUpper hy
  have := hb e he
  unfold InUpper at *
  omega

/-! ### Rebasing -/

theorem rebase_spec {c r : Extent} (hr : rebase es c = some r) (hc : 0 < c.count) :
    ∃ e ∈ es, r = { c with lower := e.toLower c.lower } ∧ e.InUpper c.lower ∧
      e.InUpper (c.lower + c.count - 1) ∧ LowerWithin r e := by
  unfold rebase downRange at hr
  obtain ⟨y, hy, rfl⟩ := Option.map_eq_some_iff.mp hr
  obtain ⟨e, he, rfl⟩ := Option.map_eq_some_iff.mp hy
  have hfound : decide (e.InUpper c.lower ∧ e.InUpper (c.lower + c.count - 1)) = true :=
    List.find?_some (p := fun (e : Extent) => decide (e.InUpper c.lower ∧ e.InUpper (c.lower + c.count - 1))) he
  replace hfound := of_decide_eq_true hfound
  refine ⟨e, List.mem_of_find?_eq_some he, rfl, hfound.1, hfound.2, ?_⟩
  obtain ⟨⟨h1, h2⟩, ⟨h3, h4⟩⟩ := hfound
  unfold LowerWithin toLower
  dsimp only
  omega

theorem up_of_lowerWithin (h : Injective es) (he : e ∈ es) {r : Extent} (hw : LowerWithin r e)
    (hy : r.InLower y) : up es y = some (e.toUpper y) := by
  apply up_eq_some h he
  unfold LowerWithin at hw
  unfold InLower at *
  omega

theorem rebase_apart (h : Injective es) {c₁ c₂ r₁ r₂ : Extent} (hc₁ : 0 < c₁.count)
    (hc₂ : 0 < c₂.count) (hr₁ : rebase es c₁ = some r₁) (hr₂ : rebase es c₂ = some r₂)
    (hc : Apart c₁ c₂) : Apart r₁ r₂ := by
  obtain ⟨e₁, he₁, rfl, hx₁, -, hw₁⟩ := rebase_spec hr₁ hc₁
  obtain ⟨e₂, he₂, rfl, hx₂, -, hw₂⟩ := rebase_spec hr₂ hc₂
  refine ⟨hc.1, ?_⟩
  by_contra hov
  dsimp only at hov
  -- an id in both rebased ranges would come back from two apart parent ranges
  let k := max (e₁.toLower c₁.lower) (e₂.toLower c₂.lower)
  have hk₁ : InLower { c₁ with lower := e₁.toLower c₁.lower } k := by
    unfold InLower
    dsimp only
    omega
  have hk₂ : InLower { c₂ with lower := e₂.toLower c₂.lower } k := by
    unfold InLower
    dsimp only
    omega
  have hu := (up_of_lowerWithin h he₁ hw₁ hk₁).symm.trans (up_of_lowerWithin h he₂ hw₂ hk₂)
  have heq : e₁.toUpper k = e₂.toUpper k := Option.some.inj hu
  have hc₂ := hc.2
  unfold InUpper at hx₁ hx₂
  unfold InLower at hk₁ hk₂
  unfold toUpper toLower at *
  dsimp only at *
  omega

end ExtentMap
