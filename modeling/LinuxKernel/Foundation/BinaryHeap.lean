import Mathlib.Order.Defs.Unbundled
import LinuxKernel.Foundation.FunArray

/-!
# Binary heaps stored in arrays

Cell `i` has its children at `2 * i + 1` and `2 * i + 2`. A sift keeps a hole whose place is
still open: `UpOrder` and `DownOrder` say the order around it, each step moves it one level
(`move`) and the last fills it (`finish`), exchanging two cells per step.
-/

namespace BinaryHeap

open FunArray

variable {α : Type*}

/-! ## Indices -/

/-- Index of the parent of cell `i`; cell 0 has none. -/
def parent (i : Nat) : Nat := (i - 1) / 2

/-- `c` is a child of `p`. Cell 0 is nobody's child, although `parent 0 = 0`. -/
def IsChild (c p : Nat) : Prop := 0 < c ∧ parent c = p

theorem parent_lt {i : Nat} (pos : 0 < i) : parent i < i := by
  unfold parent; omega

theorem IsChild.lt {c p : Nat} (child : IsChild c p) : p < c := by
  obtain ⟨pos, rfl⟩ := child
  exact parent_lt pos

theorem isChild_left (p : Nat) : IsChild (2 * p + 1) p := by
  unfold IsChild parent; omega

theorem isChild_right (p : Nat) : IsChild (2 * p + 2) p := by
  unfold IsChild parent; omega

theorem IsChild.eq_left_or_right {c p : Nat} (child : IsChild c p) :
    c = 2 * p + 1 ∨ c = 2 * p + 2 := by
  unfold IsChild parent at child; omega

/-! ## Strict weak orders

A strict weak order is transitive, and so is its complement: being "not greater" chains. -/

section StrictWeakOrder

variable {r : α → α → Prop} [IsStrictWeakOrder α r]

theorem not_rel_trans {a b c : α} (ab : ¬ r a b) (bc : ¬ r b c) : ¬ r a c := by
  intro ac
  by_cases ba : r b a
  · exact bc (IsTrans.trans _ _ _ ba ac)
  · by_cases cb : r c b
    · exact ab (IsTrans.trans _ _ _ ac cb)
    · exact (IsStrictWeakOrder.incomp_trans a b c ⟨ab, ba⟩ ⟨bc, cb⟩).1 ac

theorem not_rel_of_rel_right {a b c : α} (ab : ¬ r a b) (cb : r c b) : ¬ r a c :=
  fun ac => ab (IsTrans.trans _ _ _ ac cb)

theorem not_rel_of_rel {a b : α} (ab : r a b) : ¬ r b a :=
  fun ba => Std.Irrefl.irrefl a (IsTrans.trans _ _ _ ab ba)

theorem not_rel_self (a : α) : ¬ r a a := Std.Irrefl.irrefl a

end StrictWeakOrder

variable (r : α → α → Prop)

/-! ## Order -/

/-- No child among the first `n` cells is greater than its parent. -/
def Ordered (f : Nat → α) (n : Nat) : Prop :=
  ∀ i, 0 < i → i < n → ¬ r (f i) (f (parent i))

/-- Every parent and child pair that does not touch the hole is in order. -/
def OrderedExcept (f : Nat → α) (n hole : Nat) : Prop :=
  ∀ i, 0 < i → i < n → i ≠ hole → parent i ≠ hole → ¬ r (f i) (f (parent i))

/-- What a sift up of `e` needs around the hole: the pairs off the hole are in order, the
hole's children are not greater than its parent, and not greater than `e`. -/
structure UpOrder (f : Nat → α) (n hole : Nat) (e : α) : Prop where
  except : OrderedExcept r f n hole
  grand : hole ≠ 0 → ∀ c, IsChild c hole → c < n → ¬ r (f c) (f (parent hole))
  below : ∀ c, IsChild c hole → c < n → ¬ r (f c) e

/-- What a sift down of `e` needs around the hole, which holds `e`: the pairs off the hole
are in order, `e` is not greater than the hole's parent, and neither are the hole's
children. -/
structure DownOrder (f : Nat → α) (n hole : Nat) (e : α) : Prop where
  here : f hole = e
  except : OrderedExcept r f n hole
  above : hole ≠ 0 → ¬ r e (f (parent hole))
  grand : hole ≠ 0 → ∀ c, IsChild c hole → c < n → ¬ r (f c) (f (parent hole))

variable {r}

/-! ## Starting and ending a sift -/

theorem UpOrder.start {f : Nat → α} {n : Nat} (ordered : Ordered r f n) (e : α) :
    UpOrder r f (n + 1) n e where
  except := fun i pos lt other _ => ordered i pos (by omega)
  grand := fun _ c child lt => absurd lt (by have := child.lt; unfold IsChild parent at child; omega)
  below := fun c child lt => absurd lt (by have := child.lt; unfold IsChild parent at child; omega)

theorem UpOrder.finish {f : Nat → α} {n hole : Nat} {e : α} (o : UpOrder r f n hole e)
    (stop : hole ≠ 0 → ¬ r e (f (parent hole))) :
    Ordered r (Function.update f hole e) n := by
  intro i pos lt
  by_cases atHole : i = hole
  · subst atHole
    have up : parent i ≠ i := by have := parent_lt pos; omega
    rw [Function.update_self, Function.update_of_ne up]
    exact stop (by omega)
  · rw [Function.update_of_ne atHole]
    by_cases parentHole : parent i = hole
    · rw [parentHole, Function.update_self]
      exact o.below i ⟨pos, parentHole⟩ lt
    · rw [Function.update_of_ne parentHole]
      exact o.except i pos lt atHole parentHole

theorem DownOrder.start {f : Nat → α} {n : Nat} (ordered : Ordered r f n) (e : α) :
    DownOrder r (Function.update f 0 e) n 0 e where
  here := Function.update_self ..
  except := by
    intro i pos lt _ parentRoot
    rw [Function.update_of_ne (by omega), Function.update_of_ne parentRoot]
    exact ordered i pos lt
  above := fun nz => absurd rfl nz
  grand := fun nz => absurd rfl nz

theorem DownOrder.finish {f : Nat → α} {n hole : Nat} {e : α} (o : DownOrder r f n hole e)
    (stop : ∀ d, IsChild d hole → d < n → ¬ r (f d) e) : Ordered r f n := by
  intro i pos lt
  by_cases atHole : i = hole
  · subst atHole
    rw [o.here]
    exact o.above (by omega)
  · by_cases parentHole : parent i = hole
    · rw [parentHole, o.here]
      exact stop i ⟨pos, parentHole⟩ lt
    · exact o.except i pos lt atHole parentHole

theorem DownOrder.move {f : Nat → α} {n hole c : Nat} {e : α} (o : DownOrder r f n hole e)
    (child : IsChild c hole) (clt : c < n) (top : ¬ r e (f c))
    (topChildren : ∀ d, IsChild d hole → d < n → ¬ r (f d) (f c)) :
    DownOrder r (Function.update (Function.update f hole (f c)) c e) n c e := by
  have down := child.lt
  have stays : ∀ i, i ≠ c → i ≠ hole →
      Function.update (Function.update f hole (f c)) c e i = f i := by
    intro i ic ih
    rw [Function.update_of_ne ic, Function.update_of_ne ih]
  have moved : Function.update (Function.update f hole (f c)) c e hole = f c := by
    rw [Function.update_of_ne (by omega), Function.update_self]
  refine ⟨Function.update_self .., ?_, ?_, ?_⟩
  · intro i pos lt other parentOther
    rw [Function.update_of_ne other]
    by_cases atHole : i = hole
    · -- the moved child against the hole's parent
      subst atHole
      have up : parent i ≠ i := by have := parent_lt pos; omega
      rw [Function.update_self, stays _ parentOther up]
      exact o.grand (by omega) c child clt
    · rw [Function.update_of_ne atHole]
      by_cases parentHole : parent i = hole
      · rw [parentHole, moved]
        exact topChildren i ⟨pos, parentHole⟩ lt
      · rw [stays _ parentOther parentHole]
        exact o.except i pos lt atHole parentHole
  · intro _
    rw [child.2, moved]
    exact top
  · intro _ d grandchild dlt
    have further := grandchild.lt
    rw [child.2, moved, stays d (by omega) (by omega)]
    have := o.except d grandchild.1 dlt (by omega) (by rw [grandchild.2]; omega)
    rwa [grandchild.2] at this

/-! ## Moving the hole

These need the order to be a strict weak order: a step compares the hole's neighbours through it. -/

section StrictWeakOrder

variable [IsStrictWeakOrder α r]

theorem Ordered.root_greatest {f : Nat → α} {n : Nat} (ordered : Ordered r f n) :
    ∀ i, i < n → ¬ r (f i) (f 0) := by
  intro i
  -- up the parent chain, each link not greater than the next
  induction i using Nat.strongRecOn with
  | ind i ih =>
    intro lt
    by_cases zero : i = 0
    · subst zero
      exact not_rel_self _
    · have up := parent_lt (Nat.pos_of_ne_zero zero)
      exact not_rel_trans (ordered i (by omega) lt) (ih (parent i) up (by omega))

theorem UpOrder.move {f : Nat → α} {n hole : Nat} {e : α} (o : UpOrder r f n hole e)
    (nonroot : hole ≠ 0) (lt : hole < n) (greater : r e (f (parent hole))) :
    UpOrder r (Function.update f hole (f (parent hole))) n (parent hole) e := by
  have up : parent hole < hole := parent_lt (Nat.pos_of_ne_zero nonroot)
  -- the parent's own link, which the move leaves untouched
  have link : parent hole ≠ 0 → ¬ r (f (parent hole)) (f (parent (parent hole))) :=
    fun nz => o.except (parent hole) (Nat.pos_of_ne_zero nz) (by omega) (by omega)
      (by have := parent_lt (Nat.pos_of_ne_zero nz); omega)
  -- a child of the parent other than the hole is not greater than the parent
  have sibling : ∀ c, IsChild c (parent hole) → c < n → c ≠ hole → ¬ r (f c) (f (parent hole)) := by
    intro c child clt other
    have := o.except c child.1 clt other (by rw [child.2]; omega)
    rwa [child.2] at this
  constructor
  · intro i pos ilt other parentOther
    by_cases atHole : i = hole
    · exact absurd (congrArg parent atHole) parentOther
    · rw [Function.update_of_ne atHole]
      by_cases parentHole : parent i = hole
      · rw [parentHole, Function.update_self]
        exact o.grand nonroot i ⟨pos, parentHole⟩ ilt
      · rw [Function.update_of_ne parentHole]
        exact o.except i pos ilt atHole parentHole
  · intro nz c child clt
    have far : parent (parent hole) ≠ hole := by
      have := parent_lt (Nat.pos_of_ne_zero nz); omega
    rw [Function.update_of_ne far]
    by_cases atHole : c = hole
    · subst atHole
      rw [Function.update_self]
      exact link nz
    · rw [Function.update_of_ne atHole]
      exact not_rel_trans (sibling c child clt atHole) (link nz)
  · intro c child clt
    by_cases atHole : c = hole
    · subst atHole
      rw [Function.update_self]
      exact not_rel_of_rel greater
    · rw [Function.update_of_ne atHole]
      exact not_rel_of_rel_right (sibling c child clt atHole) greater

end StrictWeakOrder

/-! ## Contents -/

theorem cells_update_last (f : Nat → α) (n : Nat) (e : α) :
    cells (Function.update f n e) (n + 1) = cells f n ++ [e] := by
  rw [cells, List.range_succ, List.map_append, List.map_singleton, Function.update_self]
  congr 1
  exact cells_congr fun i lt => Function.update_of_ne (by omega) _ _

theorem cells_move_perm (f : Nat → α) (e : α) {n i j : Nat} (hi : i < n) (hj : j < n)
    (ne : j ≠ i) :
    (cells (Function.update (Function.update f i (f j)) j e) n).Perm
      (cells (Function.update f i e) n) := by
  have swap := cells_swap_perm (Function.update f i e) hi hj
  rwa [Function.update_self, Function.update_of_ne ne, Function.update_idem] at swap

theorem cells_replace_perm (f : Nat → α) (e : α) {n i : Nat} (hi : i < n) :
    (cells (Function.update f i e) n ++ [f i]).Perm (cells f n ++ [e]) := by
  -- set `e` aside in a new last cell `n`, then exchange it with the cell at `i`
  have swap := cells_swap_perm (Function.update f n e) (by omega : i < n + 1) (by omega : n < n + 1)
  have exchanged : Function.update (Function.update (Function.update f n e) i
      (Function.update f n e n)) n (Function.update f n e i) =
      Function.update (Function.update f i e) n (f i) := by
    have iNe : i ≠ n := Nat.ne_of_lt hi
    funext k
    by_cases kn : k = n
    · subst kn
      simp [iNe]
    · by_cases ki : k = i
      · subst ki
        simp [kn]
      · simp [kn, ki]
  rwa [exchanged, cells_update_last, cells_update_last] at swap

end BinaryHeap
