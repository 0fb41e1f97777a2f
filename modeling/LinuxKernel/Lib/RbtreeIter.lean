import LinuxKernel.Lib.Rbtree
import Mathlib.Data.List.Chain

/-!
# In-order walks of a red-black tree

`rb_first` and `rb_next` walk the nodes of a tree in order, using only the child and parent
links: the next node is the leftmost of the right subtree, or the first ancestor reached from its
left subtree. Over any tree whose links are consistent (`RbRoot.Holds`), each `rb_next` gives the
node after it in order and the last gives `NULL`. `rb_prev` and `rb_last` are `rb_next` and
`rb_first` on the tree with left and right swapped, which is the mirror tree, read backwards.
-/

namespace LinuxKernel

open LinkedTree BinaryTree

variable {α : Type}

/-- The tree of `root` is `t`: the links span `t` from `root->rb_node`, over distinct nodes. -/
structure RbRoot.Holds (s : RbRoot α) (t : BinaryTree α) : Prop where
  spans : Spans s.links none t s.rbNode
  nodup : (inorder t).Nodup

namespace RbRoot

@[simp] theorem links_left (s : RbRoot α) : s.links.left = s.left := rfl
@[simp] theorem links_right (s : RbRoot α) : s.links.right = s.right := rfl
@[simp] theorem links_parent (s : RbRoot α) : s.links.parent = s.parent := rfl

theorem links_swap (s : RbRoot α) : s.swap.links = s.links.swap := rfl

theorem spans_node_iff {s : RbRoot α} {p link : Option α} {x : α} {l r : BinaryTree α} :
    Spans s.links p (node x l r) link ↔
      link = some x ∧ s.parent x = p ∧ Spans s.links (some x) l (s.left x) ∧ Spans s.links (some x) r (s.right x) :=
  Iff.rfl

theorem Holds.swap {s : RbRoot α} {t : BinaryTree α} (h : s.Holds t) : s.swap.Holds (mirror t) := by
  refine ⟨?_, ?_⟩
  · rw [links_swap]
    exact h.spans.swap
  · rw [inorder_mirror]
    exact List.nodup_reverse.mpr h.nodup

end RbRoot

/-! ### Walking a chain -/

theorem rbWalk_chain {step : α → Option (Option α)} (xs : List α) :
    ∀ (x : α) (steps : Nat), (x :: xs).IsChain (fun a b => step a = some (some b)) →
      (∀ z, (x :: xs).getLast? = some z → step z = some none) → (x :: xs).length ≤ steps →
      rbWalk step steps (some x) = some (x :: xs) := by
  induction xs with
  | nil =>
    intro x steps _ stop enough
    obtain ⟨steps, rfl⟩ : ∃ k, steps = k + 1 := ⟨steps - 1, by simp at enough; omega⟩
    simp [rbWalk, stop x rfl]
  | cons y ys ih =>
    intro x steps chain stop enough
    obtain ⟨steps, rfl⟩ : ∃ k, steps = k + 1 := ⟨steps - 1, by simp at enough; omega⟩
    rw [List.isChain_cons_cons] at chain
    have rest := ih y steps chain.2 (fun z last => stop z (by simpa using last)) (by simpa using enough)
    simp [rbWalk, chain.1, rest]

/-! ### Facts of a spanned tree -/

section Spans

variable {s : RbRoot α}

theorem spans_right_last {p link : Option α} {t : BinaryTree α} (h : Spans s.links p t link) {x : α}
    (last : (inorder t).getLast? = some x) : s.right x = none := by
  induction t generalizing p link with
  | nil => simp at last
  | node y l r _ ihr =>
    obtain ⟨-, -, -, hr⟩ := RbRoot.spans_node_iff.mp h
    cases r with
    | nil =>
      have : y = x := by simpa [getLast?_inorder] using last
      subst this
      simpa using hr
    | node z l' r' =>
      rw [getLast?_inorder_right] at last
      exact ihr hr last

theorem spans_parent_ne {p link : Option α} {t : BinaryTree α} (h : Spans s.links p t link)
    (nodup : (inorder t).Nodup) (outside : ∀ y, p = some y → y ∉ inorder t) :
    ∀ x ∈ inorder t, s.parent x ≠ some x := by
  induction t generalizing p link with
  | nil => simp
  | node y l r ihl ihr =>
    obtain ⟨-, up, hl, hr⟩ := RbRoot.spans_node_iff.mp h
    simp only [inorder_node, List.nodup_append, List.nodup_cons] at nodup
    obtain ⟨nodupL, ⟨yFresh, nodupR⟩, apart⟩ := nodup
    intro x mem
    simp only [inorder_node, List.mem_append, List.mem_cons] at mem
    rcases mem with inL | rfl | inR
    · refine ihl hl nodupL ?_ x inL
      rintro z ⟨⟩ inL'
      exact apart _ inL' _ List.mem_cons_self rfl
    · rw [up]
      intro self
      exact outside x self (by simp)
    · refine ihr hr nodupR ?_ x inR
      rintro z ⟨⟩
      exact yFresh

end Spans

/-! ### Down to the leftmost node, up past right children -/

section Walks

variable {s : RbRoot α}

theorem rbLeftmost_spans {t : BinaryTree α} :
    ∀ {p : Option α} {z : α} {fuel : Nat}, Spans s.links p t (some z) → t.height ≤ fuel →
      rbLeftmost s fuel z = (inorder t).head? := by
  induction t with
  | nil => intro p z fuel h; cases h
  | node x l r ihl _ =>
    intro p z fuel h enough
    obtain ⟨top, -, hl, -⟩ := RbRoot.spans_node_iff.mp h
    cases top
    have lower := height_left_lt x l r
    obtain ⟨fuel, rfl⟩ : ∃ f, fuel = f + 1 := ⟨fuel - 1, by omega⟩
    cases l with
    | nil =>
      have stop : s.left x = none := hl
      simp [rbLeftmost, stop]
    | node y l' r' =>
      have down : s.left x = some y := hl.1
      simp only [rbLeftmost, down]
      rw [ihl (down ▸ hl) (by omega), head?_inorder_left]

variable [DecidableEq α]

theorem rbClimbRight_last {r : BinaryTree α} :
    ∀ {z : α} {l : BinaryTree α} {p : Option α}, Spans s.links p (node z l r) (some z) →
      ∀ {x : α}, (inorder (node z l r)).getLast? = some x →
      ∀ fuel, rbClimbRight s (fuel + rightSpine r) x = rbClimbRight s fuel z := by
  induction r with
  | nil =>
    intro z l p _ x last fuel
    have : z = x := by simpa [getLast?_inorder] using last
    subst this
    rfl
  | node y l' r' _ ihr =>
    intro z l p h x last fuel
    obtain ⟨-, -, -, hr⟩ := RbRoot.spans_node_iff.mp h
    obtain ⟨-, up, -, -⟩ := RbRoot.spans_node_iff.mp hr
    have down : s.right z = some y := hr.1
    rw [getLast?_inorder_right] at last
    -- the climb from the last node of the right subtree ends one step below the top
    have climb := ihr (down ▸ hr) last (fuel + 1)
    rw [show fuel + rightSpine (node y l' r') = fuel + 1 + rightSpine r' by simp only [rightSpine]; omega, climb]
    simp [rbClimbRight, up, down]

theorem rbNext_last {z : α} {l r : BinaryTree α} {p : Option α} (h : Spans s.links p (node z l r) (some z))
    (nodup : (inorder (node z l r)).Nodup) (outside : ∀ y, p = some y → y ∉ inorder (node z l r))
    {x : α} (last : (inorder (node z l r)).getLast? = some x) (fuel : Nat) :
    rbNext s (fuel + rightSpine r) x = rbClimbRight s fuel z := by
  have notSelf := spans_parent_ne h nodup outside x (List.mem_of_getLast? last)
  have stop := spans_right_last h last
  simp only [rbNext, notSelf, stop, ↓reduceIte]
  exact rbClimbRight_last h last fuel

theorem rbNext_last_left {y w : α} {ll lr r : BinaryTree α} {p : Option α} {fuel : Nat}
    (h : Spans s.links p (node y (node w ll lr) r) (some y)) (nodup : (inorder (node y (node w ll lr) r)).Nodup)
    (enough : (node y (node w ll lr) r).height ≤ fuel) {x : α}
    (last : (inorder (node w ll lr)).getLast? = some x) :
    rbNext s fuel x = some (some y) := by
  obtain ⟨-, -, hl, hr⟩ := RbRoot.spans_node_iff.mp h
  have downW : s.left y = some w := hl.1
  obtain ⟨-, upW, -, -⟩ := RbRoot.spans_node_iff.mp hl
  have split : (inorder (node w ll lr) ++ y :: inorder r).Nodup := nodup
  obtain ⟨nodupL, -, apart⟩ := List.nodup_append.mp split
  have outside : ∀ q, some y = some q → q ∉ inorder (node w ll lr) := by
    rintro q ⟨⟩ inL
    exact apart _ inL _ List.mem_cons_self rfl
  -- the climb starts from the top of the left subtree, which is no right child of the node
  have notRight : s.right y ≠ some w := by
    rw [hr.link_eq]
    cases r with
    | nil => simp [top]
    | node v _ _ =>
      simp only [top, ne_eq, Option.some.injEq]
      intro same
      exact apart w (by simp) w (by simp [same]) rfl
  have spine : rightSpine lr + 1 ≤ (node w ll lr).height := by
    have := rightSpine_le_height lr
    have := height_right_lt w ll lr
    omega
  have lower := height_left_lt y (node w ll lr) r
  obtain ⟨f, hf⟩ : ∃ f, fuel = f + 1 + rightSpine lr := ⟨fuel - 1 - rightSpine lr, by omega⟩
  rw [hf, rbNext_last (downW ▸ hl) nodupL outside last (f + 1)]
  simp [rbClimbRight, upW, notRight]

theorem rbNext_chain {t : BinaryTree α} :
    ∀ {p link : Option α} {fuel : Nat}, Spans s.links p t link → (inorder t).Nodup →
      (∀ y, p = some y → y ∉ inorder t) → t.height ≤ fuel →
      (inorder t).IsChain (fun a b => rbNext s fuel a = some (some b)) := by
  induction t with
  | nil => intro p link fuel _ _ _ _; exact List.isChain_nil
  | node z l r ihl ihr =>
    intro p link fuel h nodup outside enough
    have zNe := spans_parent_ne h nodup outside z (by simp)
    have top : link = some z := h.1
    subst top
    obtain ⟨-, -, hl, hr⟩ := RbRoot.spans_node_iff.mp h
    have split : (inorder l ++ z :: inorder r).Nodup := nodup
    obtain ⟨nodupL, nodupZR, apart⟩ := List.nodup_append.mp split
    obtain ⟨zFresh, nodupR⟩ := List.nodup_cons.mp nodupZR
    have lowerL := height_left_lt z l r
    have lowerR := height_right_lt z l r
    have chainL : (inorder l).IsChain (fun a b => rbNext s fuel a = some (some b)) :=
      ihl hl nodupL (by rintro q ⟨⟩ inL; exact apart _ inL _ List.mem_cons_self rfl) (by omega)
    have chainR : (inorder r).IsChain (fun a b => rbNext s fuel a = some (some b)) :=
      ihr hr nodupR (by rintro q ⟨⟩; exact zFresh) (by omega)
    rw [inorder_node, List.isChain_append, List.isChain_cons]
    refine ⟨chainL, ⟨?_, chainR⟩, ?_⟩
    · -- after the node comes the leftmost node of its right subtree
      intro y first
      cases r with
      | nil => simp at first
      | node w rl rr =>
        have down : s.right z = some w := hr.1
        simp only [rbNext, zNe, down, ↓reduceIte]
        rw [rbLeftmost_spans (down ▸ hr) (by omega), first]
        rfl
    · -- after the last node of the left subtree comes the node
      intro x last y first
      have same : z = y := by simpa using first
      subst same
      cases l with
      | nil => simp at last
      | node w ll lr => exact rbNext_last_left h nodup enough last

end Walks

/-! ### The walks of a whole tree -/

section Whole

variable {s : RbRoot α} {t : BinaryTree α}

theorem RbRoot.Holds.rbFirst (h : s.Holds t) {fuel : Nat} (enough : t.height ≤ fuel) :
    rbFirst s fuel = some (inorder t).head? := by
  have top := h.spans.link_eq
  rw [LinuxKernel.rbFirst]
  cases t with
  | nil => simp [top, LinkedTree.top]
  | node z l r =>
    rw [top, LinkedTree.top]
    simp [rbLeftmost_spans (top ▸ h.spans) enough]

variable [DecidableEq α]

theorem RbRoot.Holds.chain (h : s.Holds t) {fuel : Nat} (enough : t.height ≤ fuel) :
    (inorder t).IsChain (fun a b => rbNext s fuel a = some (some b)) :=
  rbNext_chain h.spans h.nodup (fun _ hy => by cases hy) enough

theorem RbRoot.Holds.rbNext_last (h : s.Holds t) {fuel : Nat} (enough : t.height ≤ fuel) {x : α}
    (last : (inorder t).getLast? = some x) : rbNext s fuel x = some none := by
  cases t with
  | nil => simp at last
  | node z l r =>
    have top : s.rbNode = some z := h.spans.link_eq
    have spans : Spans s.links none (node z l r) (some z) := top ▸ h.spans
    have up : s.parent z = none := spans.2.1
    have spine : rightSpine r + 1 ≤ (node z l r).height := by
      have := rightSpine_le_height r
      have := height_right_lt z l r
      omega
    obtain ⟨f, hf⟩ : ∃ f, fuel = f + 1 + rightSpine r := ⟨fuel - 1 - rightSpine r, by omega⟩
    rw [hf, LinuxKernel.rbNext_last spans h.nodup (fun _ hy => by cases hy) last (f + 1)]
    simp [rbClimbRight, up]

theorem RbRoot.Holds.walk_next (h : s.Holds t) {fuel : Nat} (enough : t.height ≤ fuel) :
    (LinuxKernel.rbFirst s fuel).bind (rbWalk (rbNext s fuel) t.numNodes) = some (inorder t) := by
  rw [h.rbFirst enough, Option.bind_some]
  cases hxs : inorder t with
  | nil => cases t.numNodes <;> rfl
  | cons x xs =>
    have chain := h.chain enough
    rw [hxs] at chain
    refine rbWalk_chain xs x t.numNodes chain (fun z last => h.rbNext_last enough (hxs ▸ last)) ?_
    rw [← hxs, length_inorder]

end Whole

/-! ### Backwards, through the mirror -/

section Mirror

theorem rbRightmost_eq_swap (s : RbRoot α) :
    ∀ (fuel : Nat) (n : α), rbRightmost s fuel n = rbLeftmost s.swap fuel n
  | 0, _ => rfl
  | fuel + 1, n => by
    simp only [rbRightmost, rbLeftmost, RbRoot.swap]
    cases s.right n with
    | none => rfl
    | some r => exact rbRightmost_eq_swap s fuel r

theorem rbLast_eq_swap (s : RbRoot α) (fuel : Nat) : rbLast s fuel = rbFirst s.swap fuel := by
  simp only [rbLast, rbFirst, rbRightmost_eq_swap]
  rfl

variable [DecidableEq α]

theorem rbClimbLeft_eq_swap (s : RbRoot α) :
    ∀ (fuel : Nat) (n : α), rbClimbLeft s fuel n = rbClimbRight s.swap fuel n
  | 0, _ => rfl
  | fuel + 1, n => by
    simp only [rbClimbLeft, rbClimbRight, RbRoot.swap]
    cases s.parent n with
    | none => rfl
    | some p =>
      by_cases left : s.left p = some n
      · simp only [left, if_true]
        exact rbClimbLeft_eq_swap s fuel p
      · simp [left]

theorem rbPrev_eq_swap (s : RbRoot α) (fuel : Nat) (n : α) : rbPrev s fuel n = rbNext s.swap fuel n := by
  simp only [rbPrev, rbNext, rbRightmost_eq_swap, rbClimbLeft_eq_swap]
  rfl

variable {s : RbRoot α} {t : BinaryTree α}

theorem RbRoot.Holds.walk_prev (h : s.Holds t) {fuel : Nat} (enough : t.height ≤ fuel) :
    (rbLast s fuel).bind (rbWalk (rbPrev s fuel) t.numNodes) = some (inorder t).reverse := by
  have mirrored := h.swap.walk_next (show (mirror t).height ≤ fuel by simpa using enough)
  rw [inorder_mirror] at mirrored
  have steps : (mirror t).numNodes = t.numNodes := by
    rw [← length_inorder, ← length_inorder, inorder_mirror, List.length_reverse]
  rw [rbLast_eq_swap, funext (rbPrev_eq_swap s fuel), ← steps]
  exact mirrored

theorem RbRoot.Holds.rbPrev_rbNext (h : s.Holds t) {fuel : Nat} (enough : t.height ≤ fuel) {n : α}
    (mem : n ∈ inorder t) (notLast : (inorder t).getLast? ≠ some n) :
    ∃ m, rbNext s fuel n = some (some m) ∧ rbPrev s fuel m = some (some n) := by
  have forward := h.chain enough
  have backward := h.swap.chain (show (mirror t).height ≤ fuel by simpa using enough)
  rw [inorder_mirror, List.isChain_reverse] at backward
  obtain ⟨as, bs, split⟩ := List.append_of_mem mem
  cases bs with
  | nil => exact absurd (by simp [split]) notLast
  | cons m cs =>
    rw [split] at forward backward
    -- both chains pass through the pair n, m of the in-order list
    have nextM : rbNext s fuel n = some (some m) :=
      (List.isChain_cons_cons.mp (List.isChain_append.mp forward).2.1).1
    have prevN : rbNext s.swap fuel m = some (some n) :=
      (List.isChain_cons_cons.mp (List.isChain_append.mp backward).2.1).1
    exact ⟨m, nextM, by rw [rbPrev_eq_swap]; exact prevN⟩

end Mirror

/-- Over a tree of consistent links, `rb_first` and `rb_next` until `NULL` visit every node once,
in order; `rb_last` and `rb_prev` visit them in reverse order; and `rb_prev` undoes `rb_next` on
every node but the last. -/
theorem rb_inorder_walks [DecidableEq α] {s : RbRoot α} {t : BinaryTree α} (holds : s.Holds t) {fuel : Nat}
    (enough : t.numNodes ≤ fuel) :
    (rbFirst s fuel).bind (rbWalk (rbNext s fuel) t.numNodes) = some (inorder t) ∧
      (rbLast s fuel).bind (rbWalk (rbPrev s fuel) t.numNodes) = some (inorder t).reverse ∧
      ∀ n ∈ inorder t, (inorder t).getLast? ≠ some n →
        ∃ m, rbNext s fuel n = some (some m) ∧ rbPrev s fuel m = some (some n) := by
  have high : t.height ≤ fuel := le_trans (height_le_numNodes t) enough
  exact ⟨holds.walk_next high, holds.walk_prev high, fun n mem notLast => holds.rbPrev_rbNext high mem notLast⟩

/-- A root `1` with children `0` and `2`: the walks read `0, 1, 2` and back. -/
theorem rb_inorder_walks_three :
    let s : RbRoot Nat := ⟨fun x => if x = 1 then none else some 1, fun _ => .black,
      fun x => if x = 1 then some 0 else none, fun x => if x = 1 then some 2 else none, some 1⟩
    let t : BinaryTree Nat := node 1 (node 0 nil nil) (node 2 nil nil)
    s.Holds t ∧ (rbFirst s 3).bind (rbWalk (rbNext s 3) 3) = some [0, 1, 2] ∧
      (rbLast s 3).bind (rbWalk (rbPrev s 3) 3) = some [2, 1, 0] := by
  intro s t
  have holds : s.Holds t := ⟨by simp [s, t, Spans], by decide⟩
  obtain ⟨next, prev, -⟩ := rb_inorder_walks holds (show t.numNodes ≤ 3 by decide)
  exact ⟨holds, next, prev⟩

end LinuxKernel
