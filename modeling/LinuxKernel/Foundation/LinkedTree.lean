import Mathlib.Data.Tree.Basic
import Mathlib.Data.List.Nodup

/-!
# Binary trees over child and parent links

A binary tree kept in memory is a set of nodes, each with a left, a right and a parent link.
`Spans L p t link` says that the link `link`, at a place whose parent is `p`, holds the tree `t`:
every node of `t` links down to its two subtrees and back up to its parent. `inorder` reads a
tree left to right; `mirror` reads it right to left, and swapping every node's left and right
links (`TreeLinks.swap`) turns a linked tree into its mirror.
-/

namespace LinkedTree

open BinaryTree

variable {α : Type}

/-- The nodes of a tree in order: the left subtree, the node, the right subtree. -/
def inorder : BinaryTree α → List α
  | nil => []
  | node x l r => inorder l ++ x :: inorder r

@[simp] theorem inorder_nil : inorder (nil : BinaryTree α) = [] := rfl

@[simp] theorem inorder_node (x : α) (l r : BinaryTree α) :
    inorder (node x l r) = inorder l ++ x :: inorder r := rfl

/-- The tree with every node's subtrees swapped. -/
def mirror : BinaryTree α → BinaryTree α
  | nil => nil
  | node x l r => node x (mirror r) (mirror l)

@[simp] theorem mirror_nil : mirror (nil : BinaryTree α) = nil := rfl

@[simp] theorem mirror_node (x : α) (l r : BinaryTree α) :
    mirror (node x l r) = node x (mirror r) (mirror l) := rfl

theorem inorder_mirror (t : BinaryTree α) : inorder (mirror t) = (inorder t).reverse := by
  induction t with
  | nil => rfl
  | node x l r ihl ihr => simp [ihl, ihr]

@[simp] theorem height_mirror (t : BinaryTree α) : (mirror t).height = t.height := by
  induction t with
  | nil => rfl
  | node x l r ihl ihr => simp [ihl, ihr, Nat.max_comm]

def top : BinaryTree α → Option α
  | nil => none
  | node x _ _ => some x

/-- The nodes on the way down the right links from the top. -/
def rightSpine : BinaryTree α → Nat
  | nil => 0
  | node _ _ r => rightSpine r + 1

theorem height_left_lt (x : α) (l r : BinaryTree α) : l.height < (node x l r).height :=
  Nat.lt_succ_of_le (Nat.le_max_left _ _)

theorem height_right_lt (x : α) (l r : BinaryTree α) : r.height < (node x l r).height :=
  Nat.lt_succ_of_le (Nat.le_max_right _ _)

theorem rightSpine_le_height (t : BinaryTree α) : rightSpine t ≤ t.height := by
  induction t with
  | nil => exact Nat.le_refl 0
  | node x l r _ ihr =>
    simp only [rightSpine, height]
    omega

theorem getLast?_inorder (x : α) (l r : BinaryTree α) :
    (inorder (node x l r)).getLast? = (x :: inorder r).getLast? :=
  List.getLast?_append_of_ne_nil _ (List.cons_ne_nil _ _)

theorem getLast?_inorder_right (x z : α) (l l' r' : BinaryTree α) :
    (inorder (node x l (node z l' r'))).getLast? = (inorder (node z l' r')).getLast? := by
  rw [getLast?_inorder, getLast?_inorder, inorder_node, ← List.cons_append,
    List.getLast?_append_of_ne_nil _ (List.cons_ne_nil _ _)]

theorem head?_inorder_left (x z : α) (l' r' r : BinaryTree α) :
    (inorder (node x (node z l' r') r)).head? = (inorder (node z l' r')).head? :=
  List.head?_append_of_ne_nil _ (by simp)

theorem length_inorder (t : BinaryTree α) : (inorder t).length = t.numNodes := by
  induction t with
  | nil => rfl
  | node x l r ihl ihr =>
    simp only [inorder_node, List.length_append, List.length_cons, ihl, ihr, numNodes]
    omega

/-- The left, right and parent link of every node. -/
structure TreeLinks (α : Type) where
  left : α → Option α
  right : α → Option α
  parent : α → Option α

/-- Every node's left and right links swapped. -/
def TreeLinks.swap (L : TreeLinks α) : TreeLinks α := ⟨L.right, L.left, L.parent⟩

/-- The link `link`, at a place whose parent is `p`, holds the tree `t`. -/
def Spans (L : TreeLinks α) : Option α → BinaryTree α → Option α → Prop
  | _, nil, link => link = none
  | p, node x l r, link =>
    link = some x ∧ L.parent x = p ∧ Spans L (some x) l (L.left x) ∧ Spans L (some x) r (L.right x)

section Spans

variable {L L' : TreeLinks α}

@[simp] theorem spans_nil {p link : Option α} : Spans L p nil link ↔ link = none := Iff.rfl

theorem Spans.link_eq {p link : Option α} {t : BinaryTree α} (h : Spans L p t link) : link = top t := by
  cases t with
  | nil => exact h
  | node x l r => exact h.1

theorem Spans.swap {p link : Option α} {t : BinaryTree α} (h : Spans L p t link) :
    Spans L.swap p (mirror t) link := by
  induction t generalizing p link with
  | nil => exact h
  | node x l r ihl ihr =>
    obtain ⟨top, up, hl, hr⟩ := h
    exact ⟨top, up, ihr hr, ihl hl⟩

theorem Spans.congr {p link : Option α} {t : BinaryTree α} (h : Spans L p t link)
    (same : ∀ x ∈ inorder t, L'.left x = L.left x ∧ L'.right x = L.right x ∧ L'.parent x = L.parent x) :
    Spans L' p t link := by
  induction t generalizing p link with
  | nil => exact h
  | node x l r ihl ihr =>
    obtain ⟨top, up, hl, hr⟩ := h
    obtain ⟨sameLeft, sameRight, sameParent⟩ := same x (by simp)
    refine ⟨top, by rw [sameParent, up], ?_, ?_⟩
    · rw [sameLeft]
      exact ihl hl fun y mem => same y (by simp [mem])
    · rw [sameRight]
      exact ihr hr fun y mem => same y (by simp [mem])

end Spans

end LinkedTree
