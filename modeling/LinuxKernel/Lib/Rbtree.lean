import LinuxKernel.Foundation.LinkedTree

/-!
# Red-black trees

`lib/rbtree.c` and `include/linux/rbtree.h`. Each `struct rb_node` holds its parent and its color
(together in `rb_parent_color`) and its right and left child; `struct rb_root` holds the top node.
The memory is one function per field over the node addresses, `none` being `NULL`. A function
that would dereference `NULL`, or whose loop runs out of fuel, gives `none`.

The augment callbacks `func(node, data)` recompute what the caller caches in its nodes; they are
a function of the tree, the data and the node.
-/

namespace LinuxKernel

open LinkedTree

/-- `RB_RED` and `RB_BLACK`. -/
inductive RbColor where
  | red | black
  deriving DecidableEq, Repr

variable {α : Type} [DecidableEq α]

/-- The `struct rb_node` of every address and `root->rb_node`. -/
structure RbRoot (α : Type) where
  parent : α → Option α
  color : α → RbColor
  left : α → Option α
  right : α → Option α
  rbNode : Option α

namespace RbRoot

def setParent (s : RbRoot α) (x : α) (p : Option α) : RbRoot α :=
  { s with parent := Function.update s.parent x p }

/-- `rb_set_color(x, c)`, `rb_set_red(x)` and `rb_set_black(x)`. -/
def setColor (s : RbRoot α) (x : α) (c : RbColor) : RbRoot α :=
  { s with color := Function.update s.color x c }

/-- `x->rb_left = l`. -/
def setLeft (s : RbRoot α) (x : α) (l : Option α) : RbRoot α :=
  { s with left := Function.update s.left x l }

/-- `x->rb_right = r`. -/
def setRight (s : RbRoot α) (x : α) (r : Option α) : RbRoot α :=
  { s with right := Function.update s.right x r }

/-- `root->rb_node = x`. -/
def setRbNode (s : RbRoot α) (x : Option α) : RbRoot α := { s with rbNode := x }

/-- `x && rb_is_red(x)`. -/
def isRed (s : RbRoot α) : Option α → Bool
  | some x => s.color x == .red
  | none => false

/-- The links the traversals follow. -/
def links (s : RbRoot α) : TreeLinks α := ⟨s.left, s.right, s.parent⟩

/-- Every node's left and right child swapped. -/
def swap (s : RbRoot α) : RbRoot α := { s with left := s.right, right := s.left }

/-- The link to `old` from `parent`, or from the root when there is no parent, set to `new`;
`old` is the left child when it is `parent->rb_left`. -/
def changeChild (s : RbRoot α) (old : α) (new : Option α) : Option α → RbRoot α
  | some p => if s.left p = some old then s.setLeft p new else s.setRight p new
  | none => s.setRbNode new

end RbRoot

/-! ### Rotations and rebalancing -/

/-- `__rb_rotate_left(node, root)`: the right child of `node` takes its place. -/
def rbRotateLeft (s : RbRoot α) (node : α) : Option (RbRoot α) := do
  let right ← s.right node
  let parent := s.parent node
  let s := s.setRight node (s.left right)
  let s := match s.left right with
    | some rl => s.setParent rl (some node)
    | none => s
  let s := s.setLeft right (some node)
  let s := s.setParent right parent
  let s := s.changeChild node (some right) parent
  pure (s.setParent node (some right))

/-- `__rb_rotate_right(node, root)`: the left child of `node` takes its place. Unlike the left
rotation, it tests whether `node` is its parent's right child. -/
def rbRotateRight (s : RbRoot α) (node : α) : Option (RbRoot α) := do
  let left ← s.left node
  let parent := s.parent node
  let s := s.setLeft node (s.right left)
  let s := match s.right left with
    | some lr => s.setParent lr (some node)
    | none => s
  let s := s.setRight left (some node)
  let s := s.setParent left parent
  let s := match parent with
    | some p => if s.right p = some node then s.setRight p (some left) else s.setLeft p (some left)
    | none => s.setRbNode (some left)
  pure (s.setParent node (some left))

/-- The black-uncle case of `rb_insert_color` with `parent` the left child of `gparent`: a red
right child is first rotated into its parent's place, then `gparent` is rotated right. -/
def rbInsertFixLeft (s : RbRoot α) (node parent gparent : α) : Option (RbRoot α × α) := do
  let (s, parent, node) ←
    if s.right parent = some node then do
      let s ← rbRotateLeft s parent
      pure (s, node, parent)
    else pure (s, parent, node)
  let s := (s.setColor parent .black).setColor gparent .red
  let s ← rbRotateRight s gparent
  pure (s, node)

/-- The black-uncle case of `rb_insert_color` with `parent` the right child of `gparent`. -/
def rbInsertFixRight (s : RbRoot α) (node parent gparent : α) : Option (RbRoot α × α) := do
  let (s, parent, node) ←
    if s.left parent = some node then do
      let s ← rbRotateRight s parent
      pure (s, node, parent)
    else pure (s, parent, node)
  let s := (s.setColor parent .black).setColor gparent .red
  let s ← rbRotateLeft s gparent
  pure (s, node)

/-- The loop `while ((parent = rb_parent(node)) && rb_is_red(parent))` of `rb_insert_color`. -/
def rbInsertColorLoop : Nat → RbRoot α → α → Option (RbRoot α)
  | 0, _, _ => none
  | fuel + 1, s, node =>
    match s.parent node with
    | none => some s
    | some parent =>
      if s.color parent = .black then some s
      else
        match s.parent parent with
        | none => none
        | some gparent =>
          if s.left gparent = some parent then
            match s.right gparent with
            | some uncle =>
              if s.color uncle = .red then
                rbInsertColorLoop fuel (((s.setColor uncle .black).setColor parent .black).setColor gparent .red)
                  gparent
              else (rbInsertFixLeft s node parent gparent).bind fun r => rbInsertColorLoop fuel r.1 r.2
            | none => (rbInsertFixLeft s node parent gparent).bind fun r => rbInsertColorLoop fuel r.1 r.2
          else
            match s.left gparent with
            | some uncle =>
              if s.color uncle = .red then
                rbInsertColorLoop fuel (((s.setColor uncle .black).setColor parent .black).setColor gparent .red)
                  gparent
              else (rbInsertFixRight s node parent gparent).bind fun r => rbInsertColorLoop fuel r.1 r.2
            | none => (rbInsertFixRight s node parent gparent).bind fun r => rbInsertColorLoop fuel r.1 r.2

/-- `rb_insert_color(node, root)`, the loop with `fuel` rounds. -/
def rbInsertColor (fuel : Nat) (s : RbRoot α) (node : α) : Option (RbRoot α) := do
  let s ← rbInsertColorLoop fuel s node
  let top ← s.rbNode
  pure (s.setColor top .black)

/-- The pointer `rb_link_node` writes: `root->rb_node`, or a child link of a node. -/
inductive RbLink (α : Type) where
  | root
  | left (p : α)
  | right (p : α)
  deriving DecidableEq, Repr

/-- `rb_link_node(node, parent, rb_link)`: `node` red, childless, under `parent`, and stored
at `rb_link`. -/
def rbLinkNode (s : RbRoot α) (node : α) (parent : Option α) (link : RbLink α) : RbRoot α :=
  let s := ((((s.setParent node parent).setColor node .red)).setLeft node none).setRight node none
  match link with
  | .root => s.setRbNode (some node)
  | .left p => s.setLeft p (some node)
  | .right p => s.setRight p (some node)

/-- The end of `__rb_erase_color`: `if (node) rb_set_black(node)`. -/
def rbEraseColorFinish (s : RbRoot α) : Option α → RbRoot α
  | some n => s.setColor n .black
  | none => s

/-- One round of `__rb_erase_color` with `node` the left child of `parent` and `other` its
sibling: `none` for a round that ends the loop with the tree it leaves, or the next `node` and
`parent`. -/
def rbEraseFixLeft (s : RbRoot α) (parent other : α) : Option (RbRoot α × Option (Option α × Option α)) := do
  let (s, other) ←
    if s.color other = .red then do
      let s := (s.setColor other .black).setColor parent .red
      let s ← rbRotateLeft s parent
      let other ← s.right parent
      pure (s, other)
    else pure (s, other)
  if !s.isRed (s.left other) && !s.isRed (s.right other) then
    let s := s.setColor other .red
    pure (s, some (some parent, s.parent parent))
  else do
    let (s, other) ←
      if !s.isRed (s.right other) then do
        let ol ← s.left other
        let s := (s.setColor ol .black).setColor other .red
        let s ← rbRotateRight s other
        let other ← s.right parent
        pure (s, other)
      else pure (s, other)
    let s := s.setColor other (s.color parent)
    let s := s.setColor parent .black
    let or ← s.right other
    let s := s.setColor or .black
    let s ← rbRotateLeft s parent
    pure (s, none)

/-- One round of `__rb_erase_color` with `node` the right child of `parent`. -/
def rbEraseFixRight (s : RbRoot α) (parent other : α) : Option (RbRoot α × Option (Option α × Option α)) := do
  let (s, other) ←
    if s.color other = .red then do
      let s := (s.setColor other .black).setColor parent .red
      let s ← rbRotateRight s parent
      let other ← s.left parent
      pure (s, other)
    else pure (s, other)
  if !s.isRed (s.left other) && !s.isRed (s.right other) then
    let s := s.setColor other .red
    pure (s, some (some parent, s.parent parent))
  else do
    let (s, other) ←
      if !s.isRed (s.left other) then do
        let or ← s.right other
        let s := (s.setColor or .black).setColor other .red
        let s ← rbRotateLeft s other
        let other ← s.left parent
        pure (s, other)
      else pure (s, other)
    let s := s.setColor other (s.color parent)
    let s := s.setColor parent .black
    let ol ← s.left other
    let s := s.setColor ol .black
    let s ← rbRotateRight s parent
    pure (s, none)

/-- The loop `while ((!node || rb_is_black(node)) && node != root->rb_node)` of
`__rb_erase_color`; a round that breaks out sets `node = root->rb_node`. -/
def rbEraseColorLoop : Nat → RbRoot α → Option α → Option α → Option (RbRoot α)
  | 0, _, _, _ => none
  | fuel + 1, s, node, parent =>
    if !s.isRed node && node ≠ s.rbNode then
      match parent with
      | none => none
      | some parent =>
        if s.left parent = node then
          match s.right parent with
          | none => none
          | some other =>
            (rbEraseFixLeft s parent other).bind fun
              | (s, some (node, parent)) => rbEraseColorLoop fuel s node parent
              | (s, none) => some (rbEraseColorFinish s s.rbNode)
        else
          match s.left parent with
          | none => none
          | some other =>
            (rbEraseFixRight s parent other).bind fun
              | (s, some (node, parent)) => rbEraseColorLoop fuel s node parent
              | (s, none) => some (rbEraseColorFinish s s.rbNode)
    else some (rbEraseColorFinish s node)

/-- `while (n->rb_left) n = n->rb_left;`, testing at most `fuel` nodes. -/
def rbLeftmost (s : RbRoot α) : Nat → α → Option α
  | 0, _ => none
  | fuel + 1, n =>
    match s.left n with
    | some l => rbLeftmost s fuel l
    | none => some n

/-- `while (n->rb_right) n = n->rb_right;`, testing at most `fuel` nodes. -/
def rbRightmost (s : RbRoot α) : Nat → α → Option α
  | 0, _ => none
  | fuel + 1, n =>
    match s.right n with
    | some r => rbRightmost s fuel r
    | none => some n

/-- `rb_erase(node, root)`: a node with two children is replaced by its successor, the leftmost
node of its right subtree, which takes over its links and color. -/
def rbErase (fuel : Nat) (s : RbRoot α) (node : α) : Option (RbRoot α) :=
  match s.left node, s.right node with
  | some _, some r => do
    let old := node
    let node ← rbLeftmost s fuel r
    let s := s.changeChild old (some node) (s.parent old)
    let child := s.right node
    let parent := s.parent node
    let color := s.color node
    let (s, parent) ←
      if parent = some old then pure (s, some node)
      else do
        let p ← parent
        let s := match child with
          | some c => s.setParent c parent
          | none => s
        let s := s.setLeft p child
        let s := s.setRight node (s.right old)
        let or ← s.right old
        pure (s.setParent or (some node), parent)
    let s := (s.setParent node (s.parent old)).setColor node (s.color old)
    let s := s.setLeft node (s.left old)
    let oldLeft ← s.left old
    let s := s.setParent oldLeft (some node)
    if color = .black then rbEraseColorLoop fuel s child parent else some s
  | left, right => do
    let child := match left with
      | none => right
      | some _ => left
    let parent := s.parent node
    let color := s.color node
    let s := match child with
      | some c => s.setParent c parent
      | none => s
    let s := s.changeChild node child parent
    if color = .black then rbEraseColorLoop fuel s child parent else some s

/-! ### Augmented trees -/

section Augment

variable {β : Type} (func : RbRoot α → β → α → β)

/-- `rb_augment_path(node, func, data)`: `func` at `node`, then at the other child of each
ancestor on the way up (at the left child again when the right one is `NULL`) and at the
ancestor; at most `fuel` rounds. -/
def rbAugmentPath (s : RbRoot α) : Nat → β → α → Option β
  | 0, _, _ => none
  | fuel + 1, data, node =>
    let data := func s data node
    match s.parent node with
    | none => some data
    | some parent =>
      let data :=
        if s.left parent = some node ∧ (s.right parent).isSome then
          match s.right parent with
          | some r => func s data r
          | none => data
        else
          match s.left parent with
          | some l => func s data l
          | none => data
      rbAugmentPath s fuel data parent

/-- `rb_augment_insert(node, func, data)`: the path from a child of `node` if it has one. -/
def rbAugmentInsert (s : RbRoot α) (fuel : Nat) (data : β) (node : α) : Option β :=
  let node := match s.left node, s.right node with
    | some l, _ => l
    | none, some r => r
    | none, none => node
  rbAugmentPath func s fuel data node

end Augment

/-- The loop `while ((parent = rb_parent(node)) && node == parent->rb_right) node = parent;` of
`rb_next`: the parent it stops at. -/
def rbClimbRight (s : RbRoot α) : Nat → α → Option (Option α)
  | 0, _ => none
  | fuel + 1, node =>
    match s.parent node with
    | none => some none
    | some parent => if s.right parent = some node then rbClimbRight s fuel parent else some (some parent)

/-- The loop `while ((parent = rb_parent(node)) && node == parent->rb_left) node = parent;` of
`rb_prev`. -/
def rbClimbLeft (s : RbRoot α) : Nat → α → Option (Option α)
  | 0, _ => none
  | fuel + 1, node =>
    match s.parent node with
    | none => some none
    | some parent => if s.left parent = some node then rbClimbLeft s fuel parent else some (some parent)

def rbNext (s : RbRoot α) (fuel : Nat) (node : α) : Option (Option α) :=
  if s.parent node = some node then some none
  else
    match s.right node with
    | some r => (rbLeftmost s fuel r).map some
    | none => rbClimbRight s fuel node

def rbPrev (s : RbRoot α) (fuel : Nat) (node : α) : Option (Option α) :=
  if s.parent node = some node then some none
  else
    match s.left node with
    | some l => (rbRightmost s fuel l).map some
    | none => rbClimbLeft s fuel node

def rbFirst (s : RbRoot α) (fuel : Nat) : Option (Option α) :=
  match s.rbNode with
  | none => some none
  | some n => (rbLeftmost s fuel n).map some

def rbLast (s : RbRoot α) (fuel : Nat) : Option (Option α) :=
  match s.rbNode with
  | none => some none
  | some n => (rbRightmost s fuel n).map some

/-- `for (node = first; node; node = step(node))`, as the callers of `rb_first` and `rb_next` (or
`rb_last` and `rb_prev`) walk a tree: the nodes visited, in at most `steps` rounds. -/
def rbWalk (step : α → Option (Option α)) : Nat → Option α → Option (List α)
  | _, none => some []
  | 0, some _ => none
  | steps + 1, some node => do
    let next ← step node
    let rest ← rbWalk step steps next
    pure (node :: rest)

/-- `rb_augment_erase_begin(node)`: the deepest node on the rebalance path that stays once
`node` is erased. -/
def rbAugmentEraseBegin (s : RbRoot α) (fuel : Nat) (node : α) : Option (Option α) :=
  match s.right node, s.left node with
  | none, none => some (s.parent node)
  | none, some l => some (some l)
  | some r, none => some (some r)
  | some _, some _ => do
    let deepest ← (rbNext s fuel node).bind id
    match s.right deepest with
    | some r => pure (some r)
    | none => if s.parent deepest ≠ some node then pure (s.parent deepest) else pure (some deepest)

def rbAugmentEraseEnd {β : Type} (func : RbRoot α → β → α → β) (s : RbRoot α) (fuel : Nat) (data : β) :
    Option α → Option β
  | some node => rbAugmentPath func s fuel data node
  | none => some data

/-- `rb_replace_node(victim, new, root)`: `new` takes over the place, links and color of
`victim`. -/
def rbReplaceNode (s : RbRoot α) (victim new : α) : RbRoot α :=
  let parent := s.parent victim
  let s := s.changeChild victim (some new) parent
  let s := match s.left victim with
    | some l => s.setParent l (some new)
    | none => s
  let s := match s.right victim with
    | some r => s.setParent r (some new)
    | none => s
  ((((s.setParent new (s.parent victim)).setColor new (s.color victim)).setLeft new (s.left victim))).setRight
    new (s.right victim)

end LinuxKernel
