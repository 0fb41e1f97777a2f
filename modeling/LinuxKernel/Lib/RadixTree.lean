import LinuxKernel.Foundation.Bitmap
import LinuxKernel.Creds.Types

/-!
# Radix trees

`lib/radix-tree.c` on a 64-bit kernel: nodes of 64 slots indexed by 6-bit digits, the height of
a node the level of its type (`RadixLevel`). Nodes are values, the walks back up are the returns
of the recursion, `avail` allocations succeed before one fails, and a `BUG_ON` gives `none`.
-/

namespace LinuxKernel

open Bitmap

/-- `RADIX_TREE_MAP_SHIFT` of a kernel without `CONFIG_BASE_SMALL`. -/
def radixTreeMapShift : Nat := 6

def radixTreeMapSize : Nat := 1 <<< radixTreeMapShift

def radixTreeMapMask : Nat := radixTreeMapSize - 1

/-- `RADIX_TREE_INDEX_BITS`, and `BITS_PER_LONG`. -/
def radixTreeIndexBits : Nat := 64

def radixTreeMaxPath : Nat := (radixTreeIndexBits + radixTreeMapShift - 1) / radixTreeMapShift

def ulongMax : Nat := 2 ^ radixTreeIndexBits - 1

/-- `(index >> shift) & RADIX_TREE_MAP_MASK` with `shift = height * RADIX_TREE_MAP_SHIFT`: the
slot of `index` in its node of height `height + 1`. -/
def radixTreeOffset (index height : Nat) : Fin 64 :=
  ⟨(index >>> (radixTreeMapShift * height)) &&& radixTreeMapMask,
    Nat.lt_of_le_of_lt Nat.and_le_right (by decide)⟩

/-- `__maxindex(height)`, which fills `height_to_maxindex`: the largest index a tree of that
height holds. -/
def radixTreeMaxindex (height : Nat) : Nat :=
  let width := height * radixTreeMapShift
  if radixTreeIndexBits < width then ulongMax
  else if radixTreeIndexBits ≤ radixTreeIndexBits - width then 0
  else ulongMax >>> (radixTreeIndexBits - width)

/-- `struct radix_tree_node` whose slots hold `γ`; `tags tag` is the word `tags[tag][0]`. -/
structure RadixTreeNode (γ : Type) where
  count : Nat
  slots : Fin 64 → Option γ
  tags : Fin 3 → BitVec 64

/-- What a slot of a node of height `h + 1` holds: an item at height 1, a node of height `h`
above. -/
@[reducible] def RadixLevel (α : Type) : Nat → Type
  | 0 => α
  | h + 1 => RadixTreeNode (RadixLevel α h)

/-- `struct radix_tree_root`: its height, the tag bits it keeps in `gfp_mask`, and `rnode`. -/
structure RadixTreeRoot (α : Type) where
  height : Nat
  tags : Fin 3 → Bool
  rnode : Option (RadixLevel α height)

namespace RadixTreeNode

variable {γ : Type}

/-- A node from `radix_tree_node_alloc`: zeroed by the slab constructor, or cleared by
`radix_tree_node_rcu_free` when it was freed. -/
def empty : RadixTreeNode γ := ⟨0, fun _ => none, fun _ => 0⟩

/-- `node->slots[offset] = s`. -/
def setSlot (node : RadixTreeNode γ) (offset : Fin 64) (s : Option γ) : RadixTreeNode γ :=
  { node with slots := Function.update node.slots offset s }

def tagGet (node : RadixTreeNode γ) (tag : Fin 3) (offset : Fin 64) : Bool :=
  (node.tags tag).getLsbD offset

def tagSet (node : RadixTreeNode γ) (tag : Fin 3) (offset : Fin 64) : RadixTreeNode γ :=
  { node with tags := Function.update node.tags tag (setBit (node.tags tag) offset) }

def tagClear (node : RadixTreeNode γ) (tag : Fin 3) (offset : Fin 64) : RadixTreeNode γ :=
  { node with tags := Function.update node.tags tag (clearBit (node.tags tag) offset) }

def anyTagSet (node : RadixTreeNode γ) (tag : Fin 3) : Bool := node.tags tag != 0

end RadixTreeNode

variable {α : Type}

/-- The do-while loop of `radix_tree_lookup_element` below a node of height `h + 1`. -/
def radixTreeLookupNode (index : Nat) : (h : Nat) → RadixTreeNode (RadixLevel α h) → Option α
  | 0, node => node.slots (radixTreeOffset index 0)
  | h + 1, node => (node.slots (radixTreeOffset index (h + 1))).bind (radixTreeLookupNode index h)

def radixTreeLookup (root : RadixTreeRoot α) (index : Nat) : Option α :=
  match root with
  | ⟨0, _, rnode⟩ => if index > 0 then none else rnode
  | ⟨h + 1, _, rnode⟩ =>
    rnode.bind fun top => if index > radixTreeMaxindex (h + 1) then none else radixTreeLookupNode index h top

/-! ### Insertion -/

/-- The while loop of `radix_tree_tag_set` below a node of height `h + 1`: each node on the path
of `index` gets the tag on its slot (`if (!tag_get) tag_set` is `tag_set`), and the item at the
bottom is returned; a `NULL` slot on the way is a `BUG_ON`. -/
def radixTreeTagSetNode (index : Nat) (tag : Fin 3) :
    (h : Nat) → RadixTreeNode (RadixLevel α h) → Option (RadixTreeNode (RadixLevel α h) × α)
  | 0, node =>
    let offset := radixTreeOffset index 0
    (node.slots offset).map fun item => (node.tagSet tag offset, item)
  | h + 1, node =>
    let offset := radixTreeOffset index (h + 1)
    (node.slots offset).bind fun child =>
      (radixTreeTagSetNode index tag h child).map fun r => ((node.tagSet tag offset).setSlot offset (some r.1), r.2)

/-- `radix_tree_tag_set(root, index, tag)`, which returns the item; at height 0 the root's bit is
set only if there is one. -/
def radixTreeTagSet (root : RadixTreeRoot α) (index : Nat) (tag : Fin 3) : Option (RadixTreeRoot α × Option α) :=
  if index > radixTreeMaxindex root.height then none
  else
    match root with
    | ⟨0, tags, rnode⟩ => some (⟨0, if rnode.isSome then Function.update tags tag true else tags, rnode⟩, rnode)
    | ⟨_ + 1, _, none⟩ => none
    | ⟨h + 1, tags, some top⟩ =>
      (radixTreeTagSetNode index tag h top).map fun r => (⟨h + 1, Function.update tags tag true, some r.1⟩, some r.2)

/-- One step of the walk back up in `radix_tree_tag_clear`, at the slot `offset` of `node`: the
walk stops at a clear bit, and goes on past a node left with no slot tagged. -/
def radixTreeTagClearStep {γ : Type} (node : RadixTreeNode γ) (tag : Fin 3) (offset : Fin 64) :
    RadixTreeNode γ × Bool :=
  if node.tagGet tag offset then
    let node := node.tagClear tag offset
    (node, !node.anyTagSet tag)
  else (node, false)

/-- `radix_tree_tag_clear` below a node of height `h + 1`: the item at `index` (`NULL` leaves the
tree as it is), the node, and whether the walk back up goes on past it. -/
def radixTreeTagClearNode (index : Nat) (tag : Fin 3) :
    (h : Nat) → RadixTreeNode (RadixLevel α h) → Option α × RadixTreeNode (RadixLevel α h) × Bool
  | 0, node =>
    let offset := radixTreeOffset index 0
    match node.slots offset with
    | none => (none, node, false)
    | some item => (some item, radixTreeTagClearStep node tag offset)
  | h + 1, node =>
    let offset := radixTreeOffset index (h + 1)
    match node.slots offset with
    | none => (none, node, false)
    | some child =>
      let r := radixTreeTagClearNode index tag h child
      let node := node.setSlot offset (some r.2.1)
      if r.2.2 then (r.1, radixTreeTagClearStep node tag offset) else (r.1, node, false)

/-- `radix_tree_tag_clear(root, index, tag)` on a root of height `h + 1` with top node `top`:
the root's tags, the node, and the item. -/
def radixTreeTagClearTop (index : Nat) (tag : Fin 3) (h : Nat) (tags : Fin 3 → Bool)
    (top : RadixTreeNode (RadixLevel α h)) : (Fin 3 → Bool) × RadixTreeNode (RadixLevel α h) × Option α :=
  let r := radixTreeTagClearNode index tag h top
  (if r.2.2 then Function.update tags tag false else tags, r.2.1, r.1)

/-- `radix_tree_tag_clear(root, index, tag)`, which returns the item. -/
def radixTreeTagClear (root : RadixTreeRoot α) (index : Nat) (tag : Fin 3) : RadixTreeRoot α × Option α :=
  if index > radixTreeMaxindex root.height then (root, none)
  else
    match root with
    | ⟨0, tags, none⟩ => (⟨0, tags, none⟩, none)
    | ⟨0, tags, some item⟩ => (⟨0, Function.update tags tag false, some item⟩, some item)
    | ⟨h + 1, tags, none⟩ => (⟨h + 1, tags, none⟩, none)
    | ⟨h + 1, tags, some top⟩ =>
      let r := radixTreeTagClearTop index tag h tags top
      (⟨h + 1, r.1, some r.2.1⟩, r.2.2)

/-- The for loop of `radix_tree_tag_get` below a node of height `h + 1`. -/
def radixTreeTagGetNode (index : Nat) (tag : Fin 3) : (h : Nat) → RadixTreeNode (RadixLevel α h) → Bool
  | 0, node => node.tagGet tag (radixTreeOffset index 0)
  | h + 1, node =>
    let offset := radixTreeOffset index (h + 1)
    node.tagGet tag offset &&
      match node.slots offset with
      | none => false
      | some child => radixTreeTagGetNode index tag h child

def radixTreeTagGet (root : RadixTreeRoot α) (index : Nat) (tag : Fin 3) : Bool :=
  if !root.tags tag then false
  else
    match root with
    | ⟨0, _, rnode⟩ => rnode.isSome && index == 0
    | ⟨h + 1, _, rnode⟩ =>
      match rnode with
      | none => false
      | some top => if index > radixTreeMaxindex (h + 1) then false else radixTreeTagGetNode index tag h top

/-! ### Deletion -/

/-- `tag_get(node, tag, offset)` at the bottom node on the path of `index` below a node of height
`h + 1`. -/
def radixTreeBottomTag (index : Nat) (tag : Fin 3) : (h : Nat) → RadixTreeNode (RadixLevel α h) → Bool
  | 0, node => node.tagGet tag (radixTreeOffset index 0)
  | h + 1, node =>
    match node.slots (radixTreeOffset index (h + 1)) with
    | none => false
    | some child => radixTreeBottomTag index tag h child

/-- `node->slots[offset] = NULL; node->count--;`, and the node while its count is not zero. -/
def radixTreeRemoveSlot {γ : Type} (node : RadixTreeNode γ) (offset : Fin 64) : Option (RadixTreeNode γ) :=
  let node := { node.setSlot offset none with count := node.count - 1 }
  if node.count ≠ 0 then some node else none

/-- The loop of `radix_tree_delete` that frees the nodes left empty, below a node of height
`h + 1`: the node (`none` once freed), and whether the walk reached it. -/
def radixTreeDeleteNode (index : Nat) :
    (h : Nat) → RadixTreeNode (RadixLevel α h) → Option (RadixTreeNode (RadixLevel α h)) × Bool
  | 0, node => (radixTreeRemoveSlot node (radixTreeOffset index 0), true)
  | h + 1, node =>
    let offset := radixTreeOffset index (h + 1)
    match node.slots offset with
    | none => (some node, false)
    | some child =>
      match radixTreeDeleteNode index h child with
      | (some child, _) => (some (node.setSlot offset (some child)), false)
      | (none, _) => (radixTreeRemoveSlot node offset, true)

/-- `radix_tree_shrink(root)` from a top of height `h`: a top node whose only slot in use is
slot 0 gives its place to that slot. -/
def radixTreeShrinkAt (tags : Fin 3 → Bool) : (h : Nat) → RadixLevel α h → RadixTreeRoot α
  | 0, item => ⟨0, tags, some item⟩
  | h + 1, top =>
    let node : RadixTreeNode (RadixLevel α h) := top
    match node.count == 1, node.slots 0 with
    | true, some child => radixTreeShrinkAt tags h child
    | _, _ => ⟨h + 1, tags, some top⟩

/-- The for loop of `radix_tree_delete` that clears every tag the item carries, each by
`radix_tree_tag_clear`. -/
def radixTreeDeleteTags (index : Nat) (h : Nat) (tags : Fin 3 → Bool) (top : RadixTreeNode (RadixLevel α h)) :
    (Fin 3 → Bool) × RadixTreeNode (RadixLevel α h) :=
  [0, 1, 2].foldl (fun r tag =>
    if radixTreeBottomTag index tag h r.2 then
      let c := radixTreeTagClearTop index tag h r.1 r.2
      (c.1, c.2.1)
    else r) (tags, top)

/-- `radix_tree_delete(root, index)`, which returns the item. -/
def radixTreeDelete (root : RadixTreeRoot α) (index : Nat) : RadixTreeRoot α × Option α :=
  if index > radixTreeMaxindex root.height then (root, none)
  else
    match root with
    | ⟨0, _, rnode⟩ => (⟨0, fun _ => false, none⟩, rnode)
    | ⟨h + 1, tags, none⟩ => (⟨h + 1, tags, none⟩, none)
    | ⟨h + 1, tags, some top⟩ =>
      match radixTreeLookupNode index h top with
      | none => (⟨h + 1, tags, some top⟩, none)
      | some item =>
        let cleared := radixTreeDeleteTags index h tags top
        match radixTreeDeleteNode index h cleared.2 with
        | (none, _) => (⟨0, fun _ => false, none⟩, some item)
        | (some top, reached) =>
          (if reached then radixTreeShrinkAt cleared.1 (h + 1) top else ⟨h + 1, cleared.1, some top⟩, some item)

/-! ### Tagging a range -/

/-- `index = ((index >> shift) + 1) << shift` in an `unsigned long`, at `shift = h * 6`: the first
index of the next block at height `h + 1`, `0` past `ULONG_MAX`. -/
def radixTreeNextIndex (index h : Nat) : Nat :=
  (((index >>> (radixTreeMapShift * h)) + 1) <<< (radixTreeMapShift * h)) % 2 ^ radixTreeIndexBits

/-- The for loop of `radix_tree_range_tag_if_tagged` over the slots of a node of height `h + 1`,
from the slot of `index`, with `fuel` slots left. A slot in use with `iftag` is descended into,
or, at the bottom, gets `settag` and counts. The walk back up from a bottom node that got a tag
is the return through its ancestors: each sets its bit for the slot it came from, and the walk
stops at a bit already set. The result is the node, the index and count reached, whether the
loop broke off (rather than leaving the node past its last slot for the one above), and
whether the walk back up goes on past this node. -/
def radixTreeRangeTagNode (last nrToTag : Nat) (iftag settag : Fin 3) :
    (h fuel : Nat) → RadixTreeNode (RadixLevel α h) → (index tagged : Nat) → Bool →
      Option (RadixTreeNode (RadixLevel α h) × Nat × Nat × Bool × Bool)
  | _, 0, _, _, _, _ => none
  | 0, fuel + 1, node, index, tagged, up =>
    let offset := radixTreeOffset index 0
    let hit := (node.slots offset).isSome && node.tagGet iftag offset
    let node := if hit then node.tagSet settag offset else node
    let tagged := if hit then tagged + 1 else tagged
    let up := up || hit
    -- next:
    let index := radixTreeNextIndex index 0
    if index > last ∨ index = 0 ∨ tagged ≥ nrToTag then some (node, index, tagged, true, up)
    else if radixTreeOffset index 0 = 0 then some (node, index, tagged, false, up)
    else radixTreeRangeTagNode last nrToTag iftag settag 0 fuel node index tagged up
  | h + 1, fuel + 1, node, index, tagged, up =>
    let offset := radixTreeOffset index (h + 1)
    match node.slots offset with
    | some child =>
      if node.tagGet iftag offset then
        match radixTreeRangeTagNode last nrToTag iftag settag h radixTreeMapSize child index tagged false with
        | none => none
        | some (child, index, tagged, stopped, childUp) =>
          let node := node.setSlot offset (some child)
          let passed := childUp && !node.tagGet settag offset
          let node := if passed then node.tagSet settag offset else node
          let up := up || passed
          if stopped then some (node, index, tagged, true, up)
          -- the child left its block: go on here unless this node is done too
          else if radixTreeOffset index (h + 1) = 0 then some (node, index, tagged, false, up)
          else radixTreeRangeTagNode last nrToTag iftag settag (h + 1) fuel node index tagged up
      else
        let index := radixTreeNextIndex index (h + 1)
        if index > last ∨ index = 0 ∨ tagged ≥ nrToTag then some (node, index, tagged, true, up)
        else if radixTreeOffset index (h + 1) = 0 then some (node, index, tagged, false, up)
        else radixTreeRangeTagNode last nrToTag iftag settag (h + 1) fuel node index tagged up
    | none =>
      let index := radixTreeNextIndex index (h + 1)
      if index > last ∨ index = 0 ∨ tagged ≥ nrToTag then some (node, index, tagged, true, up)
      else if radixTreeOffset index (h + 1) = 0 then some (node, index, tagged, false, up)
      else radixTreeRangeTagNode last nrToTag iftag settag (h + 1) fuel node index tagged up
termination_by h fuel => (h, fuel)

/-- `radix_tree_range_tag_if_tagged(root, &first, last, nr_to_tag, iftag, settag)`: the root,
the new `*first_indexp`, and the number of items tagged. Leaving the top node past its last
slot would follow its `NULL` parent. -/
def radixTreeRangeTagIfTagged (root : RadixTreeRoot α) (first last nrToTag : Nat) (iftag settag : Fin 3) :
    Option (RadixTreeRoot α × Nat × Nat) :=
  let last := min last (radixTreeMaxindex root.height)
  if first > last then some (root, first, 0)
  else if nrToTag = 0 then some (root, first, 0)
  else if !root.tags iftag then some (root, (last + 1) % 2 ^ radixTreeIndexBits, 0)
  else
    match root with
    | ⟨0, tags, rnode⟩ => some (⟨0, Function.update tags settag true, rnode⟩, (last + 1) % 2 ^ radixTreeIndexBits, 1)
    | ⟨_ + 1, _, none⟩ => none
    | ⟨h + 1, tags, some top⟩ =>
      match radixTreeRangeTagNode last nrToTag iftag settag h radixTreeMapSize top first 0 false with
      | some (top, index, tagged, true, _) =>
        some (⟨h + 1, if tagged > 0 then Function.update tags settag true else tags, some top⟩, index, tagged)
      | _ => none

end LinuxKernel
