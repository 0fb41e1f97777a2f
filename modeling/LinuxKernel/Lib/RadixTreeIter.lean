import LinuxKernel.Lib.RadixTree

/-!
# Walking a radix tree in index order

`radix_tree_next_chunk`, `radix_tree_next_slot`, `radix_tree_gang_lookup(_tag)` and
`radix_tree_locate_item`; the contiguous walks are not modelled. The loops recur on the distance
to `ULONG_MAX`, and a round that would not move on gives `none`.
-/

namespace LinuxKernel

open Bitmap

variable {α : Type}

structure RadixTreeIter where
  index : Nat
  nextIndex : Nat
  tags : Nat

/-- `radix_tree_iter_init(iter, start)`; `tags` is not read before `radix_tree_next_chunk` sets it. -/
def radixTreeIterInit (start : Nat) : RadixTreeIter := ⟨0, start, 0⟩

/-- A `void **slot` of the walk: a slot of a bottom node, or `&root->rnode`, as the slots of its
node and its position in them. -/
structure RadixTreeSlot (α : Type) where
  slots : Fin 64 → Option α
  offset : Nat

/-- `*slot`. -/
def RadixTreeSlot.deref (slot : RadixTreeSlot α) : Option α :=
  if h : slot.offset < 64 then slot.slots ⟨slot.offset, h⟩ else none

/-- `slot + k`. -/
def RadixTreeSlot.add (slot : RadixTreeSlot α) (k : Nat) : RadixTreeSlot α := { slot with offset := slot.offset + k }

/-! ### `radix_tree_next_chunk` -/

/-- `while (++offset < RADIX_TREE_MAP_SIZE) if (node->slots[offset]) break;` over the `k` slots from
`offset` on: the first slot in use, or `RADIX_TREE_MAP_SIZE`. -/
def radixTreeSkipHoles {γ : Type} (slots : Fin 64 → Option γ) : Nat → Nat → Nat
  | _, 0 => 64
  | offset, k + 1 =>
    if h : offset < 64 then
      if (slots ⟨offset, h⟩).isSome then offset else radixTreeSkipHoles slots (offset + 1) k
    else 64

/-- `index &= ~((RADIX_TREE_MAP_SIZE << shift) - 1); index += offset << shift;` at
`shift = h * RADIX_TREE_MAP_SHIFT`, in an `unsigned long`: the first index of slot `offset` in the
block of `index` at height `h + 1`. -/
def radixTreeSlotStart (index h offset : Nat) : Nat :=
  (index / 2 ^ (radixTreeMapShift * (h + 1)) * 2 ^ (radixTreeMapShift * (h + 1)) +
    offset * 2 ^ (radixTreeMapShift * h)) % 2 ^ radixTreeIndexBits

/-- Where the loop of `radix_tree_next_chunk` comes to: a bottom node and its slot, a
`goto restart` from a new index, or `return NULL`. -/
inductive RadixTreeChunk (α : Type) where
  | found (index : Nat) (node : RadixTreeNode α) (offset : Fin 64)
  | restart (index : Nat)
  | done

/-- The hole test of `radix_tree_next_chunk` at the slot `offset` of a node of height `h + 1`, for
a slot not in use (or, in a tagged walk, without the tag): the walk moves on to the next slot in
use (or tagged) and `index` to its first index; past `ULONG_MAX` the walk is over, and past the
last slot it restarts from the top. -/
def radixTreeChunkSkip {γ : Type} (tag : Option (Fin 3)) (node : RadixTreeNode γ) (index h : Nat)
    (offset : Fin 64) : RadixTreeChunk α ⊕ (Nat × Fin 64) :=
  let hole := match tag with
    | some tag => !node.tagGet tag offset
    | none => (node.slots offset).isNone
  if hole then
    let next := match tag with
      | some tag => Bitmap.findNextBit (node.tags tag) (offset + 1)
      | none => radixTreeSkipHoles node.slots (offset + 1) (63 - offset)
    let index := radixTreeSlotStart index h next
    if index = 0 then .inl .done
    else if h : next < 64 then .inr (index, ⟨next, h⟩) else .inl (.restart index)
  else .inr (index, offset)

/-- The while loop of `radix_tree_next_chunk` from the slot `offset` of a node of height `h + 1`.
A tagged slot whose child is `NULL` restarts from the same index. -/
def radixTreeChunkDescend (tag : Option (Fin 3)) :
    (h : Nat) → RadixTreeNode (RadixLevel α h) → Nat → Fin 64 → RadixTreeChunk α
  | 0, node, index, offset =>
    match radixTreeChunkSkip tag node index 0 offset with
    | .inl r => r
    | .inr (index, offset) => .found index node offset
  | h + 1, node, index, offset =>
    match radixTreeChunkSkip tag node index (h + 1) offset with
    | .inl r => r
    | .inr (index, offset) =>
      match node.slots offset with
      | none => .restart index
      | some child => radixTreeChunkDescend tag h child index (radixTreeOffset index h)

/-- `radix_tree_next_chunk` from `restart:`, with the top node of height `h + 1`: the index, the
bottom node and the slot found, or `NULL`. -/
def radixTreeNextChunkFrom (tag : Option (Fin 3)) (h : Nat) (top : RadixTreeNode (RadixLevel α h)) (index : Nat) :
    Option (Option (Nat × RadixTreeNode α × Fin 64)) :=
  if hlt : index >>> (radixTreeMapShift * h) < 64 then
    match radixTreeChunkDescend tag h top index ⟨index >>> (radixTreeMapShift * h), hlt⟩ with
    | .found index node offset => some (some (index, node, offset))
    | .done => some none
    | .restart next =>
      if _more : index < next ∧ next < 2 ^ radixTreeIndexBits then radixTreeNextChunkFrom tag h top next
      else none
  else some none
termination_by 2 ^ radixTreeIndexBits - index

/-- The iterator `radix_tree_next_chunk` leaves at the slot `offset` of a bottom node found at
`index`: the chunk runs to the end of the node, and a tagged walk keeps the node's tag bits from
the slot on. -/
def radixTreeChunkIter (iter : RadixTreeIter) (tag : Option (Fin 3)) (index : Nat) (node : RadixTreeNode α)
    (offset : Fin 64) : RadixTreeIter :=
  { index := index
    nextIndex := ((index ||| radixTreeMapMask) + 1) % 2 ^ radixTreeIndexBits
    tags := match tag with
      | some tag => (node.tags tag).toNat >>> offset.val
      | none => iter.tags }

/-- `radix_tree_next_chunk(root, iter, flags)`: the iterator and the first slot of the chunk, or
`NULL` with the iterator as it was. -/
def radixTreeNextChunk (root : RadixTreeRoot α) (iter : RadixTreeIter) (tag : Option (Fin 3)) :
    Option (RadixTreeIter × Option (RadixTreeSlot α)) :=
  if (match tag with | some tag => !root.tags tag | none => false) then some (iter, none)
  else
    let index := iter.nextIndex
    if index = 0 ∧ iter.index ≠ 0 then some (iter, none)
    else
      match root with
      | ⟨0, _, some item⟩ =>
        if index = 0 then some (⟨0, 1, 1⟩, some ⟨fun offset => if offset = 0 then some item else none, 0⟩)
        else some (iter, none)
      | ⟨0, _, none⟩ => some (iter, none)
      | ⟨_ + 1, _, none⟩ => some (iter, none)
      | ⟨h + 1, _, some top⟩ =>
        (radixTreeNextChunkFrom tag h top index).map fun
          | none => (iter, none)
          | some (index, node, offset) => (radixTreeChunkIter iter tag index node offset, some ⟨node.slots, offset⟩)

/-! ### `radix_tree_next_slot` -/

/-- `__ffs(word)`: the position of the lowest set bit of a nonzero word. -/
def radixTreeFfs (word : Nat) : Nat := ((List.range 64).find? fun n => word.testBit n).getD 0

/-- `radix_tree_chunk_size(iter)`, as an `unsigned`. -/
def radixTreeChunkSize (iter : RadixTreeIter) : Nat :=
  (iter.nextIndex + 2 ^ radixTreeIndexBits - iter.index) % 2 ^ radixTreeIndexBits % 2 ^ 32

/-- The `while (size--)` loop of an untagged `radix_tree_next_slot`. -/
def radixTreeNextSlotScan (slot : RadixTreeSlot α) (iter : RadixTreeIter) : Nat → RadixTreeIter × Option (RadixTreeSlot α)
  | 0 => (iter, none)
  | size + 1 =>
    let slot := slot.add 1
    let iter := { iter with index := iter.index + 1 }
    if slot.deref.isSome then (iter, some slot) else radixTreeNextSlotScan slot iter size

/-- `radix_tree_next_slot(slot, iter, flags)`: the next slot of the chunk in use (or tagged), with
the iterator moved to it, or `NULL`. -/
def radixTreeNextSlot (slot : RadixTreeSlot α) (iter : RadixTreeIter) (tag : Option (Fin 3)) :
    RadixTreeIter × Option (RadixTreeSlot α) :=
  match tag with
  | some _ =>
    let tags := iter.tags >>> 1
    if tags &&& 1 ≠ 0 then ({ iter with tags := tags, index := iter.index + 1 }, some (slot.add 1))
    else if tags ≠ 0 then
      let offset := radixTreeFfs tags
      ({ iter with tags := tags >>> offset, index := iter.index + offset + 1 }, some (slot.add (offset + 1)))
    else ({ iter with tags := tags }, none)
  | none => radixTreeNextSlotScan slot iter ((radixTreeChunkSize iter + 2 ^ 32 - 1) % 2 ^ 32)

/-! ### Gang lookups -/

/-- The loop of `radix_tree_gang_lookup` (untagged) and `radix_tree_gang_lookup_tag` (tagged) over
`radix_tree_for_each_slot` or `radix_tree_for_each_tagged`, at `slot`: the items collected, up to
`max_items`. -/
def radixTreeGangLoop (root : RadixTreeRoot α) (tag : Option (Fin 3)) (maxItems : Nat) (iter : RadixTreeIter)
    (slot : RadixTreeSlot α) (results : List α) : Option (List α) :=
  let results := match slot.deref with
    | some item => results ++ [item]
    | none => results
  if results.length = maxItems then some results
  else
    match radixTreeNextSlot slot iter tag with
    | (next, some slot) =>
      if _more : iter.index < next.index ∧ next.index < 2 ^ radixTreeIndexBits then
        radixTreeGangLoop root tag maxItems next slot results
      else none
    | (next, none) =>
      match radixTreeNextChunk root next tag with
      | some (_, none) => some results
      | some (chunk, some slot) =>
        if _more : iter.index < chunk.index ∧ chunk.index < 2 ^ radixTreeIndexBits then
          radixTreeGangLoop root tag maxItems chunk slot results
        else none
      | none => none
termination_by 2 ^ radixTreeIndexBits - iter.index

/-- The gang lookups from `first_index`, for at most `max_items` items. -/
def radixTreeGangLookupFrom (root : RadixTreeRoot α) (tag : Option (Fin 3)) (first maxItems : Nat) :
    Option (List α) :=
  if maxItems = 0 then some []
  else
    match radixTreeNextChunk root (radixTreeIterInit first) tag with
    | some (_, none) => some []
    | some (iter, some slot) => radixTreeGangLoop root tag maxItems iter slot []
    | none => none

/-- `radix_tree_gang_lookup(root, results, first_index, max_items)`: the items it places in
`results`. -/
def radixTreeGangLookup (root : RadixTreeRoot α) (first maxItems : Nat) : Option (List α) :=
  radixTreeGangLookupFrom root none first maxItems

def radixTreeGangLookupTag (root : RadixTreeRoot α) (first maxItems : Nat) (tag : Fin 3) : Option (List α) :=
  radixTreeGangLookupFrom root (some tag) first maxItems

/-! ### `radix_tree_locate_item` -/

/-- The inner for loop of `__locate` at a node of height `h + 1`, from slot `i`: a `NULL` slot moves
`index` to the first index of the next slot, and the loop ends at a slot in use, past
`ULONG_MAX`, or past the last slot. -/
def radixTreeLocateSkip {γ : Type} (slots : Fin 64 → Option γ) (h : Nat) (index i : Nat) : Nat ⊕ (Nat × Fin 64) :=
  if hi : i < 64 then
    if (slots ⟨i, hi⟩).isSome then .inr (index, ⟨i, hi⟩)
    else
      let index := (index / 2 ^ (radixTreeMapShift * h) * 2 ^ (radixTreeMapShift * h) +
        2 ^ (radixTreeMapShift * h)) % 2 ^ radixTreeIndexBits
      if index = 0 then .inl index
      else if i + 1 = 64 then .inl index
      else radixTreeLocateSkip slots h index (i + 1)
  else .inl index
termination_by 64 - i

/-- `__locate(slot, item, index, &found_index)` from a node of height `h + 1`: the index it returns
and the index it finds `item` at. -/
def radixTreeLocate [DecidableEq α] (item : α) : (h : Nat) → RadixTreeNode (RadixLevel α h) → Nat → Nat × Option Nat
  | 0, node, index =>
    let leaf : RadixTreeNode α := node
    match (List.finRange 64).find? fun i => decide (leaf.slots i = some item) with
    | some i => (0, some (index + i))
    | none => ((index + radixTreeMapSize) % 2 ^ radixTreeIndexBits, none)
  | h + 1, node, index =>
    match radixTreeLocateSkip node.slots (h + 1) index (radixTreeOffset index (h + 1)) with
    | .inl index => (index, none)
    | .inr (index, i) =>
      match node.slots i with
      | none => (index, none)
      | some child => radixTreeLocate item h child index

/-- The do-while loop of `radix_tree_locate_item` over a top node of height `h + 1`, from
`cur_index`. -/
def radixTreeLocateLoop [DecidableEq α] (item : α) (h : Nat) (top : RadixTreeNode (RadixLevel α h))
    (cur found : Nat) : Option Nat :=
  if cur > radixTreeMaxindex (h + 1) then some found
  else
    match radixTreeLocate item h top cur with
    | (next, located) =>
      let found := located.getD found
      if next ≠ 0 ∧ next ≤ radixTreeMaxindex (h + 1) then
        if _more : cur < next ∧ next < 2 ^ radixTreeIndexBits then radixTreeLocateLoop item h top next found
        else none
      else some found
termination_by 2 ^ radixTreeIndexBits - cur

/-- `radix_tree_locate_item(root, item)`: the index of `item`, or `-1`. -/
def radixTreeLocateItem [DecidableEq α] (root : RadixTreeRoot α) (item : α) : Option Nat :=
  match root with
  | ⟨0, _, rnode⟩ =>
    let rnode : Option α := rnode
    some (if rnode = some item then 0 else ulongMax)
  | ⟨_ + 1, _, none⟩ => some ulongMax
  | ⟨h + 1, _, some top⟩ => radixTreeLocateLoop item h top 0 ulongMax

end LinuxKernel
