import LinuxKernel.Lib.RadixTree
import LinuxKernel.Foundation.Digits

/-!
# The radix tree as a map

A tree stands for the map `radix_tree_lookup` reads and the tags `radixTreeItemTag` reads.
`RadixTreeRootWf` is what every operation keeps: counts, tags on used slots, interior tags iff a
tag below, root tags, bounded height. The per-level lemmas assemble into the operations' specs.
-/

namespace LinuxKernel

open Bitmap

variable {α : Type}

/-! ### Indices and heights -/

theorem radixTreeOffset_val (index h : Nat) : (radixTreeOffset index h).val = Digits.digit 6 index h :=
  Digits.shiftRight_and_eq_digit index h

theorem le_radixTreeMaxindex_iff {index h : Nat} :
    index ≤ radixTreeMaxindex h ↔ index < 2 ^ (6 * h) ∧ index < 2 ^ 64 := by
  unfold radixTreeMaxindex ulongMax radixTreeIndexBits radixTreeMapShift
  by_cases tall : 64 < h * 6
  · have big : 2 ^ 64 ≤ 2 ^ (6 * h) := Nat.pow_le_pow_right (by decide) (by omega)
    simp only [tall, if_true]
    constructor
    · intro le
      have : index < 2 ^ 64 := by omega
      exact ⟨by omega, this⟩
    · rintro ⟨-, lt⟩
      omega
  · simp only [tall, if_false]
    by_cases flat : 64 ≤ 64 - h * 6
    · rw [if_pos flat]
      have : h = 0 := by omega
      subst this
      constructor
      · intro le
        obtain rfl : index = 0 := by omega
        exact ⟨by decide, by decide⟩
      · rintro ⟨lt, -⟩
        simpa using lt
    · simp only [flat, if_false]
      have split : 2 ^ 64 = 2 ^ (6 * h) * 2 ^ (64 - h * 6) := by
        rw [← Nat.pow_add]
        congr 1
        omega
      have small : 2 ^ (6 * h) ≤ 2 ^ 64 := Nat.pow_le_pow_right (by decide) (by omega)
      rw [Nat.shiftRight_eq_div_pow, Nat.le_div_iff_mul_le (Nat.two_pow_pos _)]
      constructor
      · intro le
        have lt : index * 2 ^ (64 - h * 6) < 2 ^ (6 * h) * 2 ^ (64 - h * 6) := by omega
        have := Nat.lt_of_mul_lt_mul_right lt
        exact ⟨this, by omega⟩
      · rintro ⟨lt, -⟩
        have := Nat.mul_lt_mul_of_pos_right lt (Nat.two_pow_pos (64 - h * 6))
        omega

theorem radixTreeMaxindex_zero : radixTreeMaxindex 0 = 0 := by decide

/-- `i` and `j` take the same slot at each level up to `h`. -/
def RadixTreeSamePath (i j : Nat) : Nat → Prop
  | 0 => radixTreeOffset i 0 = radixTreeOffset j 0
  | h + 1 => radixTreeOffset i (h + 1) = radixTreeOffset j (h + 1) ∧ RadixTreeSamePath i j h

instance (i j h : Nat) : Decidable (RadixTreeSamePath i j h) := by
  induction h with
  | zero => exact inferInstanceAs (Decidable (radixTreeOffset i 0 = radixTreeOffset j 0))
  | succ h ih =>
    exact @instDecidableAnd _ _ (inferInstanceAs (Decidable (radixTreeOffset i (h + 1) = radixTreeOffset j (h + 1)))) ih

@[simp] theorem radixTreeSamePath_zero (i j : Nat) :
    RadixTreeSamePath i j 0 ↔ radixTreeOffset i 0 = radixTreeOffset j 0 := Iff.rfl

@[simp] theorem radixTreeSamePath_succ (i j h : Nat) :
    RadixTreeSamePath i j (h + 1) ↔ radixTreeOffset i (h + 1) = radixTreeOffset j (h + 1) ∧ RadixTreeSamePath i j h :=
  Iff.rfl

theorem radixTreeSamePath_refl (i h : Nat) : RadixTreeSamePath i i h := by
  induction h with
  | zero => exact rfl
  | succ h ih => exact ⟨rfl, ih⟩

theorem eq_of_radixTreeSamePath {i j h : Nat} (hi : i < 2 ^ (6 * (h + 1))) (hj : j < 2 ^ (6 * (h + 1)))
    (same : RadixTreeSamePath i j h) : i = j := by
  refine Digits.eq_of_digits hi hj fun l hl => ?_
  have digits : ∀ h, RadixTreeSamePath i j h → ∀ l ≤ h, Digits.digit 6 i l = Digits.digit 6 j l := by
    intro h
    induction h with
    | zero =>
      intro same l hl
      obtain rfl : l = 0 := by omega
      rw [← radixTreeOffset_val, ← radixTreeOffset_val, same]
    | succ h ih =>
      intro same l hl
      rcases Nat.lt_or_eq_of_le hl with lt | rfl
      · exact ih same.2 l (by omega)
      · rw [← radixTreeOffset_val, ← radixTreeOffset_val, same.1]
  exact digits h same l (by omega)

/-! ### Nodes -/

namespace RadixTreeNode

variable {γ : Type} (node : RadixTreeNode γ)

@[simp] theorem setSlot_slots_self (offset : Fin 64) (s : Option γ) : (node.setSlot offset s).slots offset = s := by
  simp [setSlot]

@[simp] theorem setSlot_slots_of_ne {offset other : Fin 64} (s : Option γ) (h : other ≠ offset) :
    (node.setSlot offset s).slots other = node.slots other := by
  simp [setSlot, h]

@[simp] theorem setSlot_tags (offset : Fin 64) (s : Option γ) : (node.setSlot offset s).tags = node.tags := rfl

@[simp] theorem setSlot_count (offset : Fin 64) (s : Option γ) : (node.setSlot offset s).count = node.count := rfl

@[simp] theorem setSlot_tagGet (offset : Fin 64) (s : Option γ) : (node.setSlot offset s).tagGet = node.tagGet := rfl

@[simp] theorem tagSet_slots (tag : Fin 3) (offset : Fin 64) : (node.tagSet tag offset).slots = node.slots := rfl

@[simp] theorem tagSet_count (tag : Fin 3) (offset : Fin 64) : (node.tagSet tag offset).count = node.count := rfl

@[simp] theorem tagClear_slots (tag : Fin 3) (offset : Fin 64) : (node.tagClear tag offset).slots = node.slots := rfl

@[simp] theorem tagClear_count (tag : Fin 3) (offset : Fin 64) : (node.tagClear tag offset).count = node.count := rfl

@[simp] theorem tagGet_tagSet (tag tag' : Fin 3) (offset offset' : Fin 64) :
    (node.tagSet tag offset).tagGet tag' offset' = (node.tagGet tag' offset' || decide (tag' = tag ∧ offset' = offset)) := by
  dsimp only [tagSet, tagGet]
  by_cases ht : tag' = tag
  · subst ht
    rw [Function.update_self, getLsbD_setBit]
    simp [Fin.ext_iff, eq_comm]
  · rw [Function.update_of_ne ht]
    simp [ht]

@[simp] theorem tagGet_tagClear (tag tag' : Fin 3) (offset offset' : Fin 64) :
    (node.tagClear tag offset).tagGet tag' offset' = (node.tagGet tag' offset' && !decide (tag' = tag ∧ offset' = offset)) := by
  dsimp only [tagClear, tagGet]
  by_cases ht : tag' = tag
  · subst ht
    rw [Function.update_self, getLsbD_clearBit]
    simp [Fin.ext_iff, eq_comm]
  · rw [Function.update_of_ne ht]
    simp [ht]

@[simp] theorem empty_slots (offset : Fin 64) : (empty : RadixTreeNode γ).slots offset = none := rfl

@[simp] theorem empty_count : (empty : RadixTreeNode γ).count = 0 := rfl

@[simp] theorem empty_tagGet (tag : Fin 3) (offset : Fin 64) : (empty : RadixTreeNode γ).tagGet tag offset = false := by
  simp [empty, tagGet]

theorem anyTagSet_iff (tag : Fin 3) : node.anyTagSet tag = true ↔ ∃ offset, node.tagGet tag offset = true := by
  unfold anyTagSet tagGet
  constructor
  · intro ne
    by_contra none
    push Not at none
    have zero : node.tags tag = 0 := Bitmap.ext fun m hm => by simpa using none ⟨m, hm⟩
    simp [zero] at ne
  · rintro ⟨offset, set⟩
    simp only [bne_iff_ne, ne_eq]
    rintro zero
    rw [zero] at set
    simp at set

theorem anyTagSet_eq_false_iff (tag : Fin 3) :
    node.anyTagSet tag = false ↔ ∀ offset, node.tagGet tag offset = false := by
  rw [← Bool.not_eq_true, anyTagSet_iff]
  simp

@[simp] theorem empty_anyTagSet (tag : Fin 3) : (empty : RadixTreeNode γ).anyTagSet tag = false :=
  (anyTagSet_eq_false_iff _ tag).mpr fun _ => empty_tagGet _ _

@[simp] theorem setSlot_anyTagSet (offset : Fin 64) (s : Option γ) :
    (node.setSlot offset s).anyTagSet = node.anyTagSet := rfl

theorem anyTagSet_of_tags {node' : RadixTreeNode γ} (same : node'.tags = node.tags) :
    node'.anyTagSet = node.anyTagSet := by
  funext tag
  simp [anyTagSet, same]

@[simp] theorem tagSet_anyTagSet_self (tag : Fin 3) (offset : Fin 64) : (node.tagSet tag offset).anyTagSet tag = true :=
  (anyTagSet_iff _ tag).mpr ⟨offset, by simp⟩

theorem tagSet_tags_of_ne {tag tag' : Fin 3} (offset : Fin 64) (ne : tag' ≠ tag) :
    (node.tagSet tag offset).tags tag' = node.tags tag' :=
  Function.update_of_ne ne _ _

theorem anyTagSet_congr {node' : RadixTreeNode γ} {tag : Fin 3} (same : ∀ offset, node'.tagGet tag offset = node.tagGet tag offset) :
    node'.anyTagSet tag = node.anyTagSet tag := by
  rw [Bool.eq_iff_iff, anyTagSet_iff, anyTagSet_iff]
  simp [same]

end RadixTreeNode

/-! ### Counting the slots in use -/

def radixTreeUsed {γ : Type} (node : RadixTreeNode γ) : Nat := Bitmap.count fun offset => (node.slots offset).isSome

section Used

variable {γ : Type} (node : RadixTreeNode γ)

theorem radixTreeUsed_setSlot_same {offset : Fin 64} {s : Option γ} (same : (node.slots offset).isSome = s.isSome) :
    radixTreeUsed (node.setSlot offset s) = radixTreeUsed node := by
  unfold radixTreeUsed
  congr 1
  funext other
  by_cases h : other = offset
  · subst h
    simp [same]
  · simp [h]

end Used

/-! ### The invariant -/

/-- A slot of a node above the bottom with its tag bits: `NULL` and untagged, or a node that keeps
`W`, tagged exactly as that node has each tag on some slot. -/
def RadixTreeSlotWf {γ : Type} (W : RadixTreeNode γ → Prop) (bits : Fin 3 → Bool) : Option (RadixTreeNode γ) → Prop
  | none => ∀ tag, bits tag = false
  | some child => W child ∧ ∀ tag, bits tag = child.anyTagSet tag

/-- A bottom node: it counts its slots in use and tags only those. -/
structure RadixTreeBottom {γ : Type} (node : RadixTreeNode γ) : Prop where
  count : node.count = radixTreeUsed node
  tagged : ∀ tag offset, node.tagGet tag offset = true → (node.slots offset).isSome

/-- A node above the bottom whose children keep `W`. -/
structure RadixTreeInterior {γ : Type} (W : RadixTreeNode γ → Prop) (node : RadixTreeNode (RadixTreeNode γ)) : Prop where
  count : node.count = radixTreeUsed node
  slot : ∀ offset, RadixTreeSlotWf W (fun tag => node.tagGet tag offset) (node.slots offset)

/-- A bottom node that differs from a good one only at `offset`, in its slot, its tags there and
its count, is good when its count is right and it tags slot `offset` only in use. -/
theorem RadixTreeBottom.update {γ : Type} {node node' : RadixTreeNode γ} {offset : Fin 64} (wf : RadixTreeBottom node)
    (count : node'.count = radixTreeUsed node') (slots : ∀ other, other ≠ offset → node'.slots other = node.slots other)
    (tags : ∀ tag other, other ≠ offset → node'.tagGet tag other = node.tagGet tag other)
    (slot : ∀ tag, node'.tagGet tag offset = true → (node'.slots offset).isSome) : RadixTreeBottom node' := by
  refine ⟨count, fun tag other set => ?_⟩
  by_cases same : other = offset
  · exact same ▸ slot tag (same ▸ set)
  · rw [slots other same]
    exact wf.tagged tag other ((tags tag other same).symm.trans set)

/-- A node above the bottom that differs from a good one only at `offset`, in its slot, its tags
there and its count, is good when its count is right and its slot `offset` is. -/
theorem RadixTreeInterior.update {γ : Type} {W : RadixTreeNode γ → Prop} {node node' : RadixTreeNode (RadixTreeNode γ)}
    {offset : Fin 64} (wf : RadixTreeInterior W node) (count : node'.count = radixTreeUsed node')
    (slots : ∀ other, other ≠ offset → node'.slots other = node.slots other)
    (tags : ∀ tag other, other ≠ offset → node'.tagGet tag other = node.tagGet tag other)
    (slot : RadixTreeSlotWf W (fun tag => node'.tagGet tag offset) (node'.slots offset)) : RadixTreeInterior W node' := by
  refine ⟨count, fun other => ?_⟩
  by_cases same : other = offset
  · exact same ▸ slot
  · have bits : (fun tag => node'.tagGet tag other) = fun tag => node.tagGet tag other :=
      funext fun tag => tags tag other same
    rw [bits, slots other same]
    exact wf.slot other

/-- The invariant of a node of height `h + 1`. -/
def RadixTreeNodeWf : (h : Nat) → RadixTreeNode (RadixLevel α h) → Prop
  | 0, node => RadixTreeBottom node
  | h + 1, node => RadixTreeInterior (RadixTreeNodeWf h) node

/-- The top node has no item past `ULONG_MAX`: its slots from `2^64` on are `NULL`. -/
def RadixTreeFits {γ : Type} (h : Nat) (top : RadixTreeNode γ) : Prop :=
  ∀ offset : Fin 64, 2 ^ 64 ≤ offset.val * 2 ^ (6 * h) → top.slots offset = none

/-- The invariant of a root: at height 0 a root tag only with an item; above, at most
`RADIX_TREE_MAX_PATH` high, the root's tags as a slot's over the top node, which fits. -/
def RadixTreeRootWf : RadixTreeRoot α → Prop
  | ⟨0, tags, rnode⟩ => ∀ tag, tags tag = true → rnode.isSome
  | ⟨h + 1, tags, rnode⟩ =>
    h + 1 ≤ radixTreeMaxPath ∧ RadixTreeSlotWf (RadixTreeNodeWf h) tags rnode ∧
      ∀ top : RadixTreeNode (RadixLevel α h), rnode = some top → RadixTreeFits h top

section Lookup

@[simp] theorem radixTreeLookupNode_zero (j : Nat) (node : RadixTreeNode (RadixLevel α 0)) :
    radixTreeLookupNode j 0 node = node.slots (radixTreeOffset j 0) := rfl

theorem radixTreeLookupNode_succ (j h : Nat) (node : RadixTreeNode (RadixLevel α (h + 1))) :
    radixTreeLookupNode j (h + 1) node = (node.slots (radixTreeOffset j (h + 1))).bind (radixTreeLookupNode j h) := rfl

theorem radixTreeLookupNode_of_slots {h : Nat} {node node' : RadixTreeNode (RadixLevel α h)}
    (same : node'.slots = node.slots) (j : Nat) : radixTreeLookupNode j h node' = radixTreeLookupNode j h node := by
  cases h with
  | zero => simp [same]
  | succ h => rw [radixTreeLookupNode_succ, radixTreeLookupNode_succ, same]

theorem radixTreeLookupNode_replace {h : Nat} {node node' : RadixTreeNode (RadixLevel α (h + 1))} {offset : Fin 64}
    {child child' : RadixLevel α (h + 1)} (full : node.slots offset = some child)
    (slots : node'.slots = Function.update node.slots offset (some child'))
    (same : ∀ j, radixTreeLookupNode j h child' = radixTreeLookupNode j h child) (j : Nat) :
    radixTreeLookupNode j (h + 1) node' = radixTreeLookupNode j (h + 1) node := by
  rw [radixTreeLookupNode_succ, radixTreeLookupNode_succ, slots, Function.update_apply]
  split_ifs with path
  · rw [path, full, Option.bind_some, Option.bind_some, same]
  · rfl

end Lookup

/-! ### The tags of the items -/

section BottomTag

@[simp] theorem radixTreeBottomTag_zero (j : Nat) (tag : Fin 3) (node : RadixTreeNode (RadixLevel α 0)) :
    radixTreeBottomTag j tag 0 node = node.tagGet tag (radixTreeOffset j 0) := rfl

theorem radixTreeBottomTag_succ (j : Nat) (tag : Fin 3) (h : Nat) (node : RadixTreeNode (RadixLevel α (h + 1))) :
    radixTreeBottomTag j tag (h + 1) node = (node.slots (radixTreeOffset j (h + 1))).any (radixTreeBottomTag j tag h) := by
  rw [radixTreeBottomTag]
  cases node.slots (radixTreeOffset j (h + 1)) <;> rfl

theorem radixTreeBottomTag_of_slots {h : Nat} {node node' : RadixTreeNode (RadixLevel α (h + 1))}
    (same : node'.slots = node.slots) (j : Nat) (tag : Fin 3) :
    radixTreeBottomTag j tag (h + 1) node' = radixTreeBottomTag j tag (h + 1) node := by
  rw [radixTreeBottomTag_succ, radixTreeBottomTag_succ, same]

theorem radixTreeBottomTag_setSlot (j : Nat) (tag : Fin 3) (h : Nat) (node : RadixTreeNode (RadixLevel α (h + 1)))
    (offset : Fin 64) (s : Option (RadixLevel α (h + 1))) :
    radixTreeBottomTag j tag (h + 1) (node.setSlot offset s) =
      if radixTreeOffset j (h + 1) = offset then s.any (radixTreeBottomTag j tag h)
      else radixTreeBottomTag j tag (h + 1) node := by
  rw [radixTreeBottomTag_succ, radixTreeBottomTag_succ]
  by_cases same : radixTreeOffset j (h + 1) = offset
  · rw [if_pos same, same, RadixTreeNode.setSlot_slots_self]
  · rw [if_neg same, RadixTreeNode.setSlot_slots_of_ne _ _ same]

theorem radixTreeBottomTag_of_lookup_none {j : Nat} {tag : Fin 3} :
    ∀ {h : Nat} {node : RadixTreeNode (RadixLevel α h)}, RadixTreeNodeWf h node →
      radixTreeLookupNode j h node = none → radixTreeBottomTag j tag h node = false
  | 0, node, wf, none_ => by
    rw [radixTreeBottomTag_zero]
    by_contra set
    have := wf.tagged tag _ (by simpa using set)
    rw [radixTreeLookupNode_zero] at none_
    simp [none_] at this
  | h + 1, node, wf, none_ => by
    rw [radixTreeBottomTag_succ]
    rw [radixTreeLookupNode_succ] at none_
    have slot := wf.slot (radixTreeOffset j (h + 1))
    revert none_ slot
    cases node.slots (radixTreeOffset j (h + 1)) with
    | none => intro _ _; rfl
    | some child =>
      intro none_ slot
      exact radixTreeBottomTag_of_lookup_none slot.1 none_

end BottomTag

/-! ### Insertion below a node -/

section Insert

variable {index : Nat} {item : α}

end Insert

/-! ### The root -/

section Root

/-- The tag of the item at `index`: the root's bit at height 0, the bottom node's bit above. -/
def radixTreeItemTag (root : RadixTreeRoot α) (index : Nat) (tag : Fin 3) : Bool :=
  match root with
  | ⟨0, tags, rnode⟩ => rnode.isSome && index == 0 && tags tag
  | ⟨h + 1, _, rnode⟩ => decide (index ≤ radixTreeMaxindex (h + 1)) && rnode.any (radixTreeBottomTag index tag h)

theorem radixTreeLookup_zero (tags : Fin 3 → Bool) (rnode : Option α) (j : Nat) :
    radixTreeLookup ⟨0, tags, rnode⟩ j = if j = 0 then rnode else none := by
  by_cases zero : j = 0 <;> simp [radixTreeLookup, zero, Nat.pos_iff_ne_zero]

theorem radixTreeLookup_succ (h : Nat) (tags : Fin 3 → Bool) (rnode : Option (RadixLevel α (h + 1))) (j : Nat) :
    radixTreeLookup ⟨h + 1, tags, rnode⟩ j =
      if j ≤ radixTreeMaxindex (h + 1) then rnode.bind (radixTreeLookupNode j h) else none := by
  cases rnode with
  | none => simp [radixTreeLookup]
  | some top => by_cases fits : j ≤ radixTreeMaxindex (h + 1) <;> simp [radixTreeLookup, fits]

theorem radixTreeItemTag_zero (tags : Fin 3 → Bool) (rnode : Option α) (j : Nat) (tag : Fin 3) :
    radixTreeItemTag ⟨0, tags, rnode⟩ j tag = (rnode.isSome && j == 0 && tags tag) := rfl

theorem radixTreeItemTag_succ (h : Nat) (tags : Fin 3 → Bool) (rnode : Option (RadixLevel α (h + 1))) (j : Nat)
    (tag : Fin 3) : radixTreeItemTag ⟨h + 1, tags, rnode⟩ j tag =
      (decide (j ≤ radixTreeMaxindex (h + 1)) && rnode.any (radixTreeBottomTag j tag h)) := rfl

theorem radixTreeLookup_of_lt {root : RadixTreeRoot α} {j : Nat} (past : radixTreeMaxindex root.height < j) :
    radixTreeLookup root j = none := by
  obtain ⟨_ | h, tags, rnode⟩ := root
  · rw [radixTreeMaxindex_zero] at past
    simp [radixTreeLookup_zero, Nat.pos_iff_ne_zero.mp past]
  · simp [radixTreeLookup_succ, not_le.mpr past]

theorem radixTreeItemTag_of_lt {root : RadixTreeRoot α} {j : Nat} (past : radixTreeMaxindex root.height < j)
    (tag : Fin 3) : radixTreeItemTag root j tag = false := by
  obtain ⟨_ | h, tags, rnode⟩ := root
  · rw [radixTreeMaxindex_zero] at past
    simp [radixTreeItemTag_zero, Nat.pos_iff_ne_zero.mp past]
  · simp [radixTreeItemTag_succ, not_le.mpr past]

end Root

/-! ### Growing the tree -/

section Extend

theorem radixTreeLookup_none (h : Nat) (tags : Fin 3 → Bool) (j : Nat) :
    radixTreeLookup (⟨h, tags, none⟩ : RadixTreeRoot α) j = none := by
  cases h with
  | zero => simp [radixTreeLookup_zero]
  | succ h => simp [radixTreeLookup_succ]

theorem radixTreeItemTag_none (h : Nat) (tags : Fin 3 → Bool) (j : Nat) (tag : Fin 3) :
    radixTreeItemTag (⟨h, tags, none⟩ : RadixTreeRoot α) j tag = false := by
  cases h with
  | zero => rfl
  | succ h => simp [radixTreeItemTag_succ]

end Extend

/-! ### Insertion at the root -/

section RootInsert

variable {index : Nat} {item : α}

theorem radixTreeOffset_mul_le (index h : Nat) : (radixTreeOffset index h).val * 2 ^ (6 * h) ≤ index := by
  rw [radixTreeOffset_val, Digits.digit]
  calc index / 2 ^ (6 * h) % 2 ^ 6 * 2 ^ (6 * h) ≤ index / 2 ^ (6 * h) * 2 ^ (6 * h) :=
        Nat.mul_le_mul_right _ (Nat.mod_le _ _)
    _ ≤ index := Nat.div_mul_le_self _ _

theorem RadixTreeFits.of_path {γ : Type} {h : Nat} {top top' : RadixTreeNode γ} (fits : RadixTreeFits h top)
    (word : index < 2 ^ 64) (frame : ∀ offset, offset ≠ radixTreeOffset index h → top'.slots offset = top.slots offset) :
    RadixTreeFits h top' := by
  intro offset big
  have off : offset ≠ radixTreeOffset index h := by
    rintro rfl
    have := radixTreeOffset_mul_le index h
    omega
  rw [frame offset off]
  exact fits offset big

theorem radixTreeSamePath_iff_eq {j h : Nat} (fits : index ≤ radixTreeMaxindex (h + 1))
    (fitsj : j ≤ radixTreeMaxindex (h + 1)) : RadixTreeSamePath j index h ↔ j = index :=
  ⟨eq_of_radixTreeSamePath (le_radixTreeMaxindex_iff.mp fitsj).1 (le_radixTreeMaxindex_iff.mp fits).1,
    fun same => same ▸ radixTreeSamePath_refl j h⟩

end RootInsert

/-! ### Setting a tag -/

section TagSet

variable {index : Nat} {tag : Fin 3}

theorem radixTreeTagSetNode_zero_cases {node node' : RadixTreeNode (RadixLevel α 0)} {x : α}
    (eq : radixTreeTagSetNode index tag 0 node = some (node', x)) :
    node.slots (radixTreeOffset index 0) = some x ∧ node' = node.tagSet tag (radixTreeOffset index 0) := by
  simp only [radixTreeTagSetNode] at eq
  obtain ⟨item, full, eq⟩ := Option.map_eq_some_iff.mp eq
  cases eq
  exact ⟨full, rfl⟩

theorem radixTreeTagSetNode_succ_cases {h : Nat} {node node' : RadixTreeNode (RadixLevel α (h + 1))} {x : α}
    (eq : radixTreeTagSetNode index tag (h + 1) node = some (node', x)) :
    ∃ child child', node.slots (radixTreeOffset index (h + 1)) = some child ∧
      radixTreeTagSetNode index tag h child = some (child', x) ∧
      node' = (node.tagSet tag (radixTreeOffset index (h + 1))).setSlot (radixTreeOffset index (h + 1)) (some child') := by
  simp only [radixTreeTagSetNode] at eq
  obtain ⟨child, full, eq⟩ := Option.bind_eq_some_iff.mp eq
  obtain ⟨⟨child', x'⟩, down, eq⟩ := Option.map_eq_some_iff.mp eq
  cases eq
  exact ⟨child, child', full, down, rfl⟩

theorem radixTreeTagSetNode_item : ∀ {h : Nat} {node node' : RadixTreeNode (RadixLevel α h)} {x : α},
    radixTreeTagSetNode index tag h node = some (node', x) → radixTreeLookupNode index h node = some x
  | 0, _, _, _, eq => (radixTreeTagSetNode_zero_cases eq).1
  | _ + 1, _, _, _, eq => by
    obtain ⟨child, child', full, down, -⟩ := radixTreeTagSetNode_succ_cases eq
    rw [radixTreeLookupNode_succ, full, Option.bind_some]
    exact radixTreeTagSetNode_item down

theorem radixTreeTagSetNode_isSome : ∀ {h : Nat} {node : RadixTreeNode (RadixLevel α h)},
    (radixTreeLookupNode index h node).isSome → (radixTreeTagSetNode index tag h node).isSome
  | 0, node, present => by
    simp only [radixTreeTagSetNode, Option.isSome_map]
    simpa using present
  | h + 1, node, present => by
    rw [radixTreeLookupNode_succ] at present
    simp only [radixTreeTagSetNode]
    cases full : node.slots (radixTreeOffset index (h + 1)) with
    | none => simp [full] at present
    | some child =>
      rw [full, Option.bind_some] at present
      simpa using radixTreeTagSetNode_isSome present

theorem radixTreeTagSetNode_tags {h : Nat} {node node' : RadixTreeNode (RadixLevel α h)} {x : α}
    (eq : radixTreeTagSetNode index tag h node = some (node', x)) :
    node'.tags = (node.tagSet tag (radixTreeOffset index h)).tags := by
  cases h with
  | zero => rw [(radixTreeTagSetNode_zero_cases eq).2]
  | succ h =>
    obtain ⟨-, -, -, -, rfl⟩ := radixTreeTagSetNode_succ_cases eq
    rfl

theorem radixTreeTagSetNode_slots_of_ne {h : Nat} {node node' : RadixTreeNode (RadixLevel α h)} {x : α}
    (eq : radixTreeTagSetNode index tag h node = some (node', x)) {offset : Fin 64}
    (off : offset ≠ radixTreeOffset index h) : node'.slots offset = node.slots offset := by
  cases h with
  | zero => rw [(radixTreeTagSetNode_zero_cases eq).2]; rfl
  | succ h =>
    obtain ⟨-, -, -, -, rfl⟩ := radixTreeTagSetNode_succ_cases eq
    exact RadixTreeNode.setSlot_slots_of_ne _ _ off

theorem radixTreeTagSetNode_lookup : ∀ {h : Nat} {node node' : RadixTreeNode (RadixLevel α h)} {x : α},
    radixTreeTagSetNode index tag h node = some (node', x) →
      ∀ j, radixTreeLookupNode j h node' = radixTreeLookupNode j h node
  | 0, _, _, _, eq, j => by rw [(radixTreeTagSetNode_zero_cases eq).2]; rfl
  | _ + 1, _, _, _, eq, j => by
    obtain ⟨child, child', full, down, rfl⟩ := radixTreeTagSetNode_succ_cases eq
    exact radixTreeLookupNode_replace full rfl (radixTreeTagSetNode_lookup down) j

theorem radixTreeTagSetNode_bottomTag (j : Nat) (tag' : Fin 3) : ∀ {h : Nat}
    {node node' : RadixTreeNode (RadixLevel α h)} {x : α}, radixTreeTagSetNode index tag h node = some (node', x) →
      radixTreeBottomTag j tag' h node' =
        (radixTreeBottomTag j tag' h node || decide (tag' = tag) && decide (RadixTreeSamePath j index h))
  | 0, node, _, _, eq => by
    rw [(radixTreeTagSetNode_zero_cases eq).2, radixTreeBottomTag_zero, radixTreeBottomTag_zero,
      RadixTreeNode.tagGet_tagSet]
    simp [Bool.decide_and]
  | h + 1, node, _, _, eq => by
    obtain ⟨child, child', full, down, rfl⟩ := radixTreeTagSetNode_succ_cases eq
    rw [radixTreeBottomTag_setSlot, @radixTreeBottomTag_of_slots _ _ node (node.tagSet _ _) rfl]
    split_ifs with path
    · rw [Option.any_some, radixTreeTagSetNode_bottomTag j tag' down, radixTreeBottomTag_succ, path, full,
        Option.any_some]
      simp [path]
    · simp [path]

theorem radixTreeTagSetNode_wf : ∀ {h : Nat} {node node' : RadixTreeNode (RadixLevel α h)} {x : α},
    RadixTreeNodeWf h node → radixTreeTagSetNode index tag h node = some (node', x) → RadixTreeNodeWf h node'
  | 0, node, _, _, wf, eq => by
    obtain ⟨full, rfl⟩ := radixTreeTagSetNode_zero_cases eq
    refine @RadixTreeBottom.update _ _ _ (radixTreeOffset index 0) wf (@RadixTreeBottom.count _ node wf)
      (fun _ _ => rfl) (fun tag' other ne => by simp [ne]) fun _ _ => ?_
    simp [full]
  | h + 1, node, _, _, wf, eq => by
    obtain ⟨child, child', full, down, rfl⟩ := radixTreeTagSetNode_succ_cases eq
    have slot := RadixTreeInterior.slot wf (radixTreeOffset index (h + 1))
    rw [full] at slot
    refine RadixTreeInterior.update wf ?_ (fun _ off => RadixTreeNode.setSlot_slots_of_ne _ _ off)
      (fun tag' other ne => by simp [ne]) ?_
    · rw [RadixTreeNode.setSlot_count, RadixTreeNode.tagSet_count,
        radixTreeUsed_setSlot_same _ (by simp [full]), RadixTreeInterior.count wf]
      rfl
    · rw [RadixTreeNode.setSlot_slots_self]
      refine ⟨radixTreeTagSetNode_wf slot.1 down, fun tag' => ?_⟩
      rw [RadixTreeNode.anyTagSet_of_tags _ (radixTreeTagSetNode_tags down)]
      by_cases same : tag' = tag
      · subst same
        simp
      · simp only [RadixTreeNode.setSlot_tagGet, RadixTreeNode.tagGet_tagSet, same, false_and, decide_false,
          Bool.or_false]
        rw [show node.tagGet tag' _ = child.anyTagSet tag' from slot.2 tag']
        unfold RadixTreeNode.anyTagSet
        rw [RadixTreeNode.tagSet_tags_of_ne _ _ same]

/-- `radix_tree_tag_set` on a good tree, when no `BUG_ON` fires: it returns the item at `index`,
the tree stays good, no lookup changes, and the item there, if any, gets the tag. -/
theorem radixTreeTagSet_spec {root root' : RadixTreeRoot α} {x : Option α} (wf : RadixTreeRootWf root)
    (eq : radixTreeTagSet root index tag = some (root', x)) :
    x = radixTreeLookup root index ∧ RadixTreeRootWf root' ∧ (∀ j, radixTreeLookup root' j = radixTreeLookup root j) ∧
      ∀ j tag', radixTreeItemTag root' j tag' =
        (radixTreeItemTag root j tag' || decide (j = index ∧ tag' = tag) && x.isSome) := by
  unfold radixTreeTagSet at eq
  split_ifs at eq with past
  have fits := not_lt.mp past
  obtain ⟨_ | h, tags, rnode⟩ := root
  · -- height 0: the root's bit, if there is an item
    obtain rfl : index = 0 := by simpa [radixTreeMaxindex_zero] using fits
    simp only [Option.some.injEq, Prod.mk.injEq] at eq
    obtain ⟨rfl, rfl⟩ := eq
    refine ⟨by simp [radixTreeLookup_zero], fun tag' set => ?_, fun j => ?_, fun j tag' => ?_⟩
    · split_ifs at set with full
      · exact full
      · exact wf tag' set
    · simp only [radixTreeLookup_zero]
    · rw [radixTreeItemTag_zero, radixTreeItemTag_zero]
      cases rnode with
      | none => simp
      | some item =>
        by_cases same : tag' = tag
        · subst same
          by_cases zero : j = 0 <;> simp [zero]
        · simp [same]
  · cases rnode with
    | none => cases eq
    | some top =>
      obtain ⟨⟨top', item⟩, down, eq⟩ := Option.map_eq_some_iff.mp eq
      cases eq
      obtain ⟨high, ⟨topWf, bits⟩, topFits⟩ := wf
      have word := (le_radixTreeMaxindex_iff.mp fits).2
      refine ⟨?_, ⟨high, ⟨radixTreeTagSetNode_wf topWf down, fun tag' => ?_⟩, fun _ same => ?_⟩, fun j => ?_,
        fun j tag' => ?_⟩
      · rw [radixTreeLookup_succ, if_pos fits, Option.bind_some, radixTreeTagSetNode_item down]
      · rw [RadixTreeNode.anyTagSet_of_tags _ (radixTreeTagSetNode_tags down)]
        by_cases same : tag' = tag
        · subst same
          simp
        · rw [Function.update_of_ne same, bits tag']
          unfold RadixTreeNode.anyTagSet
          rw [RadixTreeNode.tagSet_tags_of_ne _ _ same]
      · cases same
        exact (topFits top rfl).of_path word fun _ off => radixTreeTagSetNode_slots_of_ne down off
      · rw [radixTreeLookup_succ, radixTreeLookup_succ, Option.bind_some, Option.bind_some,
          radixTreeTagSetNode_lookup down]
      · rw [radixTreeItemTag_succ, radixTreeItemTag_succ, Option.any_some, Option.any_some,
          radixTreeTagSetNode_bottomTag j tag' down]
        by_cases fitsj : j ≤ radixTreeMaxindex (h + 1)
        · simp [fitsj, radixTreeSamePath_iff_eq fits fitsj, Bool.and_comm]
        · have : j ≠ index := fun same => fitsj (same ▸ fits)
          simp [fitsj, this]

theorem radixTreeTagSet_isSome {root : RadixTreeRoot α} (present : (radixTreeLookup root index).isSome) :
    (radixTreeTagSet root index tag).isSome := by
  have fits : index ≤ radixTreeMaxindex root.height := by
    by_contra past
    rw [radixTreeLookup_of_lt (not_le.mp past)] at present
    cases present
  unfold radixTreeTagSet
  rw [if_neg (not_lt.mpr fits)]
  obtain ⟨_ | h, tags, rnode⟩ := root
  · rfl
  · cases rnode with
    | none =>
      rw [radixTreeLookup_none] at present
      cases present
    | some top =>
      rw [radixTreeLookup_succ, if_pos fits, Option.bind_some] at present
      simpa using @radixTreeTagSetNode_isSome _ _ tag _ _ present

theorem radixTreeTagSet_spec_item :
    ∃ root' x, radixTreeTagSet (⟨0, fun _ => false, some 7⟩ : RadixTreeRoot Nat) 0 1 = some (root', x) ∧
      x = some 7 ∧ RadixTreeRootWf root' := by
  obtain ⟨⟨root', x⟩, eq⟩ := Option.isSome_iff_exists.mp
    (@radixTreeTagSet_isSome Nat 0 1 ⟨0, fun _ => false, some 7⟩ rfl)
  obtain ⟨hx, wf', -, -⟩ := radixTreeTagSet_spec (by simp [RadixTreeRootWf]) eq
  exact ⟨root', x, eq, hx, wf'⟩

end TagSet

/-! ### Clearing a tag -/

section TagClearStep

variable {γ : Type} (node : RadixTreeNode γ) (tag : Fin 3) (offset : Fin 64)

@[simp] theorem radixTreeTagClearStep_slots : (radixTreeTagClearStep node tag offset).1.slots = node.slots := by
  unfold radixTreeTagClearStep
  split_ifs <;> rfl

@[simp] theorem radixTreeTagClearStep_count : (radixTreeTagClearStep node tag offset).1.count = node.count := by
  unfold radixTreeTagClearStep
  split_ifs <;> rfl

@[simp] theorem radixTreeTagClearStep_tagGet (tag' : Fin 3) (offset' : Fin 64) :
    (radixTreeTagClearStep node tag offset).1.tagGet tag' offset' =
      (node.tagGet tag' offset' && !decide (tag' = tag ∧ offset' = offset)) := by
  unfold radixTreeTagClearStep
  split_ifs with set
  · exact RadixTreeNode.tagGet_tagClear _ _ _ _ _
  · by_cases here : tag' = tag ∧ offset' = offset
    · obtain ⟨rfl, rfl⟩ := here
      simp [set]
    · simp [here]

theorem radixTreeTagClearStep_up (up : (radixTreeTagClearStep node tag offset).2 = true) :
    node.anyTagSet tag = true ∧ (radixTreeTagClearStep node tag offset).1.anyTagSet tag = false := by
  unfold radixTreeTagClearStep at up ⊢
  split_ifs at up ⊢ with set
  exact ⟨(RadixTreeNode.anyTagSet_iff _ tag).mpr ⟨offset, set⟩, by simpa using up⟩

theorem radixTreeTagClearStep_stay (stay : (radixTreeTagClearStep node tag offset).2 = false) :
    (radixTreeTagClearStep node tag offset).1.anyTagSet tag = node.anyTagSet tag := by
  unfold radixTreeTagClearStep at stay ⊢
  split_ifs at stay ⊢ with set
  · have still : (node.tagClear tag offset).anyTagSet tag = true := by simpa using stay
    rw [still, (RadixTreeNode.anyTagSet_iff _ tag).mpr ⟨offset, set⟩]
  · rfl

theorem radixTreeTagClearStep_anyTagSet_of_ne {tag' : Fin 3} (ne : tag' ≠ tag) :
    (radixTreeTagClearStep node tag offset).1.anyTagSet tag' = node.anyTagSet tag' :=
  RadixTreeNode.anyTagSet_congr _ fun offset' => by simp [ne]

end TagClearStep

section TagClear

variable {index : Nat} {tag : Fin 3}

theorem radixTreeTagClearNode_zero_cases {node node' : RadixTreeNode (RadixLevel α 0)} {x : Option α} {up : Bool}
    (eq : radixTreeTagClearNode index tag 0 node = (x, node', up)) :
    (node.slots (radixTreeOffset index 0) = none ∧ x = none ∧ node' = node ∧ up = false) ∨
    ∃ item, node.slots (radixTreeOffset index 0) = some item ∧ x = some item ∧
      node' = (radixTreeTagClearStep node tag (radixTreeOffset index 0)).1 ∧
      up = (radixTreeTagClearStep node tag (radixTreeOffset index 0)).2 := by
  simp only [radixTreeTagClearNode] at eq
  split at eq
  · rename_i free
    cases eq
    exact .inl ⟨free, rfl, rfl, rfl⟩
  · rename_i item full
    obtain ⟨rfl, step⟩ := Prod.mk.inj eq
    exact .inr ⟨item, full, rfl, (Prod.ext_iff.mp step).1.symm, (Prod.ext_iff.mp step).2.symm⟩

/-- Above, it finds a `NULL` slot, or goes down the child on the path, puts back what it made of
it, and takes the step at its slot if the walk below went on. -/
theorem radixTreeTagClearNode_succ_cases {h : Nat} {node node' : RadixTreeNode (RadixLevel α (h + 1))}
    {x : Option α} {up : Bool} (eq : radixTreeTagClearNode index tag (h + 1) node = (x, node', up)) :
    (node.slots (radixTreeOffset index (h + 1)) = none ∧ x = none ∧ node' = node ∧ up = false) ∨
    (∃ child child', node.slots (radixTreeOffset index (h + 1)) = some child ∧
      radixTreeTagClearNode index tag h child = (x, child', true) ∧
      node' = (radixTreeTagClearStep (node.setSlot (radixTreeOffset index (h + 1)) (some child')) tag
        (radixTreeOffset index (h + 1))).1 ∧
      up = (radixTreeTagClearStep (node.setSlot (radixTreeOffset index (h + 1)) (some child')) tag
        (radixTreeOffset index (h + 1))).2) ∨
    (∃ child child', node.slots (radixTreeOffset index (h + 1)) = some child ∧
      radixTreeTagClearNode index tag h child = (x, child', false) ∧
      node' = node.setSlot (radixTreeOffset index (h + 1)) (some child') ∧ up = false) := by
  simp only [radixTreeTagClearNode] at eq
  split at eq
  · rename_i free
    cases eq
    exact .inl ⟨free, rfl, rfl, rfl⟩
  · rename_i child full
    split_ifs at eq with went
    · obtain ⟨rfl, step⟩ := Prod.mk.inj eq
      exact .inr (.inl ⟨child, _, full, by rw [← went], (Prod.ext_iff.mp step).1.symm, (Prod.ext_iff.mp step).2.symm⟩)
    · cases eq
      exact .inr (.inr ⟨child, _, full, by rw [← Bool.eq_false_iff.mpr went], rfl, rfl⟩)

section TagClearFacts

variable {h : Nat}

theorem radixTreeUsed_tagClearStep {γ : Type} (node : RadixTreeNode γ) (tag : Fin 3) (offset : Fin 64) :
    radixTreeUsed (radixTreeTagClearStep node tag offset).1 = radixTreeUsed node := by
  unfold radixTreeUsed
  rw [radixTreeTagClearStep_slots]

theorem radixTreeTagClearNode_item : ∀ {h : Nat} {node node' : RadixTreeNode (RadixLevel α h)} {x : Option α} {up : Bool},
    radixTreeTagClearNode index tag h node = (x, node', up) → x = radixTreeLookupNode index h node
  | 0, _, _, _, _, eq => by
    obtain ⟨free, rfl, -, -⟩ | ⟨item, full, rfl, -, -⟩ := radixTreeTagClearNode_zero_cases eq
    · exact free.symm
    · exact full.symm
  | _ + 1, _, _, _, _, eq => by
    rw [radixTreeLookupNode_succ]
    obtain ⟨free, rfl, -, -⟩ | ⟨child, _, full, down, -, -⟩ | ⟨child, _, full, down, -, -⟩ :=
      radixTreeTagClearNode_succ_cases eq
    · rw [free]
      rfl
    · rw [full, Option.bind_some]
      exact radixTreeTagClearNode_item down
    · rw [full, Option.bind_some]
      exact radixTreeTagClearNode_item down

theorem radixTreeTagClearNode_lookup : ∀ {h : Nat} {node node' : RadixTreeNode (RadixLevel α h)} {x : Option α}
    {up : Bool},
    radixTreeTagClearNode index tag h node = (x, node', up) →
      ∀ j, radixTreeLookupNode j h node' = radixTreeLookupNode j h node
  | 0, _, _, _, _, eq, j => by
    obtain ⟨-, -, rfl, -⟩ | ⟨-, -, -, rfl, -⟩ := radixTreeTagClearNode_zero_cases eq
    · rfl
    · exact radixTreeLookupNode_of_slots (radixTreeTagClearStep_slots _ _ _) j
  | _ + 1, _, _, _, _, eq, j => by
    obtain ⟨-, -, rfl, -⟩ | ⟨child, _, full, down, rfl, -⟩ | ⟨child, _, full, down, rfl, -⟩ :=
      radixTreeTagClearNode_succ_cases eq
    · rfl
    · exact radixTreeLookupNode_replace full (radixTreeTagClearStep_slots _ _ _) (radixTreeTagClearNode_lookup down) j
    · exact radixTreeLookupNode_replace full rfl (radixTreeTagClearNode_lookup down) j

theorem radixTreeTagClearNode_slots_of_ne {node node' : RadixTreeNode (RadixLevel α h)} {x : Option α} {up : Bool}
    (eq : radixTreeTagClearNode index tag h node = (x, node', up)) {offset : Fin 64}
    (off : offset ≠ radixTreeOffset index h) : node'.slots offset = node.slots offset := by
  cases h with
  | zero =>
    obtain ⟨-, -, rfl, -⟩ | ⟨-, -, -, rfl, -⟩ := radixTreeTagClearNode_zero_cases eq
    · rfl
    · rw [radixTreeTagClearStep_slots]
  | succ h =>
    obtain ⟨-, -, rfl, -⟩ | ⟨-, -, -, -, rfl, -⟩ | ⟨-, -, -, -, rfl, -⟩ := radixTreeTagClearNode_succ_cases eq
    · rfl
    · rw [radixTreeTagClearStep_slots]
      exact RadixTreeNode.setSlot_slots_of_ne _ _ off
    · exact RadixTreeNode.setSlot_slots_of_ne _ _ off

theorem radixTreeTagClearNode_anyTagSet_of_ne {node node' : RadixTreeNode (RadixLevel α h)} {x : Option α} {up : Bool}
    (eq : radixTreeTagClearNode index tag h node = (x, node', up)) {tag' : Fin 3} (ne : tag' ≠ tag) :
    node'.anyTagSet tag' = node.anyTagSet tag' := by
  cases h with
  | zero =>
    obtain ⟨-, -, rfl, -⟩ | ⟨-, -, -, rfl, -⟩ := radixTreeTagClearNode_zero_cases eq
    · rfl
    · exact radixTreeTagClearStep_anyTagSet_of_ne _ _ _ ne
  | succ h =>
    obtain ⟨-, -, rfl, -⟩ | ⟨-, -, -, -, rfl, -⟩ | ⟨-, -, -, -, rfl, -⟩ := radixTreeTagClearNode_succ_cases eq
    · rfl
    · exact radixTreeTagClearStep_anyTagSet_of_ne _ _ _ ne
    · rfl

theorem radixTreeTagClearNode_up {node node' : RadixTreeNode (RadixLevel α h)} {x : Option α} {up : Bool}
    (eq : radixTreeTagClearNode index tag h node = (x, node', up)) :
    (up = true → node.anyTagSet tag = true ∧ node'.anyTagSet tag = false) ∧
      (up = false → node'.anyTagSet tag = node.anyTagSet tag) := by
  cases h with
  | zero =>
    obtain ⟨-, -, rfl, rfl⟩ | ⟨-, -, -, rfl, rfl⟩ := radixTreeTagClearNode_zero_cases eq
    · exact ⟨fun went => (by cases went), fun _ => rfl⟩
    · exact ⟨radixTreeTagClearStep_up _ _ _, radixTreeTagClearStep_stay _ _ _⟩
  | succ h =>
    obtain ⟨-, -, rfl, rfl⟩ | ⟨-, -, -, -, rfl, rfl⟩ | ⟨-, -, -, -, rfl, rfl⟩ := radixTreeTagClearNode_succ_cases eq
    · exact ⟨fun went => (by cases went), fun _ => rfl⟩
    · exact ⟨radixTreeTagClearStep_up _ _ _, radixTreeTagClearStep_stay _ _ _⟩
    · exact ⟨fun went => (by cases went), fun _ => rfl⟩

theorem radixTreeTagClearNode_wf : ∀ {h : Nat} {node node' : RadixTreeNode (RadixLevel α h)} {x : Option α}
    {up : Bool},
    RadixTreeNodeWf h node → radixTreeTagClearNode index tag h node = (x, node', up) → RadixTreeNodeWf h node'
  | 0, node, _, _, _, wf, eq => by
    obtain ⟨-, -, rfl, -⟩ | ⟨-, -, -, rfl, -⟩ := radixTreeTagClearNode_zero_cases eq
    · exact wf
    · refine ⟨?_, fun tag' offset set => ?_⟩
      · rw [radixTreeTagClearStep_count, radixTreeUsed_tagClearStep]
        exact RadixTreeBottom.count wf
      · rw [radixTreeTagClearStep_tagGet, Bool.and_eq_true] at set
        rw [radixTreeTagClearStep_slots]
        exact RadixTreeBottom.tagged wf tag' offset set.1
  | h + 1, node, _, _, _, wf, eq => by
    obtain ⟨-, -, rfl, -⟩ | ⟨child, child', full, down, rfl, -⟩ | ⟨child, child', full, down, rfl, -⟩ :=
      radixTreeTagClearNode_succ_cases eq
    · exact wf
    · -- the walk came up from the child, which has the tag no more: its bit is cleared
      have slot := RadixTreeInterior.slot wf (radixTreeOffset index (h + 1))
      rw [full] at slot
      obtain ⟨had, gone⟩ := (radixTreeTagClearNode_up down).1 rfl
      refine @RadixTreeInterior.update _ _ _ _ (radixTreeOffset index (h + 1)) wf ?_ (fun other off => ?_)
        (fun tag' other off => ?_) ?_
      · rw [radixTreeTagClearStep_count, radixTreeUsed_tagClearStep, RadixTreeNode.setSlot_count,
          radixTreeUsed_setSlot_same _ (by simp [full]), RadixTreeInterior.count wf]
      · rw [radixTreeTagClearStep_slots]
        exact RadixTreeNode.setSlot_slots_of_ne _ _ off
      · simp [off]
      · rw [radixTreeTagClearStep_slots, RadixTreeNode.setSlot_slots_self]
        refine ⟨radixTreeTagClearNode_wf slot.1 down, fun tag' => ?_⟩
        by_cases same : tag' = tag
        · subst same
          simp [gone]
        · rw [radixTreeTagClearNode_anyTagSet_of_ne down same, ← slot.2 tag']
          simp [same]
    · -- the walk stopped below: the child has the tag as it had
      have slot := RadixTreeInterior.slot wf (radixTreeOffset index (h + 1))
      rw [full] at slot
      have kept := (radixTreeTagClearNode_up down).2 rfl
      refine @RadixTreeInterior.update _ _ _ _ (radixTreeOffset index (h + 1)) wf ?_
        (fun other off => RadixTreeNode.setSlot_slots_of_ne _ _ off) (fun _ _ _ => rfl) ?_
      · rw [RadixTreeNode.setSlot_count, radixTreeUsed_setSlot_same _ (by simp [full]), RadixTreeInterior.count wf]
      · rw [RadixTreeNode.setSlot_slots_self]
        refine ⟨radixTreeTagClearNode_wf slot.1 down, fun tag' => ?_⟩
        by_cases same : tag' = tag
        · subst same
          rw [kept]
          exact slot.2 tag'
        · rw [radixTreeTagClearNode_anyTagSet_of_ne down same]
          exact slot.2 tag'

theorem radixTreeTagClearNode_bottomTag (j : Nat) (tag' : Fin 3) : ∀ {h : Nat}
    {node node' : RadixTreeNode (RadixLevel α h)} {x : Option α} {up : Bool}, RadixTreeNodeWf h node →
    radixTreeTagClearNode index tag h node = (x, node', up) →
      radixTreeBottomTag j tag' h node' =
        (radixTreeBottomTag j tag' h node && !decide (tag' = tag ∧ RadixTreeSamePath j index h))
  | 0, node, _, _, _, wf, eq => by
    obtain ⟨free, -, rfl, -⟩ | ⟨-, -, -, rfl, -⟩ := radixTreeTagClearNode_zero_cases eq
    · -- no item at `index`, so no tag there either
      rw [radixTreeBottomTag_zero]
      by_cases here : tag' = tag ∧ RadixTreeSamePath j index 0
      · obtain ⟨rfl, same⟩ := here
        rw [radixTreeSamePath_zero] at same
        have untagged := @radixTreeBottomTag_of_lookup_none _ index tag' _ _ wf (by simpa using free)
        rw [radixTreeBottomTag_zero] at untagged
        simp [same, untagged]
      · rw [decide_eq_false here, Bool.not_false, Bool.and_true]
    · rw [radixTreeBottomTag_zero, radixTreeBottomTag_zero, radixTreeTagClearStep_tagGet]
      simp [Bool.decide_and]
  | h + 1, node, _, _, _, wf, eq => by
    obtain ⟨free, -, rfl, -⟩ | ⟨child, child', full, down, rfl, -⟩ | ⟨child, child', full, down, rfl, -⟩ :=
      radixTreeTagClearNode_succ_cases eq
    · by_cases here : tag' = tag ∧ RadixTreeSamePath j index (h + 1)
      · obtain ⟨rfl, same⟩ := here
        rw [radixTreeBottomTag_succ, same.1, free]
        rfl
      · rw [decide_eq_false here, Bool.not_false, Bool.and_true]
    all_goals
      have slot := RadixTreeInterior.slot wf (radixTreeOffset index (h + 1))
      rw [full] at slot
    · rw [radixTreeBottomTag_of_slots (radixTreeTagClearStep_slots _ _ _), radixTreeBottomTag_setSlot]
      split_ifs with path
      · rw [Option.any_some, radixTreeTagClearNode_bottomTag j tag' slot.1 down, radixTreeBottomTag_succ, path, full,
          Option.any_some]
        simp [path]
      · simp [path]
    · rw [radixTreeBottomTag_setSlot]
      split_ifs with path
      · rw [Option.any_some, radixTreeTagClearNode_bottomTag j tag' slot.1 down, radixTreeBottomTag_succ, path, full,
          Option.any_some]
        simp [path]
      · simp [path]

theorem radixTreeTagClearTop_spec {h : Nat} {tags tags' : Fin 3 → Bool} {top top' : RadixTreeNode (RadixLevel α h)}
    {x : Option α} (wf : RadixTreeRootWf ⟨h + 1, tags, some top⟩) (fits : index ≤ radixTreeMaxindex (h + 1))
    (eq : radixTreeTagClearTop index tag h tags top = (tags', top', x)) :
    x = radixTreeLookupNode index h top ∧ RadixTreeRootWf ⟨h + 1, tags', some top'⟩ ∧
      (∀ j, radixTreeLookupNode j h top' = radixTreeLookupNode j h top) ∧
      ∀ j tag', radixTreeItemTag ⟨h + 1, tags', some top'⟩ j tag' =
        (radixTreeItemTag ⟨h + 1, tags, some top⟩ j tag' && !decide (j = index ∧ tag' = tag)) := by
  unfold radixTreeTagClearTop at eq
  generalize walk : radixTreeTagClearNode index tag h top = r at eq
  obtain ⟨x', top'', up⟩ := r
  obtain ⟨rfl, rfl, rfl⟩ : (if up then Function.update tags tag false else tags) = tags' ∧ top'' = top' ∧ x' = x := by
    simpa using eq
  obtain ⟨high, ⟨topWf, bits⟩, topFits⟩ := wf
  have word := (le_radixTreeMaxindex_iff.mp fits).2
  refine ⟨radixTreeTagClearNode_item walk, ⟨high, ⟨radixTreeTagClearNode_wf topWf walk, fun tag' => ?_⟩,
    fun _ same => ?_⟩, radixTreeTagClearNode_lookup walk, fun j tag' => ?_⟩
  · by_cases same : tag' = tag
    · subst same
      obtain ⟨went, stayed⟩ := radixTreeTagClearNode_up walk
      cases up
      · rw [if_neg Bool.false_ne_true, stayed rfl, bits]
      · rw [if_pos rfl, Function.update_self, (went rfl).2]
    · rw [radixTreeTagClearNode_anyTagSet_of_ne walk same, ← bits tag']
      split_ifs
      · exact Function.update_of_ne same _ _
      · rfl
  · cases same
    exact (topFits top rfl).of_path word fun _ off => radixTreeTagClearNode_slots_of_ne walk off
  · rw [radixTreeItemTag_succ, radixTreeItemTag_succ, Option.any_some, Option.any_some,
      radixTreeTagClearNode_bottomTag j tag' topWf walk]
    by_cases fitsj : j ≤ radixTreeMaxindex (h + 1)
    · simp [fitsj, radixTreeSamePath_iff_eq fits fitsj, and_comm]
    · have : j ≠ index := fun same => fitsj (same ▸ fits)
      simp [fitsj, this]

end TagClearFacts

/-- `radix_tree_tag_clear` on a good tree: it returns the item at `index`, the tree stays good, no
lookup changes, and the item there loses the tag. -/
theorem radixTreeTagClear_spec {root : RadixTreeRoot α} (wf : RadixTreeRootWf root) :
    (radixTreeTagClear root index tag).2 = radixTreeLookup root index ∧
      RadixTreeRootWf (radixTreeTagClear root index tag).1 ∧
      (∀ j, radixTreeLookup (radixTreeTagClear root index tag).1 j = radixTreeLookup root j) ∧
      ∀ j tag', radixTreeItemTag (radixTreeTagClear root index tag).1 j tag' =
        (radixTreeItemTag root j tag' && !decide (j = index ∧ tag' = tag)) := by
  unfold radixTreeTagClear
  split_ifs with past
  · refine ⟨(radixTreeLookup_of_lt past).symm, wf, fun _ => rfl, fun j tag' => ?_⟩
    by_cases here : j = index
    · subst here
      simp [radixTreeItemTag_of_lt past]
    · simp [here]
  have fits := not_lt.mp past
  obtain ⟨_ | h, tags, _ | top⟩ := root
  · refine ⟨(radixTreeLookup_none _ _ _).symm, wf, fun _ => rfl, fun j tag' => ?_⟩
    rw [radixTreeItemTag_none, Bool.false_and]
  · obtain rfl : index = 0 := by simpa [radixTreeMaxindex_zero] using fits
    refine ⟨by simp [radixTreeLookup_zero], fun _ _ => rfl, fun j => by simp [radixTreeLookup_zero], fun j tag' => ?_⟩
    rw [radixTreeItemTag_zero, radixTreeItemTag_zero]
    by_cases same : tag' = tag
    · subst same
      by_cases zero : j = 0 <;> simp [zero]
    · simp [same]
  · refine ⟨(radixTreeLookup_none _ _ _).symm, wf, fun _ => rfl, fun j tag' => ?_⟩
    rw [radixTreeItemTag_none, Bool.false_and]
  · dsimp only
    generalize clear : radixTreeTagClearTop index tag h tags top = r
    obtain ⟨tags', top', x⟩ := r
    obtain ⟨item, wf', lookups, itemTags⟩ := radixTreeTagClearTop_spec wf fits clear
    refine ⟨?_, wf', fun j => ?_, itemTags⟩
    · rw [item, radixTreeLookup_succ, if_pos fits, Option.bind_some]
    · rw [radixTreeLookup_succ, radixTreeLookup_succ, Option.bind_some, Option.bind_some, lookups]

/-- A bottom node under the root, holding 42 at index 5 with tag 0 on it: clearing the tag
returns the item, takes the tag off and keeps the item in the tree. -/
theorem radixTreeTagClear_spec_tagged :
    ∃ root : RadixTreeRoot Nat, RadixTreeRootWf root ∧ radixTreeItemTag root 5 0 = true ∧
      (radixTreeTagClear root 5 0).2 = some 42 ∧ radixTreeItemTag (radixTreeTagClear root 5 0).1 5 0 = false ∧
      radixTreeLookup (radixTreeTagClear root 5 0).1 5 = some 42 := by
  let top : RadixTreeNode Nat :=
    ⟨1, fun o => if o = 5 then some 42 else none, fun t => if t = 0 then 0x20 else 0⟩
  let root : RadixTreeRoot Nat := ⟨1, fun t => decide (t = 0), some top⟩
  -- the node counts its one slot and tags only it; no slot of a height-1 tree is past `2^64`
  have wf : RadixTreeRootWf root :=
    ⟨by decide, ⟨⟨by decide, by decide⟩, by decide⟩, fun _ eq offset big => by
      have := offset.isLt
      norm_num at big
      omega⟩
  have tagged : radixTreeItemTag root 5 0 = true := by decide
  have found : radixTreeLookup root 5 = some 42 := by decide
  obtain ⟨item, -, lookups, tags⟩ := @radixTreeTagClear_spec Nat 5 0 root wf
  exact ⟨root, wf, tagged, by rw [item, found], by simp [tags], by rw [lookups, found]⟩

end TagClear

end LinuxKernel
