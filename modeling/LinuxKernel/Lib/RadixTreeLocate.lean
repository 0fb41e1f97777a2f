import LinuxKernel.Lib.RadixTreeIter
import LinuxKernel.Lib.RadixTreeSpec

/-!
# `radix_tree_locate_item` finds the first index of an item

`__locate` scans a node in index order from a multiple of 64 (`radixTreeLocate_outcome`), and
`radix_tree_locate_item` returns the least index where the lookup finds the item, or
`ULONG_MAX` (`radixTreeLocateItem_least`).
-/

namespace LinuxKernel

open Digits

variable {α : Type}

/-! ### Slots and blocks -/

theorem radixTreeOffset_eq_of_div_eq {j index l : Nat} (same : j / 2 ^ (6 * l) = index / 2 ^ (6 * l)) :
    radixTreeOffset j l = radixTreeOffset index l := by
  apply Fin.ext
  rw [radixTreeOffset_val, radixTreeOffset_val, digit, digit, same]

theorem radixTreeLocate_skipIndex (index h : Nat) :
    (index / 2 ^ (radixTreeMapShift * h) * 2 ^ (radixTreeMapShift * h) + 2 ^ (radixTreeMapShift * h)) %
      2 ^ radixTreeIndexBits = next 6 index h % 2 ^ 64 := by
  rw [next, Nat.succ_mul]
  rfl

theorem dvd_next_succ (index h : Nat) : 64 ∣ next 6 index (h + 1) :=
  Nat.dvd_trans (Nat.pow_dvd_pow 2 (by omega : 6 ≤ 6 * (h + 1))) (two_pow_dvd_next index (h + 1))

theorem radixTreeOffset_leaf {index k : Nat} (aligned : 64 ∣ index) (lo : index ≤ k) (hi : k < index + 64) :
    (radixTreeOffset k 0).val = k - index := by
  rw [radixTreeOffset_val, digit, Nat.mul_zero, Nat.pow_zero, Nat.div_one]
  omega

theorem next_leaf {index : Nat} (aligned : 64 ∣ index) : next 6 index 1 = index + 64 := by
  rw [next]
  omega

theorem find?_finRange_eq_some {n : Nat} {p : Fin n → Bool} {i : Fin n}
    (found : (List.finRange n).find? p = some i) : p i = true ∧ ∀ j : Fin n, j < i → p j = false := by
  obtain ⟨holds, m, lt, at_m, before⟩ := List.find?_eq_some_iff_getElem.mp found
  rw [List.getElem_finRange] at at_m
  subst at_m
  refine ⟨holds, fun j lt_j => ?_⟩
  have := before j.val lt_j
  simp only [List.getElem_finRange, Bool.not_eq_eq_eq_not, Bool.not_true] at this
  exact this

/-! ### The slot loop -/

/-- What the slot loop of `__locate` at level `l` may return from `index`: the first slot in use
from `index`'s on, with the index moved into it, or the index past the slots it skipped, as an
`unsigned long`. -/
inductive SkipOutcome {γ : Type} (slots : Fin 64 → Option γ) (l index : Nat) : Nat ⊕ (Nat × Fin 64) → Prop
  /-- A slot in use; the index stays in `index`'s block at the level above. -/
  | slot {index' : Nat} {i : Fin 64} : index ≤ index' → index' < 2 ^ 64 → 64 ∣ index' →
      index' / 2 ^ (6 * (l + 1)) = index / 2 ^ (6 * (l + 1)) → radixTreeOffset index' l = i →
      (slots i).isSome → Set.Ico index index' ⊆ {k | slots (radixTreeOffset k l) = none} →
      SkipOutcome slots l index (.inr (index', i))
  /-- No slot in use from `index`'s up to `n`, where the block at the level above ends or the
  index wraps. -/
  | past {n : Nat} : index < n → n ≤ next 6 index (l + 1) → 64 ∣ n → (n < 2 ^ 64 ∨ 2 ^ 64 ∣ n) →
      Set.Ico index n ⊆ {k | slots (radixTreeOffset k l) = none} →
      SkipOutcome slots l index (.inl (n % 2 ^ 64))

section Skip

variable {γ : Type} {slots : Fin 64 → Option γ} {h index i : Nat}

theorem locateSkip_unused (offset : (radixTreeOffset index (h + 1)).val = i) (hi : i < 64)
    (unused : ¬(slots ⟨i, hi⟩).isSome = true) :
    Set.Ico index (next 6 index (h + 1)) ⊆ {k | slots (radixTreeOffset k (h + 1)) = none} := by
  intro k ⟨lo, hi'⟩
  have same : radixTreeOffset k (h + 1) = ⟨i, hi⟩ := by
    rw [radixTreeOffset_eq_of_div_eq (div_eq_of_lt_next lo hi')]
    exact Fin.ext offset
  simpa [same] using unused

theorem SkipOutcome.of_unused (word : index < 2 ^ 64) (offset : (radixTreeOffset index (h + 1)).val = i)
    (hi : i < 64) (unused : ¬(slots ⟨i, hi⟩).isSome = true) :
    SkipOutcome slots (h + 1) index (.inl (next 6 index (h + 1) % 2 ^ 64)) :=
  .past (lt_next index (h + 1)) (next_le_next_succ index (h + 1)) (dvd_next_succ index h)
    (next_lt_or_dvd word) (locateSkip_unused offset hi unused)

theorem SkipOutcome.skip {l index₁ : Nat} {r : Nat ⊕ (Nat × Fin 64)} (le : index ≤ index₁)
    (block : index₁ / 2 ^ (6 * (l + 1)) = index / 2 ^ (6 * (l + 1)))
    (skipped : Set.Ico index index₁ ⊆ {k | slots (radixTreeOffset k l) = none})
    (rest : SkipOutcome slots l index₁ r) : SkipOutcome slots l index r := by
  cases rest with
  | slot le' word aligned block' offset used free =>
    refine .slot (le.trans le') word aligned (block'.trans block) offset used ?_
    rw [← Set.Ico_union_Ico_eq_Ico le le']
    exact Set.union_subset skipped free
  | past lt bound aligned wrap free =>
    have sameNext : next 6 index₁ (l + 1) = next 6 index (l + 1) := by rw [next, next, block]
    refine .past (lt_of_le_of_lt le lt) (sameNext ▸ bound) aligned wrap ?_
    rw [← Set.Ico_union_Ico_eq_Ico le lt.le]
    exact Set.union_subset skipped free

theorem radixTreeLocateSkip_outcome (slots : Fin 64 → Option γ) (h : Nat) (index i : Nat) :
    (radixTreeOffset index (h + 1)).val = i → index < 2 ^ 64 → 64 ∣ index →
      SkipOutcome slots (h + 1) index (radixTreeLocateSkip slots (h + 1) index i) := by
  fun_induction radixTreeLocateSkip slots (h + 1) index i with
  | case1 index i hi used =>
    intro offset word aligned
    exact .slot le_rfl word aligned rfl (Fin.ext offset) used (by simp)
  | case2 index i hi unused index₁ _ =>
    intro offset word aligned
    rw [show index₁ = next 6 index (h + 1) % 2 ^ 64 from radixTreeLocate_skipIndex index (h + 1)]
    exact .of_unused word offset hi unused
  | case3 index i hi unused index₁ _ _ =>
    intro offset word aligned
    rw [show index₁ = next 6 index (h + 1) % 2 ^ 64 from radixTreeLocate_skipIndex index (h + 1)]
    exact .of_unused word offset hi unused
  | case4 index i hi unused index₁ moved more ih =>
    intro offset word aligned
    -- the next slot's block does not wrap, or the index would be 0
    have small : next 6 index (h + 1) < 2 ^ 64 := by
      refine (next_lt_or_dvd word).resolve_right fun wraps => moved ?_
      rw [show index₁ = next 6 index (h + 1) % 2 ^ 64 from radixTreeLocate_skipIndex index (h + 1)]
      exact Nat.mod_eq_zero_of_dvd wraps
    have step : index₁ = next 6 index (h + 1) := by
      rw [show index₁ = next 6 index (h + 1) % 2 ^ 64 from radixTreeLocate_skipIndex index (h + 1)]
      exact Nat.mod_eq_of_lt small
    have last : digit 6 index (h + 1) + 1 < 2 ^ 6 := by
      rw [← radixTreeOffset_val, offset]
      omega
    have rest := ih (by rw [step, radixTreeOffset_val, digit_next last, ← radixTreeOffset_val, offset])
      (step ▸ small) (step ▸ dvd_next_succ index h)
    rw [step] at rest ⊢
    exact rest.skip (lt_next index (h + 1)).le (next_div_succ last) (locateSkip_unused offset hi unused)
  | case5 index i hi =>
    intro offset
    exact absurd (offset ▸ (radixTreeOffset index (h + 1)).isLt) hi

end Skip

/-! ### `__locate` -/

/-- What `__locate` may return from `index`, over the indices whose lookup is `L` up to
`blockEnd`. -/
inductive LocateOutcome (L : Nat → Option α) (item : α) (index blockEnd : Nat) : Nat × Option Nat → Prop
  /-- `item` is at `j`, the first index from `index` on where it is; `__locate` returns 0. -/
  | found {j : Nat} : index ≤ j → j < blockEnd → j < 2 ^ 64 → L j = some item →
      Set.Ico index j ⊆ {k | L k ≠ some item} → LocateOutcome L item index blockEnd (0, some j)
  /-- `item` is nowhere from `index` up to `n`, and `__locate` returns `n` as an `unsigned long`. -/
  | past {n : Nat} : index < n → n ≤ blockEnd → 64 ∣ n → (n < 2 ^ 64 ∨ 2 ^ 64 ∣ n) →
      Set.Ico index n ⊆ {k | L k ≠ some item} → LocateOutcome L item index blockEnd (n % 2 ^ 64, none)

theorem LocateOutcome.extend {L L' : Nat → Option α} {item : α} {index index' e e' : Nat} {r : Nat × Option Nat}
    (le : index ≤ index') (skipped : Set.Ico index index' ⊆ {k | L k ≠ some item})
    (agree : ∀ k, index' ≤ k → k < e' → L k = L' k) (within : e' ≤ e)
    (child : LocateOutcome L' item index' e' r) : LocateOutcome L item index e r := by
  cases child with
  | found le' lt word at_j before =>
    refine .found (le.trans le') (lt_of_lt_of_le lt within) word ((agree _ le' lt).trans at_j) ?_
    rw [← Set.Ico_union_Ico_eq_Ico le le']
    refine Set.union_subset skipped fun k hk => ?_
    show L k ≠ some item
    rw [agree k hk.1 (hk.2.trans lt)]
    exact before hk
  | past lt bound aligned wrap free =>
    refine .past (lt_of_le_of_lt le lt) (bound.trans within) aligned wrap ?_
    rw [← Set.Ico_union_Ico_eq_Ico le lt.le]
    refine Set.union_subset skipped fun k hk => ?_
    show L k ≠ some item
    rw [agree k hk.1 (lt_of_lt_of_le hk.2 bound)]
    exact free hk

section Locate

variable [DecidableEq α]

theorem radixTreeLocate_leaf (item : α) (node : RadixTreeNode (RadixLevel α 0)) {index : Nat}
    (word : index < 2 ^ 64) (aligned : 64 ∣ index) :
    LocateOutcome (fun k => radixTreeLookupNode k 0 node) item index (next 6 index 1)
      (radixTreeLocate item 0 node index) := by
  rw [next_leaf aligned]
  have slotOf {k : Nat} (lo : index ≤ k) (hi : k < index + 64) :
      radixTreeOffset k 0 = ⟨k - index, by omega⟩ :=
    Fin.ext (radixTreeOffset_leaf aligned lo hi)
  unfold radixTreeLocate
  dsimp only
  cases find : (List.finRange 64).find? fun i => decide (node.slots i = some item) with
  | some i =>
    dsimp only
    obtain ⟨holds, before⟩ := find?_finRange_eq_some find
    have at_i : radixTreeOffset (index + i) 0 = i := by
      rw [slotOf (by omega) (by omega)]
      exact Fin.ext (by simp)
    refine .found (j := index + i) (by omega) (by omega) (by omega) (by simpa [at_i] using holds) ?_
    intro k ⟨lo, hi⟩
    have := before ⟨k - index, by omega⟩ (Fin.mk_lt_of_lt_val (by omega))
    simpa [slotOf lo (by omega)] using this
  | none =>
    have none_at := List.find?_eq_none.mp find
    dsimp only
    show LocateOutcome _ item index (index + 64) ((index + 64) % 2 ^ 64, none)
    refine .past (by omega) le_rfl (by omega) (by omega) ?_
    intro k _
    simpa using none_at (radixTreeOffset k 0) (List.mem_finRange _)

/-- `__locate(node, item, index, &found_index)` from an index that is a multiple of 64 finds the
first index from there on in the node's block where the lookup gives `item`, or returns where it
stopped, with `item` nowhere before. -/
theorem radixTreeLocate_outcome (item : α) : ∀ (h : Nat) (node : RadixTreeNode (RadixLevel α h)) {index : Nat},
    index < 2 ^ 64 → 64 ∣ index →
      LocateOutcome (fun k => radixTreeLookupNode k h node) item index (next 6 index (h + 1))
        (radixTreeLocate item h node index)
  | 0, node, _, word, aligned => radixTreeLocate_leaf item node word aligned
  | h + 1, node, index, word, aligned => by
    have skip := radixTreeLocateSkip_outcome node.slots h index _ rfl word aligned
    -- a slot not in use holds no index of the node
    have empty {a b : Nat} (free : Set.Ico a b ⊆ {k | node.slots (radixTreeOffset k (h + 1)) = none}) :
        Set.Ico a b ⊆ {k | radixTreeLookupNode k (h + 1) node ≠ some item} := by
      intro k hk
      have none_at : node.slots (radixTreeOffset k (h + 1)) = none := free hk
      simp [radixTreeLookupNode_succ, none_at]
    unfold radixTreeLocate
    generalize radixTreeLocateSkip node.slots (h + 1) index (radixTreeOffset index (h + 1)) = s at skip ⊢
    cases skip with
    | past lt bound aligned' wrap free => exact .past lt bound aligned' wrap (empty free)
    | @slot index' i le word' aligned' block offset used free =>
      obtain ⟨child, at_i⟩ := Option.isSome_iff_exists.mp used
      dsimp only
      rw [at_i]
      have sameNext : next 6 index' (h + 1 + 1) = next 6 index (h + 1 + 1) := by rw [next, next, block]
      refine (radixTreeLocate_outcome item h child word' aligned').extend le (empty free) ?_
        (sameNext ▸ next_le_next_succ index' (h + 1))
      -- the child's block is the slot `i` of the node
      intro k lo hi
      rw [radixTreeLookupNode_succ, radixTreeOffset_eq_of_div_eq (div_eq_of_lt_next lo hi), offset, at_i]
      rfl

end Locate

/-! ### `radix_tree_locate_item` -/

/-- `r` is the least index from `cur` on where `L` gives `item`, or there is none and `r` is
`found`. -/
def LocateResult (L : Nat → Option α) (item : α) (cur found r : Nat) : Prop :=
  IsLeast {k | cur ≤ k ∧ L k = some item} r ∨ ((∀ k, cur ≤ k → L k ≠ some item) ∧ r = found)

theorem LocateResult.extend {L : Nat → Option α} {item : α} {cur cur' found r : Nat} (le : cur ≤ cur')
    (free : Set.Ico cur cur' ⊆ {k | L k ≠ some item}) (rest : LocateResult L item cur' found r) :
    LocateResult L item cur found r := by
  rcases rest with ⟨⟨from_r, at_r⟩, lower⟩ | ⟨none_from, rfl⟩
  · refine .inl ⟨⟨le.trans from_r, at_r⟩, fun k ⟨from_k, at_k⟩ => ?_⟩
    by_cases before : k < cur'
    · exact absurd at_k (free ⟨from_k, before⟩)
    · exact lower ⟨not_lt.mp before, at_k⟩
  · refine .inr ⟨fun k from_k => ?_, rfl⟩
    by_cases before : k < cur'
    · exact free ⟨from_k, before⟩
    · exact none_from k (not_lt.mp before)

theorem radixTreeLookup_top_eq_some {h : Nat} {tags : Fin 3 → Bool} {top : RadixTreeNode (RadixLevel α h)}
    {k : Nat} {x : α} : radixTreeLookup ⟨h + 1, tags, some top⟩ k = some x ↔
      k ≤ radixTreeMaxindex (h + 1) ∧ radixTreeLookupNode k h top = some x := by
  rw [radixTreeLookup_succ]
  by_cases fits : k ≤ radixTreeMaxindex (h + 1) <;> simp [fits]

section LocateItem

variable [DecidableEq α]

/-- The loop of `radix_tree_locate_item` from a multiple of 64 ends, with the least index from
there on where the tree holds `item`, or with `found` when there is none. -/
theorem radixTreeLocateLoop_result (item : α) (h : Nat) (tags : Fin 3 → Bool)
    (top : RadixTreeNode (RadixLevel α h)) (cur found : Nat) : cur < 2 ^ 64 → 64 ∣ cur →
      ∃ r, radixTreeLocateLoop item h top cur found = some r ∧
        LocateResult (radixTreeLookup ⟨h + 1, tags, some top⟩) item cur found r := by
  -- what `__locate` passes over holds no index of the tree with `item`
  have tree {a b : Nat} (free : Set.Ico a b ⊆ {k | radixTreeLookupNode k h top ≠ some item}) :
      Set.Ico a b ⊆ {k | radixTreeLookup ⟨h + 1, tags, some top⟩ k ≠ some item} :=
    fun k hk at_k => free hk (radixTreeLookup_top_eq_some.mp at_k).2
  fun_induction radixTreeLocateLoop item h top cur found with
  | case1 cur found past =>
    intro _ _
    refine ⟨found, rfl, .inr ⟨fun k from_k => ?_, rfl⟩⟩
    rw [radixTreeLookup_of_lt (lt_of_lt_of_le past from_k)]
    simp
  | case2 cur found fits next located call found' more moved ih =>
    intro word aligned
    have outcome := radixTreeLocate_outcome item h top word aligned
    rw [call] at outcome
    cases outcome with
    | found => exact absurd rfl more.1
    | @past n lt _ aligned' wrap free =>
      -- `__locate` stopped at `n` below `2^64`: the loop goes on from there
      have small : n < 2 ^ 64 := wrap.resolve_right fun wraps => more.1 (Nat.mod_eq_zero_of_dvd wraps)
      have same : n % 2 ^ 64 = n := Nat.mod_eq_of_lt small
      obtain ⟨r, run, result⟩ := ih (Nat.mod_lt _ (by norm_num)) (by rw [same]; exact aligned')
      rw [same] at result
      exact ⟨r, run, result.extend lt.le (tree free)⟩
  | case3 cur found fits next located call more stuck =>
    intro word aligned
    have outcome := radixTreeLocate_outcome item h top word aligned
    rw [call] at outcome
    cases outcome with
    | found => exact absurd rfl more.1
    | @past n lt _ _ wrap _ =>
      have small : n < 2 ^ 64 := wrap.resolve_right fun wraps => more.1 (Nat.mod_eq_zero_of_dvd wraps)
      rw [Nat.mod_eq_of_lt small] at stuck
      exact absurd ⟨lt, small⟩ stuck
  | case4 cur found fits next located call found' stop =>
    intro word aligned
    have outcome := radixTreeLocate_outcome item h top word aligned
    rw [call] at outcome
    have top_fits := le_radixTreeMaxindex_iff.mp (not_lt.mp fits)
    cases outcome with
    | @found j le lt word' at_j before =>
      have fits_j : j ≤ radixTreeMaxindex (h + 1) :=
        le_radixTreeMaxindex_iff.mpr ⟨lt_of_lt_of_le lt (next_le top_fits.1 le_rfl), word'⟩
      refine ⟨j, rfl, .inl ⟨⟨le, radixTreeLookup_top_eq_some.mpr ⟨fits_j, at_j⟩⟩, fun k ⟨from_k, at_k⟩ => ?_⟩⟩
      by_contra below
      exact before ⟨from_k, not_le.mp below⟩ (radixTreeLookup_top_eq_some.mp at_k).2
    | @past n lt _ _ wrap free =>
      refine ⟨found, rfl, .inr ⟨fun k from_k at_k => ?_, rfl⟩⟩
      obtain ⟨fits_k, at_k'⟩ := radixTreeLookup_top_eq_some.mp at_k
      have word_k := (le_radixTreeMaxindex_iff.mp fits_k).2
      -- the loop stops where the index wraps or passes the top node, past every index it holds
      have beyond : k < n := by
        rcases wrap with small | wraps
        · rw [Nat.mod_eq_of_lt small] at stop
          have past_top : ¬n ≤ radixTreeMaxindex (h + 1) := fun le => stop ⟨by omega, le⟩
          omega
        · have : 2 ^ 64 ≤ n := Nat.le_of_dvd (by omega) wraps
          omega
      exact free ⟨from_k, beyond⟩ at_k'

/-- `radix_tree_locate_item(root, item)` ends on every tree, with the least index where
`radix_tree_lookup` finds `item`, or `ULONG_MAX` when it finds it nowhere. -/
theorem radixTreeLocateItem_least (root : RadixTreeRoot α) (item : α) :
    ∃ r, radixTreeLocateItem root item = some r ∧ LocateResult (radixTreeLookup root) item 0 ulongMax r := by
  obtain ⟨_ | h, tags, rnode⟩ := root
  · -- height 0: `rnode` is the item at index 0 itself
    refine ⟨_, rfl, ?_⟩
    by_cases at_zero : rnode = some item
    · rw [if_pos at_zero]
      exact .inl ⟨⟨le_rfl, by rw [radixTreeLookup_zero, if_pos rfl, at_zero]⟩, fun k _ => Nat.zero_le k⟩
    · rw [if_neg at_zero]
      refine .inr ⟨fun k _ => ?_, rfl⟩
      rw [radixTreeLookup_zero]
      split_ifs
      · exact at_zero
      · simp
  · cases rnode with
    | none => exact ⟨ulongMax, rfl, .inr ⟨fun k _ => by simp [radixTreeLookup_succ], rfl⟩⟩
    | some top => exact radixTreeLocateLoop_result item h tags top 0 ulongMax (by norm_num) (dvd_zero 64)

theorem radixTreeLocateItem_finds (root : RadixTreeRoot α) (item : α) :
    (∀ i, radixTreeLookup root i = some item → (∀ j, radixTreeLookup root j = some item → j = i) →
      radixTreeLocateItem root item = some i) ∧
    ((∀ i, radixTreeLookup root i ≠ some item) → radixTreeLocateItem root item = some ulongMax) := by
  obtain ⟨r, run, result⟩ := radixTreeLocateItem_least root item
  refine ⟨fun i at_i only => ?_, fun nowhere => ?_⟩
  · rcases result with ⟨⟨-, at_r⟩, -⟩ | ⟨none_at, -⟩
    · rw [run, only r at_r]
    · exact absurd at_i (none_at i (Nat.zero_le i))
  · rcases result with ⟨⟨-, at_r⟩, -⟩ | ⟨-, rfl⟩
    · exact absurd at_r (nowhere r)
    · exact run

/-- A tree of height 1 with `7` in slot 5 alone: `7` is found at 5, and `8` nowhere. -/
theorem radixTreeLocateItem_finds_slot_five :
    radixTreeLocateItem (⟨1, fun _ => false, some ⟨1, fun o => if o = 5 then some 7 else none, fun _ => 0⟩⟩ :
      RadixTreeRoot Nat) 7 = some 5 ∧
    radixTreeLocateItem (⟨1, fun _ => false, some ⟨1, fun o => if o = 5 then some 7 else none, fun _ => 0⟩⟩ :
      RadixTreeRoot Nat) 8 = some ulongMax := by
  have slot {j x : Nat} (at_j : radixTreeLookup (⟨1, fun _ => false,
      some ⟨1, fun o => if o = 5 then some 7 else none, fun _ => 0⟩⟩ : RadixTreeRoot Nat) j = some x) :
      j = 5 ∧ x = 7 := by
    obtain ⟨fits, at_j⟩ := radixTreeLookup_top_eq_some.mp at_j
    have small : j < 64 := (le_radixTreeMaxindex_iff.mp fits).1
    have offset : (radixTreeOffset j 0).val = j % 64 := by
      rw [radixTreeOffset_val, digit]
      norm_num
    simp only [radixTreeLookupNode_zero] at at_j
    split_ifs at at_j with five
    rw [five] at offset
    have seven : x = 7 := by simpa using at_j.symm
    exact ⟨by simp at offset; omega, seven⟩
  refine ⟨(radixTreeLocateItem_finds _ 7).1 5 (by decide) fun j at_j => (slot at_j).1,
    (radixTreeLocateItem_finds _ 8).2 fun i at_i => ?_⟩
  have := (slot at_i).2
  omega

end LocateItem

end LinuxKernel
