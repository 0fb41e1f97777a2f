import LinuxKernel.Lib.ListSort
import LinuxKernel.Foundation.StableMerge

/-!
# `list_sort` is the stable merge sort

Each level of `part[]` holds the stable sort of a block of consecutive nodes, and merging two
stable sorts older first is the stable sort of both (`StableMerge.merge_mergeSort_append`), so
the relinked ring runs through `List.mergeSort` of the nodes.
-/

namespace LinuxKernel

open CircularList

variable {α : Type}

/-- `cmp` orders the nodes by a total preorder: `cmp a b <= 0` is transitive and total. -/
structure CmpTotalPreorder (cmp : α → α → Int) : Prop where
  trans : ∀ a b c, cmp a b ≤ 0 → cmp b c ≤ 0 → cmp a c ≤ 0
  total : ∀ a b, cmp a b ≤ 0 ∨ cmp b a ≤ 0

/-- The blocks of the levels below `n`, the highest first. -/
def blocksDown (blocks : Nat → List α) : Nat → List α
  | 0 => []
  | n + 1 => blocks n ++ blocksDown blocks n

/-- What `part[]` holds: the stable sort of `blocks lev` at each level, no block above `max_lev`,
and `max_lev` below the sentinel. -/
structure Levels (cmp : α → α → Int) (blocks part : Nat → List α) (maxLev : Nat) : Prop where
  sorts : ∀ lev, part lev = List.mergeSort (blocks lev) (cmpLe cmp)
  above : ∀ lev, maxLev < lev → blocks lev = []
  top : maxLev < maxListLengthBits

section Sorting

variable {cmp : α → α → Int}

@[simp] theorem cmpLe_iff {a b : α} : cmpLe cmp a b = true ↔ cmp a b ≤ 0 := by
  simp [cmpLe]

theorem CmpTotalPreorder.cmpLe_trans (h : CmpTotalPreorder cmp) (a b c : α) :
    cmpLe cmp a b → cmpLe cmp b c → cmpLe cmp a c := by
  simp only [cmpLe_iff]
  exact h.trans a b c

theorem CmpTotalPreorder.cmpLe_total (h : CmpTotalPreorder cmp) (a b : α) :
    (cmpLe cmp a b || cmpLe cmp b a) = true := by
  simpa using h.total a b

theorem CmpTotalPreorder.merge_mergeSort (h : CmpTotalPreorder cmp) (xs ys : List α) :
    listSortMerge cmp (List.mergeSort xs (cmpLe cmp)) (List.mergeSort ys (cmpLe cmp)) =
      List.mergeSort (xs ++ ys) (cmpLe cmp) :=
  StableMerge.merge_mergeSort_append h.cmpLe_trans h.cmpLe_total xs ys

theorem CmpTotalPreorder.pairwise_mergeSort (h : CmpTotalPreorder cmp) (xs : List α) :
    (List.mergeSort xs (cmpLe cmp)).Pairwise fun a b => cmp a b ≤ 0 :=
  (List.pairwise_mergeSort h.cmpLe_trans h.cmpLe_total xs).imp cmpLe_iff.mp

theorem CmpTotalPreorder.sublist_mergeSort (h : CmpTotalPreorder cmp) {xs ys : List α} (sub : ys.Sublist xs)
    (ordered : ys.Pairwise fun a b => cmp a b ≤ 0) : ys.Sublist (List.mergeSort xs (cmpLe cmp)) :=
  List.sublist_mergeSort h.cmpLe_trans h.cmpLe_total (ordered.imp cmpLe_iff.mpr) sub

@[simp] theorem blocksDown_zero (blocks : Nat → List α) : blocksDown blocks 0 = [] := rfl

theorem blocksDown_succ (blocks : Nat → List α) (n : Nat) :
    blocksDown blocks (n + 1) = blocks n ++ blocksDown blocks n := rfl

theorem blocksDown_of_empty {blocks : Nat → List α} {n : Nat} (empty : ∀ lev < n, blocks lev = []) :
    blocksDown blocks n = [] := by
  induction n with
  | zero => rfl
  | succ n ih =>
    rw [blocksDown_succ, empty n (by omega), ih fun lev lt => empty lev (by omega)]
    rfl

theorem blocksDown_above {blocks : Nat → List α} {m : Nat} (empty : ∀ lev, m ≤ lev → blocks lev = [])
    {n : Nat} (le : m ≤ n) : blocksDown blocks n = blocksDown blocks m := by
  induction n, le using Nat.le_induction with
  | base => rfl
  | succ n le ih => rw [blocksDown_succ, empty n le, ih, List.nil_append]

/-- The blocks once a node `x` carried up to level `t` is stored at level `s`, which is `t` or,
at the sentinel, `t - 1`: the levels below `s` are emptied into it. -/
def storeBlock (blocks : Nat → List α) (s : Nat) (x : α) (lev : Nat) : List α :=
  if lev < s then [] else if lev = s then blocksDown blocks (s + 1) ++ [x] else blocks lev

theorem blocksDown_storeBlock (blocks : Nat → List α) (s : Nat) (x : α) {n : Nat} (lt : s < n) :
    blocksDown (storeBlock blocks s x) n = blocksDown blocks n ++ [x] := by
  induction n, lt using Nat.le_induction with
  | base =>
    have low : blocksDown (storeBlock blocks s x) s = [] :=
      blocksDown_of_empty fun lev lt => by simp [storeBlock, lt]
    rw [blocksDown_succ, low, List.append_nil]
    simp [storeBlock]
  | succ n lt ih =>
    have above : storeBlock blocks s x n = blocks n := by
      simp [storeBlock, show ¬n < s by omega, show n ≠ s by omega]
    rw [blocksDown_succ, blocksDown_succ, ih, above, List.append_assoc]

/-- The carry from level `k` with `cur` the stable sort of the blocks below `k` and the new node:
it stops at the first empty level `t` from `k` on, with the levels between emptied and `cur`
the stable sort of every block below `t` and the node. -/
theorem listSortCarry_spec (h : CmpTotalPreorder cmp) (blocks : Nat → List α) (x : α) :
    ∀ (fuel k : Nat) (part : Nat → List α),
      (∀ lev, k ≤ lev → part lev = List.mergeSort (blocks lev) (cmpLe cmp)) →
      (∃ t, k ≤ t ∧ t < k + fuel ∧ blocks t = []) →
      ∃ t, k ≤ t ∧ blocks t = [] ∧ (∀ lev, k ≤ lev → lev < t → blocks lev ≠ []) ∧
        listSortCarry cmp fuel part k (List.mergeSort (blocksDown blocks k ++ [x]) (cmpLe cmp)) =
          (fun lev => if k ≤ lev ∧ lev < t then [] else part lev, t,
            List.mergeSort (blocksDown blocks t ++ [x]) (cmpLe cmp)) := by
  intro fuel
  induction fuel with
  | zero =>
    intro k part _ stop
    obtain ⟨t, kt, tk, -⟩ := stop
    omega
  | succ fuel ih =>
    intro k part sorts stop
    rw [listSortCarry]
    by_cases full : part k ≠ []
    · -- level `k` is full: its block is merged in and the carry goes on from `k + 1`
      rw [if_pos full]
      have nonempty : blocks k ≠ [] := by
        intro empty
        rw [sorts k le_rfl, empty] at full
        exact full List.mergeSort_nil
      have merged : listSortMerge cmp (part k) (List.mergeSort (blocksDown blocks k ++ [x]) (cmpLe cmp)) =
          List.mergeSort (blocksDown blocks (k + 1) ++ [x]) (cmpLe cmp) := by
        rw [sorts k le_rfl, h.merge_mergeSort, blocksDown_succ, List.append_assoc]
      have sorts' : ∀ lev, k + 1 ≤ lev →
          Function.update part k [] lev = List.mergeSort (blocks lev) (cmpLe cmp) := by
        intro lev le
        rw [Function.update_of_ne (by omega)]
        exact sorts lev (by omega)
      have stop' : ∃ t, k + 1 ≤ t ∧ t < k + 1 + fuel ∧ blocks t = [] := by
        obtain ⟨t, kt, tk, empty⟩ := stop
        have ne : t ≠ k := by
          rintro rfl
          exact nonempty empty
        exact ⟨t, by omega, by omega, empty⟩
      obtain ⟨t, kt, empty, between, run⟩ := ih (k + 1) (Function.update part k []) sorts' stop'
      refine ⟨t, by omega, empty, ?_, ?_⟩
      · intro lev klev lt
        by_cases eq : lev = k
        · exact eq ▸ nonempty
        · exact between lev (by omega) lt
      · rw [merged, run]
        congr 1
        funext lev
        by_cases eq : lev = k
        · subst eq
          simp [show lev < t by omega]
        · simp only [Function.update_of_ne eq]
          by_cases inside : k + 1 ≤ lev ∧ lev < t
          · rw [if_pos inside, if_pos ⟨by omega, inside.2⟩]
          · rw [if_neg inside, if_neg (by omega)]
    · -- level `k` is empty: the carry stops there
      rw [if_neg full]
      have empty : blocks k = [] := by
        rw [sorts k le_rfl, not_not] at full
        exact StableMerge.mergeSort_eq_nil_iff.mp full
      refine ⟨k, le_rfl, empty, fun lev klev lt => by omega, ?_⟩
      congr 1
      funext lev
      rw [if_neg (by omega)]

theorem listSortLevel_spec {t maxLev : Nat} (le : t ≤ maxListLengthBits) (top : maxLev < maxListLengthBits) :
    let r := listSortLevel t maxLev
    (r.1 = t ∨ (t = maxListLengthBits ∧ r.1 + 1 = t)) ∧ r.2 = max maxLev r.1 ∧ r.2 < maxListLengthBits := by
  unfold listSortLevel maxListLengthBits at *
  split
  · split <;> simp <;> omega
  · simp
    omega

theorem listSortLoop_step (h : CmpTotalPreorder cmp) {blocks part : Nat → List α} {maxLev : Nat}
    (levels : Levels cmp blocks part maxLev) (x : α) :
    ∃ blocks', Levels cmp blocks'
        (match listSortCarry cmp (maxListLengthBits + 1) part 0 [x] with
          | (part, lev, cur) => Function.update part (listSortLevel lev maxLev).1 cur)
        (match listSortCarry cmp (maxListLengthBits + 1) part 0 [x] with
          | (_, lev, _) => (listSortLevel lev maxLev).2) ∧
      blocksDown blocks' ((match listSortCarry cmp (maxListLengthBits + 1) part 0 [x] with
          | (_, lev, _) => (listSortLevel lev maxLev).2) + 1) =
        blocksDown blocks (maxLev + 1) ++ [x] := by
  have sentinel : blocks maxListLengthBits = [] := levels.above _ levels.top
  obtain ⟨t, -, empty, full, run⟩ := listSortCarry_spec h blocks x (maxListLengthBits + 1) 0 part
    (fun lev _ => levels.sorts lev) ⟨maxListLengthBits, Nat.zero_le _, by omega, sentinel⟩
  have one : List.mergeSort (blocksDown blocks 0 ++ [x]) (cmpLe cmp) = [x] := by simp
  rw [one] at run
  rw [run]
  dsimp only
  -- the carry stops at the sentinel at the latest
  have tle : t ≤ maxListLengthBits := by
    by_contra gt
    exact full maxListLengthBits (Nat.zero_le _) (by omega) sentinel
  obtain ⟨where_, maxEq, topLt⟩ := listSortLevel_spec tle levels.top
  set s := (listSortLevel t maxLev).1
  set maxLev' := (listSortLevel t maxLev).2
  -- the node and every block below it end up in the block of level `s`
  have cur : List.mergeSort (blocksDown blocks t ++ [x]) (cmpLe cmp) =
      List.mergeSort (blocksDown blocks (s + 1) ++ [x]) (cmpLe cmp) := by
    rcases where_ with eq | ⟨-, eq⟩
    · rw [eq, blocksDown_succ, empty, List.nil_append]
    · rw [eq]
  refine ⟨storeBlock blocks s x, ⟨?_, ?_, topLt⟩, ?_⟩
  · intro lev
    by_cases eq : lev = s
    · subst eq
      rw [Function.update_self, cur]
      simp [storeBlock]
    · rw [Function.update_of_ne eq]
      by_cases below : lev < s
      · have inside : 0 ≤ lev ∧ lev < t := by
          rcases where_ with eq' | ⟨-, eq'⟩ <;> omega
        simp [inside, storeBlock, below]
      · have outside : ¬(0 ≤ lev ∧ lev < t) := by
          rcases where_ with eq' | ⟨-, eq'⟩ <;> omega
        simp only [outside, if_false, storeBlock, below, eq]
        exact levels.sorts lev
  · intro lev gt
    have above : storeBlock blocks s x lev = blocks lev := by
      simp [storeBlock, show ¬lev < s by omega, show lev ≠ s by omega]
    rw [above]
    exact levels.above lev (by omega)
  · rw [blocksDown_storeBlock blocks s x (by omega),
      blocksDown_above (m := maxLev + 1) (fun lev le => levels.above lev (by omega)) (by omega)]

theorem listSortLoop_spec (h : CmpTotalPreorder cmp) :
    ∀ (list : List α) (blocks part : Nat → List α) (maxLev : Nat), Levels cmp blocks part maxLev →
      ∃ blocks', Levels cmp blocks' (listSortLoop cmp list part maxLev).1 (listSortLoop cmp list part maxLev).2 ∧
        blocksDown blocks' ((listSortLoop cmp list part maxLev).2 + 1) = blocksDown blocks (maxLev + 1) ++ list := by
  intro list
  induction list with
  | nil =>
    intro blocks part maxLev levels
    exact ⟨blocks, levels, (List.append_nil _).symm⟩
  | cons x list ih =>
    intro blocks part maxLev levels
    obtain ⟨blocks', levels', read⟩ := listSortLoop_step h levels x
    rw [listSortLoop]
    split
    rename_i part' lev cur carried
    rw [carried] at levels' read
    dsimp only at levels' read
    obtain ⟨blocks'', levels'', read'⟩ := ih blocks' _ _ levels'
    refine ⟨blocks'', levels'', ?_⟩
    rw [read', read, List.append_assoc, List.singleton_append]

theorem listSortCollect_spec (h : CmpTotalPreorder cmp) {blocks part : Nat → List α}
    (sorts : ∀ lev, part lev = List.mergeSort (blocks lev) (cmpLe cmp)) (n : Nat) :
    listSortCollect cmp part n = List.mergeSort (blocksDown blocks n) (cmpLe cmp) := by
  induction n with
  | zero => simp [listSortCollect]
  | succ n ih =>
    rw [listSortCollect, List.range_succ, List.foldl_append, ← listSortCollect, ih]
    dsimp only [List.foldl_cons, List.foldl_nil]
    split
    · rw [sorts n, h.merge_mergeSort, blocksDown_succ]
    · rename_i empty
      rw [sorts n, not_not, StableMerge.mergeSort_eq_nil_iff] at empty
      rw [blocksDown_succ, empty, List.nil_append]

theorem listSort_merged (h : CmpTotalPreorder cmp) (list : List α) :
    listSortMerge cmp ((listSortLoop cmp list (fun _ => []) 0).1 (listSortLoop cmp list (fun _ => []) 0).2)
      (listSortCollect cmp (listSortLoop cmp list (fun _ => []) 0).1 (listSortLoop cmp list (fun _ => []) 0).2) =
      List.mergeSort list (cmpLe cmp) := by
  have init : Levels cmp (fun _ => []) (fun _ => []) 0 := ⟨fun _ => by simp, fun _ _ => rfl, by decide⟩
  obtain ⟨blocks, levels, read⟩ := listSortLoop_spec h list _ _ _ init
  rw [levels.sorts, listSortCollect_spec h levels.sorts, h.merge_mergeSort, ← blocksDown_succ, read]
  simp [blocksDown]

end Sorting

section Relinking

variable [DecidableEq α] {head : α}

theorem linksChain_head (l : Links α) (fuel : Nat) : linksChain l head fuel head = [] := by
  cases fuel <;> simp [linksChain]

theorem linksChain_path {l : Links α} (xs : List α) :
    ∀ (x : α) (fuel : Nat), Path l x xs head → head ∉ x :: xs → xs.length < fuel →
      linksChain l head fuel x = x :: xs := by
  induction xs with
  | nil =>
    intro x fuel path fresh lt
    obtain ⟨fuel, rfl⟩ : ∃ f, fuel = f + 1 := ⟨fuel - 1, by simp at lt; omega⟩
    rw [linksChain, if_neg (Ne.symm (List.ne_of_not_mem_cons fresh)), path.1, linksChain_head]
  | cons y ys ih =>
    intro x fuel path fresh lt
    obtain ⟨fuel, rfl⟩ : ∃ f, fuel = f + 1 := ⟨fuel - 1, by simp at lt; omega⟩
    rw [linksChain, if_neg (Ne.symm (List.ne_of_not_mem_cons fresh)), path.1,
      ih y fuel path.2.2 (List.not_mem_of_not_mem_cons fresh) (by simpa using lt)]

theorem linksChain_ring {l : Links α} {qs : List α} (ring : Ring l head qs) {fuel : Nat}
    (enough : qs.length ≤ fuel) : linksChain l head fuel (l.next head) = qs := by
  cases qs with
  | nil => rw [ring.1.1, linksChain_head]
  | cons q qs =>
    rw [ring.1.1]
    exact linksChain_path qs q fuel ring.1.2.2 (List.nodup_cons.mp ring.2).1 enough

theorem restoreBackLinks_next_of_not_mem (xs : List α) :
    ∀ (l : Links α) (tail y : α), y ≠ tail → y ∉ xs → (restoreBackLinks head l tail xs).next y = l.next y := by
  induction xs with
  | nil =>
    intro l tail y ne _
    simp [restoreBackLinks, ne]
  | cons x xs ih =>
    intro l tail y ne fresh
    rw [restoreBackLinks, ih _ x y (List.ne_of_not_mem_cons fresh) (List.not_mem_of_not_mem_cons fresh)]
    simp [ne]

theorem restoreBackLinks_prev_of_not_mem (xs : List α) :
    ∀ (l : Links α) (tail y : α), y ≠ head → y ∉ xs → (restoreBackLinks head l tail xs).prev y = l.prev y := by
  induction xs with
  | nil =>
    intro l tail y ne _
    simp [restoreBackLinks, ne]
  | cons x xs ih =>
    intro l tail y ne fresh
    have other : y ≠ x := List.ne_of_not_mem_cons fresh
    rw [restoreBackLinks, ih _ x y ne (List.not_mem_of_not_mem_cons fresh)]
    simp [other]

theorem restoreBackLinks_path (xs : List α) :
    ∀ (l : Links α) (tail : α), (tail :: xs).Nodup → head ∉ xs →
      Path (restoreBackLinks head l tail xs) tail xs head := by
  induction xs with
  | nil =>
    intro l tail _ _
    simp [restoreBackLinks, CircularList.Path]
  | cons x xs ih =>
    intro l tail nodup fresh
    obtain ⟨tailFresh, nodup'⟩ := List.nodup_cons.mp nodup
    have xFresh : x ∉ xs := (List.nodup_cons.mp nodup').1
    have xHead : x ≠ head := Ne.symm (List.ne_of_not_mem_cons fresh)
    refine ⟨?_, ?_, ?_⟩
    · rw [restoreBackLinks, restoreBackLinks_next_of_not_mem xs _ x tail (List.ne_of_not_mem_cons tailFresh)
        (List.not_mem_of_not_mem_cons tailFresh)]
      simp
    · rw [restoreBackLinks, restoreBackLinks_prev_of_not_mem xs _ x x xHead xFresh]
      simp
    · exact ih _ x nodup' (List.not_mem_of_not_mem_cons fresh)

theorem restoreBackLinks_ring (l : Links α) {xs : List α} (nodup : (head :: xs).Nodup) :
    Ring (restoreBackLinks head l head xs) head xs :=
  ⟨restoreBackLinks_path xs l head nodup (List.nodup_cons.mp nodup).1, nodup⟩

variable {cmp : α → α → Int}

theorem listSort_relinks (h : CmpTotalPreorder cmp) {l : Links α} {qs : List α} (ring : Ring l head qs)
    (more : qs ≠ []) {fuel : Nat} (enough : qs.length ≤ fuel) :
    listSort cmp l head fuel = restoreBackLinks head l head (List.mergeSort qs (cmpLe cmp)) := by
  have opened : listEmpty l head ≠ true := fun empty => more ((listEmpty_ring ring).mp empty)
  have merged := listSort_merged h qs
  rw [listSort, if_neg opened, linksChain_ring ring enough]
  rcases loop : listSortLoop cmp qs (fun _ => []) 0 with ⟨part, maxLev⟩
  rw [loop] at merged
  exact congrArg (restoreBackLinks head l head) merged

theorem listSort_stable_merge_sort (h : CmpTotalPreorder cmp) {l : Links α} {qs : List α}
    (ring : Ring l head qs) {fuel : Nat} (enough : qs.length ≤ fuel) :
    let sorted : List α := List.mergeSort qs (cmpLe cmp)
    Ring (listSort cmp l head fuel) head sorted ∧ sorted.Perm qs ∧ sorted.Pairwise (fun a b => cmp a b ≤ 0) ∧
      (∀ ys : List α, ys.Sublist qs → ys.Pairwise (fun a b => cmp a b ≤ 0) → ys.Sublist sorted) ∧
      ∀ y ∉ head :: qs, (listSort cmp l head fuel).next y = l.next y ∧ (listSort cmp l head fuel).prev y = l.prev y := by
  intro sorted
  have perm : sorted.Perm qs := List.mergeSort_perm qs _
  have order := h.pairwise_mergeSort qs
  have stable : ∀ ys : List α, ys.Sublist qs → ys.Pairwise (fun a b => cmp a b ≤ 0) → ys.Sublist sorted :=
    fun _ sub ordered => h.sublist_mergeSort sub ordered
  by_cases empty : qs = []
  · -- an empty ring is left as it is
    subst empty
    have same : listSort cmp l head fuel = l := by
      rw [listSort, if_pos ((listEmpty_ring ring).mpr rfl)]
    rw [same]
    exact ⟨by simpa [sorted] using ring, perm, order, stable, fun _ _ => ⟨rfl, rfl⟩⟩
  · rw [listSort_relinks h ring empty enough]
    refine ⟨restoreBackLinks_ring l ((perm.cons head).nodup_iff.mpr ring.2), perm, order, stable, ?_⟩
    intro y outside
    have ne : y ≠ head := List.ne_of_not_mem_cons outside
    have fresh : y ∉ sorted := fun mem => outside (List.mem_cons_of_mem head (perm.mem_iff.mp mem))
    exact ⟨restoreBackLinks_next_of_not_mem sorted l head y ne fresh,
      restoreBackLinks_prev_of_not_mem sorted l head y ne fresh⟩

/-- Nodes `1, 2, 3` after `0`, ordered by parity: `2` comes first, and `1` stays before `3`. -/
theorem listSort_parity_ring :
    let cmp : Nat → Nat → Int := fun a b => ((a % 2 : Nat) : Int) - ((b % 2 : Nat) : Int)
    let l : Links Nat := ⟨fun x => (x + 1) % 4, fun x => (x + 3) % 4⟩
    CmpTotalPreorder cmp ∧ Ring l 0 [1, 2, 3] ∧ Ring (listSort cmp l 0 3) 0 [2, 1, 3] := by
  intro cmp l
  have h : CmpTotalPreorder cmp := by
    constructor
    · intro a b c
      simp only [cmp]
      omega
    · intro a b
      simp only [cmp]
      omega
  have ring : Ring l 0 [1, 2, 3] := by simp [CircularList.Ring, CircularList.Path, l]
  have sorted : List.mergeSort [1, 2, 3] (cmpLe cmp) = [2, 1, 3] := by simp [List.mergeSort, cmpLe, cmp]
  have relinked := (listSort_stable_merge_sort h ring (Nat.le_refl 3)).1
  rw [sorted] at relinked
  exact ⟨h, ring, relinked⟩

end Relinking

end LinuxKernel
