import LinuxKernel.Creds.Groups
import LinuxKernel.Foundation.FunArray

/-!
# Sorting and searching the supplementary groups

Every pass of `groups_sort` only exchanges cells (`groupsSortShift_perm`), its last pass of
stride 1 leaves the array sorted (`groupsSortPass_one_sorted`), and `groups_search` then finds
exactly the kgids among the first `ngroups` (`groupsSearch_eq_one_iff`).
-/

namespace LinuxKernel

open FunArray

/-! ### `GROUP_AT` -/

/-- The value `gid_gt` and `gid_lt` compare. -/
def gidKey (g : Kgid) : Nat := g.val.toNat

theorem gidGt_iff (l r : Kgid) : gidGt l r = true ↔ gidKey r < gidKey l := by
  simp [gidGt, gidKey, UInt32.lt_iff_toNat_lt]

theorem gidLt_iff (l r : Kgid) : gidLt l r = true ↔ gidKey l < gidKey r := by
  simp [gidLt, gidKey, UInt32.lt_iff_toNat_lt]

theorem gidKey_inj {l r : Kgid} (same : gidKey l = gidKey r) : l = r := by
  cases l
  cases r
  simp only [gidKey] at same
  rw [UInt32.toNat_inj.mp same]

@[simp] theorem setGroupAt_ngroups (gi : GroupInfo) (i : Nat) (g : Kgid) :
    (setGroupAt gi i g).ngroups = gi.ngroups := rfl

theorem groupAt_setGroupAt (gi : GroupInfo) (i : Nat) (g : Kgid) :
    groupAt (setGroupAt gi i g) = Function.update (groupAt gi) i g := by
  funext j
  unfold groupAt setGroupAt
  by_cases same : j = i
  · subst same
    simp
  · rw [Function.update_of_ne same]
    by_cases sameBlock : j / ngroupsPerBlock = i / ngroupsPerBlock
    · -- one block: the offsets in it differ
      have offset : j % ngroupsPerBlock ≠ i % ngroupsPerBlock := by
        intro eq
        have := Nat.div_add_mod j ngroupsPerBlock
        have := Nat.div_add_mod i ngroupsPerBlock
        rw [sameBlock, eq] at *
        omega
      simp only [sameBlock, Function.update_self]
      rw [Function.update_of_ne offset]
    · simp only [Function.update_of_ne sameBlock]

/-! ### Every pass permutes -/

theorem update_shift_eq_swap (a : Nat → Kgid) (tmp : Kgid) {left right : Nat} (ne : left ≠ right) :
    Function.update (Function.update a right (a left)) left tmp =
      Function.update (Function.update (Function.update a right tmp) right
        (Function.update a right tmp left)) left (Function.update a right tmp right) := by
  rw [Function.update_idem, Function.update_of_ne ne, Function.update_self]

/-- The inner loop of `groups_sort` exchanges cells of the array that has `tmp` in the hole: at
its end, with `tmp` in the new hole, the first `n` kgids are a permutation of what they were. -/
theorem groupsSortShift_perm {stride n : Nat} (pos : 0 < stride) (tmp : Kgid) {fuel : Nat}
    {gi gi' : GroupInfo} {left : Int} {right right' : Nat} (hole : left + stride = right)
    (below : right < n) (h : groupsSortShift stride tmp fuel gi left right = (gi', right')) :
    right' < n ∧ gi'.ngroups = gi.ngroups ∧
      (cells (Function.update (groupAt gi') right' tmp) n).Perm
        (cells (Function.update (groupAt gi) right tmp) n) := by
  induction fuel generalizing gi left right with
  | zero =>
    obtain ⟨rfl, rfl⟩ := Prod.mk.inj h
    exact ⟨below, rfl, List.Perm.refl _⟩
  | succ fuel ih =>
    unfold groupsSortShift at h
    split at h
    · rename_i moves
      have lower : left.toNat < right := by omega
      obtain ⟨lt, same, perm⟩ := ih (show left - stride + stride = (left.toNat : Int) by omega)
        (by omega) h
      refine ⟨lt, same, perm.trans ?_⟩
      rw [groupAt_setGroupAt, update_shift_eq_swap _ _ (by omega)]
      exact cells_swap_perm _ below (by omega)
    · obtain ⟨rfl, rfl⟩ := Prod.mk.inj h
      exact ⟨below, rfl, List.Perm.refl _⟩

theorem groupsSortPass_perm {stride n : Nat} (pos : 0 < stride) {fuel : Nat} (gi : GroupInfo)
    (base : Nat) :
    (groupsSortPass stride (n - stride) fuel gi base).ngroups = gi.ngroups ∧
      (cells (groupAt (groupsSortPass stride (n - stride) fuel gi base)) n).Perm
        (cells (groupAt gi) n) := by
  induction fuel generalizing gi base with
  | zero => exact ⟨rfl, List.Perm.refl _⟩
  | succ fuel ih =>
    unfold groupsSortPass
    split
    · rename_i inRange
      obtain ⟨⟨gi', right'⟩, shifted⟩ : ∃ r, groupsSortShift stride (groupAt gi (base + stride))
          (base + 1) gi base (base + stride) = r := ⟨_, rfl⟩
      dsimp only
      rw [shifted]
      obtain ⟨lt, same, perm⟩ := groupsSortShift_perm pos _
        (show (base : Int) + stride = ((base + stride : Nat) : Int) by push_cast; rfl)
        (show base + stride < n by omega) shifted
      obtain ⟨same', perm'⟩ := ih (setGroupAt gi' right' (groupAt gi (base + stride))) (base + 1)
      refine ⟨by rw [same', setGroupAt_ngroups, same], perm'.trans ?_⟩
      -- `tmp` was taken from the hole, so the array with `tmp` in it is the array before
      rw [groupAt_setGroupAt]
      rwa [Function.update_eq_self] at perm
    · exact ⟨rfl, List.Perm.refl _⟩

/-! ### The pass of stride 1 sorts -/

/-- The first `n` kgids are in non-decreasing order. -/
def SortedBelow (a : Nat → Kgid) (n : Nat) : Prop :=
  ∀ i j, i ≤ j → j < n → gidKey (a i) ≤ gidKey (a j)

theorem SortedBelow.mono {a : Nat → Kgid} {m n : Nat} (sorted : SortedBelow a m) (le : n ≤ m) :
    SortedBelow a n :=
  fun i j ij lt => sorted i j ij (by omega)

theorem sortedBelow_of_le_one (a : Nat → Kgid) {n : Nat} (le : n ≤ 1) : SortedBelow a n := by
  intro i j ij lt
  obtain rfl : j = 0 := by omega
  obtain rfl : i = 0 := by omega
  exact le_refl _

/-- The invariant of the inner loop of a pass of stride 1: with the hole at `right`, the kgids
below `top` are in order around it, and those above it are larger than `tmp`. -/
structure HoleSorted (a : Nat → Kgid) (tmp : Kgid) (right top : Nat) : Prop where
  below : right < top
  around : ∀ i j, i ≤ j → j < top → i ≠ right → j ≠ right → gidKey (a i) ≤ gidKey (a j)
  above : ∀ k, right < k → k < top → gidKey tmp < gidKey (a k)

section Hole

variable {a : Nat → Kgid} {tmp : Kgid} {right top : Nat}

theorem HoleSorted.start (sorted : SortedBelow a right) : HoleSorted a tmp right (right + 1) where
  below := by omega
  around i j ij lt _ hj := sorted i j ij (by omega)
  above k lt lt' := by omega

theorem HoleSorted.shift (h : HoleSorted a tmp right top) (pos : 0 < right)
    (larger : gidKey tmp < gidKey (a (right - 1))) :
    HoleSorted (Function.update a right (a (right - 1))) tmp (right - 1) top where
  below := by have := h.below; omega
  around i j ij lt hi hj := by
    by_cases ri : i = right
    · subst ri
      by_cases rj : j = i
      · subst rj
        exact le_refl _
      · rw [Function.update_self, Function.update_of_ne rj]
        exact h.around _ j (by omega) lt (by omega) rj
    · rw [Function.update_of_ne ri]
      by_cases rj : j = right
      · subst rj
        rw [Function.update_self]
        exact h.around i _ (by omega) (by have := h.below; omega) ri (by omega)
      · rw [Function.update_of_ne rj]
        exact h.around i j ij lt ri rj
  above k lt lt' := by
    by_cases rk : k = right
    · subst rk
      rwa [Function.update_self]
    · rw [Function.update_of_ne rk]
      exact h.above k (by omega) lt'

theorem HoleSorted.fill (h : HoleSorted a tmp right top)
    (stop : right = 0 ∨ gidKey (a (right - 1)) ≤ gidKey tmp) :
    SortedBelow (Function.update a right tmp) top := by
  intro i j ij lt
  by_cases ri : i = right
  · subst ri
    by_cases rj : j = i
    · subst rj
      exact le_refl _
    · rw [Function.update_self, Function.update_of_ne rj]
      exact (h.above j (by omega) lt).le
  · rw [Function.update_of_ne ri]
    by_cases rj : j = right
    · -- a kgid below the hole is at most the one just under it, which is at most `tmp`
      subst rj
      rw [Function.update_self]
      have under : gidKey (a (j - 1)) ≤ gidKey tmp := stop.resolve_left (by omega)
      calc gidKey (a i) ≤ gidKey (a (j - 1)) := h.around i _ (by omega) (by omega) ri (by omega)
        _ ≤ gidKey tmp := under
    · rw [Function.update_of_ne rj]
      exact h.around i j ij lt ri rj

end Hole

/-- The inner loop with stride 1 keeps `HoleSorted`, and there is fuel for the hole to reach
cell 0: where it stops, `tmp` at the hole leaves the kgids below `top` sorted. -/
theorem groupsSortShift_one_sorted {tmp : Kgid} {fuel : Nat} {gi gi' : GroupInfo} {left : Int}
    {right right' top : Nat} (h : HoleSorted (groupAt gi) tmp right top) (hole : left + 1 = right)
    (enough : right ≤ fuel) (run : groupsSortShift 1 tmp fuel gi left right = (gi', right')) :
    SortedBelow (Function.update (groupAt gi') right' tmp) top := by
  induction fuel generalizing gi left right with
  | zero =>
    obtain ⟨rfl, rfl⟩ := Prod.mk.inj run
    exact h.fill (.inl (by omega))
  | succ fuel ih =>
    unfold groupsSortShift at run
    have under : left.toNat = right - 1 := by omega
    split at run
    · rename_i moves
      have larger := (gidGt_iff _ _).mp moves.2
      rw [under] at larger run
      refine ih ?_ (by omega) (by omega) run
      rw [groupAt_setGroupAt]
      exact h.shift (by omega) larger
    · rename_i stops
      obtain ⟨rfl, rfl⟩ := Prod.mk.inj run
      refine h.fill ?_
      by_cases nonneg : left ≥ 0
      · have := mt (gidGt_iff _ _).mpr (fun gt => stops ⟨nonneg, gt⟩)
        rw [under] at this
        exact .inr (Nat.le_of_not_lt this)
      · exact .inl (by omega)

theorem groupsSortPass_one_sorted {n : Nat} {max : Int} (hmax : max + 1 = n) {fuel : Nat}
    (gi : GroupInfo) (base : Nat) (sorted : SortedBelow (groupAt gi) (base + 1))
    (enough : n ≤ base + fuel + 1) :
    SortedBelow (groupAt (groupsSortPass 1 max fuel gi base)) n := by
  induction fuel generalizing gi base with
  | zero => exact sorted.mono (by omega)
  | succ fuel ih =>
    unfold groupsSortPass
    split
    · rename_i inRange
      obtain ⟨⟨gi', right'⟩, shifted⟩ : ∃ r, groupsSortShift 1 (groupAt gi (base + 1))
          (base + 1) gi base (base + 1) = r := ⟨_, rfl⟩
      dsimp only
      rw [shifted]
      refine ih _ (base + 1) ?_ (by omega)
      rw [groupAt_setGroupAt]
      exact groupsSortShift_one_sorted (.start sorted) (by push_cast; rfl) (by omega) shifted
    · exact sorted.mono (by omega)

/-! ### The strides -/

/-- The strides of `groups_sort`: 1, and `3 * stride + 1` after each, so that `stride /= 3`
walks them back down to 1. -/
inductive KnuthGap : Nat → Prop
  | one : KnuthGap 1
  | next {stride : Nat} : KnuthGap stride → KnuthGap (3 * stride + 1)

theorem groupsSortFirstStride_spec (gidsetsize fuel : Nat) {stride : Nat} (gap : KnuthGap stride)
    (from_below : stride = 1 ∨ stride / 3 < gidsetsize) (enough : gidsetsize ≤ stride + fuel) :
    let last := groupsSortFirstStride gidsetsize fuel stride
    KnuthGap last ∧ (last = 1 ∨ last / 3 < gidsetsize) ∧ gidsetsize ≤ last := by
  induction fuel generalizing stride with
  | zero => exact ⟨gap, from_below, show gidsetsize ≤ stride by omega⟩
  | succ fuel ih =>
    unfold groupsSortFirstStride
    split
    · exact ih gap.next (.inr (by omega)) (by omega)
    · exact ⟨gap, from_below, by omega⟩

theorem groupsSortStrides_zero (gidsetsize fuel : Nat) (gi : GroupInfo) :
    groupsSortStrides gidsetsize fuel gi 0 = gi := by
  cases fuel <;> rfl

theorem groupsSortStrides_perm (n fuel : Nat) (gi : GroupInfo) (stride : Nat) :
    (groupsSortStrides n fuel gi stride).ngroups = gi.ngroups ∧
      (cells (groupAt (groupsSortStrides n fuel gi stride)) n).Perm (cells (groupAt gi) n) := by
  induction fuel generalizing gi stride with
  | zero => exact ⟨rfl, List.Perm.refl _⟩
  | succ fuel ih =>
    unfold groupsSortStrides
    split
    · rename_i nonzero
      obtain ⟨same, perm⟩ := groupsSortPass_perm (n := n) (Nat.pos_of_ne_zero nonzero) gi 0
      obtain ⟨same', perm'⟩ := ih (groupsSortPass stride (n - stride) n gi 0) (stride / 3)
      exact ⟨same'.trans same, perm'.trans perm⟩
    · exact ⟨rfl, List.Perm.refl _⟩

theorem groupsSortStrides_sorted {n stride fuel : Nat} (gap : KnuthGap stride)
    (enough : stride ≤ fuel) (gi : GroupInfo) :
    SortedBelow (groupAt (groupsSortStrides n fuel gi stride)) n := by
  induction gap generalizing fuel gi with
  | one =>
    obtain ⟨fuel, rfl⟩ : ∃ f, fuel = f + 1 := ⟨fuel - 1, by omega⟩
    unfold groupsSortStrides
    rw [if_pos one_ne_zero, show 1 / 3 = 0 from rfl, groupsSortStrides_zero]
    exact groupsSortPass_one_sorted (by push_cast; omega) gi 0 (sortedBelow_of_le_one _ le_rfl)
      (by omega)
  | @next stride _ ih =>
    obtain ⟨fuel, rfl⟩ : ∃ f, fuel = f + 1 := ⟨fuel - 1, by omega⟩
    unfold groupsSortStrides
    rw [if_pos (by omega), show (3 * stride + 1) / 3 = stride by omega]
    exact ih (by omega) _

/-! ### `groups_search` -/

theorem groupsSearchLoop_eq_one {gi : GroupInfo} {grp : Kgid} {fuel left right : Nat}
    (found : groupsSearchLoop gi grp fuel left right = 1) :
    ∃ i, left ≤ i ∧ i < right ∧ groupAt gi i = grp := by
  induction fuel generalizing left right with
  | zero => simp [groupsSearchLoop] at found
  | succ fuel ih =>
    unfold groupsSearchLoop at found
    dsimp only at found
    split at found
    · rename_i nonempty
      split at found
      · obtain ⟨i, le, lt, eq⟩ := ih found
        exact ⟨i, by omega, lt, eq⟩
      · split at found
        · obtain ⟨i, le, lt, eq⟩ := ih found
          exact ⟨i, le, by omega, eq⟩
        · -- neither above nor below: the middle cell holds it
          rename_i above below
          refine ⟨(left + right) / 2, by omega, by omega, gidKey_inj ?_⟩
          rw [gidGt_iff] at above
          rw [gidLt_iff] at below
          omega
    · simp at found

theorem groupsSearchLoop_of_mem {gi : GroupInfo} {grp : Kgid} {n fuel left right i : Nat}
    (sorted : SortedBelow (groupAt gi) n) (bound : right ≤ n) (enough : right - left < fuel)
    (le : left ≤ i) (lt : i < right) (holds : groupAt gi i = grp) :
    groupsSearchLoop gi grp fuel left right = 1 := by
  induction fuel generalizing left right with
  | zero => omega
  | succ fuel ih =>
    unfold groupsSearchLoop
    rw [if_pos (by omega)]
    dsimp only
    split
    · -- the middle kgid is below `grp`, so `grp` sits above the middle
      rename_i above
      rw [gidGt_iff] at above
      have : (left + right) / 2 < i := by
        by_contra not_above
        have := sorted i ((left + right) / 2) (by omega) (by omega)
        rw [holds] at this
        omega
      exact @ih ((left + right) / 2 + 1) right bound (by omega) this lt
    · split
      · rename_i below
        rw [gidLt_iff] at below
        have : i < (left + right) / 2 := by
          by_contra not_below
          have := sorted ((left + right) / 2) i (by omega) (by omega)
          rw [holds] at this
          omega
        exact @ih left ((left + right) / 2) (by omega) (by omega) le this
      · rfl

theorem groupsSearch_eq_one_iff {gi : GroupInfo} (sorted : SortedBelow (groupAt gi) gi.ngroups)
    (grp : Kgid) : groupsSearch (some gi) grp = 1 ↔ grp ∈ cells (groupAt gi) gi.ngroups := by
  rw [mem_cells]
  constructor
  · intro found
    obtain ⟨i, -, lt, holds⟩ := groupsSearchLoop_eq_one found
    exact ⟨i, lt, holds⟩
  · rintro ⟨i, lt, holds⟩
    exact groupsSearchLoop_of_mem sorted le_rfl (by omega) (Nat.zero_le i) lt holds

/-! ### `groups_sort` -/

theorem groupsSort_spec (gi : GroupInfo) :
    (groupsSort gi).ngroups = gi.ngroups ∧
      (cells (groupAt (groupsSort gi)) gi.ngroups).Perm (cells (groupAt gi) gi.ngroups) ∧
      SortedBelow (groupAt (groupsSort gi)) gi.ngroups := by
  obtain ⟨same, perm⟩ := groupsSortStrides_perm gi.ngroups (gi.ngroups + 1) gi
    (groupsSortFirstStride gi.ngroups gi.ngroups 1 / 3)
  refine ⟨same, perm, ?_⟩
  obtain ⟨gap, from_below, reaches⟩ :=
    groupsSortFirstStride_spec gi.ngroups gi.ngroups KnuthGap.one (.inl rfl) (by omega)
  unfold groupsSort
  dsimp only
  generalize groupsSortFirstStride gi.ngroups gi.ngroups 1 = first at gap from_below reaches ⊢
  cases gap with
  | one =>
    -- a first stride of 1 means at most one kgid, and no pass at all
    rw [show 1 / 3 = 0 from rfl, groupsSortStrides_zero]
    exact sortedBelow_of_le_one _ reaches
  | @next stride gap =>
    rw [show (3 * stride + 1) / 3 = stride by omega]
    exact groupsSortStrides_sorted gap (by omega) gi

example : cells (fun i => (groupAt (groupsSort ⟨7, 1, fun _ k => ⟨[5, 3, 9, 1, 3, 8, 0].getD k 0⟩⟩)
    i).val) 7 = [0, 1, 3, 3, 5, 8, 9] := by decide

theorem groupsSort_then_search_exact (gi : GroupInfo) :
    (groupsSort gi).ngroups = gi.ngroups ∧
      (cells (groupAt (groupsSort gi)) gi.ngroups).Perm (cells (groupAt gi) gi.ngroups) ∧
      SortedBelow (groupAt (groupsSort gi)) gi.ngroups ∧
      ∀ g, groupsSearch (some (groupsSort gi)) g = 1 ↔ ∃ i < gi.ngroups, groupAt gi i = g := by
  obtain ⟨same, perm, sorted⟩ := groupsSort_spec gi
  refine ⟨same, perm, sorted, fun g => ?_⟩
  have sorted' : SortedBelow (groupAt (groupsSort gi)) (groupsSort gi).ngroups := by
    rwa [same]
  rw [groupsSearch_eq_one_iff sorted', same, perm.mem_iff, mem_cells]

end LinuxKernel
