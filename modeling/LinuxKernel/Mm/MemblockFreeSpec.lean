import LinuxKernel.Mm.MemblockFree
import LinuxKernel.Mm.MemblockWalk

/-!
# What the free-range walks yield

`freeRanges` lists the intersections of the memory regions of `nid` with the gaps between
reserved regions; both walks yield that list (`Yields.of_step`), and its pieces are in address
order and hold exactly the free addresses.
-/

namespace LinuxKernel

open ForEach

/-! ## Ordered arrays -/

/-- Regions in increasing order, each ending by `ULLONG_MAX`: what the walks need of an array. -/
structure RegionsOrdered (l : List MemblockRegion) : Prop where
  pairwise : l.Pairwise fun a b => a.base + a.size ≤ b.base
  bounded : ∀ r ∈ l, r.base + r.size ≤ ullongMax

theorem MemblockSorted.ordered {s : Nat} {l : List MemblockRegion} (h : MemblockSorted s l) :
    RegionsOrdered l := by
  induction l generalizing s with
  | nil => exact ⟨List.Pairwise.nil, by simp⟩
  | cons r l ih =>
    rw [sorted_cons] at h
    obtain ⟨pairwise, bounded⟩ := ih h.2.2
    have above : ∀ r' ∈ l, r.base + r.size ≤ r'.base := fun _ mem => h.2.2.le_base mem
    have ends : r.base + r.size ≤ ullongMax := by
      cases l with
      | nil => exact sorted_nil.mp h.2.2
      | cons r' l' =>
        have := bounded r' (by simp)
        have := above r' (by simp)
        omega
    refine ⟨List.pairwise_cons.mpr ⟨above, pairwise⟩, ?_⟩
    intro r' mem
    rcases List.mem_cons.mp mem with rfl | mem
    exacts [ends, bounded r' mem]

theorem MemblockRegions.ordered {l : List MemblockRegion} (h : MemblockRegions l) :
    RegionsOrdered l := by
  rcases h with rfl | ⟨_, sorted⟩
  · exact ⟨List.pairwise_singleton _ _, by simp [emptyRegion, ullongMax]⟩
  · exact sorted.ordered

section Ordered

variable {l : List MemblockRegion}

theorem getD_end_le_of_pairwise (pairwise : l.Pairwise fun a b => a.base + a.size ≤ b.base) {i j : Nat}
    (lt : i < j) (hj : j < l.length) :
    (l.getD i emptyRegion).base + (l.getD i emptyRegion).size ≤ (l.getD j emptyRegion).base := by
  rw [List.getD_eq_getElem _ _ (by omega), List.getD_eq_getElem _ _ hj]
  exact List.pairwise_iff_getElem.mp pairwise i j (by omega) hj lt

variable (ord : RegionsOrdered l)
include ord

theorem RegionsOrdered.getD_le {i j : Nat} (lt : i < j) (hj : j < l.length) :
    (l.getD i emptyRegion).base + (l.getD i emptyRegion).size ≤ (l.getD j emptyRegion).base :=
  getD_end_le_of_pairwise ord.pairwise lt hj

theorem RegionsOrdered.getD_bounded (i : Nat) :
    (l.getD i emptyRegion).base + (l.getD i emptyRegion).size ≤ ullongMax := by
  by_cases hi : i < l.length
  · rw [List.getD_eq_getElem _ _ hi]
    exact ord.bounded _ (List.getElem_mem hi)
  · rw [List.getD_eq_default _ _ (by omega)]
    simp [emptyRegion, ullongMax]

theorem RegionsOrdered.later {mi : Nat} {m : MemblockRegion} (hmi : mi < l.length)
    (hm : l.getD mi emptyRegion = m) : ∀ m' ∈ l.drop (mi + 1), m.base + m.size ≤ m'.base := by
  have chain := ord.pairwise.drop (i := mi)
  rw [List.drop_eq_getElem_cons hmi, List.pairwise_cons] at chain
  rw [← hm, List.getD_eq_getElem _ _ hmi]
  exact chain.1

theorem RegionsOrdered.earlier {mi : Nat} {m : MemblockRegion} (hmi : mi < l.length)
    (hm : l.getD mi emptyRegion = m) : ∀ m' ∈ l.take mi, m'.base + m'.size ≤ m.base := by
  intro m' mem'
  obtain ⟨i, hi, rfl⟩ := List.getElem_of_mem mem'
  rw [List.length_take] at hi
  rw [← hm, List.getElem_take, ← List.getD_eq_getElem _ emptyRegion]
  exact ord.getD_le (by omega) hmi

end Ordered

/-! ## The areas between reserved regions -/

/-- The areas `ri` to `rsv->cnt`. -/
def areasFrom (rsv : List MemblockRegion) (ri : Nat) : List (Nat × Nat) :=
  (List.range' ri (rsv.length + 1 - ri)).map (rsvArea rsv)

/-- The areas below `j`. -/
def areasBelow (rsv : List MemblockRegion) (j : Nat) : List (Nat × Nat) :=
  (List.range j).map (rsvArea rsv)

/-- All the areas, `0` to `rsv->cnt`. -/
def rsvAreas (rsv : List MemblockRegion) : List (Nat × Nat) := areasBelow rsv (rsv.length + 1)

section Areas

variable {rsv : List MemblockRegion}

@[simp] theorem rsvArea_zero_fst : (rsvArea rsv 0).1 = 0 := rfl

@[simp] theorem rsvArea_succ_fst (j : Nat) :
    (rsvArea rsv (j + 1)).1 = (rsv.getD j emptyRegion).base + (rsv.getD j emptyRegion).size := rfl

theorem rsvArea_snd_of_lt {j : Nat} (lt : j < rsv.length) : (rsvArea rsv j).2 = (rsv.getD j emptyRegion).base := by
  simp [rsvArea, lt]

theorem rsvArea_snd_of_ge {j : Nat} (ge : rsv.length ≤ j) : (rsvArea rsv j).2 = ullongMax := by
  simp [rsvArea, show ¬j < rsv.length by omega]

theorem exists_last_area (x : Nat) :
    ∃ i ≤ rsv.length, (rsvArea rsv i).1 ≤ x ∧ (i < rsv.length → x < (rsvArea rsv (i + 1)).1) :=
  ⟨Nat.findGreatest (fun i => (rsvArea rsv i).1 ≤ x) rsv.length, Nat.findGreatest_le _,
    Nat.findGreatest_spec (P := fun i => (rsvArea rsv i).1 ≤ x) (Nat.zero_le _) (by simp),
    fun lt => not_le.mp (Nat.findGreatest_is_greatest (P := fun i => (rsvArea rsv i).1 ≤ x)
      (Nat.lt_succ_self _) lt)⟩

theorem areasFrom_zero : areasFrom rsv 0 = rsvAreas rsv := by
  simp [areasFrom, rsvAreas, areasBelow, List.range_eq_range']

theorem areasFrom_eq_cons {ri : Nat} (le : ri ≤ rsv.length) :
    areasFrom rsv ri = rsvArea rsv ri :: areasFrom rsv (ri + 1) := by
  unfold areasFrom
  rw [show rsv.length + 1 - ri = (rsv.length + 1 - (ri + 1)) + 1 by omega, List.range'_succ,
    List.map_cons]

theorem areasFrom_of_gt {ri : Nat} (gt : rsv.length < ri) : areasFrom rsv ri = [] := by
  simp [areasFrom, show rsv.length + 1 - ri = 0 by omega]

theorem mem_areasFrom {ri : Nat} {a : Nat × Nat} :
    a ∈ areasFrom rsv ri ↔ ∃ j, ri ≤ j ∧ j ≤ rsv.length ∧ rsvArea rsv j = a := by
  simp only [areasFrom, List.mem_map, List.mem_range'_1]
  constructor
  · rintro ⟨j, ⟨lo, hi⟩, rfl⟩
    exact ⟨j, lo, by omega, rfl⟩
  · rintro ⟨j, lo, hi, rfl⟩
    exact ⟨j, ⟨lo, by omega⟩, rfl⟩

theorem areasBelow_zero : areasBelow rsv 0 = [] := rfl

theorem areasBelow_succ (j : Nat) : areasBelow rsv (j + 1) = areasBelow rsv j ++ [rsvArea rsv j] := by
  simp [areasBelow, List.range_succ]

theorem mem_areasBelow {j : Nat} {a : Nat × Nat} :
    a ∈ areasBelow rsv j ↔ ∃ i, i < j ∧ rsvArea rsv i = a := by
  simp [areasBelow, List.mem_range]

variable (ord : RegionsOrdered rsv)
include ord

theorem rsvArea_le (i : Nat) : (rsvArea rsv i).1 ≤ (rsvArea rsv i).2 := by
  by_cases zero : i = 0
  · simp only [rsvArea, zero, if_true]
    omega
  by_cases below : i < rsv.length
  · simp only [rsvArea, zero, below, if_true, if_false]
    exact ord.getD_le (by omega) below
  · simp only [rsvArea, zero, below, if_false]
    exact ord.getD_bounded _

theorem rsvArea_end_le {i j : Nat} (lt : i < j) (le : j ≤ rsv.length) :
    (rsvArea rsv i).2 ≤ (rsvArea rsv j).1 := by
  have hi : i < rsv.length := by omega
  simp only [rsvArea, hi, if_true, show j ≠ 0 by omega, if_false]
  rcases Nat.lt_or_ge i (j - 1) with before | last
  · have := ord.getD_le before (by omega)
    omega
  · rw [show j - 1 = i by omega]
    omega

theorem areasFrom_start_le {ri : Nat} {a : Nat × Nat} (mem' : a ∈ areasFrom rsv ri) :
    (rsvArea rsv ri).1 ≤ a.1 := by
  obtain ⟨j, lo, hi, rfl⟩ := mem_areasFrom.mp mem'
  rcases Nat.eq_or_lt_of_le lo with rfl | lt
  · exact le_refl _
  · exact le_trans (rsvArea_le ord ri) (rsvArea_end_le ord lt hi)

theorem areasFrom_succ_start {ri : Nat} {a : Nat × Nat} (mem' : a ∈ areasFrom rsv (ri + 1)) :
    (rsvArea rsv ri).2 ≤ a.1 := by
  obtain ⟨j, lo, hi, rfl⟩ := mem_areasFrom.mp mem'
  exact rsvArea_end_le ord (by omega) hi

theorem areasBelow_end {ri : Nat} {a : Nat × Nat} (le : ri ≤ rsv.length) (mem' : a ∈ areasBelow rsv ri) :
    a.2 ≤ (rsvArea rsv ri).1 := by
  obtain ⟨i, lt, rfl⟩ := mem_areasBelow.mp mem'
  exact rsvArea_end_le ord lt le

theorem areasBelow_succ_end {ri : Nat} {a : Nat × Nat} (le : ri ≤ rsv.length)
    (mem' : a ∈ areasBelow rsv (ri + 1)) : a.2 ≤ (rsvArea rsv ri).2 := by
  rw [areasBelow_succ, List.mem_append, List.mem_singleton] at mem'
  rcases mem' with below | rfl
  · exact le_trans (areasBelow_end ord le below) (rsvArea_le ord ri)
  · exact le_refl _

end Areas

/-! ## The pieces -/

/-- What the scans write for region `m` and area `r`: the clipped range, when `r_start < m_end`
and `m_start < r_end`. -/
def freePiece (m : MemblockRegion) (r : Nat × Nat) : Option FreeRange :=
  if r.1 < m.base + m.size ∧ m.base < r.2 then some (clipRange m r) else none

/-- The pieces of `m` over `areas`, none for a region that `nid` skips. -/
def regionPieces (nid : Int) (areas : List (Nat × Nat)) (m : MemblockRegion) : List FreeRange :=
  if nidSkips nid m then [] else areas.filterMap (freePiece m)

/-- The free ranges of `nid`, region by region and area by area. -/
def freeRanges (mem rsv : List MemblockRegion) (nid : Int) : List FreeRange :=
  mem.flatMap (regionPieces nid (rsvAreas rsv))

section Pieces

variable {m : MemblockRegion} {r : Nat × Nat} {nid : Int}

theorem freePiece_of_end_le_start (le : m.base + m.size ≤ r.1) : freePiece m r = none := by
  simp [freePiece]
  omega

theorem freePiece_of_end_le_base (le : r.2 ≤ m.base) : freePiece m r = none := by
  simp [freePiece]
  omega

theorem regionPieces_of_none {areas : List (Nat × Nat)} (none : ∀ a ∈ areas, freePiece m a = .none) :
    regionPieces nid areas m = [] := by
  unfold regionPieces
  split_ifs
  · rfl
  · exact List.filterMap_eq_nil_iff.mpr none

theorem regionPieces_cons (areas : List (Nat × Nat)) :
    regionPieces nid (r :: areas) m =
      (if nidSkips nid m then [] else (freePiece m r).toList) ++ regionPieces nid areas m := by
  unfold regionPieces
  split_ifs
  · rfl
  · rw [List.filterMap_cons]
    cases freePiece m r <;> rfl

theorem regionPieces_append (areas areas' : List (Nat × Nat)) :
    regionPieces nid (areas ++ areas') m = regionPieces nid areas m ++ regionPieces nid areas' m := by
  unfold regionPieces
  split_ifs
  · rfl
  · exact List.filterMap_append

theorem regionPieces_skip (skip : nidSkips nid m = true) (areas : List (Nat × Nat)) :
    regionPieces nid areas m = [] := by
  simp [regionPieces, skip]

end Pieces

/-! ## The cursor -/

theorem packIdx_toNat (mi ri : Int) :
    (packIdx mi ri).toNat = (mi % 2 ^ 32).toNat + (ri % 2 ^ 32).toNat * 2 ^ 32 := by
  have lo : (mi % 2 ^ 32).toNat < 2 ^ 32 := by omega
  have hi : (ri % 2 ^ 32).toNat < 2 ^ 32 := by omega
  unfold packIdx
  rw [Nat.toUInt64_eq, UInt64.toNat_ofNat', Nat.mod_eq_of_lt (by omega)]

theorem packIdx_decode {mi ri : Nat} (hmi : mi < 2 ^ 32) (hri : ri < 2 ^ 32) :
    (packIdx mi ri).toNat % 2 ^ 32 = mi ∧ (packIdx mi ri).toNat / 2 ^ 32 = ri := by
  rw [packIdx_toNat]
  omega

theorem packIdx_ne_end {mi ri : Int} (lo : mi % 2 ^ 32 ≠ 2 ^ 32 - 1 ∨ ri % 2 ^ 32 ≠ 2 ^ 32 - 1) :
    packIdx mi ri ≠ ullongMax.toUInt64 := by
  intro same
  have := congrArg UInt64.toNat same
  rw [packIdx_toNat] at this
  simp [ullongMax] at this
  omega

/-! ## The forward walk -/

section Forward

variable (mem rsv : List MemblockRegion) (nid : Int)

/-- What the forward walk has left to write from `(mi, ri)`: the pieces of the regions from
`mi` on over the areas from `ri` on. -/
def pendingFree (mi ri : Nat) : List FreeRange :=
  (mem.drop mi).flatMap (regionPieces nid (areasFrom rsv ri))

variable {mem rsv nid} {mi ri : Nat}

theorem pendingFree_of_length_le (le : mem.length ≤ mi) : pendingFree mem rsv nid mi ri = [] := by
  simp [pendingFree, List.drop_eq_nil_of_le le]

theorem pendingFree_of_gt (gt : rsv.length < ri) : pendingFree mem rsv nid mi ri = [] := by
  simp [pendingFree, areasFrom_of_gt gt, regionPieces]

theorem pendingFree_region {m : MemblockRegion} (hmi : mi < mem.length) (hm : mem.getD mi emptyRegion = m) :
    pendingFree mem rsv nid mi ri =
      regionPieces nid (areasFrom rsv ri) m ++ pendingFree mem rsv nid (mi + 1) ri := by
  rw [pendingFree, List.drop_eq_getElem_cons hmi, List.flatMap_cons, ← hm, List.getD_eq_getElem _ _ hmi]
  rfl

theorem pendingFree_area {m : MemblockRegion} (hmi : mi < mem.length) (hm : mem.getD mi emptyRegion = m)
    (hri : ri ≤ rsv.length) (none : ∀ m' ∈ mem.drop (mi + 1), freePiece m' (rsvArea rsv ri) = .none) :
    pendingFree mem rsv nid mi ri =
      regionPieces nid [rsvArea rsv ri] m ++ pendingFree mem rsv nid mi (ri + 1) := by
  have rest : pendingFree mem rsv nid (mi + 1) ri = pendingFree mem rsv nid (mi + 1) (ri + 1) := by
    unfold pendingFree
    refine List.flatMap_congr fun m' mem' => ?_
    rw [areasFrom_eq_cons hri, regionPieces_cons, none m' mem']
    split_ifs <;> rfl
  rw [pendingFree_region hmi hm, pendingFree_region hmi hm, rest, areasFrom_eq_cons hri,
    ← List.singleton_append, regionPieces_append, List.append_assoc]

variable (memOrd : RegionsOrdered mem) (rsvOrd : RegionsOrdered rsv)
include memOrd rsvOrd

theorem nextFreeAreas_pending {m : MemblockRegion} (hmi : mi < mem.length)
    (hm : mem.getD mi emptyRegion = m) (keep : nidSkips nid m = false) :
    ∀ k ri, ri + k = rsv.length + 1 →
      match nextFreeAreas rsv m mi k ri with
      | .inl ri' => pendingFree mem rsv nid mi ri = pendingFree mem rsv nid (mi + 1) ri' ∧
          ri' ≤ rsv.length + 1
      | .inr (out, mi', ri') => pendingFree mem rsv nid mi ri = out :: pendingFree mem rsv nid mi' ri' ∧
          mi' ≤ mem.length ∧ ri' ≤ rsv.length + 1 := by
  have later := memOrd.later hmi hm
  intro k
  induction k with
  | zero =>
    intro ri count
    have gt : rsv.length < ri := by omega
    exact ⟨by rw [pendingFree_of_gt gt, pendingFree_of_gt gt], by omega⟩
  | succ k ih =>
    intro ri count
    have hri : ri ≤ rsv.length := by omega
    simp only [nextFreeAreas]
    split_ifs with above meets ends
    · -- `break`: region `mi` ends before area `ri` and every later area start
      refine ⟨?_, by omega⟩
      have none : ∀ a ∈ areasFrom rsv ri, freePiece m a = .none := fun a mem' =>
        freePiece_of_end_le_start (le_trans above (areasFrom_start_le rsvOrd mem'))
      rw [pendingFree_region hmi hm, regionPieces_of_none none, List.nil_append]
    · -- region `mi` ends first: its last piece, and the next region goes on from area `ri`
      refine ⟨?_, by omega, by omega⟩
      have none : ∀ a ∈ areasFrom rsv (ri + 1), freePiece m a = .none := fun a mem' =>
        freePiece_of_end_le_start (le_trans ends (areasFrom_succ_start rsvOrd mem'))
      rw [pendingFree_region hmi hm, areasFrom_eq_cons hri, regionPieces_cons,
        regionPieces_of_none none]
      simp [keep, freePiece, meets, show (rsvArea rsv ri).1 < m.base + m.size by omega]
    · -- area `ri` ends first: no later region reaches back to it
      refine ⟨?_, by omega, by omega⟩
      have none : ∀ m' ∈ mem.drop (mi + 1), freePiece m' (rsvArea rsv ri) = .none := fun m' mem' =>
        freePiece_of_end_le_base (by have := later m' mem'; omega)
      rw [pendingFree_area hmi hm hri none]
      simp [regionPieces, keep, freePiece, meets, show (rsvArea rsv ri).1 < m.base + m.size by omega]
    · -- area `ri` lies below region `mi`, and so below every later region
      have none : ∀ m' ∈ mem.drop (mi + 1), freePiece m' (rsvArea rsv ri) = .none := fun m' mem' =>
        freePiece_of_end_le_base (by have := later m' mem'; omega)
      have skipped : regionPieces nid [rsvArea rsv ri] m = [] :=
        regionPieces_of_none (by simpa using freePiece_of_end_le_base (by omega))
      have step := ih (ri + 1) (by omega)
      rw [pendingFree_area hmi hm hri none, skipped, List.nil_append]
      exact step

theorem nextFreeRegions_pending (small : rsv.length < 2 ^ 31) :
    ∀ k mi ri, mi + k = mem.length → ri ≤ rsv.length + 1 →
      match nextFreeRegions mem rsv nid k mi ri with
      | none => pendingFree mem rsv nid mi ri = []
      | some (out, mi', ri') => pendingFree mem rsv nid mi ri = out :: pendingFree mem rsv nid mi' ri' ∧
          mi' ≤ mem.length ∧ ri' ≤ rsv.length + 1 := by
  intro k
  induction k with
  | zero =>
    intro mi ri count _
    exact pendingFree_of_length_le (by omega)
  | succ k ih =>
    intro mi ri count hri
    have hmi : mi < mem.length := by omega
    simp only [nextFreeRegions]
    split_ifs with skip
    · rw [pendingFree_region hmi rfl, regionPieces_skip skip, List.nil_append]
      exact ih (mi + 1) ri (by omega) hri
    · -- `ri` stays below `INT_MAX`, so the loop over the areas runs to `rsv->cnt + 1`
      have rounds : ri + (min (rsv.length + 1) (intMax + 1) - ri) = rsv.length + 1 := by
        unfold intMax
        omega
      have inner := nextFreeAreas_pending memOrd rsvOrd hmi rfl (by simpa using skip) _ ri rounds
      cases found : nextFreeAreas rsv (mem.getD mi emptyRegion) mi (min (rsv.length + 1) (intMax + 1) - ri) ri with
      | inl ri' =>
        rw [found] at inner
        obtain ⟨moved, hri'⟩ := inner
        rw [moved]
        exact ih (mi + 1) ri' (by omega) hri'
      | inr out =>
        rw [found] at inner
        exact inner

/-- Where the forward walk can be: both indices within their loops. -/
def FreeCursor (mem rsv : List MemblockRegion) (idx : UInt64) : Prop :=
  idx.toNat % 2 ^ 32 ≤ mem.length ∧ idx.toNat / 2 ^ 32 ≤ rsv.length + 1

theorem nextFreeMemRange_step (small : mem.length < 2 ^ 31 ∧ rsv.length < 2 ^ 31) (idx : UInt64)
    (cursor : FreeCursor mem rsv idx) :
    Step (nextFreeMemRange mem rsv nid) ullongMax.toUInt64 (FreeCursor mem rsv)
      (fun idx => pendingFree mem rsv nid (idx.toNat % 2 ^ 32) (idx.toNat / 2 ^ 32)) idx := by
  have rounds : idx.toNat % 2 ^ 32 + (min mem.length (intMax + 1) - idx.toNat % 2 ^ 32) = mem.length := by
    have := cursor.1
    have := small.1
    unfold intMax
    omega
  have outer := @nextFreeRegions_pending mem rsv nid memOrd rsvOrd small.2 _ _ _ rounds cursor.2
  unfold Step nextFreeMemRange
  dsimp only
  cases found : nextFreeRegions mem rsv nid (min mem.length (intMax + 1) - idx.toNat % 2 ^ 32)
    (idx.toNat % 2 ^ 32) (idx.toNat / 2 ^ 32) with
  | none =>
    rw [found] at outer
    exact .inl ⟨rfl, outer⟩
  | some result =>
    obtain ⟨out, mi', ri'⟩ := result
    rw [found] at outer
    obtain ⟨split, hmi', hri'⟩ := outer
    have := small.1
    obtain ⟨lo, hi⟩ := @packIdx_decode mi' ri' (by omega) (by omega)
    refine .inr ⟨out, packIdx_ne_end (.inl (by omega)), rfl, ?_, ?_⟩
    · exact ⟨by rw [lo]; exact hmi', by rw [hi]; exact hri'⟩
    · rw [split, lo, hi]

theorem nextFreeMemRange_yields (small : mem.length < 2 ^ 31 ∧ rsv.length < 2 ^ 31) :
    Yields (nextFreeMemRange mem rsv nid) ullongMax.toUInt64 0 (freeRanges mem rsv nid) := by
  have run := Yields.of_step (@nextFreeMemRange_step mem rsv nid memOrd rsvOrd small) 0 (by simp [FreeCursor])
  simpa [pendingFree, areasFrom_zero, freeRanges] using run

end Forward

/-! ## The reverse walk -/

section Reverse

variable (mem rsv : List MemblockRegion) (nid : Int)

/-- What the reverse walk has left to write with `k` regions and `j` areas to go: the pieces of
the regions below `k` over the areas below `j`, last first. -/
def pendingFreeRev (k j : Nat) : List FreeRange :=
  ((mem.take k).flatMap (regionPieces nid (areasBelow rsv j))).reverse

variable {mem rsv nid} {mi j : Nat}

theorem pendingFreeRev_zero_left : pendingFreeRev mem rsv nid 0 j = [] := by
  simp [pendingFreeRev]

theorem pendingFreeRev_zero_right (k : Nat) : pendingFreeRev mem rsv nid k 0 = [] := by
  simp [pendingFreeRev, areasBelow_zero, regionPieces]

theorem pendingFreeRev_region {m : MemblockRegion} (hmi : mi < mem.length)
    (hm : mem.getD mi emptyRegion = m) :
    pendingFreeRev mem rsv nid (mi + 1) j =
      (regionPieces nid (areasBelow rsv j) m).reverse ++ pendingFreeRev mem rsv nid mi j := by
  rw [pendingFreeRev, List.take_succ_eq_append_getElem hmi, List.flatMap_append, List.reverse_append,
    ← hm, List.getD_eq_getElem _ _ hmi, List.flatMap_singleton]
  rfl

theorem pendingFreeRev_area {m : MemblockRegion} {ri : Nat} (hmi : mi < mem.length)
    (hm : mem.getD mi emptyRegion = m)
    (none : ∀ m' ∈ mem.take mi, freePiece m' (rsvArea rsv ri) = .none) :
    pendingFreeRev mem rsv nid (mi + 1) (ri + 1) =
      (regionPieces nid [rsvArea rsv ri] m).reverse ++ pendingFreeRev mem rsv nid (mi + 1) ri := by
  have rest : pendingFreeRev mem rsv nid mi (ri + 1) = pendingFreeRev mem rsv nid mi ri := by
    unfold pendingFreeRev
    congr 1
    refine List.flatMap_congr fun m' mem' => ?_
    have skipped : regionPieces nid [rsvArea rsv ri] m' = [] :=
      regionPieces_of_none (by simpa using none m' mem')
    rw [areasBelow_succ, regionPieces_append, skipped, List.append_nil]
  rw [pendingFreeRev_region hmi hm, pendingFreeRev_region hmi hm, rest, areasBelow_succ,
    regionPieces_append, List.reverse_append, List.append_assoc]

variable (memOrd : RegionsOrdered mem) (rsvOrd : RegionsOrdered rsv)
include memOrd rsvOrd

/-- The loop over the areas for region `mi`, from area `j - 1` down, writes the next piece left
from the top, or leaves the region with nothing left in it. -/
theorem nextFreeAreasRev_pending {m : MemblockRegion} (hmi : mi < mem.length)
    (hm : mem.getD mi emptyRegion = m) (keep : nidSkips nid m = false) :
    ∀ j, j ≤ rsv.length + 1 →
      match nextFreeAreasRev rsv m mi j with
      | .inl j' => pendingFreeRev mem rsv nid (mi + 1) j = pendingFreeRev mem rsv nid mi j' ∧
          j' ≤ rsv.length + 1
      | .inr (out, mi', ri') =>
          pendingFreeRev mem rsv nid (mi + 1) j = out :: pendingFreeRev mem rsv nid (mi' + 1).toNat (ri' + 1).toNat ∧
          -1 ≤ mi' ∧ mi' < mem.length ∧ 0 ≤ ri' ∧ ri' ≤ rsv.length := by
  have earlier := memOrd.earlier hmi hm
  intro j
  induction j with
  | zero =>
    intro _
    exact ⟨by rw [pendingFreeRev_zero_right, pendingFreeRev_zero_right], by omega⟩
  | succ ri ih =>
    intro count
    have hri : ri ≤ rsv.length := by omega
    simp only [nextFreeAreasRev]
    split_ifs with below meets starts
    · -- `break`: area `ri` and every area below it end by where region `mi` starts
      refine ⟨?_, count⟩
      have none : ∀ a ∈ areasBelow rsv (ri + 1), freePiece m a = .none := fun a mem' =>
        freePiece_of_end_le_base (le_trans (areasBelow_succ_end rsvOrd hri mem') below)
      rw [pendingFreeRev_region hmi hm, regionPieces_of_none none, List.reverse_nil, List.nil_append]
    · -- region `mi` starts last: its first piece, and the region below goes on from area `ri`
      refine ⟨?_, by omega, by omega, by omega, by omega⟩
      have none : ∀ a ∈ areasBelow rsv ri, freePiece m a = .none := fun a mem' =>
        freePiece_of_end_le_base (le_trans (areasBelow_end rsvOrd hri mem') starts)
      have back : ((mi : Int) - 1 + 1).toNat = mi := by omega
      rw [pendingFreeRev_region hmi hm, areasBelow_succ, regionPieces_append, regionPieces_of_none none,
        List.nil_append, back, show ((ri : Int) + 1).toNat = ri + 1 by omega]
      simp [regionPieces, keep, freePiece, meets, show m.base < (rsvArea rsv ri).2 by omega]
    · -- area `ri` starts last: no region below `mi` reaches up to it
      have pos : 0 < ri := by
        by_contra zero
        simp [rsvArea, show ri = 0 by omega] at starts
      refine ⟨?_, by omega, by omega, by omega, by omega⟩
      have none : ∀ m' ∈ mem.take mi, freePiece m' (rsvArea rsv ri) = .none := fun m' mem' =>
        freePiece_of_end_le_start (by have := earlier m' mem'; omega)
      rw [pendingFreeRev_area hmi hm none, show ((mi : Int) + 1).toNat = mi + 1 by omega,
        show ((ri : Int) - 1 + 1).toNat = ri by omega]
      simp [regionPieces, keep, freePiece, meets, show m.base < (rsvArea rsv ri).2 by omega]
    · -- area `ri` lies above region `mi`, and so above every region below it
      have none : ∀ m' ∈ mem.take mi, freePiece m' (rsvArea rsv ri) = .none := fun m' mem' =>
        freePiece_of_end_le_start (by have := earlier m' mem'; omega)
      have skipped : regionPieces nid [rsvArea rsv ri] m = [] :=
        regionPieces_of_none (by simpa using freePiece_of_end_le_start (by omega))
      have step := ih (by omega)
      rw [pendingFreeRev_area hmi hm none, skipped, List.reverse_nil, List.nil_append]
      exact step

theorem nextFreeRegionsRev_pending :
    ∀ k (ri : Int), k ≤ mem.length → -1 ≤ ri → ri ≤ rsv.length →
      match nextFreeRegionsRev mem rsv nid k ri with
      | none => pendingFreeRev mem rsv nid k (ri + 1).toNat = []
      | some (out, mi', ri') =>
          pendingFreeRev mem rsv nid k (ri + 1).toNat = out :: pendingFreeRev mem rsv nid (mi' + 1).toNat (ri' + 1).toNat ∧
          -1 ≤ mi' ∧ mi' < mem.length ∧ 0 ≤ ri' ∧ ri' ≤ rsv.length := by
  intro k
  induction k with
  | zero =>
    intro ri _ _ _
    exact pendingFreeRev_zero_left
  | succ mi ih =>
    intro ri hmi lo hi
    simp only [nextFreeRegionsRev]
    split_ifs with skip
    · rw [pendingFreeRev_region (by omega) rfl, regionPieces_skip skip, List.reverse_nil, List.nil_append]
      exact ih ri (by omega) lo hi
    · have inner := @nextFreeAreasRev_pending mem rsv nid mi memOrd rsvOrd _ (by omega) rfl
        (by simpa using skip) (ri + 1).toNat (by omega)
      cases found : nextFreeAreasRev rsv (mem.getD mi emptyRegion) mi (ri + 1).toNat with
      | inl j' =>
        rw [found] at inner
        obtain ⟨moved, hj'⟩ := inner
        have back : ((j' : Int) - 1 + 1).toNat = j' := by omega
        have rest := ih (j' - 1) (by omega) (by omega) (by omega)
        rw [back] at rest
        rw [moved]
        exact rest
      | inr out =>
        rw [found] at inner
        exact inner

/-- Where the reverse walk can be: `mi` below the number of memory regions, `ri` from `-1` to the
area past the last reserved region. -/
def FreeCursorRev (mem rsv : List MemblockRegion) (idx : UInt64) : Prop :=
  (revIndices mem rsv idx).1 < mem.length ∧ -1 ≤ (revIndices mem rsv idx).2 ∧
    (revIndices mem rsv idx).2 ≤ rsv.length

omit memOrd rsvOrd in
theorem revIndices_packIdx {mi ri : Int} (hmi : -2 ^ 31 ≤ mi ∧ mi < 2 ^ 31) (hri : 0 ≤ ri ∧ ri < 2 ^ 31) :
    revIndices mem rsv (packIdx mi ri) = (mi, ri) := by
  have ne : packIdx mi ri ≠ ullongMax.toUInt64 := packIdx_ne_end (.inr (by omega))
  have decode := packIdx_toNat mi ri
  unfold revIndices cInt
  rw [if_neg ne, decode]
  ext
  · dsimp only
    split_ifs <;> omega
  · dsimp only
    split_ifs <;> omega

theorem nextFreeMemRangeRev_step (small : mem.length < 2 ^ 31 ∧ rsv.length < 2 ^ 31) (idx : UInt64)
    (cursor : FreeCursorRev mem rsv idx) :
    Step (nextFreeMemRangeRev mem rsv nid) ullongMax.toUInt64 (FreeCursorRev mem rsv)
      (fun idx => pendingFreeRev mem rsv nid ((revIndices mem rsv idx).1 + 1).toNat
        ((revIndices mem rsv idx).2 + 1).toNat) idx := by
  obtain ⟨hmi, lo, hi⟩ := cursor
  have outer := @nextFreeRegionsRev_pending mem rsv nid memOrd rsvOrd
    ((revIndices mem rsv idx).1 + 1).toNat (revIndices mem rsv idx).2 (by omega) lo hi
  unfold Step nextFreeMemRangeRev
  dsimp only
  cases found : nextFreeRegionsRev mem rsv nid ((revIndices mem rsv idx).1 + 1).toNat
    (revIndices mem rsv idx).2 with
  | none =>
    rw [found] at outer
    exact .inl ⟨rfl, outer⟩
  | some result =>
    obtain ⟨out, mi', ri'⟩ := result
    rw [found] at outer
    obtain ⟨split, lo', hmi', lo'', hi'⟩ := outer
    have decode := @revIndices_packIdx mem rsv mi' ri'
      (by omega) (by omega)
    refine .inr ⟨out, packIdx_ne_end (.inr (by omega)), rfl, ?_, ?_⟩
    · exact ⟨by rw [decode]; exact hmi', by rw [decode]; omega, by rw [decode]; exact hi'⟩
    · rw [split, decode]

omit memOrd rsvOrd in
theorem revIndices_start (small : mem.length < 2 ^ 31 ∧ rsv.length < 2 ^ 31) :
    revIndices mem rsv ullongMax.toUInt64 = ((mem.length : Int) - 1, (rsv.length : Int)) := by
  unfold revIndices cInt
  rw [if_pos rfl]
  ext
  · dsimp only
    split_ifs <;> omega
  · dsimp only
    split_ifs <;> omega

theorem nextFreeMemRangeRev_yields (small : mem.length < 2 ^ 31 ∧ rsv.length < 2 ^ 31) :
    Yields (nextFreeMemRangeRev mem rsv nid) ullongMax.toUInt64 ullongMax.toUInt64
      (freeRanges mem rsv nid).reverse := by
  have start := @revIndices_start mem rsv small
  have run := Yields.of_step (@nextFreeMemRangeRev_step mem rsv nid memOrd rsvOrd small)
    ullongMax.toUInt64 (by unfold FreeCursorRev; rw [start]; omega)
  rw [start, show ((mem.length : Int) - 1 + 1).toNat = mem.length by omega,
    show ((rsv.length : Int) + 1).toNat = rsv.length + 1 by omega] at run
  simpa [pendingFreeRev, freeRanges, rsvAreas] using run

end Reverse

/-! ## The free ranges -/

section Ranges

variable {mem rsv : List MemblockRegion} {nid : Int} {m : MemblockRegion} {p : FreeRange}

theorem mem_regionPieces {areas : List (Nat × Nat)} :
    p ∈ regionPieces nid areas m ↔ nidSkips nid m = false ∧
      ∃ a ∈ areas, (a.1 < m.base + m.size ∧ m.base < a.2) ∧ clipRange m a = p := by
  unfold regionPieces freePiece
  by_cases skip : nidSkips nid m = true
  · simp [skip]
  · simp [skip, List.mem_filterMap]

theorem mem_freeRanges :
    p ∈ freeRanges mem rsv nid ↔ ∃ m ∈ mem, nidSkips nid m = false ∧
      ∃ a ∈ rsvAreas rsv, (a.1 < m.base + m.size ∧ m.base < a.2) ∧ clipRange m a = p := by
  simp only [freeRanges, List.mem_flatMap, mem_regionPieces]

theorem rsvAreas_pairwise (ord : RegionsOrdered rsv) : (rsvAreas rsv).Pairwise fun a b => a.2 ≤ b.1 := by
  unfold rsvAreas areasBelow
  rw [List.pairwise_map]
  exact List.pairwise_lt_range.imp_of_mem fun _ hj lt =>
    rsvArea_end_le ord lt (by simpa [Nat.lt_succ_iff] using hj)

theorem freeRanges_sorted (memOrd : RegionsOrdered mem) (rsvOrd : RegionsOrdered rsv) :
    (freeRanges mem rsv nid).Pairwise fun p q => p.end_ ≤ q.start := by
  unfold freeRanges
  rw [List.pairwise_flatMap]
  constructor
  · -- within a region: the pieces follow the areas
    intro m _
    unfold regionPieces
    split_ifs
    · exact List.Pairwise.nil
    · refine (rsvAreas_pairwise rsvOrd).filterMap _ fun a a' le b hb b' hb' => ?_
      simp only [freePiece] at hb hb'
      split_ifs at hb hb'
      cases hb
      cases hb'
      simp only [clipRange]
      omega
  · -- across regions: each piece lies inside its region
    refine memOrd.pairwise.imp fun {m m'} le p hp q hq => ?_
    obtain ⟨-, a, -, -, rfl⟩ := mem_regionPieces.mp hp
    obtain ⟨-, a', -, -, rfl⟩ := mem_regionPieces.mp hq
    simp only [clipRange]
    omega

theorem freeRanges_start_le (rsvOrd : RegionsOrdered rsv) : ∀ p ∈ freeRanges mem rsv nid, p.start ≤ p.end_ := by
  intro p hp
  obtain ⟨m, -, -, a, ha, ⟨lo, hi⟩, rfl⟩ := mem_freeRanges.mp hp
  obtain ⟨i, -, rfl⟩ := mem_areasBelow.mp ha
  have := rsvArea_le rsvOrd i
  simp only [clipRange]
  omega

theorem rsvArea_start_mono (ord : RegionsOrdered rsv) {i j : Nat} (le : i ≤ j) (hj : j ≤ rsv.length) :
    (rsvArea rsv i).1 ≤ (rsvArea rsv j).1 := by
  rcases Nat.eq_or_lt_of_le le with rfl | lt
  · exact le_refl _
  · exact le_trans (rsvArea_le ord i) (rsvArea_end_le ord lt hj)

theorem rsvArea_end_mono (ord : RegionsOrdered rsv) {i j : Nat} (le : i ≤ j) (hj : j ≤ rsv.length) :
    (rsvArea rsv i).2 ≤ (rsvArea rsv j).2 := by
  rcases Nat.eq_or_lt_of_le le with rfl | lt
  · exact le_refl _
  · exact le_trans (rsvArea_end_le ord lt hj) (rsvArea_le ord j)

theorem mem_rsvAreas_iff (ord : RegionsOrdered rsv) (x : Nat) :
    (∃ a ∈ rsvAreas rsv, a.1 ≤ x ∧ x < a.2) ↔
      x < ullongMax ∧ ∀ r ∈ rsv, ¬(r.base ≤ x ∧ x < r.base + r.size) := by
  constructor
  · rintro ⟨a, mem', lo, hi⟩
    obtain ⟨i, hi', rfl⟩ := mem_areasBelow.mp mem'
    have hi'' : i ≤ rsv.length := by omega
    have last := rsvArea_end_mono ord hi'' le_rfl
    rw [rsvArea_snd_of_ge le_rfl] at last
    refine ⟨by omega, ?_⟩
    intro r hr holds
    obtain ⟨j, hj, rfl⟩ := List.getElem_of_mem hr
    rw [← List.getD_eq_getElem _ emptyRegion hj] at holds
    rcases Nat.lt_or_ge j i with before | after
    · -- region `j` ends where area `j + 1` starts, by where area `i` starts
      have := rsvArea_start_mono ord (show j + 1 ≤ i by omega) hi''
      rw [rsvArea_succ_fst] at this
      omega
    · -- region `j` starts where area `j` ends, at or after where area `i` ends
      have := rsvArea_end_mono ord after (by omega)
      rw [rsvArea_snd_of_lt hj] at this
      omega
  · rintro ⟨below, free⟩
    obtain ⟨i, hi, starts, next⟩ := @exists_last_area rsv x
    refine ⟨rsvArea rsv i, mem_areasBelow.mpr ⟨i, by omega, rfl⟩, starts, ?_⟩
    by_cases last : i < rsv.length
    · -- `x` is past where area `i` ends only if region `i` holds it
      have outside := free _ (List.getElem_mem last)
      rw [← List.getD_eq_getElem _ emptyRegion last] at outside
      have := next last
      rw [rsvArea_succ_fst] at this
      rw [rsvArea_snd_of_lt last]
      omega
    · rw [rsvArea_snd_of_ge (by omega)]
      exact below

theorem mem_freeRanges_iff (memOrd : RegionsOrdered mem) (rsvOrd : RegionsOrdered rsv) (x : Nat) :
    (∃ p ∈ freeRanges mem rsv nid, p.start ≤ x ∧ x < p.end_) ↔
      (∃ m ∈ mem, nidSkips nid m = false ∧ m.base ≤ x ∧ x < m.base + m.size) ∧
        ∀ r ∈ rsv, ¬(r.base ≤ x ∧ x < r.base + r.size) := by
  constructor
  · rintro ⟨p, hp, lo, hi⟩
    obtain ⟨m, hm, keep, a, ha, -, rfl⟩ := mem_freeRanges.mp hp
    simp only [clipRange] at lo hi
    have free := ((mem_rsvAreas_iff rsvOrd x).mp ⟨a, ha, by omega, by omega⟩).2
    exact ⟨⟨m, hm, keep, by omega, by omega⟩, free⟩
  · rintro ⟨⟨m, hm, keep, lo, hi⟩, free⟩
    have ends := memOrd.bounded m hm
    obtain ⟨a, ha, alo, ahi⟩ := (mem_rsvAreas_iff rsvOrd x).mpr ⟨by omega, free⟩
    refine ⟨clipRange m a, mem_freeRanges.mpr ⟨m, hm, keep, a, ha, ⟨by omega, by omega⟩, rfl⟩, ?_⟩
    simp only [clipRange]
    omega

theorem MemblockSorted.size_pos {s : Nat} {l : List MemblockRegion} (h : MemblockSorted s l)
    {r : MemblockRegion} (mem' : r ∈ l) : 0 < r.size := by
  induction l generalizing s with
  | nil => cases mem'
  | cons r' l ih =>
    rw [sorted_cons] at h
    rcases List.mem_cons.mp mem' with rfl | mem'
    exacts [h.2.1, ih h.2.2 mem']

theorem freeRanges_nonempty (memOk : MemblockRegions mem)
    (apart : rsv.IsChain fun a b => a.base + a.size < b.base) :
    ∀ p ∈ freeRanges mem rsv nid, p.start < p.end_ := by
  intro p hp
  obtain ⟨m, hm, -, a, ha, ⟨lo, hi⟩, rfl⟩ := mem_freeRanges.mp hp
  obtain ⟨i, hi', rfl⟩ := mem_areasBelow.mp ha
  have sized : 0 < m.size := by
    rcases memOk with rfl | ⟨-, sorted⟩
    · rw [List.mem_singleton.mp hm] at lo
      simp [emptyRegion] at lo
    · exact sorted.size_pos hm
  have ends : m.base + m.size ≤ ullongMax := (MemblockRegions.ordered memOk).bounded m hm
  -- only an inner area can be empty, and an inner area lies between two regions apart
  have open_ : (rsvArea rsv i).1 < (rsvArea rsv i).2 ∨ (rsvArea rsv i).1 = 0 ∨
      (rsvArea rsv i).2 = ullongMax := by
    by_cases zero : i = 0
    · simp [rsvArea, zero]
    by_cases last : i < rsv.length
    · have := List.isChain_iff_getElem.mp apart (i - 1) (by omega)
      rw [← List.getD_eq_getElem _ emptyRegion (by omega),
        ← List.getD_eq_getElem _ emptyRegion (by omega)] at this
      simp only [rsvArea, zero, last, if_false, if_true, show i - 1 + 1 = i by omega] at this ⊢
      omega
    · simp [rsvArea, last]
  simp only [clipRange]
  omega

/-- The indices packed into `idx` are `int`s: with `2^31 + 1` memory regions,
`(int)(mem->cnt - 1)` is negative, and the reverse walk from `ULLONG_MAX` ends at once, before it
looks at any region. -/
theorem nextFreeMemRangeRev_overflow (many : mem.length = 2 ^ 31 + 1) :
    (nextFreeMemRangeRev mem rsv nid ullongMax.toUInt64).1 = ullongMax.toUInt64 := by
  have start : (revIndices mem rsv ullongMax.toUInt64).1 = -2 ^ 31 := by
    simp [revIndices, cInt, many]
  unfold nextFreeMemRangeRev
  dsimp only
  rw [start]
  rfl

/-- `2^31 + 1` pages of memory, one page apart, none reserved. -/
theorem nextFreeMemRangeRev_overflow_pages :
    ((List.range (2 ^ 31 + 1)).map fun i => (⟨0x1000 * (2 * i + 1), 0x1000, 0⟩ : MemblockRegion)).length =
        2 ^ 31 + 1 ∧
      (nextFreeMemRangeRev ((List.range (2 ^ 31 + 1)).map fun i => ⟨0x1000 * (2 * i + 1), 0x1000, 0⟩) []
        0 ullongMax.toUInt64).1 = ullongMax.toUInt64 :=
  have many : ((List.range (2 ^ 31 + 1)).map fun i => (⟨0x1000 * (2 * i + 1), 0x1000, 0⟩ : MemblockRegion)).length =
      2 ^ 31 + 1 := by
    rw [List.length_map, List.length_range]
  ⟨many, nextFreeMemRangeRev_overflow many⟩

end Ranges

/-! ## Both walks -/

theorem freeMemRange_walks (mem rsv : List MemblockRegion) (nid : Int) (memOk : MemblockRegions mem)
    (rsvOk : MemblockRegions rsv) (small : mem.length < 2 ^ 31 ∧ rsv.length < 2 ^ 31) :
    Yields (nextFreeMemRange mem rsv nid) ullongMax.toUInt64 0 (freeRanges mem rsv nid) ∧
    Yields (nextFreeMemRangeRev mem rsv nid) ullongMax.toUInt64 ullongMax.toUInt64
      (freeRanges mem rsv nid).reverse ∧
    (freeRanges mem rsv nid).Pairwise (fun p q => p.end_ ≤ q.start) ∧
    (∀ x, (∃ p ∈ freeRanges mem rsv nid, p.start ≤ x ∧ x < p.end_) ↔
      (∃ m ∈ mem, nidSkips nid m = false ∧ m.base ≤ x ∧ x < m.base + m.size) ∧
        ∀ r ∈ rsv, ¬(r.base ≤ x ∧ x < r.base + r.size)) ∧
    (rsv.IsChain (fun a b => a.base + a.size < b.base) →
      ∀ p ∈ freeRanges mem rsv nid, p.start < p.end_) := by
  have memOrd := memOk.ordered
  have rsvOrd := rsvOk.ordered
  exact ⟨nextFreeMemRange_yields memOrd rsvOrd small, nextFreeMemRangeRev_yields memOrd rsvOrd small,
    freeRanges_sorted memOrd rsvOrd, mem_freeRanges_iff memOrd rsvOrd, freeRanges_nonempty memOk⟩

/-- Memory on two nodes, with a reserved page inside the first region: the forward walk yields
the free ranges on either side of the page and the second region, in order. -/
theorem freeMemRange_walks_around_reserved :
    let mem : List MemblockRegion := [⟨0x1000, 0x3000, 0⟩, ⟨0x10000, 0x1000, 1⟩]
    let rsv : List MemblockRegion := [⟨0x2000, 0x1000, maxNumnodes⟩]
    MemblockRegions mem ∧ MemblockRegions rsv ∧ mem.length < 2 ^ 31 ∧ rsv.length < 2 ^ 31 ∧
      freeRanges mem rsv maxNumnodes = [⟨0x1000, 0x2000, 0⟩, ⟨0x3000, 0x4000, 0⟩, ⟨0x10000, 0x11000, 1⟩] ∧
      Yields (nextFreeMemRange mem rsv maxNumnodes) ullongMax.toUInt64 0 (freeRanges mem rsv maxNumnodes) := by
  intro mem rsv
  have memOk : MemblockRegions mem := by
    unfold MemblockRegions MemblockSorted
    decide
  have rsvOk : MemblockRegions rsv := by
    unfold MemblockRegions MemblockSorted
    decide
  exact ⟨memOk, rsvOk, by decide, by decide, by decide,
    (freeMemRange_walks _ _ maxNumnodes memOk rsvOk ⟨by decide, by decide⟩).1⟩

/-- Two reserved regions that touch inside a memory region leave an empty area there, and the
forward walk writes the empty range `[32, 32)` between the two free ones. -/
theorem freeMemRange_touching_reserved :
    MemblockRegions [⟨0, 64, 0⟩] ∧ MemblockRegions [⟨16, 16, maxNumnodes⟩, ⟨32, 16, maxNumnodes⟩] ∧
      Yields (nextFreeMemRange [⟨0, 64, 0⟩] [⟨16, 16, maxNumnodes⟩, ⟨32, 16, maxNumnodes⟩] maxNumnodes)
        ullongMax.toUInt64 0 [⟨0, 16, 0⟩, ⟨32, 32, 0⟩, ⟨48, 64, 0⟩] := by
  refine ⟨?_, ?_, ?_⟩
  · unfold MemblockRegions MemblockSorted
    decide
  · unfold MemblockRegions MemblockSorted
    decide
  · exact .yield (by decide) (by decide) (.yield (by decide) (by decide)
      (.yield (by decide) (by decide) (.stop (by decide))))

end LinuxKernel
