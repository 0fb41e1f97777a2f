import LinuxKernel.Mm.BuddyAlloc
import Mathlib.Algebra.BigOperators.Group.Finset.Basic

/-!
# The buddy allocator over whole runs

From a zone with every page allocated, any run of `__free_one_page` and `__rmqueue_smallest`
steps keeps the zone's free blocks exactly the buddy system's.
-/

namespace LinuxKernel

open Buddy

theorem BuddyInv.nrFree_eq_card {z : Zone} {F : Nat → Bool} (w : BuddyInv z F) (o : Nat) :
    z.nrFree o = ((Finset.range z.spanned).filter fun p => z.pageOrder p = some o).card := by
  have heads : ((Finset.range z.spanned).filter fun p => z.pageOrder p = some o) =
      Finset.univ.biUnion fun mt => (z.freeList o mt).toFinset := by
    ext p
    simp only [Finset.mem_filter, Finset.mem_range, Finset.mem_biUnion, Finset.mem_univ, true_and,
      List.mem_toFinset]
    constructor
    · rintro ⟨-, hp⟩
      exact w.listed p o hp
    · rintro ⟨mt, hm⟩
      have hp := w.marked o mt p hm
      obtain ⟨-, -, fits⟩ := w.aligned p o hp
      have := Nat.two_pow_pos o
      exact ⟨by omega, hp⟩
  rw [heads, Finset.card_biUnion, w.count]
  · exact Finset.sum_congr rfl fun mt _ => (List.toFinset_card_of_nodup (w.nodup o mt)).symm
  · intro m _ m' _ ne
    exact Finset.disjoint_left.mpr fun p hm hm' =>
      ne (w.oneList o m m' p (List.mem_toFinset.mp hm) (List.mem_toFinset.mp hm'))

/-- The zones a run reaches, with the pages free in them. -/
inductive BuddyReachable : Zone → (Nat → Bool) → Prop
  | init (spanned : Nat) : BuddyReachable (Zone.allocated spanned) fun _ => false
  | free {z : Zone} {F : Nat → Bool} {p o : Nat} (mt : MigrateType) : BuddyReachable z F → 2 ^ o ∣ p →
      o < maxOrder → p + 2 ^ o ≤ z.spanned → (∀ q, InBlock p o q → F q = false) →
      BuddyReachable (freeOnePage z p o mt) fun q => F q || decide (InBlock p o q)
  | alloc {z z' : Zone} {F : Nat → Bool} {order page : Nat} {mt : MigrateType} : BuddyReachable z F →
      rmqueueSmallest z order mt = (some page, z') → BuddyReachable z' fun q => F q && !decide (InBlock page order q)
  | allocFails {z z' : Zone} {F : Nat → Bool} {order : Nat} {mt : MigrateType} : BuddyReachable z F →
      rmqueueSmallest z order mt = (none, z') → BuddyReachable z' F

/-- The buddy invariant holds in every state a run reaches, and `nr_free` counts the blocks of each
order. -/
theorem buddy_reachable_invariant {z : Zone} {F : Nat → Bool} (h : BuddyReachable z F) :
    BuddyInv z F ∧ ∀ o, z.nrFree o = ((Finset.range z.spanned).filter fun p => z.pageOrder p = some o).card := by
  have inv : BuddyInv z F := by
    induction h with
    | init spanned => exact allocated_inv spanned
    | free mt _ ha ho hfit hfree ih => exact freeOnePage_inv mt ih ha ho hfit hfree
    | alloc _ hr ih => exact rmqueueSmallest_some_inv ih hr
    | allocFails _ hr ih =>
      have same := rmqueueSmallest_none_zone (by rw [hr])
      rw [hr] at same
      dsimp only at same
      subst same
      exact ih
  exact ⟨inv, inv.nrFree_eq_card⟩

/-- Freeing an eight-page block and taking one page back leaves one free block of each order
below three. -/
theorem buddy_reachable_eight_pages :
    BuddyReachable (rmqueueSmallest (freeOnePage (Zone.allocated 8) 0 3 .movable) 0 .movable).2
        (fun q => (false || decide (InBlock 0 3 q)) && !decide (InBlock 0 0 q)) ∧
      ∀ o, (rmqueueSmallest (freeOnePage (Zone.allocated 8) 0 3 .movable) 0 .movable).2.nrFree o =
        (((Finset.range 8).filter fun p =>
          (rmqueueSmallest (freeOnePage (Zone.allocated 8) 0 3 .movable) 0 .movable).2.pageOrder p = some o).card) := by
  have run : BuddyReachable (rmqueueSmallest (freeOnePage (Zone.allocated 8) 0 3 .movable) 0 .movable).2
      (fun q => (false || decide (InBlock 0 3 q)) && !decide (InBlock 0 0 q)) :=
    .alloc (.free .movable (.init 8) (by decide) (by decide) (by decide) fun _ _ => rfl) (Prod.ext (by decide) rfl)
  exact ⟨run, (buddy_reachable_invariant run).2⟩

end LinuxKernel
