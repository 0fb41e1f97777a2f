import LinuxKernel.Mm.BuddyInv

/-!
# `__free_one_page`

The merge loop keeps an aligned block of pages about to be free while the zone's blocks cover
the other free pages; marking and listing the final block restores the buddy invariant.
-/

namespace LinuxKernel

open Buddy

theorem findBuddyIndex_eq (pageIdx order : Nat) : findBuddyIndex pageIdx order = pageIdx ^^^ 2 ^ order := by
  rw [findBuddyIndex, Nat.one_shiftLeft]

structure Merging (s : FreeState) (H : Nat → Bool) : Prop where
  inv : BuddyInv s.zone fun q => H q && !decide (InBlock s.page s.order q)
  aligned : 2 ^ s.order ∣ s.page
  order_lt : s.order < maxOrder
  fits : s.page + 2 ^ s.order ≤ s.zone.spanned
  held : ∀ q, InBlock s.page s.order q → H q = true
  idx : s.pageIdx = s.page % 2 ^ maxOrder

/-- Where the loop stops: at `MAX_ORDER - 1`, or where the buddy is no free block of the order. -/
def Stopped (s : FreeState) : Prop :=
  s.order < maxOrder - 1 → pageIsBuddy s.zone s.page (s.page ^^^ 2 ^ s.order) s.order = false

section Loop

variable {s : FreeState} {H : Nat → Bool}

theorem Merging.unmarked (m : Merging s H) (o : Nat) : s.zone.pageOrder s.page ≠ some o := fun hp => by
  have := (m.inv.cover s.page).mpr ⟨s.page, o, hp, inBlock_self _ _⟩
  simp [inBlock_self] at this

theorem Merging.merge (m : Merging s H) (lt : s.order < maxOrder - 1)
    (hb : pageIsBuddy s.zone s.page (s.page ^^^ 2 ^ s.order) s.order = true) (buddyIdx : Nat) :
    Merging ⟨((s.zone.listDel (s.page ^^^ 2 ^ s.order)).decNrFree s.order).rmvPageOrder (s.page ^^^ 2 ^ s.order),
      (s.page ^^^ 2 ^ s.order) &&& s.page, ((s.page ^^^ 2 ^ s.order) &&& s.page) % 2 ^ maxOrder, s.order + 1,
      buddyIdx⟩ H := by
  obtain ⟨-, inZone, marked⟩ := pageIsBuddy_iff.mp hb
  have lists : FreeLists (((s.zone.listDel (s.page ^^^ 2 ^ s.order)).decNrFree s.order).rmvPageOrder
      (s.page ^^^ 2 ^ s.order)) := m.inv.toFreeLists.remove marked rfl (fun _ _ => rfl) rfl
  have blocks : Blocks (((s.zone.listDel (s.page ^^^ 2 ^ s.order)).decNrFree s.order).rmvPageOrder
      (s.page ^^^ 2 ^ s.order)) _ := m.inv.toBlocks.remove marked rfl rfl
  obtain ⟨-, -, buddyFits⟩ := m.inv.aligned _ _ marked
  refine ⟨BuddyInv.congr ⟨lists, blocks⟩ fun q => ?_, dvd_and_xor_two_pow m.aligned, show s.order + 1 < maxOrder by omega,
    ?_, fun q hq => ?_, rfl⟩
  · -- the doubled block is the old one and the buddy's
    dsimp only
    simp only [inBlock_and_xor_two_pow m.aligned q, Bool.decide_or, Bool.not_or, Bool.and_assoc]
  · rcases halves m.aligned with ⟨hx, hc⟩ | ⟨hx, hc⟩
    · simp only [hc]
      rw [Nat.pow_succ]
      simp only [Zone.rmvPageOrder, Zone.decNrFree, Zone.listDel] at buddyFits ⊢
      omega
    · simp only [hc]
      rw [Nat.pow_succ]
      have := m.fits
      simp only [Zone.rmvPageOrder, Zone.decNrFree, Zone.listDel] at this ⊢
      omega
  · rcases (inBlock_and_xor_two_pow m.aligned q).mp hq with h | h
    · exact m.held q h
    · have := (m.inv.cover q).mpr ⟨_, _, marked, h⟩
      simp only [Bool.and_eq_true] at this
      exact this.1

theorem mergeLoop_merging : ∀ (fuel : Nat) {s : FreeState}, Merging s H → maxOrder - 1 ≤ fuel + s.order →
    Merging (mergeLoop fuel s) H ∧ Stopped (mergeLoop fuel s)
  | 0, s, m, enough => ⟨m, fun lt => absurd lt (by rw [mergeLoop]; omega)⟩
  | fuel + 1, s, m, enough => by
    rw [mergeLoop]
    split_ifs with lt
    · dsimp only
      rw [findBuddyIndex_eq, m.idx, sub_mod_add_xor m.order_lt]
      split_ifs with hb
      · -- the buddy is no free block: the loop breaks
        refine ⟨⟨m.inv, m.aligned, m.order_lt, m.fits, m.held, rfl⟩, fun _ => ?_⟩
        simpa using hb
      · rw [sub_mod_add_and m.order_lt, ← and_xor_two_pow_mod m.order_lt]
        exact mergeLoop_merging fuel (m.merge lt (by simpa using hb) _)
          (show maxOrder - 1 ≤ fuel + (s.order + 1) by omega)
    · exact ⟨m, fun h => absurd h lt⟩

theorem Merging.finish (m : Merging s H) (stop : Stopped s) (mt : MigrateType) (toTail : Bool) :
    BuddyInv (((if toTail then (s.zone.setPageOrder s.page s.order).listAddTail s.page s.order mt
      else (s.zone.setPageOrder s.page s.order).listAdd s.page s.order mt)).incNrFree s.order) H := by
  have unmarked : s.zone.pageOrder s.page = none := by
    cases h : s.zone.pageOrder s.page with
    | none => rfl
    | some o => exact absurd h (m.unmarked o)
  have alone : s.order < maxOrder - 1 → s.zone.pageOrder (s.page ^^^ 2 ^ s.order) ≠ some s.order := fun lt hb => by
    have broke := stop lt
    obtain ⟨-, -, buddyFits⟩ := m.inv.aligned _ _ hb
    have fits := m.fits
    have := Nat.two_pow_pos s.order
    rw [pageIsBuddy, hb] at broke
    simp only [beq_self_eq_true, Bool.and_true, Bool.and_eq_false_iff, decide_eq_false_iff_not] at broke
    omega
  have blocks : Blocks (((if toTail then (s.zone.setPageOrder s.page s.order).listAddTail s.page s.order mt
      else (s.zone.setPageOrder s.page s.order).listAdd s.page s.order mt)).incNrFree s.order) _ :=
    m.inv.toBlocks.add m.aligned m.order_lt m.fits (fun q hq => by simp [hq]) alone (by split <;> rfl)
      (by split <;> rfl)
  have lists : FreeLists (((if toTail then (s.zone.setPageOrder s.page s.order).listAddTail s.page s.order mt
      else (s.zone.setPageOrder s.page s.order).listAdd s.page s.order mt)).incNrFree s.order) := by
    cases toTail
    · exact m.inv.toFreeLists.add unmarked (fun l => List.Perm.refl (s.page :: l)) rfl (fun _ _ => rfl) rfl
    · exact m.inv.toFreeLists.add unmarked (List.perm_append_singleton s.page) rfl (fun _ _ => rfl) rfl
  refine BuddyInv.congr ⟨lists, blocks⟩ fun q => ?_
  by_cases hq : InBlock s.page s.order q
  · simp [hq, m.held q hq]
  · simp [hq]

end Loop

theorem freeOnePage_inv {z : Zone} {F : Nat → Bool} {p o : Nat} (mt : MigrateType) (w : BuddyInv z F)
    (ha : 2 ^ o ∣ p) (ho : o < maxOrder) (hfit : p + 2 ^ o ≤ z.spanned)
    (hfree : ∀ q, InBlock p o q → F q = false) :
    BuddyInv (freeOnePage z p o mt) fun q => F q || decide (InBlock p o q) := by
  have start : Merging ⟨z, p, p % 2 ^ maxOrder, o, 0⟩ fun q => F q || decide (InBlock p o q) := by
    refine ⟨w.congr fun q => ?_, ha, ho, hfit, fun q hq => by simp [hq], rfl⟩
    by_cases hq : InBlock p o q
    · simp [hq, hfree q hq]
    · simp [hq]
  obtain ⟨m, stop⟩ := mergeLoop_merging maxOrder start (by omega)
  exact m.finish stop mt _

end LinuxKernel
