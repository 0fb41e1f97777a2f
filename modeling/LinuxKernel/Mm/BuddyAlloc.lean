import LinuxKernel.Mm.BuddyFree

/-!
# `__rmqueue_smallest` and `expand`

`__rmqueue_smallest` takes the head of the first non-empty list of the migrate type from the
order asked for up; `expand` then gives back the upper halves, one block of each order from the
list's order down to the order asked for, at the head of the same migrate type's lists. The block
handed out is the lower `2^order` pages of the block taken, which were free, and the zone keeps the
buddy invariant for the free pages less those.
-/

namespace LinuxKernel

open Buddy

/-! ### `expand` -/

section Expand

variable {page low : Nat} {mt : MigrateType}

theorem expand_freeList : ∀ (high : Nat) (z : Zone) (j : Nat) (m : MigrateType),
    (expand page low mt high z).freeList j m =
      if low ≤ j ∧ j < high ∧ m = mt then (page + 2 ^ j) :: z.freeList j m else z.freeList j m
  | 0, z, j, m => by simp [expand]
  | high + 1, z, j, m => by
    rw [expand]
    by_cases h : low < high + 1
    · have top : (((z.listAdd (page + 2 ^ high) high mt).incNrFree high).setPageOrder (page + 2 ^ high) high).freeList j m =
          if j = high ∧ m = mt then (page + 2 ^ high) :: z.freeList j m else z.freeList j m := rfl
      rw [if_pos h, expand_freeList, top]
      by_cases below : low ≤ j ∧ j < high ∧ m = mt
      · rw [if_pos below, if_neg fun e => absurd e.1 (by omega), if_pos ⟨below.1, by omega, below.2.2⟩]
      · rw [if_neg below]
        by_cases at_top : j = high ∧ m = mt
        · obtain ⟨rfl, rfl⟩ := at_top
          rw [if_pos ⟨rfl, rfl⟩, if_pos ⟨by omega, by omega, rfl⟩]
        · rw [if_neg at_top, if_neg fun e => by
            by_cases hj : j = high
            · exact at_top ⟨hj, e.2.2⟩
            · exact below ⟨e.1, by omega, e.2.2⟩]
    · rw [if_neg h, if_neg fun e => absurd e.2.1 (by omega)]

theorem expand_pageOrder_other : ∀ (high : Nat) (z : Zone) (q : Nat),
    (∀ j, low ≤ j → j < high → q ≠ page + 2 ^ j) → (expand page low mt high z).pageOrder q = z.pageOrder q
  | 0, _, _, _ => rfl
  | high + 1, z, q, hq => by
    rw [expand]
    split_ifs with h
    · rw [expand_pageOrder_other high _ q fun j h₁ h₂ => hq j h₁ (by omega)]
      simp [hq high (by omega) (by omega)]
    · rfl

theorem expand_pageOrder_split : ∀ (high : Nat) (z : Zone) (j : Nat), low ≤ j → j < high →
    (expand page low mt high z).pageOrder (page + 2 ^ j) = some j
  | 0, _, _, _, hj => absurd hj (Nat.not_lt_zero _)
  | high + 1, z, j, hl, hj => by
    rw [expand, if_pos (by omega)]
    by_cases top : j = high
    · subst top
      -- the blocks split off later are lower
      rw [expand_pageOrder_other j _ _ fun j' _ h' e => by
        have := Nat.pow_lt_pow_right (show 1 < 2 by norm_num) h'
        omega]
      simp
    · exact expand_pageOrder_split high _ j hl (by omega)

theorem BuddyInv.split_step {z : Zone} {F : Nat → Bool} {h : Nat}
    (w : BuddyInv z fun q => F q && !decide (InBlock page (h + 1) q)) (held : ∀ q, InBlock page (h + 1) q → F q = true)
    (ha : 2 ^ (h + 1) ∣ page) (ho : h + 1 < maxOrder) (hfit : page + 2 ^ (h + 1) ≤ z.spanned) :
    BuddyInv (((z.listAdd (page + 2 ^ h) h mt).incNrFree h).setPageOrder (page + 2 ^ h) h)
      fun q => F q && !decide (InBlock page h q) := by
  have upper : ∀ q, InBlock (page + 2 ^ h) h q → InBlock page (h + 1) q := fun q hq =>
    (inBlock_split (show h ≤ h + 1 by omega) q).mpr (.inr ⟨h, le_rfl, by omega, hq⟩)
  have unheaded : ∀ q, InBlock page (h + 1) q → ∀ o, z.pageOrder q ≠ some o := fun q hq o hp => by
    have := (w.cover q).mpr ⟨q, o, hp, inBlock_self q o⟩
    simp [hq] at this
  have fits : page + 2 ^ h + 2 ^ h ≤ z.spanned := by rw [Nat.pow_succ] at hfit; omega
  have lists : FreeLists (((z.listAdd (page + 2 ^ h) h mt).incNrFree h).setPageOrder (page + 2 ^ h) h) := by
    refine w.toFreeLists.add ?_ (fun l => List.Perm.refl _) rfl (fun _ _ => rfl) rfl
    cases hp : z.pageOrder (page + 2 ^ h) with
    | none => rfl
    | some o => exact absurd hp (unheaded _ (upper _ (inBlock_self _ _)) o)
  have blocks : Blocks (((z.listAdd (page + 2 ^ h) h mt).incNrFree h).setPageOrder (page + 2 ^ h) h) _ :=
    w.toBlocks.add (dvd_add_two_pow ha (by omega)) (by omega) fits (fun q hq => by simp [upper q hq])
      (fun _ => by rw [add_two_pow_xor ha (by omega)]; exact unheaded page (inBlock_self _ _) h) rfl rfl
  refine BuddyInv.congr ⟨lists, blocks⟩ fun q => ?_
  have halves := inBlock_split (p := page) (show h ≤ h + 1 by omega) q
  by_cases h₁ : InBlock page h q
  · have := halves.mpr (.inl h₁)
    have := not_inBlock_split le_rfl h₁
    simp [*]
  · by_cases h₂ : InBlock (page + 2 ^ h) h q
    · simp [h₁, h₂, held q (upper q h₂)]
    · have : ¬InBlock page (h + 1) q := fun hq => by
        rcases halves.mp hq with h' | ⟨j, hj₁, hj₂, h'⟩
        · exact h₁ h'
        · exact h₂ (show j = h by omega ▸ h')
      simp [h₁, h₂, this]

theorem expand_inv {F : Nat → Bool} : ∀ (high : Nat) (z : Zone), BuddyInv z (fun q => F q && !decide (InBlock page high q)) →
    (∀ q, InBlock page high q → F q = true) → 2 ^ high ∣ page → high < maxOrder → page + 2 ^ high ≤ z.spanned →
    low ≤ high → BuddyInv (expand page low mt high z) fun q => F q && !decide (InBlock page low q)
  | 0, z, w, _, _, _, _, hl => by
    obtain rfl : low = 0 := by omega
    exact w
  | high + 1, z, w, held, ha, ho, hfit, hl => by
    rw [expand]
    split_ifs with h
    · have step : BuddyInv (((z.listAdd (page + 2 ^ high) high mt).incNrFree high).setPageOrder (page + 2 ^ high) high) _ :=
        w.split_step held ha ho hfit
      refine expand_inv high _ step (fun q hq => held q ((inBlock_split (show high ≤ high + 1 by omega) q).mpr (.inl hq)))
        ((Nat.pow_dvd_pow 2 (by omega)).trans ha) (by omega) ?_ (by omega)
      have := Nat.pow_le_pow_right (show 0 < 2 by norm_num) (show high ≤ high + 1 by omega)
      simp only [Zone.setPageOrder, Zone.incNrFree, Zone.listAdd, Zone.modifyList]
      omega
    · obtain rfl : low = high + 1 := by omega
      exact w

end Expand

/-! ### The search from the order asked for -/

section Search

variable {z : Zone} {order : Nat} {mt : MigrateType}

theorem rmqueueLoop_none (empty : ∀ k, order ≤ k → k < maxOrder → z.freeList k mt = []) :
    ∀ (fuel c : Nat), order ≤ c → rmqueueLoop z order mt fuel c = (none, z)
  | 0, _, _ => rfl
  | fuel + 1, c, hc => by
    rw [rmqueueLoop]
    split_ifs with lt
    · rw [empty c hc lt]
      exact rmqueueLoop_none empty fuel (c + 1) (by omega)
    · rfl

theorem rmqueueLoop_some {k page : Nat} {rest : List Nat} (hkm : k < maxOrder)
    (empty : ∀ j, order ≤ j → j < k → z.freeList j mt = []) (hl : z.freeList k mt = page :: rest) :
    ∀ (fuel c : Nat), order ≤ c → c ≤ k → k - c < fuel →
      rmqueueLoop z order mt fuel c = (some page, expand page order mt k (((z.listDel page).rmvPageOrder page).decNrFree k))
  | 0, _, _, _, h => absurd h (Nat.not_lt_zero _)
  | fuel + 1, c, hc, hck, hf => by
    rw [rmqueueLoop, if_pos (by omega)]
    by_cases top : c = k
    · subst top
      rw [hl]
    · rw [empty c hc (by omega)]
      exact rmqueueLoop_some hkm empty hl fuel (c + 1) (by omega) (by omega) (by omega)

theorem rmqueueSmallest_cases (z : Zone) (order : Nat) (mt : MigrateType) :
    ((∀ k, order ≤ k → k < maxOrder → z.freeList k mt = []) ∧ rmqueueSmallest z order mt = (none, z)) ∨
      ∃ k page rest, order ≤ k ∧ k < maxOrder ∧ (∀ j, order ≤ j → j < k → z.freeList j mt = []) ∧
        z.freeList k mt = page :: rest ∧
        rmqueueSmallest z order mt =
          (some page, expand page order mt k (((z.listDel page).rmvPageOrder page).decNrFree k)) := by
  by_cases some : ∃ k, order ≤ k ∧ k < maxOrder ∧ z.freeList k mt ≠ []
  · right
    classical
    let k := Nat.find some
    obtain ⟨hk, hkm, ne⟩ : order ≤ k ∧ k < maxOrder ∧ z.freeList k mt ≠ [] := Nat.find_spec some
    have empty : ∀ j, order ≤ j → j < k → z.freeList j mt = [] := fun j hj hjk => by
      by_contra ne'
      exact Nat.find_min some hjk ⟨hj, by omega, ne'⟩
    obtain ⟨page, rest, hl⟩ := List.exists_cons_of_ne_nil ne
    exact ⟨k, page, rest, hk, hkm, empty, hl,
      rmqueueLoop_some hkm empty hl maxOrder order le_rfl hk (by omega)⟩
  · left
    have empty : ∀ k, order ≤ k → k < maxOrder → z.freeList k mt = [] := fun k hk hkm => by
      by_contra ne
      exact some ⟨k, hk, hkm, ne⟩
    exact ⟨empty, rmqueueLoop_none empty maxOrder order le_rfl⟩

end Search

/-! ### The block handed out -/

/-- What `__rmqueue_smallest` does to a zone with the buddy invariant, when it takes the head `page`
of order `k`: the invariant holds again for the free pages less the `2^order` handed out. -/
theorem rmqueue_inv {z : Zone} {F : Nat → Bool} {order k page : Nat} {rest : List Nat} {mt : MigrateType}
    (w : BuddyInv z F) (hk : order ≤ k) (hl : z.freeList k mt = page :: rest) :
    BuddyInv (expand page order mt k (((z.listDel page).rmvPageOrder page).decNrFree k))
      fun q => F q && !decide (InBlock page order q) := by
  have marked := w.marked k mt page (by rw [hl]; exact List.mem_cons_self)
  obtain ⟨ha, hkm, hfit⟩ := w.aligned page k marked
  have lists : FreeLists (((z.listDel page).rmvPageOrder page).decNrFree k) :=
    w.toFreeLists.remove marked rfl (fun _ _ => rfl) rfl
  have blocks : Blocks (((z.listDel page).rmvPageOrder page).decNrFree k) _ := w.toBlocks.remove marked rfl rfl
  refine expand_inv k _ ⟨lists, blocks⟩ (fun q hq => (w.cover q).mpr ⟨page, k, marked, hq⟩) ha hkm hfit hk

theorem rmqueueSmallest_none_zone {z : Zone} {order : Nat} {mt : MigrateType}
    (h : (rmqueueSmallest z order mt).1 = none) : (rmqueueSmallest z order mt).2 = z := by
  rcases rmqueueSmallest_cases z order mt with ⟨-, hr⟩ | ⟨k, page, rest, -, -, -, -, hr⟩
  · rw [hr]
  · rw [hr] at h
    cases h

theorem rmqueueSmallest_some_inv {z z' : Zone} {F : Nat → Bool} {order page : Nat} {mt : MigrateType}
    (w : BuddyInv z F) (h : rmqueueSmallest z order mt = (some page, z')) :
    BuddyInv z' fun q => F q && !decide (InBlock page order q) := by
  rcases rmqueueSmallest_cases z order mt with ⟨-, hr⟩ | ⟨k, page', rest, hk, -, -, hl, hr⟩
  · rw [hr] at h
    cases h
  · rw [hr] at h
    obtain ⟨hp, rfl⟩ := Prod.mk.inj h
    obtain rfl := Option.some.inj hp
    exact rmqueue_inv w hk hl

/-- The zone `__rmqueue_smallest` leaves when it takes the head `page` of the list of order `k`:
that list loses its head, each order from `order` to `k - 1` gains the upper half split off at it,
and nothing else changes. -/
theorem rmqueue_lists {z : Zone} {F : Nat → Bool} {order k page : Nat} {rest : List Nat} {mt : MigrateType}
    (w : BuddyInv z F) (hk : order ≤ k) (empty : ∀ j, order ≤ j → j < k → z.freeList j mt = [])
    (hl : z.freeList k mt = page :: rest) :
    (expand page order mt k (((z.listDel page).rmvPageOrder page).decNrFree k)).freeList k mt = rest ∧
      (∀ j, order ≤ j → j < k →
        (expand page order mt k (((z.listDel page).rmvPageOrder page).decNrFree k)).freeList j mt =
          (page + 2 ^ j) :: z.freeList j mt) ∧
      ∀ j m, (j < order ∨ k < j ∨ m ≠ mt) →
        (expand page order mt k (((z.listDel page).rmvPageOrder page).decNrFree k)).freeList j m = z.freeList j m := by
  have marked := w.marked k mt page (by rw [hl]; exact List.mem_cons_self)
  -- the head is on no other list
  have elsewhere : ∀ j m, ¬(j = k ∧ m = mt) → page ∉ z.freeList j m := fun j m ne hm => by
    have hj : j = k := Option.some.inj ((w.marked j m page hm).symm.trans marked)
    subst hj
    exact ne ⟨rfl, w.oneList j m mt page hm (by rw [hl]; exact List.mem_cons_self)⟩
  refine ⟨?_, fun j hj hjk => ?_, fun j m hjm => ?_⟩
  · rw [expand_freeList, if_neg fun h => absurd h.2.1 (lt_irrefl k)]
    simp [hl]
  · rw [expand_freeList, if_pos ⟨hj, hjk, rfl⟩]
    simp [empty j hj hjk]
  · rw [expand_freeList, if_neg fun h => by
      rcases hjm with h' | h' | h'
      · exact absurd h.1 (by omega)
      · exact absurd h.2.1 (by omega)
      · exact h' h.2.2]
    simp only [Zone.decNrFree, Zone.rmvPageOrder, Zone.listDel]
    exact List.erase_of_not_mem (elsewhere j m fun h => by
      obtain ⟨rfl, rfl⟩ := h
      rcases hjm with h' | h' | h'
      · omega
      · omega
      · exact h' rfl)

/-- `__rmqueue_smallest` on a zone with the buddy invariant is smallest-fit and exact: `NULL`, with
the zone unchanged, exactly when every list of the migrate type from `order` up is empty; otherwise
the head of the first non-empty list, of order `k`, whose lower `2^order` pages were free and are
handed out, while the other `2^k - 2^order` go back as one block of each order from `order` to
`k - 1` on the same migrate type's lists. -/
theorem rmqueueSmallest_smallest_fit {z : Zone} {F : Nat → Bool} (w : BuddyInv z F) (order : Nat)
    (mt : MigrateType) :
    ((rmqueueSmallest z order mt).1 = none ↔ ∀ k, order ≤ k → k < maxOrder → z.freeList k mt = []) ∧
      ((rmqueueSmallest z order mt).1 = none → (rmqueueSmallest z order mt).2 = z) ∧
      ∀ page z', rmqueueSmallest z order mt = (some page, z') →
        ∃ k rest, order ≤ k ∧ k < maxOrder ∧ (∀ j, order ≤ j → j < k → z.freeList j mt = []) ∧
          z.freeList k mt = page :: rest ∧ z.pageOrder page = some k ∧ 2 ^ order ∣ page ∧
          (∀ q, InBlock page order q → F q = true) ∧
          (∀ q, (InBlock page k q ∧ ¬InBlock page order q) ↔ ∃ j, order ≤ j ∧ j < k ∧ InBlock (page + 2 ^ j) j q) ∧
          z'.freeList k mt = rest ∧
          (∀ j, order ≤ j → j < k →
            z'.freeList j mt = (page + 2 ^ j) :: z.freeList j mt ∧ z'.pageOrder (page + 2 ^ j) = some j) ∧
          (∀ j m, (j < order ∨ k < j ∨ m ≠ mt) → z'.freeList j m = z.freeList j m) ∧
          z'.pageOrder page = none ∧
          (∀ q, q ≠ page → (∀ j, order ≤ j → j < k → q ≠ page + 2 ^ j) → z'.pageOrder q = z.pageOrder q) ∧
          BuddyInv z' fun q => F q && !decide (InBlock page order q) := by
  rcases rmqueueSmallest_cases z order mt with ⟨empty, hr⟩ | ⟨k, page, rest, hk, hkm, empty, hl, hr⟩
  · refine ⟨⟨fun _ => empty, fun _ => by rw [hr]⟩, rmqueueSmallest_none_zone, fun page z' h => ?_⟩
    rw [hr] at h
    cases h
  · refine ⟨⟨fun h => ?_, fun h => absurd (h k hk hkm) (by rw [hl]; simp)⟩, rmqueueSmallest_none_zone, ?_⟩
    · rw [hr] at h
      cases h
    rw [hr]
    have marked := w.marked k mt page (by rw [hl]; exact List.mem_cons_self)
    obtain ⟨ha, -, -⟩ := w.aligned page k marked
    obtain ⟨top, split, others⟩ := rmqueue_lists w hk empty hl
    rintro page' z' h
    obtain ⟨hp, rfl⟩ := Prod.mk.inj h
    obtain rfl := Option.some.inj hp
    refine ⟨k, rest, hk, hkm, empty, hl, marked, (Nat.pow_dvd_pow 2 hk).trans ha,
      fun q hq => (w.cover q).mpr ⟨page, k, marked, (inBlock_split hk q).mpr (.inl hq)⟩, fun q => ?_, top,
      fun j hj hjk => ⟨split j hj hjk, expand_pageOrder_split k _ j hj hjk⟩, others, ?_, fun q hq hs => ?_,
      rmqueue_inv w hk hl⟩
    · rw [inBlock_split hk q]
      constructor
      · rintro ⟨h | h, out⟩
        · exact absurd h out
        · exact h
      · rintro ⟨j, hj, hjk, h⟩
        exact ⟨.inr ⟨j, hj, hjk, h⟩, fun h' => not_inBlock_split hj h' h⟩
    · rw [expand_pageOrder_other k _ page fun j _ _ e => by have := Nat.two_pow_pos j; omega]
      simp
    · rw [expand_pageOrder_other k _ q hs]
      simp [hq]

/-- Eight free pages in one block of order 3, and an order-0 request. -/
theorem rmqueueSmallest_eight_pages :
    BuddyInv (freeOnePage (Zone.allocated 8) 0 3 .movable) (fun q => false || decide (InBlock 0 3 q)) ∧
      ((rmqueueSmallest (freeOnePage (Zone.allocated 8) 0 3 .movable) 0 .movable).1 = none ↔
        ∀ k, 0 ≤ k → k < maxOrder → (freeOnePage (Zone.allocated 8) 0 3 .movable).freeList k .movable = []) := by
  have w : BuddyInv (freeOnePage (Zone.allocated 8) 0 3 .movable) (fun q => false || decide (InBlock 0 3 q)) :=
    freeOnePage_inv .movable (allocated_inv 8) (by decide) (by decide) (by decide) fun _ _ => rfl
  exact ⟨w, (rmqueueSmallest_smallest_fit w 0 .movable).1⟩

end LinuxKernel
