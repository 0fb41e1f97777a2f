import Mathlib.Data.Finset.Card
import LinuxKernel.Resource.Request

/-!
# `__reserve_region_with_split`

For a range inside `root` each retry overlaps fewer children, so the calls stop and the children
hold every address of the range (`reserveRegionWithSplit_fills`); for a range sticking out of
`root` the call never returns (`reserveRegionWithSplit_below`).
-/

namespace LinuxKernel

/-! ## One call -/

section Step

variable {kzallocOk : Nat → Nat → Bool} {fuel : Nat} {root : ResourceLink} {start end_ : Nat}

theorem reserveRegionWithSplit_linked {root' : ResourceLink} (alloc : kzallocOk start end_ = true)
    (h : requestResource root start end_ ioresourceBusy .null = .linked root') :
    reserveRegionWithSplit kzallocOk (fuel + 1) root start end_ = some root' := by
  simp [reserveRegionWithSplit, alloc, h]

/-- Past a conflict: nothing when it covers `[start, end]`, else the calls on the parts of the
range to its left and right, the second on the root the first leaves. -/
theorem reserveRegionWithSplit_around {conflict : ResourceLink} {cs ce : Nat} (alloc : kzallocOk start end_ = true)
    (h : (requestResource root start end_ ioresourceBusy .null = .root ∧ conflict = root) ∨
      requestResource root start end_ ioresourceBusy .null = .conflict conflict)
    (range : conflict.range = (cs, ce)) :
    reserveRegionWithSplit kzallocOk (fuel + 1) root start end_ =
      if cs ≤ start ∧ ce ≥ end_ then some root
      else (if cs > start then reserveRegionWithSplit kzallocOk fuel root start (resSub cs 1) else some root).bind
        fun root => if ce < end_ then reserveRegionWithSplit kzallocOk fuel root (resAdd ce 1) end_ else some root := by
  rcases h with ⟨h, rfl⟩ | h <;> simp [reserveRegionWithSplit, alloc, h, range]

end Step

/-- A range that starts below `root` and ends just before it: `__request_resource` reports
`root`, whose left part is the range itself, so while the allocation on it succeeds no number of
calls is enough. -/
theorem reserveRegionWithSplit_below {kzallocOk : Nat → Nat → Bool} {rs re rf : Nat} {rc rsib : ResourceLink}
    {start : Nat} (below : start < rs) (alloc : kzallocOk start (resSub rs 1) = true) :
    ∀ fuel, reserveRegionWithSplit kzallocOk fuel (.node rs re rf rc rsib) start (resSub rs 1) = none
  | 0 => rfl
  | fuel + 1 => by
    have outside : requestResource (.node rs re rf rc rsib) start (resSub rs 1) ioresourceBusy .null = .root :=
      requestResource_eq_root.mpr (.inr (.inl below))
    rw [reserveRegionWithSplit_around alloc (.inl ⟨outside, rfl⟩) rfl]
    simp [show ¬rs ≤ start by omega, below, reserveRegionWithSplit_below below alloc fuel]

/-- `[0, 0x2000]` sticks out of the valid root `[0x1000, 0xffff]`: with every `kzalloc`
succeeding, the call on it recurses on `[0, 0xfff]` for ever, so no number of calls gives a
result. -/
theorem reserveRegionWithSplit_sticks_out :
    ResourceValid (.node 0x1000 0xffff 0 .null .null) ∧ 0 ≤ 0x2000 ∧
      ∀ fuel, reserveRegionWithSplit (fun _ _ => true) fuel (.node 0x1000 0xffff 0 .null .null) 0 0x2000 = none := by
  refine ⟨by decide, by decide, fun fuel => ?_⟩
  cases fuel with
  | zero => rfl
  | succ fuel =>
    have outside : requestResource (.node 0x1000 0xffff 0 .null .null) 0 0x2000 ioresourceBusy .null = .root := by
      decide
    rw [reserveRegionWithSplit_around rfl (.inl ⟨outside, rfl⟩) rfl]
    simp [@reserveRegionWithSplit_below (fun _ _ => true) 0x1000 0xffff 0 .null .null 0 (by decide) rfl fuel]

/-! ## The children a call leaves -/

namespace ResourceLink

/-- The children along the links that overlap `[start, end]`: what bounds the calls. -/
def overlapping (l : ResourceLink) (start end_ : Nat) : Finset (Nat × Nat) :=
  l.ranges.toFinset.filter fun p => Overlaps start end_ p.1 p.2

@[simp] theorem mem_overlapping {l : ResourceLink} {start end_ : Nat} {p : Nat × Nat} :
    p ∈ l.overlapping start end_ ↔ p ∈ l.ranges ∧ Overlaps start end_ p.1 p.2 := by
  simp [overlapping]

theorem card_overlapping_le (l : ResourceLink) (start end_ : Nat) :
    (l.overlapping start end_).card ≤ l.ranges.length :=
  (Finset.card_filter_le _ _).trans (List.toFinset_card_le _)

theorem card_overlapping_lt {l : ResourceLink} {start end_ a b : Nat} {q : Nat × Nat} (hq : q ∈ l.ranges)
    (overlap : Overlaps start end_ q.1 q.2) (miss : ¬Overlaps a b q.1 q.2) (ha : start ≤ a) (hb : b ≤ end_) :
    (l.overlapping a b).card < (l.overlapping start end_).card := by
  have sub : l.overlapping a b ⊆ l.overlapping start end_ := by
    intro p hp
    rw [mem_overlapping] at hp ⊢
    exact ⟨hp.1, by unfold Overlaps at hp ⊢; omega⟩
  exact Finset.card_lt_card ((Finset.ssubset_iff_of_subset sub).mpr ⟨q, by simp [hq, overlap], by simp [miss]⟩)

theorem covers_mono {l l' : ResourceLink} (keeps : ∀ q ∈ l.ranges, q ∈ l'.ranges) {x : Nat}
    (h : x ∈ l.covers) : x ∈ l'.covers := by
  obtain ⟨p, hp, start, ends⟩ := h
  exact ⟨p, keeps p hp, start, ends⟩

end ResourceLink

/-- What the calls on `[start, end]` did to the children `rc` of the root: they keep every child,
and each new one lies inside `[start, end]` and apart from the old ones. -/
structure SplitExtends (rc rc' : ResourceLink) (start end_ : Nat) : Prop where
  keeps : ∀ q ∈ rc.ranges, q ∈ rc'.ranges
  fresh : ∀ p ∈ rc'.ranges, p ∉ rc.ranges →
    start ≤ p.1 ∧ p.2 ≤ end_ ∧ ∀ q ∈ rc.ranges, ¬Overlaps p.1 p.2 q.1 q.2

namespace SplitExtends

variable {rc rc₁ rc₂ : ResourceLink} {start end_ : Nat}

theorem refl (rc : ResourceLink) (start end_ : Nat) : SplitExtends rc rc start end_ :=
  ⟨fun _ hq => hq, fun _ hp old => absurd hp old⟩

theorem trans {a b c d : Nat} (h₁ : SplitExtends rc rc₁ a b) (h₂ : SplitExtends rc₁ rc₂ c d)
    (ha : start ≤ a) (hb : b ≤ end_) (hc : start ≤ c) (hd : d ≤ end_) : SplitExtends rc rc₂ start end_ := by
  refine ⟨fun q hq => h₂.keeps q (h₁.keeps q hq), fun p hp old => ?_⟩
  by_cases mid : p ∈ rc₁.ranges
  · obtain ⟨lo, hi, apart⟩ := h₁.fresh p mid old
    exact ⟨by omega, by omega, apart⟩
  · obtain ⟨lo, hi, apart⟩ := h₂.fresh p hp mid
    exact ⟨by omega, by omega, fun q hq => apart q (h₁.keeps q hq)⟩

theorem overlapping_eq {a b c d : Nat} (h : SplitExtends rc rc₁ a b) (past : b < c) :
    rc₁.overlapping c d = rc.overlapping c d := by
  ext p
  simp only [ResourceLink.mem_overlapping]
  constructor
  · rintro ⟨hp, overlap⟩
    by_cases old : p ∈ rc.ranges
    · exact ⟨old, overlap⟩
    · have := (h.fresh p hp old).2.1
      unfold Overlaps at overlap
      omega
  · rintro ⟨hp, overlap⟩
    exact ⟨h.keeps p hp, overlap⟩

end SplitExtends

/-! ## The calls on a range inside the root -/

section Split

variable {rs re rf : Nat} {rsib : ResourceLink}

/-- The calls with `fuel` left on `[start, end]` and every `kzalloc` succeeding, the root
`[rs, re]` having children `rc`, leave the root with children `rc'` that are well placed, extend
`rc` inside the range, and hold every address of it. -/
def SplitReserves (fuel rs re rf : Nat) (rc rsib : ResourceLink) (start end_ : Nat) : Prop :=
  ∃ rc', reserveRegionWithSplit (fun _ _ => true) fuel (.node rs re rf rc rsib) start end_ = some (.node rs re rf rc' rsib) ∧
    ChainWithin rs re rc' ∧ SplitExtends rc rc' start end_ ∧ ∀ x, start ≤ x → x ≤ end_ → x ∈ rc'.covers

/-- `fuel` calls are enough on every range inside the root that overlaps fewer than `fuel`
children. -/
def SplitsBelow (fuel rs re rf : Nat) (rsib : ResourceLink) : Prop :=
  ∀ rc start end_, ChainWithin rs re rc → rs ≤ start → start ≤ end_ → end_ ≤ re →
    (rc.overlapping start end_).card < fuel → SplitReserves fuel rs re rf rc rsib start end_

variable {fuel : Nat} {rc : ResourceLink} {start end_ s e : Nat}

theorem split_left (ih : SplitsBelow fuel rs re rf rsib) (small : re < 2 ^ 64) (ok : ChainWithin rs re rc)
    (mem : (s, e) ∈ rc.ranges) (overlap : Overlaps start end_ s e) (low : rs ≤ start)
    (count : (rc.overlapping start end_).card ≤ fuel) :
    ∃ rc₁, (if s > start then reserveRegionWithSplit (fun _ _ => true) fuel (.node rs re rf rc rsib) start (resSub s 1)
        else some (.node rs re rf rc rsib)) = some (.node rs re rf rc₁ rsib) ∧
      ChainWithin rs re rc₁ ∧ SplitExtends rc rc₁ start (s - 1) ∧ ∀ x, start ≤ x → x < s → x ∈ rc₁.covers := by
  have within := ok.mem_ranges _ mem
  simp only at within
  split_ifs with left
  · have fewer := rc.card_overlapping_lt mem overlap (a := start) (b := s - 1)
      (by unfold Overlaps; omega) le_rfl (by unfold Overlaps at overlap; omega)
    obtain ⟨rc₁, h, ok₁, ext₁, cov₁⟩ :=
      ih rc start (s - 1) ok low (by omega) (by omega) (by omega)
    rw [resSub_of_le (by omega) (by omega)]
    exact ⟨rc₁, h, ok₁, ext₁, fun x lo hi => cov₁ x lo (by omega)⟩
  · exact ⟨rc, rfl, ok, .refl rc start (s - 1), fun x lo hi => absurd lo (by omega)⟩

/-- The call on the part right of the conflict `[s, e]`, if there is one, on the children `rc₁`
the left part left: those pieces lie before `s`, so the part overlaps no more of them. -/
theorem split_right {rc₁ : ResourceLink} (ih : SplitsBelow fuel rs re rf rsib) (small : re < 2 ^ 64)
    (ok : ChainWithin rs re rc) (ok₁ : ChainWithin rs re rc₁) (ext₁ : SplitExtends rc rc₁ start (s - 1))
    (mem : (s, e) ∈ rc.ranges) (overlap : Overlaps start end_ s e) (high : end_ ≤ re)
    (count : (rc.overlapping start end_).card ≤ fuel) :
    ∃ rc₂, (if e < end_ then reserveRegionWithSplit (fun _ _ => true) fuel (.node rs re rf rc₁ rsib) (resAdd e 1) end_
        else some (.node rs re rf rc₁ rsib)) = some (.node rs re rf rc₂ rsib) ∧
      ChainWithin rs re rc₂ ∧ SplitExtends rc₁ rc₂ (e + 1) end_ ∧ ∀ x, e < x → x ≤ end_ → x ∈ rc₂.covers := by
  have within := ok.mem_ranges _ mem
  simp only at within
  split_ifs with right
  · have fewer := rc.card_overlapping_lt mem overlap (a := e + 1) (b := end_)
      (by unfold Overlaps; omega) (by unfold Overlaps at overlap; omega) le_rfl
    have same := ext₁.overlapping_eq (c := e + 1) (d := end_) (by omega)
    obtain ⟨rc₂, h, ok₂, ext₂, cov₂⟩ :=
      ih rc₁ (e + 1) end_ ok₁ (by omega) (by omega) high (by rw [same]; omega)
    rw [resAdd_of_lt (by omega)]
    exact ⟨rc₂, h, ok₂, ext₂, fun x lo hi => cov₂ x (by omega) hi⟩
  · exact ⟨rc₁, rfl, ok₁, .refl rc₁ (e + 1) end_, fun x lo hi => absurd hi (by omega)⟩

/-- By induction on `fuel`: a call links the range in, stops at a conflict that covers it, or
recurses on the parts left and right of the conflict, each of which overlaps fewer children. -/
theorem splitsBelow (small : re < 2 ^ 64) : ∀ fuel, SplitsBelow fuel rs re rf rsib
  | 0 => fun _ _ _ _ _ _ _ count => absurd count (Nat.not_lt_zero _)
  | fuel + 1 => by
    intro rc start end_ ok low le high count
    have ih := splitsBelow small fuel
    cases hreq : requestResource (.node rs re rf rc rsib) start end_ ioresourceBusy .null with
    | linked root' =>
      obtain ⟨-, apart, rc', rfl, valid', mem⟩ := requestResource_linked ⟨by omega, small, ok⟩ hreq
      obtain ⟨-, -, ok'⟩ := valid' chainWithin_null
      refine ⟨rc', reserveRegionWithSplit_linked rfl hreq, ok', ⟨fun q hq => (mem q).mpr (.inr hq), ?_⟩,
        fun x lo hi => ⟨(start, end_), (mem _).mpr (.inl rfl), lo, hi⟩⟩
      intro p hp old
      obtain rfl := ((mem p).mp hp).resolve_right old
      exact ⟨le_rfl, le_rfl, apart⟩
    | root => exact absurd (requestResource_eq_root.mp hreq) (by unfold rangeOutside; omega)
    | conflict tmp =>
      obtain ⟨s, e, f, c, sib, rfl, mem, overlap⟩ := requestResource_conflict hreq
      rw [ResourceLink.child_node] at mem
      have within := ok.mem_ranges _ mem
      simp only at within
      have span : start ≤ e ∧ s ≤ end_ := overlap
      unfold SplitReserves
      rw [reserveRegionWithSplit_around rfl (.inr hreq) rfl]
      by_cases covered : s ≤ start ∧ e ≥ end_
      · rw [if_pos covered]
        exact ⟨rc, rfl, ok, .refl rc start end_, fun x lo hi => ⟨(s, e), mem, by omega, by omega⟩⟩
      · obtain ⟨rc₁, hl, ok₁, ext₁, cov₁⟩ := split_left ih small ok mem overlap low (by omega)
        obtain ⟨rc₂, hr, ok₂, ext₂, cov₂⟩ := split_right ih small ok ok₁ ext₁ mem overlap high (by omega)
        rw [if_neg covered, hl, Option.bind_some, hr]
        refine ⟨rc₂, rfl, ok₂, ext₁.trans ext₂ le_rfl (by omega) (by omega) le_rfl, fun x lo hi => ?_⟩
        -- left of the conflict, in it, or right of it
        rcases lt_or_ge x s with left | notLeft
        · exact ResourceLink.covers_mono ext₂.keeps (cov₁ x lo left)
        · rcases le_or_gt x e with mid | right
          · exact ⟨(s, e), ext₂.keeps _ (ext₁.keeps _ mem), notLeft, mid⟩
          · exact cov₂ x right hi

end Split

/-- On a range inside a valid root and with every `kzalloc` succeeding, the calls stop once there
are more of them than children: the root is left valid, its children hold every address of the range, the old children are
kept, and each new one lies inside the range and overlaps none of the old. -/
theorem reserveRegionWithSplit_fills {rs re rf : Nat} {rc rsib : ResourceLink}
    (valid : ResourceValid (.node rs re rf rc rsib)) {start end_ : Nat}
    (inside : rs ≤ start ∧ start ≤ end_ ∧ end_ ≤ re) (fuel : Nat) (enough : rc.ranges.length < fuel) :
    ∃ rc', reserveRegionWithSplit (fun _ _ => true) fuel (.node rs re rf rc rsib) start end_ =
        some (.node rs re rf rc' rsib) ∧ ResourceValid (.node rs re rf rc' rsib) ∧ (∀ x, start ≤ x → x ≤ end_ → x ∈ rc'.covers) ∧
      (∀ q ∈ rc.ranges, q ∈ rc'.ranges) ∧
      ∀ p ∈ rc'.ranges, p ∉ rc.ranges → start ≤ p.1 ∧ p.2 ≤ end_ ∧ ∀ q ∈ rc.ranges, ¬Overlaps p.1 p.2 q.1 q.2 := by
  obtain ⟨le, small, ok⟩ := valid
  obtain ⟨rc', h, ok', ext, cov⟩ := splitsBelow small fuel rc start end_ ok inside.1 inside.2.1 inside.2.2
    ((rc.card_overlapping_le start end_).trans_lt enough)
  exact ⟨rc', h, ⟨le, small, ok'⟩, cov, ext.keeps, ext.fresh⟩

/-- `[0x800, 0x3000]` under a root with the child `[0x1000, 0x1fff]`: split around the child. -/
theorem reserveRegionWithSplit_fills_around_child :
    ResourceValid (.node 0 0xffff 0 (.node 0x1000 0x1fff 0 .null .null) .null) ∧
      (0 ≤ 0x800 ∧ 0x800 ≤ 0x3000 ∧ 0x3000 ≤ 0xffff) ∧
      (ResourceLink.node 0x1000 0x1fff 0 .null .null).ranges.length < 2 ∧
      ∃ rc', reserveRegionWithSplit (fun _ _ => true) 2
          (.node 0 0xffff 0 (.node 0x1000 0x1fff 0 .null .null) .null) 0x800 0x3000 =
        some (.node 0 0xffff 0 rc' .null) :=
  ⟨by decide, by decide, by decide,
    (reserveRegionWithSplit_fills (by decide) (by decide) 2 (by decide)).imp fun _ h => h.1⟩

end LinuxKernel
