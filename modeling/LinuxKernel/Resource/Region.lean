import Mathlib.Data.Nat.Bitwise
import LinuxKernel.Resource.Request

/-!
# `__request_region` and `__release_region`

The request descends through the non-busy resources that hold the range and is granted exactly
when nothing else overlaps it (`requestRegionChain_granted_iff`); the release unlinks it again
(`requestRegionChain_release`).
-/

namespace LinuxKernel

namespace ResourceLink

/-- The resources along the links and below them, with their ranges and flags. -/
def nodes : ResourceLink → List (Nat × Nat × Nat)
  | .null => []
  | .node s e f c sib => (s, e, f) :: (c.nodes ++ sib.nodes)

@[simp] theorem nodes_null : nodes .null = [] := rfl

@[simp] theorem nodes_node (s e f : Nat) (c sib : ResourceLink) :
    nodes (.node s e f c sib) = (s, e, f) :: (c.nodes ++ sib.nodes) := rfl

theorem mem_nodes_node {s e f : Nat} {c sib : ResourceLink} {r : Nat × Nat × Nat} :
    r ∈ nodes (.node s e f c sib) ↔ r = (s, e, f) ∨ r ∈ c.nodes ∨ r ∈ sib.nodes := by
  simp

end ResourceLink

theorem ChainWithin.mem_nodes {lo hi : Nat} {l : ResourceLink} (h : ChainWithin lo hi l) :
    ∀ r ∈ l.nodes, lo ≤ r.1 ∧ r.1 ≤ r.2.1 ∧ r.2.1 ≤ hi := by
  induction l generalizing lo hi with
  | null => simp
  | node s e f c sib ihc ihs =>
    obtain ⟨low, le, high, cOk, rest⟩ := h
    intro r hr
    rcases ResourceLink.mem_nodes_node.mp hr with rfl | hr | hr
    · exact ⟨low, le, high⟩
    · have := ihc cOk r hr
      omega
    · have := ihs rest r hr
      omega

/-- Every resource along `l` and below it that overlaps `[start, end]` is not busy and holds
the range: what `__request_region` descends through. -/
def RegionFree (start end_ : Nat) (l : ResourceLink) : Prop :=
  ∀ r ∈ l.nodes, Overlaps start end_ r.1 r.2.1 → r.2.2 &&& ioresourceBusy = 0 ∧ r.1 ≤ start ∧ end_ ≤ r.2.1

/-! ## Outcomes -/

namespace RegionOutcome

variable {f : ResourceLink → ResourceLink} {o : RegionOutcome}

theorem map_eq_granted {p : ResourceLink} : o.map f = .granted p ↔ ∃ p', o = .granted p' ∧ f p' = p := by
  cases o <;> simp [map]

theorem map_ne_wait (h : o ≠ .wait) : o.map f ≠ .wait := by
  cases o <;> simp_all [map]

end RegionOutcome

theorem muxedOutcome_ne_granted {conflictFlags flags : Nat} {p : ResourceLink} :
    muxedOutcome conflictFlags flags ≠ .granted p := by
  unfold muxedOutcome
  split <;> simp

theorem muxedOutcome_ne_wait {conflictFlags flags : Nat} (h : flags &&& ioresourceMuxed = 0) :
    muxedOutcome conflictFlags flags ≠ .wait := by
  have : conflictFlags &&& flags &&& ioresourceMuxed = 0 := by
    rw [Nat.land_assoc, h, Nat.and_zero]
  simp [muxedOutcome, this]

theorem busy_land_busy (flags : Nat) : (ioresourceBusy ||| flags) &&& ioresourceBusy ≠ 0 := by
  have : (ioresourceBusy ||| flags) &&& ioresourceBusy = ioresourceBusy := by
    apply Nat.eq_of_testBit_eq
    intro i
    simp only [Nat.testBit_or, Nat.testBit_and]
    cases Nat.testBit ioresourceBusy i <;> simp
  rw [this]
  decide

/-! ## The descent of `__request_region` -/

section Chain

variable {start end_ flags : Nat}

/-- One round of the loop of `__request_region` that ends granted: linked in before a resource
past `end`, granted further along past one that ends before `start`, or granted below a
resource that is not busy and holds the range. -/
theorem requestRegionChain_granted_cases {s e f : Nat} {c sib l' : ResourceLink}
    (h : requestRegionChain start end_ flags (.node s e f c sib) = .granted l') :
    (end_ < s ∧ l' = .node start end_ (ioresourceBusy ||| flags) .null (.node s e f c sib)) ∨
      (s ≤ end_ ∧ e < start ∧ ∃ l₁, requestRegionChain start end_ flags sib = .granted l₁ ∧
        l' = .node s e f c l₁) ∨
      (s ≤ end_ ∧ start ≤ e ∧ f &&& ioresourceBusy = 0 ∧ start ≤ end_ ∧ s ≤ start ∧ end_ ≤ e ∧
        ∃ c', requestRegionChain start end_ flags c = .granted c' ∧ l' = .node s e f c' sib) := by
  simp only [requestRegionChain] at h
  split_ifs at h with past before free outside
  · cases h
    exact .inl ⟨past, rfl⟩
  · obtain ⟨l₁, h₁, rfl⟩ := RegionOutcome.map_eq_granted.mp h
    exact .inr (.inl ⟨by omega, before, l₁, h₁, rfl⟩)
  · exact absurd h muxedOutcome_ne_granted
  · obtain ⟨c', h', rfl⟩ := RegionOutcome.map_eq_granted.mp h
    unfold rangeOutside at outside
    exact .inr (.inr ⟨by omega, by omega, free, by omega, by omega, by omega, c', h', rfl⟩)
  · exact absurd h muxedOutcome_ne_granted

theorem requestRegionChain_release (le : start ≤ end_) :
    ∀ {l l' : ResourceLink}, requestRegionChain start end_ flags l = .granted l' →
      releaseRegionChain start end_ l' = some l
  | .null, l', h => by
    simp only [requestRegionChain, RegionOutcome.granted.injEq] at h
    subst h
    simp [releaseRegionChain, busy_land_busy]
  | .node s e f c sib, l', h => by
    rcases requestRegionChain_granted_cases h with
      ⟨past, rfl⟩ | ⟨-, before, l₁, h₁, rfl⟩ | ⟨-, -, free, -, low, high, c', h', rfl⟩
    · simp [releaseRegionChain, busy_land_busy]
    · -- the release skips the resource before `start` as the request did
      have skip : ¬(s ≤ start ∧ e ≥ end_) := by omega
      simp [releaseRegionChain, skip, requestRegionChain_release le h₁]
    · have holds : s ≤ start ∧ e ≥ end_ := ⟨low, high⟩
      simp [releaseRegionChain, holds, free, requestRegionChain_release le h']

theorem requestRegionChain_nodes :
    ∀ {l l' : ResourceLink}, requestRegionChain start end_ flags l = .granted l' →
      ∀ r, r ∈ l'.nodes ↔ r = (start, end_, ioresourceBusy ||| flags) ∨ r ∈ l.nodes
  | .null, l', h => by
    simp only [requestRegionChain, RegionOutcome.granted.injEq] at h
    subst h
    simp
  | .node s e f c sib, l', h => by
    rcases requestRegionChain_granted_cases h with
      ⟨-, rfl⟩ | ⟨-, -, l₁, h₁, rfl⟩ | ⟨-, -, -, -, -, -, c', h', rfl⟩
    · simp
    · intro r
      simp only [ResourceLink.nodes_node, List.mem_cons, List.mem_append, requestRegionChain_nodes h₁ r]
      tauto
    · intro r
      simp only [ResourceLink.nodes_node, List.mem_cons, List.mem_append, requestRegionChain_nodes h' r]
      tauto

theorem requestRegionChain_within {lo hi : Nat} (low : lo ≤ start) (le : start ≤ end_) (high : end_ ≤ hi) :
    ∀ {l l' : ResourceLink}, ChainWithin lo hi l → requestRegionChain start end_ flags l = .granted l' →
      ChainWithin lo hi l'
  | .null, l', _, h => by
    simp only [requestRegionChain, RegionOutcome.granted.injEq] at h
    subst h
    exact ⟨low, le, high, trivial, trivial⟩
  | .node s e f c sib, l', ok, h => by
    obtain ⟨sLow, sLe, sHigh, cOk, rest⟩ := ok
    rcases requestRegionChain_granted_cases h with
      ⟨past, rfl⟩ | ⟨-, before, l₁, h₁, rfl⟩ | ⟨-, -, -, -, inLow, inHigh, c', h', rfl⟩
    · exact ⟨low, le, high, trivial, by omega, sLe, sHigh, cOk, rest⟩
    · exact ⟨sLow, sLe, sHigh, cOk, requestRegionChain_within (by omega) le high rest h₁⟩
    · exact ⟨sLow, sLe, sHigh, requestRegionChain_within inLow le inHigh cOk h', rest⟩

theorem requestRegionChain_free {lo hi : Nat} :
    ∀ {l l' : ResourceLink}, ChainWithin lo hi l → requestRegionChain start end_ flags l = .granted l' →
      RegionFree start end_ l
  | .null, _, _, _ => by simp [RegionFree]
  | .node s e f c sib, l', ok, h => by
    obtain ⟨-, sLe, -, cOk, rest⟩ := ok
    have below := cOk.mem_nodes
    have after := rest.mem_nodes
    rcases requestRegionChain_granted_cases h with
      ⟨past, -⟩ | ⟨-, before, l₁, h₁, -⟩ | ⟨-, -, free, -, low, high, c', h', -⟩
    · -- the resource and all after it lie past `end`
      rintro r hr overlap
      unfold Overlaps at overlap
      rcases ResourceLink.mem_nodes_node.mp hr with rfl | hr | hr
      · simp only at overlap
        omega
      · have := below r hr
        omega
      · have := after r hr
        omega
    · -- the resource and those below it end before `start`
      have later := requestRegionChain_free rest h₁
      rintro r hr overlap
      rcases ResourceLink.mem_nodes_node.mp hr with rfl | hr | hr
      · unfold Overlaps at overlap
        simp only at overlap
        omega
      · have := below r hr
        unfold Overlaps at overlap
        omega
      · exact later r hr overlap
    · -- the resource holds the range, so those after it are apart from it
      have inner := requestRegionChain_free cOk h'
      rintro r hr overlap
      rcases ResourceLink.mem_nodes_node.mp hr with rfl | hr | hr
      · exact ⟨free, low, high⟩
      · exact inner r hr overlap
      · have := after r hr
        unfold Overlaps at overlap
        omega

theorem requestRegionChain_of_free (le : start ≤ end_) :
    ∀ {l : ResourceLink}, RegionFree start end_ l → ∃ l', requestRegionChain start end_ flags l = .granted l'
  | .null, _ => ⟨_, rfl⟩
  | .node s e f c sib, free => by
    have mine : Overlaps start end_ s e → f &&& ioresourceBusy = 0 ∧ s ≤ start ∧ end_ ≤ e :=
      free (s, e, f) (by simp)
    have inner : RegionFree start end_ c := fun r hr => free r (by simp [hr])
    have later : RegionFree start end_ sib := fun r hr => free r (by simp [hr])
    simp only [requestRegionChain]
    split_ifs with past before busy outside
    · exact ⟨_, rfl⟩
    · obtain ⟨l₁, h₁⟩ := requestRegionChain_of_free le later
      exact ⟨_, by rw [h₁]; rfl⟩
    · obtain ⟨-, low, high⟩ := mine ⟨by omega, by omega⟩
      unfold rangeOutside at outside
      omega
    · obtain ⟨c', h'⟩ := requestRegionChain_of_free le inner
      exact ⟨_, by rw [h']; rfl⟩
    · exact absurd (mine ⟨by omega, by omega⟩).1 busy

theorem requestRegionChain_granted_iff {lo hi : Nat} {l : ResourceLink} (ok : ChainWithin lo hi l)
    (le : start ≤ end_) :
    (∃ l', requestRegionChain start end_ flags l = .granted l') ↔ RegionFree start end_ l :=
  ⟨fun ⟨_, h⟩ => requestRegionChain_free ok h, requestRegionChain_of_free le⟩

theorem requestRegionChain_ne_wait (h : flags &&& ioresourceMuxed = 0) :
    ∀ {l : ResourceLink}, requestRegionChain start end_ flags l ≠ .wait
  | .null => by simp [requestRegionChain]
  | .node s e f c sib => by
    simp only [requestRegionChain]
    split_ifs
    · simp
    · exact RegionOutcome.map_ne_wait (requestRegionChain_ne_wait h)
    · exact muxedOutcome_ne_wait h
    · exact RegionOutcome.map_ne_wait (requestRegionChain_ne_wait h)
    · exact muxedOutcome_ne_wait h

end Chain

/-! ## `__request_region` and `__release_region` on a parent -/

/-- For a valid parent and a range `[start, start + n - 1]` that does not wrap: a granted
request is undone by the release, which gives back the parent it started from, and leaves a
valid parent whose resources are the old ones and the new busy one; the request is granted
exactly when the allocation succeeds, the range lies in the parent and every resource below it
that overlaps the range is not busy and holds it; and without `IORESOURCE_MUXED` it never waits,
so it answers `NULL` exactly when it is not granted. -/
theorem requestRegion_release_round_trip {ps pe pf : Nat} {pc psib : ResourceLink}
    (valid : ResourceValid (.node ps pe pf pc psib)) (start n flags : Nat) (kzallocOk : Bool) (pos : 1 ≤ n)
    (noWrap : start + n ≤ 2 ^ 64) :
    (∀ parent', requestRegion (.node ps pe pf pc psib) start n flags kzallocOk = .granted parent' →
      releaseRegion parent' start n = some (.node ps pe pf pc psib) ∧ ResourceValid parent' ∧
      ∃ pc', parent' = .node ps pe pf pc' psib ∧
        ∀ r, r ∈ pc'.nodes ↔ r = (start, start + n - 1, ioresourceBusy ||| flags) ∨ r ∈ pc.nodes) ∧
    ((∃ parent', requestRegion (.node ps pe pf pc psib) start n flags kzallocOk = .granted parent') ↔
      kzallocOk = true ∧ ps ≤ start ∧ start + n - 1 ≤ pe ∧ RegionFree start (start + n - 1) pc) ∧
    (flags &&& ioresourceMuxed = 0 → requestRegion (.node ps pe pf pc psib) start n flags kzallocOk ≠ .wait) := by
  cases kzallocOk
  case false =>
    -- the `kzalloc` failed: `NULL`, and nothing was granted
    simp [requestRegion]
  obtain ⟨-, small, ok⟩ := valid
  have ends := resAdd_sub_one pos noWrap
  simp only [requestRegion, releaseRegion, ends, Bool.not_true, Bool.false_eq_true, if_false, true_and]
  refine ⟨fun parent' h => ?_, ?_, fun noMux => ?_⟩
  · -- the range lies in the parent, and the descent below it was granted
    split_ifs at h with outside
    · exact absurd h muxedOutcome_ne_granted
    · obtain ⟨pc', h', rfl⟩ := RegionOutcome.map_eq_granted.mp h
      unfold rangeOutside at outside
      refine ⟨by simp [requestRegionChain_release (by omega) h'], ?_, pc', rfl, requestRegionChain_nodes h'⟩
      exact ⟨by omega, small, requestRegionChain_within (by omega) (by omega) (by omega) ok h'⟩
  · split_ifs with outside
    · refine iff_of_false (fun ⟨_, h⟩ => muxedOutcome_ne_granted h) ?_
      unfold rangeOutside at outside
      omega
    · unfold rangeOutside at outside
      simp only [RegionOutcome.map_eq_granted]
      have granted : (∃ pc', requestRegionChain start (start + n - 1) flags pc = .granted pc') ↔
          RegionFree start (start + n - 1) pc :=
        requestRegionChain_granted_iff ok (by omega)
      constructor
      · rintro ⟨_, pc', h', -⟩
        exact ⟨by omega, by omega, granted.mp ⟨pc', h'⟩⟩
      · rintro ⟨-, -, free⟩
        obtain ⟨pc', h'⟩ := granted.mpr free
        exact ⟨_, pc', h', rfl⟩
  · split_ifs
    · exact muxedOutcome_ne_wait noMux
    · exact RegionOutcome.map_ne_wait (requestRegionChain_ne_wait noMux)

/-- Sixteen bytes of a parent `[0x1000, 0x1fff]` that holds a non-busy child `[0x1800, 0x18ff]`:
granted below the child. -/
theorem requestRegion_release_round_trip_nested :
    ResourceValid (.node 0x1000 0x1fff 0 (.node 0x1800 0x18ff 0 .null .null) .null) ∧ 1 ≤ 0x10 ∧
      0x1840 + 0x10 ≤ 2 ^ 64 ∧
      ∃ parent', requestRegion (.node 0x1000 0x1fff 0 (.node 0x1800 0x18ff 0 .null .null) .null)
        0x1840 0x10 0 true = .granted parent' :=
  ⟨by decide, by decide, by decide,
    ((requestRegion_release_round_trip (by decide) 0x1840 0x10 0 true (by decide) (by decide)).2.1).mpr
      ⟨rfl, by decide, by decide, by simp [RegionFree, Overlaps]⟩⟩

/-- `[0x3000, 0x300f]` lies outside the parent `[0x1000, 0x1fff]` and overlaps no resource of the
tree, neither busy nor only in part, yet the request answers `NULL`. -/
theorem requestRegion_outside_parent :
    ResourceValid (.node 0x1000 0x1fff 0 .null .null) ∧
      requestRegion (.node 0x1000 0x1fff 0 .null .null) 0x3000 0x10 0 true = .null ∧
      ∀ r ∈ (ResourceLink.node 0x1000 0x1fff 0 .null .null).nodes, ¬Overlaps 0x3000 0x300f r.1 r.2.1 := by
  refine ⟨by decide, by decide, ?_⟩
  simp [Overlaps]

end LinuxKernel
