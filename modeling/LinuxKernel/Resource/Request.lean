import LinuxKernel.Resource.Resource

/-!
# Well-placed resources and `__request_resource`

`ChainWithin lo hi l`: the resources along the sibling links from `l` lie inside `[lo, hi]` in
order and apart, their children placed the same way. `__request_resource` links `new` in or
reports the first child in its way (`requestResource_linked`, `requestResource_conflict`).
-/

namespace LinuxKernel

/-! ## `resource_size_t` arithmetic that does not wrap -/

theorem resAdd_of_lt {a b : Nat} (h : a + b < 2 ^ 64) : resAdd a b = a + b := Nat.mod_eq_of_lt h

theorem resSub_of_le {a b : Nat} (le : b ≤ a) (small : a < 2 ^ 64) : resSub a b = a - b := by
  have : b % 2 ^ 64 = b := Nat.mod_eq_of_lt (by omega)
  unfold resSub
  rw [this]
  omega

theorem resAdd_sub_one {start n : Nat} (pos : 1 ≤ n) (noWrap : start + n ≤ 2 ^ 64) :
    resSub (resAdd start n) 1 = start + n - 1 := by
  unfold resSub resAdd
  omega

/-- `[s, e]` and `[s', e']` share an address. -/
def Overlaps (s e s' e' : Nat) : Prop := s ≤ e' ∧ s' ≤ e

instance (s e s' e' : Nat) : Decidable (Overlaps s e s' e') := by
  unfold Overlaps
  infer_instance

namespace ResourceLink

def ranges : ResourceLink → List (Nat × Nat)
  | .null => []
  | .node s e _ _ sib => (s, e) :: sib.ranges

def covers (l : ResourceLink) : Set Nat := {x | ∃ p ∈ l.ranges, p.1 ≤ x ∧ x ≤ p.2}

def child : ResourceLink → ResourceLink
  | .null => .null
  | .node _ _ _ c _ => c

@[simp] theorem ranges_null : ranges .null = [] := rfl

@[simp] theorem ranges_node (s e f : Nat) (c sib : ResourceLink) :
    ranges (.node s e f c sib) = (s, e) :: sib.ranges := rfl

@[simp] theorem child_node (s e f : Nat) (c sib : ResourceLink) : child (.node s e f c sib) = c := rfl

@[simp] theorem range_node (s e f : Nat) (c sib : ResourceLink) : range (.node s e f c sib) = (s, e) := rfl

end ResourceLink

/-- The resources along the sibling links lie inside `[lo, hi]`, in increasing order and apart,
each with its children placed the same way inside it. -/
def ChainWithin (lo hi : Nat) : ResourceLink → Prop
  | .null => True
  | .node s e _ c sib => lo ≤ s ∧ s ≤ e ∧ e ≤ hi ∧ ChainWithin s e c ∧ ChainWithin (e + 1) hi sib

instance decChainWithin : (lo hi : Nat) → (l : ResourceLink) → Decidable (ChainWithin lo hi l)
  | _, _, .null => inferInstanceAs (Decidable True)
  | lo, hi, .node s e _ c sib =>
    have := decChainWithin s e c
    have := decChainWithin (e + 1) hi sib
    inferInstanceAs (Decidable (lo ≤ s ∧ s ≤ e ∧ e ≤ hi ∧ ChainWithin s e c ∧ ChainWithin (e + 1) hi sib))

/-- A resource with a range of `resource_size_t` values and its children well placed. -/
def ResourceValid : ResourceLink → Prop
  | .null => False
  | .node s e _ c _ => s ≤ e ∧ e < 2 ^ 64 ∧ ChainWithin s e c

instance : (l : ResourceLink) → Decidable (ResourceValid l)
  | .null => inferInstanceAs (Decidable False)
  | .node s e _ c _ => inferInstanceAs (Decidable (s ≤ e ∧ e < 2 ^ 64 ∧ ChainWithin s e c))

section Chain

variable {lo hi : Nat} {s e f : Nat} {c sib : ResourceLink}

@[simp] theorem chainWithin_null : ChainWithin lo hi .null := trivial

@[simp] theorem chainWithin_node :
    ChainWithin lo hi (.node s e f c sib) ↔
      lo ≤ s ∧ s ≤ e ∧ e ≤ hi ∧ ChainWithin s e c ∧ ChainWithin (e + 1) hi sib := Iff.rfl

theorem ChainWithin.mem_ranges {l : ResourceLink} (h : ChainWithin lo hi l) :
    ∀ p ∈ l.ranges, lo ≤ p.1 ∧ p.1 ≤ p.2 ∧ p.2 ≤ hi := by
  induction l generalizing lo with
  | null => simp
  | node s e f c sib _ ih =>
    obtain ⟨low, le, high, -, rest⟩ := h
    intro p hp
    rcases List.mem_cons.mp hp with rfl | hp
    · exact ⟨low, le, high⟩
    · have := ih rest p hp
      omega

end Chain

/-! ## The walk of `__request_resource` -/

section Request

variable {start end_ flags : Nat} {child : ResourceLink}

/-- One round of the loop of `__request_resource`: link `new` in before a resource past `end`,
go on past one that ends before `start`, or stop at one that overlaps. -/
theorem requestChain_node_cases {s e f : Nat} {c sib : ResourceLink} {r : ResourceLink ⊕ ResourceLink}
    (h : requestChain start end_ flags child (.node s e f c sib) = r) :
    (end_ < s ∧ r = .inl (.node start end_ flags child (.node s e f c sib))) ∨
      (s ≤ end_ ∧ e < start ∧
        ((∃ l, requestChain start end_ flags child sib = .inl l ∧ r = .inl (.node s e f c l)) ∨
          ∃ t, requestChain start end_ flags child sib = .inr t ∧ r = .inr t)) ∨
      (s ≤ end_ ∧ start ≤ e ∧ r = .inr (.node s e f c sib)) := by
  simp only [requestChain] at h
  split_ifs at h with past before
  · exact .inl ⟨past, h.symm⟩
  · refine .inr (.inl ⟨by omega, before, ?_⟩)
    cases hw : requestChain start end_ flags child sib with
    | inl l => exact .inl ⟨l, rfl, by rw [hw] at h; exact h.symm⟩
    | inr t => exact .inr ⟨t, rfl, by rw [hw] at h; exact h.symm⟩
  · exact .inr (.inr ⟨by omega, by omega, h.symm⟩)

theorem requestChain_conflict {tmp : ResourceLink} :
    ∀ {l : ResourceLink}, requestChain start end_ flags child l = .inr tmp →
      ∃ s e f c sib, tmp = .node s e f c sib ∧ (s, e) ∈ l.ranges ∧ Overlaps start end_ s e
  | .null, h => by simp [requestChain] at h
  | .node s e f c sib, h => by
    rcases requestChain_node_cases h with ⟨-, h⟩ | ⟨-, -, ⟨l, -, h⟩ | ⟨t, later, h⟩⟩ | ⟨past, before, h⟩
    · cases h
    · cases h
    · -- the conflict lies further along the chain
      cases h
      obtain ⟨s', e', f', c', sib', rfl, mem, overlap⟩ := requestChain_conflict later
      exact ⟨s', e', f', c', sib', rfl, List.mem_cons_of_mem _ mem, overlap⟩
    · cases h
      exact ⟨s, e, f, c, sib, rfl, List.mem_cons_self, ⟨before, past⟩⟩

/-- In a well-placed chain the walk links `new` in exactly when nothing overlaps it, and the
chain it leaves holds the ranges it held and `[start, end]`, and is well placed when the
children of `new` are. -/
theorem requestChain_linked {lo hi : Nat} (inside : lo ≤ start ∧ start ≤ end_ ∧ end_ ≤ hi) :
    ∀ {l l' : ResourceLink}, ChainWithin lo hi l → requestChain start end_ flags child l = .inl l' →
      (∀ p ∈ l.ranges, ¬Overlaps start end_ p.1 p.2) ∧ (ChainWithin start end_ child → ChainWithin lo hi l') ∧
        ∀ p, p ∈ l'.ranges ↔ p = (start, end_) ∨ p ∈ l.ranges
  | .null, l', _, h => by
    simp only [requestChain, Sum.inl.injEq] at h
    subst h
    exact ⟨by simp, fun childOk => ⟨inside.1, inside.2.1, inside.2.2, childOk, trivial⟩, fun p => by simp⟩
  | .node s e f c sib, l', valid, h => by
    obtain ⟨low, le, high, cOk, rest⟩ := valid
    have later := rest.mem_ranges
    rcases requestChain_node_cases h with ⟨past, h⟩ | ⟨-, before, ⟨l₁, h₁, h⟩ | ⟨t, -, h⟩⟩ | ⟨-, -, h⟩
    · -- linked in before the first resource past `end`; the later ones lie further on
      cases h
      refine ⟨fun p hp => ?_, fun childOk => ⟨inside.1, inside.2.1, inside.2.2, childOk, by omega, le, high,
        cOk, rest⟩, fun p => by simp⟩
      rcases List.mem_cons.mp hp with rfl | hp
      · exact fun overlap => by unfold Overlaps at overlap; omega
      · have := later p hp
        exact fun overlap => by unfold Overlaps at overlap; omega
    · -- past a resource that ends before `start`
      cases h
      obtain ⟨apart, ok, mem⟩ := requestChain_linked ⟨by omega, inside.2.1, inside.2.2⟩ rest h₁
      refine ⟨fun p hp => ?_, fun childOk => ⟨low, le, high, cOk, ok childOk⟩, fun p => ?_⟩
      · rcases List.mem_cons.mp hp with rfl | hp
        · exact fun overlap => by unfold Overlaps at overlap; omega
        · exact apart p hp
      · simp only [ResourceLink.ranges_node, List.mem_cons, mem]
        tauto
    · cases h
    · cases h

end Request

/-! ## `__request_resource` -/

section Resource

variable {root : ResourceLink} {start end_ flags : Nat} {child : ResourceLink}

theorem requestResource_eq_root {rs re rf : Nat} {rc rsib : ResourceLink} :
    requestResource (.node rs re rf rc rsib) start end_ flags child = .root ↔ rangeOutside start end_ rs re := by
  simp only [requestResource]
  split_ifs with outside
  · exact iff_of_true rfl outside
  · refine iff_of_false ?_ outside
    split <;> simp

theorem requestResource_conflict {tmp : ResourceLink} (h : requestResource root start end_ flags child = .conflict tmp) :
    ∃ s e f c sib, tmp = .node s e f c sib ∧ (s, e) ∈ root.child.ranges ∧ Overlaps start end_ s e := by
  cases root with
  | null => simp [requestResource] at h
  | node rs re rf rc rsib =>
    simp only [requestResource] at h
    split_ifs at h
    split at h
    · cases h
    · cases h
      exact requestChain_conflict (by assumption)

/-- `new` is linked in among the children of a valid `root` exactly when it lies inside `root`
and overlaps none of them; the children of `root` gain `[start, end]`, and `root` stays valid
when the children of `new` lie in it. -/
theorem requestResource_linked {rs re rf : Nat} {rc rsib root' : ResourceLink}
    (valid : ResourceValid (.node rs re rf rc rsib))
    (h : requestResource (.node rs re rf rc rsib) start end_ flags child = .linked root') :
    ¬rangeOutside start end_ rs re ∧ (∀ p ∈ rc.ranges, ¬Overlaps start end_ p.1 p.2) ∧
      ∃ rc', root' = .node rs re rf rc' rsib ∧ (ChainWithin start end_ child → ResourceValid root') ∧
        ∀ p, p ∈ rc'.ranges ↔ p = (start, end_) ∨ p ∈ rc.ranges := by
  obtain ⟨le, small, rcOk⟩ := valid
  simp only [requestResource] at h
  split_ifs at h with outside
  split at h
  · rename_i rc' hw
    cases h
    unfold rangeOutside at outside
    obtain ⟨apart, ok, mem⟩ := requestChain_linked ⟨by omega, by omega, by omega⟩ rcOk hw
    exact ⟨outside, apart, rc', rfl, fun childOk => ⟨le, small, ok childOk⟩, mem⟩
  · cases h

end Resource

end LinuxKernel
