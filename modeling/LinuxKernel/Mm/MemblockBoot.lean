import LinuxKernel.Mm.MemblockSpec

/-!
# memblock over early boot

The states reached from the static arrays by calls made before slab is available: each keeps
the array invariant, and each call does to the addresses of its array what it is for.
-/

namespace LinuxKernel

open MemblockRegion MemblockType

/-- Calls one after the other; `none` if one of them runs out of fuel. -/
def memblockRun (fuel : Nat) (env : MemblockEnv) (mb : Memblock) : List MemblockCall → Option Memblock
  | [] => some mb
  | c :: cs => (memblockCall fuel env mb c).bind fun r => memblockRun fuel env r.1 cs

/-- The states reached from the initial `memblock` by calls in `env`. -/
inductive MemblockReachable (env : MemblockEnv) : Memblock → Prop
  | init : MemblockReachable env memblockInit
  | call {mb mb' : Memblock} {r : Except Errno Unit} (fuel : Nat) (c : MemblockCall) :
      MemblockReachable env mb → memblockCall fuel env mb c = some (mb', r) →
      MemblockReachable env mb'

section Reachable

variable {env : MemblockEnv} {mb mb' : Memblock}

theorem MemblockReachable.run {fuel : Nat} {cs : List MemblockCall} (reach : MemblockReachable env mb)
    (h : memblockRun fuel env mb cs = some mb') : MemblockReachable env mb' := by
  induction cs generalizing mb with
  | nil =>
    cases h
    exact reach
  | cons c cs ih =>
    obtain ⟨⟨mb₁, r⟩, h₁, h⟩ := Option.bind_eq_some_iff.mp h
    exact ih (.call fuel c reach h₁) h

theorem memblockInit_wf : memblockInit.Wf :=
  ⟨⟨.inl rfl, rfl, by decide⟩, ⟨.inl rfl, rfl, by decide⟩, le_rfl⟩

theorem MemblockReachable.wf (noSlab : env.slab = false) (reach : MemblockReachable env mb) :
    mb.Wf := by
  induction reach with
  | init => exact memblockInit_wf
  | call fuel c _ h ih => exact memblockCall_wf noSlab h ih

end Reachable

/-! ### What each call is for -/

/-- A remove of the capped range: on success the array no longer covers it; `-ENOMEM` covers
what was covered. -/
def RemovesRange (t t' : MemblockType) (base size : Nat) (r : Except Errno Unit) : Prop :=
  (r = .ok () → t'.covered = t.covered \ Set.Ico base (base + memblockCapSize base size)) ∧
  (r = .error .noMem → t'.covered = t.covered)

section Calls

variable {fuel : Nat} {env : MemblockEnv} {mb mb' : Memblock} {k : MemblockKind} {base size : Nat}
  {r : Except Errno Unit}

theorem remove_removesRange (h : memblockRemove fuel env mb k base size = some (mb', r)) (wf : mb.Wf)
    (kept : k = .memory ∨ (mb'.type k).max = (mb.type k).max) :
    RemovesRange (mb.type k) (mb'.type k) base size r := by
  rcases remove_nodeAt h wf kept with ⟨rfl, lookup⟩ | ⟨rfl, regions⟩
  · exact ⟨fun _ => covered_of_remove lookup, fun h => nomatch h⟩
  · exact ⟨fun h => (nomatch h), fun _ => covered_of_regions regions⟩

end Calls

/-- A boot environment: no slab yet, and `memblock_find_in_range` taking the top of the range. -/
def bootEnv : MemblockEnv where
  slab := false
  kmalloc := 0
  findInRange _ start end_ size :=
    if size < max (max start pageSize) end_ then max (max start pageSize) end_ - size else 0
  findInRange_fits _ start end_ size found := by
    split_ifs at found ⊢ with fits
    · omega
    · exact absurd rfl found

/-- A boot run whose end state the kernel checks for `P`: that state is well formed and has `P`. -/
theorem memblockRun_boot_check {fuel : Nat} {cs : List MemblockCall} {P : Memblock → Prop} [DecidablePred P]
    (check : (memblockRun fuel bootEnv memblockInit cs).map (fun mb => decide (P mb)) = some true) :
    ∃ mb, memblockRun fuel bootEnv memblockInit cs = some mb ∧ mb.Wf ∧ P mb := by
  obtain ⟨mb, run, holds⟩ := Option.map_eq_some_iff.mp check
  exact ⟨mb, run, MemblockReachable.wf rfl (MemblockReachable.run .init run), of_decide_eq_true holds⟩

end LinuxKernel
