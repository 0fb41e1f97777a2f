import Mathlib
import LinuxKernel.Creds.Types

/-!
# `cap_capable`

`cap_capable` (`security/commoncap.c`) walks from the target namespace to the root, granting
everything at a non-initial namespace owned by the credential's `euid` and deciding by the
effective set at the credential's own namespace (`capCapable_eq_ok_iff`).
-/

namespace LinuxKernel

open UserNamespace

namespace UserNamespace

/-- `ns`, its parent, and so on up to `init_user_ns`. -/
def ancestors : UserNamespace → List UserNamespace
  | init => [init]
  | child parent owner group id => child parent owner group id :: parent.ancestors

/-- The namespaces the walk from `ns` visits when it stops at `stop`: up to and
including `stop`, or up to `init_user_ns` if `stop` is not an ancestor of `ns`. -/
def pathTo (ns stop : UserNamespace) : List UserNamespace :=
  match ns with
  | init => [init]
  | child parent owner group id =>
    if child parent owner group id = stop then [child parent owner group id]
    else child parent owner group id :: pathTo parent stop

@[simp] theorem self_mem_ancestors (ns : UserNamespace) : ns ∈ ns.ancestors := by
  cases ns <;> simp [ancestors]

theorem mem_ancestors_child {ns parent : UserNamespace} {owner : Kuid} {group : Kgid}
    {id : Nat} (h : ns ≠ child parent owner group id) :
    ns ∈ (child parent owner group id).ancestors ↔ ns ∈ parent.ancestors := by
  simp [ancestors, h]

end UserNamespace

/-- `cap_capable(cred, targ_ns, cap)`: `.ok ()` for 0 and `.error .perm` for `-EPERM`.
Each recursive call is one more turn of the loop, at the parent namespace. -/
def capCapable (cred : Cred) (targNs : UserNamespace) (cap : Nat) : Except Errno Unit :=
  match targNs with
  | .init =>
    -- the owner test is skipped for init_user_ns, whose owner is root
    if .init = cred.userNs then
      if capRaised cred.capEffective cap then .ok () else .error .perm
    else .error .perm
  | .child parent owner group id =>
    if owner = cred.euid then .ok ()
    else if .child parent owner group id = cred.userNs then
      if capRaised cred.capEffective cap then .ok () else .error .perm
    else capCapable cred parent cap

theorem capCapable_init (cred : Cred) (cap : Nat) :
    capCapable cred .init cap = .ok () ↔
      cred.userNs = .init ∧ capRaised cred.capEffective cap = true := by
  unfold capCapable
  by_cases hns : UserNamespace.init = cred.userNs
  · simp [hns]
  · simp [hns, Ne.symm hns]

/-- What `cap_capable` grants, for every credential, target namespace and capability:
either the credential's namespace is the target or an ancestor of it and the capability
is effective, or some namespace other than `init_user_ns` met on the walk up from the
target has the credential's `euid` as owner. The walk stops at the credential's
namespace, or runs to the root when that namespace is not an ancestor of the target. -/
theorem capCapable_eq_ok_iff (cred : Cred) (targNs : UserNamespace) (cap : Nat) :
    capCapable cred targNs cap = .ok () ↔
      (∃ ns ∈ targNs.pathTo cred.userNs, ns ≠ .init ∧ ns.owner = cred.euid) ∨
      (cred.userNs ∈ targNs.ancestors ∧ capRaised cred.capEffective cap = true) := by
  induction targNs with
  | init =>
    rw [capCapable_init]
    constructor
    · rintro ⟨hns, hcap⟩
      exact Or.inr ⟨by simp [UserNamespace.ancestors, hns], hcap⟩
    · rintro (⟨ns, hns, hinit, -⟩ | ⟨hns, hcap⟩)
      · simp [UserNamespace.pathTo] at hns
        exact absurd hns hinit
      · simp only [UserNamespace.ancestors, List.mem_singleton] at hns
        exact ⟨hns, hcap⟩
  | child parent owner group id ih =>
    have hmem : child parent owner group id ∈ (child parent owner group id).pathTo cred.userNs := by
      unfold UserNamespace.pathTo
      split <;> simp
    unfold capCapable
    by_cases howner : owner = cred.euid
    · -- the target's owner is the euid: granted at the first turn
      rw [if_pos howner]
      simp only [true_iff]
      exact Or.inl ⟨child parent owner group id, hmem, nofun, howner⟩
    · simp only [howner, if_false]
      by_cases hself : child parent owner group id = cred.userNs
      · -- the credential's own namespace: only the effective set decides
        have hpath : (child parent owner group id).pathTo cred.userNs =
            [child parent owner group id] := by
          simp [UserNamespace.pathTo, hself]
        rw [if_pos hself, hpath, ← hself]
        cases capRaised cred.capEffective cap <;>
          simp [UserNamespace.owner, howner]
      · -- neither: the answer is the one at the parent
        have hpath : (child parent owner group id).pathTo cred.userNs =
            child parent owner group id :: parent.pathTo cred.userNs := by
          simp [UserNamespace.pathTo, hself]
        rw [if_neg hself, ih, hpath, UserNamespace.mem_ancestors_child (Ne.symm hself)]
        simp [UserNamespace.owner, howner]

/-- A task that created a namespace inside the namespace `T` of another task of the
same uid, with no capability left, still holds every capability over `T`: the walk
grants at `T` itself because `T`'s owner is the task's `euid`, although the task's
namespace is a descendant of `T`. -/
theorem capCapable_descendant_of_owner :
    let targ := child .init ⟨1000⟩ ⟨1000⟩ 1
    let cred : Cred :=
      { uid := ⟨1000⟩, gid := ⟨1000⟩, suid := ⟨1000⟩, sgid := ⟨1000⟩, euid := ⟨1000⟩,
        egid := ⟨1000⟩, fsuid := ⟨1000⟩, fsgid := ⟨1000⟩, securebits := 0,
        capInheritable := capEmptySet, capPermitted := capEmptySet,
        capEffective := capEmptySet, capBset := capEmptySet,
        userNs := child targ ⟨1000⟩ ⟨1000⟩ 2 }
    capCapable cred targ capSetuid = .ok () ∧ cred.userNs ∉ targ.ancestors ∧
      capRaised cred.capEffective capSetuid = false := by
  decide

end LinuxKernel
