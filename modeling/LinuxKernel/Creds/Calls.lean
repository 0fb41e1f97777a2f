import Mathlib
import LinuxKernel.Foundation.ExceptRules
import LinuxKernel.Creds.SetId

/-!
# The other calls that change credentials

`capset` (`cap_capset`), the prctls of `cap_task_prctl` that commit new credentials
(`PR_CAPBSET_DROP`, `PR_SET_SECUREBITS`, `PR_SET_KEEPCAPS`), and `clone` with
`CLONE_NEWUSER` (the check in `copy_process`, then `copy_creds` and `create_user_ns`).
Each works on a copy of the caller's credentials and returns it or an error.
-/

namespace LinuxKernel

open ExceptRules

def capSysAdmin : Nat := 21
def capLastCap : Nat := 36

def capValid (x : Nat) : Bool := x ≤ capLastCap

/-- `cap_lower`: clear `flag` in its word. -/
def capLower (c : KernelCap) (flag : Nat) : KernelCap :=
  if h : capToIndex flag < 2 then
    ⟨c.cap.set (capToIndex flag) (c.cap[capToIndex flag] &&& ~~~capToMask flag)⟩
  else c

/-! ### `capset` -/

/-- `cap_capset`. The inheritable set is capped unless the caller has `CAP_SETPCAP` in its
own namespace (`cap_inh_is_capped`). -/
def capCapset (old : Cred) (effective inheritable permitted : KernelCap) : Except Errno Cred :=
  if capCapable old old.userNs capSetpcap ≠ .ok () ∧
      capIssubset inheritable (capCombine old.capInheritable old.capPermitted) = false then
    .error .perm
  else if capIssubset inheritable (capCombine old.capInheritable old.capBset) = false then
    .error .perm
  else if capIssubset permitted old.capPermitted = false then .error .perm
  else if capIssubset effective permitted = false then .error .perm
  else .ok { old with
    capEffective := effective, capInheritable := inheritable, capPermitted := permitted }

/-- `sys_capset` once the user's sets are copied in. -/
def capset (allocs : Allocs) (old : Cred) (effective inheritable permitted : KernelCap) :
    Except Errno Cred :=
  if !allocs.prepareCreds then .error .noMem
  else capCapset old effective inheritable permitted

theorem capCapset_ok {old new : Cred} {effective inheritable permitted : KernelCap}
    (h : capCapset old effective inheritable permitted = .ok new) :
    new = { old with
      capEffective := effective, capInheritable := inheritable, capPermitted := permitted } ∧
      capIssubset permitted old.capPermitted = true ∧ capIssubset effective permitted = true := by
  unfold capCapset at h
  split_ifs at h with h1 h2 h3 h4
  simp only [Bool.not_eq_false] at h3 h4
  exact ⟨(Except.ok.inj h).symm, h3, h4⟩

theorem capset_ok {allocs : Allocs} {old new : Cred} {effective inheritable permitted : KernelCap}
    (h : capset allocs old effective inheritable permitted = .ok new) :
    new = { old with
      capEffective := effective, capInheritable := inheritable, capPermitted := permitted } ∧
      capIssubset permitted old.capPermitted = true ∧ capIssubset effective permitted = true := by
  unfold capset at h
  split at h
  · exact absurd h (by simp)
  · exact capCapset_ok h

/-! ### The capability prctls -/

def secureKeepCapsLocked : Nat := 5
def secureAllBits : UInt32 :=
  issecureMask secureNoroot ||| issecureMask secureNoSetuidFixup ||| issecureMask secureKeepCaps
def secureAllLocks : UInt32 := secureAllBits <<< 1

/-- The options of `cap_task_prctl` that commit credentials, with their `arg2`. -/
inductive PrctlOption where
  | capbsetDrop (cap : Nat)
  | setSecurebits (bits : UInt64)
  | setKeepcaps (arg : UInt64)
  deriving DecidableEq, Repr

/-- `cap_prctl_drop`: `capable(CAP_SETPCAP)` is asked of the caller in `init_user_ns`. -/
def capPrctlDrop (old new : Cred) (cap : Nat) : Except Errno Cred :=
  if capCapable old .init capSetpcap ≠ .ok () then .error .perm
  else if !capValid cap then .error .inval
  else .ok { new with capBset := capLower new.capBset cap }

def capTaskPrctl (allocs : Allocs) (old : Cred) (option : PrctlOption) : Except Errno Cred :=
  if !allocs.prepareCreds then .error .noMem
  else
    let new := old
    match option with
    | .capbsetDrop cap => capPrctlDrop old new cap
    | .setSecurebits arg2 =>
      -- `securebits` is an unsigned int, widened against the unsigned long argument
      let sb := new.securebits.toUInt64
      let locks := secureAllLocks.toUInt64
      if ((sb &&& locks) >>> 1) &&& (sb ^^^ arg2) ≠ 0 ∨ sb &&& locks &&& ~~~arg2 ≠ 0 ∨
          arg2 &&& ~~~(locks ||| secureAllBits.toUInt64) ≠ 0 ∨
          capCapable old old.userNs capSetpcap ≠ .ok () then .error .perm
      else .ok { new with securebits := arg2.toUInt32 }
    | .setKeepcaps arg2 =>
      if arg2 > 1 then .error .inval
      else if issecure old.securebits secureKeepCapsLocked then .error .perm
      else .ok { new with
        securebits := if arg2 ≠ 0 then new.securebits ||| issecureMask secureKeepCaps
          else new.securebits &&& ~~~issecureMask secureKeepCaps }

theorem capTaskPrctl_ok {allocs : Allocs} {old new : Cred} {option : PrctlOption}
    (h : capTaskPrctl allocs old option = .ok new) :
    new = { old with capBset := new.capBset, securebits := new.securebits } := by
  unfold capTaskPrctl at h
  split at h
  · exact absurd h (by simp)
  · cases option with
    | capbsetDrop cap =>
      simp only [capPrctlDrop] at h
      split_ifs at h
      cases h
      rfl
    | setSecurebits arg2 | setKeepcaps arg2 =>
      simp only at h
      split_ifs at h <;> (cases h; rfl)

/-! ### `clone(CLONE_NEWUSER)` -/

/-- `create_user_ns`: the child's namespace is allocation `id` (`allocNs` is whether
`kmem_cache_zalloc` succeeds), and the credentials start over with every capability. -/
def createUserNs (maps : IdMaps) (allocNs : Bool) (new : Cred) (id : Nat) : Except Errno Cred :=
  let parentNs := new.userNs
  let owner := new.euid
  let group := new.egid
  if !kuidHasMapping maps parentNs owner || !kgidHasMapping maps parentNs group then .error .perm
  else if !allocNs then .error .noMem
  else .ok { new with
    securebits := securebitsDefault
    capInheritable := capEmptySet
    capPermitted := capFullSet
    capEffective := capFullSet
    capBset := capFullSet
    userNs := .child parentNs owner group id }

/-- The child's credentials from `clone(CLONE_NEWUSER)`: `copy_process` asks for
`CAP_SYS_ADMIN`, `CAP_SETUID` and `CAP_SETGID` in `init_user_ns`, then `copy_creds`
copies the parent's credentials and calls `create_user_ns`. -/
def cloneNewuser (maps : IdMaps) (allocs : Allocs) (allocNs : Bool) (old : Cred) (id : Nat) :
    Except Errno Cred :=
  if capCapable old .init capSysAdmin ≠ .ok () ∨ capCapable old .init capSetuid ≠ .ok () ∨
      capCapable old .init capSetgid ≠ .ok () then .error .perm
  else if !allocs.prepareCreds then .error .noMem
  else createUserNs maps allocNs old id

theorem cloneNewuser_caps {maps : IdMaps} {allocs : Allocs} {allocNs : Bool} {old new : Cred}
    {id : Nat} (h : cloneNewuser maps allocs allocNs old id = .ok new) :
    new.capPermitted = capFullSet ∧ new.capEffective = capFullSet := by
  simp only [cloneNewuser, createUserNs] at h
  split_ifs at h
  cases h
  exact ⟨rfl, rfl⟩

end LinuxKernel
