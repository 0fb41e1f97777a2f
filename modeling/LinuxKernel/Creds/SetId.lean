import Mathlib
import LinuxKernel.Foundation.ExceptRules
import LinuxKernel.Creds.Capable
import LinuxKernel.Creds.IdMap

/-!
# The set*id system calls

`setuid`, `setreuid`, `setresuid`, `setfsuid` and their gid twins (`kernel/sys.c`), with
the capability fix-up `cap_task_fix_setuid` (`security/commoncap.c`) that the uid calls
apply before committing. Each call returns the credentials it commits; `setfsuid` and
`setfsgid` never fail and return the old fs id beside them.
-/

namespace LinuxKernel

/-- How the allocations of a call turn out: `prepare_creds`, and `alloc_uid` in
`set_user` when the real uid changes. -/
structure Allocs where
  prepareCreds : Bool
  allocUid : Bool

def uidUnset : UInt32 := 0xffffffff

/-- `overflowuid` and `overflowgid` at their default, `DEFAULT_OVERFLOWUID`. -/
def overflowuid : UInt32 := 65534
def overflowgid : UInt32 := 65534

def fromKuidMunged (maps : IdMaps) (targ : UserNamespace) (kuid : Kuid) : UInt32 :=
  let uid := fromKuid maps targ kuid
  if uid == 0xffffffff then overflowuid else uid

def fromKgidMunged (maps : IdMaps) (targ : UserNamespace) (kgid : Kgid) : UInt32 :=
  let gid := fromKgid maps targ kgid
  if gid == 0xffffffff then overflowgid else gid

/-- `nsown_capable(cap)`: the current credentials have `cap` in their own namespace. -/
def nsownCapable (cred : Cred) (cap : Nat) : Bool := capCapable cred cred.userNs cap == .ok ()

/-- `set_user`: `-EAGAIN` when `alloc_uid` fails. The `user_struct` it installs and the
`PF_NPROC_EXCEEDED` flag it sets are not modelled. -/
def setUser (allocUid : Bool) (new : Cred) : Except Errno Cred :=
  if allocUid then .ok new else .error .again

/-- The `flags` of `security_task_fix_setuid`. -/
inductive LsmSetid where
  | id | re | res | fs
  deriving DecidableEq, Repr

/-- `cap_emulate_setxuid`, with root the uid 0 of the old namespace. -/
def capEmulateSetxuid (maps : IdMaps) (new old : Cred) : Cred :=
  let rootUid := makeKuid maps old.userNs 0
  let new :=
    if (old.uid = rootUid ∨ old.euid = rootUid ∨ old.suid = rootUid) ∧
        (new.uid ≠ rootUid ∧ new.euid ≠ rootUid ∧ new.suid ≠ rootUid) ∧
        issecure old.securebits secureKeepCaps = false then
      { new with capPermitted := capEmptySet, capEffective := capEmptySet }
    else new
  let new :=
    if old.euid = rootUid ∧ new.euid ≠ rootUid then { new with capEffective := capEmptySet }
    else new
  if old.euid ≠ rootUid ∧ new.euid = rootUid then { new with capEffective := new.capPermitted }
  else new

/-- `cap_task_fix_setuid`. Its `-EINVAL` for an unknown flag cannot arise: the flags
are the four `LSM_SETID_*` values. The secure bits read are the current ones, `old`'s. -/
def capTaskFixSetuid (maps : IdMaps) (new old : Cred) : LsmSetid → Cred
  | .re | .id | .res =>
    if issecure old.securebits secureNoSetuidFixup = false then capEmulateSetxuid maps new old
    else new
  | .fs =>
    if issecure old.securebits secureNoSetuidFixup = false then
      let rootUid := makeKuid maps old.userNs 0
      let new :=
        if old.fsuid = rootUid ∧ new.fsuid ≠ rootUid then
          { new with capEffective := capDropFsSet new.capEffective }
        else new
      if old.fsuid ≠ rootUid ∧ new.fsuid = rootUid then
        { new with capEffective := capRaiseFsSet new.capEffective new.capPermitted }
      else new
    else new

/-! ### The uid calls -/

def setreuid (maps : IdMaps) (allocs : Allocs) (old : Cred) (ruid euid : UInt32) :
    Except Errno Cred := do
  let kruid := makeKuid maps old.userNs ruid
  let keuid := makeKuid maps old.userNs euid
  if ruid ≠ uidUnset ∧ uidValid kruid = false then throw .inval
  if euid ≠ uidUnset ∧ uidValid keuid = false then throw .inval
  if allocs.prepareCreds = false then throw .noMem
  let new := { old with uid := if ruid ≠ uidUnset then kruid else old.uid }
  if ruid ≠ uidUnset ∧ old.uid ≠ kruid ∧ old.euid ≠ kruid ∧
      nsownCapable old capSetuid = false then throw .perm
  let new := { new with euid := if euid ≠ uidUnset then keuid else new.euid }
  if euid ≠ uidUnset ∧ old.uid ≠ keuid ∧ old.euid ≠ keuid ∧ old.suid ≠ keuid ∧
      nsownCapable old capSetuid = false then throw .perm
  let new ← (if new.uid ≠ old.uid then setUser allocs.allocUid new else pure new)
  let new := { new with
    suid := if ruid ≠ uidUnset ∨ (euid ≠ uidUnset ∧ keuid ≠ old.uid) then new.euid else new.suid }
  let new := { new with fsuid := new.euid }
  pure (capTaskFixSetuid maps new old .re)

def setuid (maps : IdMaps) (allocs : Allocs) (old : Cred) (uid : UInt32) :
    Except Errno Cred := do
  let kuid := makeKuid maps old.userNs uid
  if uidValid kuid = false then throw .inval
  if allocs.prepareCreds = false then throw .noMem
  -- in the second branch `new->suid` is still the old saved uid
  let new ← (if nsownCapable old capSetuid then
      let new := { old with suid := kuid, uid := kuid }
      if kuid ≠ old.uid then setUser allocs.allocUid new else pure new
    else if kuid ≠ old.uid ∧ kuid ≠ old.suid then throw .perm
    else pure old)
  let new := { new with fsuid := kuid, euid := kuid }
  pure (capTaskFixSetuid maps new old .id)

def setresuid (maps : IdMaps) (allocs : Allocs) (old : Cred) (ruid euid suid : UInt32) :
    Except Errno Cred := do
  let kruid := makeKuid maps old.userNs ruid
  let keuid := makeKuid maps old.userNs euid
  let ksuid := makeKuid maps old.userNs suid
  if ruid ≠ uidUnset ∧ uidValid kruid = false then throw .inval
  if euid ≠ uidUnset ∧ uidValid keuid = false then throw .inval
  if suid ≠ uidUnset ∧ uidValid ksuid = false then throw .inval
  if allocs.prepareCreds = false then throw .noMem
  (if nsownCapable old capSetuid = false then do
      if ruid ≠ uidUnset ∧ kruid ≠ old.uid ∧ kruid ≠ old.euid ∧ kruid ≠ old.suid then
        throw .perm
      if euid ≠ uidUnset ∧ keuid ≠ old.uid ∧ keuid ≠ old.euid ∧ keuid ≠ old.suid then
        throw .perm
      if suid ≠ uidUnset ∧ ksuid ≠ old.uid ∧ ksuid ≠ old.euid ∧ ksuid ≠ old.suid then
        throw .perm
    else pure ())
  let new ← (if ruid ≠ uidUnset then
      let new := { old with uid := kruid }
      if kruid ≠ old.uid then setUser allocs.allocUid new else pure new
    else pure old)
  let new := { new with euid := if euid ≠ uidUnset then keuid else new.euid }
  let new := { new with suid := if suid ≠ uidUnset then ksuid else new.suid }
  let new := { new with fsuid := new.euid }
  pure (capTaskFixSetuid maps new old .res)

/-- `setfsuid`: the old fsuid as the namespace sees it, and the committed credentials. -/
def setfsuid (maps : IdMaps) (allocs : Allocs) (old : Cred) (uid : UInt32) : UInt32 × Cred :=
  let oldFsuid := fromKuidMunged maps old.userNs old.fsuid
  let kuid := makeKuid maps old.userNs uid
  if uidValid kuid = false then (oldFsuid, old)
  else if allocs.prepareCreds = false then (oldFsuid, old)
  else if (kuid = old.uid ∨ kuid = old.euid ∨ kuid = old.suid ∨ kuid = old.fsuid ∨
      nsownCapable old capSetuid) ∧ kuid ≠ old.fsuid then
    -- `cap_task_fix_setuid` returns 0 here, so the change is always committed
    (oldFsuid, capTaskFixSetuid maps { old with fsuid := kuid } old .fs)
  else (oldFsuid, old)

/-! ### The gid calls -/

def setregid (maps : IdMaps) (allocs : Allocs) (old : Cred) (rgid egid : UInt32) :
    Except Errno Cred := do
  let krgid := makeKgid maps old.userNs rgid
  let kegid := makeKgid maps old.userNs egid
  if rgid ≠ uidUnset ∧ gidValid krgid = false then throw .inval
  if egid ≠ uidUnset ∧ gidValid kegid = false then throw .inval
  if allocs.prepareCreds = false then throw .noMem
  let new ← (if rgid ≠ uidUnset then
      if old.gid = krgid ∨ old.egid = krgid ∨ nsownCapable old capSetgid then
        pure { old with gid := krgid }
      else throw .perm
    else pure old)
  let new ← (if egid ≠ uidUnset then
      if old.gid = kegid ∨ old.egid = kegid ∨ old.sgid = kegid ∨ nsownCapable old capSetgid then
        pure { new with egid := kegid }
      else throw .perm
    else pure new)
  let new := { new with
    sgid := if rgid ≠ uidUnset ∨ (egid ≠ uidUnset ∧ kegid ≠ old.gid) then new.egid else new.sgid }
  pure { new with fsgid := new.egid }

def setgid (maps : IdMaps) (allocs : Allocs) (old : Cred) (gid : UInt32) :
    Except Errno Cred := do
  let kgid := makeKgid maps old.userNs gid
  if gidValid kgid = false then throw .inval
  if allocs.prepareCreds = false then throw .noMem
  if nsownCapable old capSetgid then
    pure { old with gid := kgid, egid := kgid, sgid := kgid, fsgid := kgid }
  else if kgid = old.gid ∨ kgid = old.sgid then
    pure { old with egid := kgid, fsgid := kgid }
  else throw .perm

def setresgid (maps : IdMaps) (allocs : Allocs) (old : Cred) (rgid egid sgid : UInt32) :
    Except Errno Cred := do
  let krgid := makeKgid maps old.userNs rgid
  let kegid := makeKgid maps old.userNs egid
  let ksgid := makeKgid maps old.userNs sgid
  if rgid ≠ uidUnset ∧ gidValid krgid = false then throw .inval
  if egid ≠ uidUnset ∧ gidValid kegid = false then throw .inval
  if sgid ≠ uidUnset ∧ gidValid ksgid = false then throw .inval
  if allocs.prepareCreds = false then throw .noMem
  (if nsownCapable old capSetgid = false then do
      if rgid ≠ uidUnset ∧ krgid ≠ old.gid ∧ krgid ≠ old.egid ∧ krgid ≠ old.sgid then
        throw .perm
      if egid ≠ uidUnset ∧ kegid ≠ old.gid ∧ kegid ≠ old.egid ∧ kegid ≠ old.sgid then
        throw .perm
      if sgid ≠ uidUnset ∧ ksgid ≠ old.gid ∧ ksgid ≠ old.egid ∧ ksgid ≠ old.sgid then
        throw .perm
    else pure ())
  let new := { old with gid := if rgid ≠ uidUnset then krgid else old.gid }
  let new := { new with egid := if egid ≠ uidUnset then kegid else new.egid }
  let new := { new with sgid := if sgid ≠ uidUnset then ksgid else new.sgid }
  pure { new with fsgid := new.egid }

def setfsgid (maps : IdMaps) (allocs : Allocs) (old : Cred) (gid : UInt32) : UInt32 × Cred :=
  let oldFsgid := fromKgidMunged maps old.userNs old.fsgid
  let kgid := makeKgid maps old.userNs gid
  if gidValid kgid = false then (oldFsgid, old)
  else if allocs.prepareCreds = false then (oldFsgid, old)
  else if (kgid = old.gid ∨ kgid = old.egid ∨ kgid = old.sgid ∨ kgid = old.fsgid ∨
      nsownCapable old capSetgid) ∧ kgid ≠ old.fsgid then
    (oldFsgid, { old with fsgid := kgid })
  else (oldFsgid, old)

/-- One of the eight calls, with its arguments. -/
inductive SetIdCall where
  | setuid (uid : UInt32)
  | setreuid (ruid euid : UInt32)
  | setresuid (ruid euid suid : UInt32)
  | setfsuid (uid : UInt32)
  | setgid (gid : UInt32)
  | setregid (rgid egid : UInt32)
  | setresgid (rgid egid sgid : UInt32)
  | setfsgid (gid : UInt32)
  deriving DecidableEq, Repr

def SetIdCall.isUidCall : SetIdCall → Bool
  | .setuid _ | .setreuid _ _ | .setresuid _ _ _ => true
  | _ => false

def SetIdCall.isGidCall : SetIdCall → Bool
  | .setgid _ | .setregid _ _ | .setresgid _ _ _ => true
  | _ => false

/-- The credentials a call commits, or its error. -/
def setIdCall (maps : IdMaps) (allocs : Allocs) (old : Cred) : SetIdCall → Except Errno Cred
  | .setuid uid => setuid maps allocs old uid
  | .setreuid ruid euid => setreuid maps allocs old ruid euid
  | .setresuid ruid euid suid => setresuid maps allocs old ruid euid suid
  | .setfsuid uid => .ok (setfsuid maps allocs old uid).2
  | .setgid gid => setgid maps allocs old gid
  | .setregid rgid egid => setregid maps allocs old rgid egid
  | .setresgid rgid egid sgid => setresgid maps allocs old rgid egid sgid
  | .setfsgid gid => .ok (setfsgid maps allocs old gid).2

end LinuxKernel
