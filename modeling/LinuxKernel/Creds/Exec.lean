import Mathlib
import LinuxKernel.Foundation.ExceptRules
import LinuxKernel.Creds.Capable
import LinuxKernel.Creds.IdMap

/-!
# Credentials across `execve`

`cap_bprm_set_creds` (`security/commoncap.c`) in its stages: the file capabilities of
`get_file_caps`, the legacy root rules, the downgrade of an unsafe exec, the saved and fs ids,
and the effective set.
-/

namespace LinuxKernel

open ExceptRules

structure CpuVfsCapData where
  magicEtc : UInt32
  permitted : KernelCap
  inheritable : KernelCap
  deriving DecidableEq, Repr

def vfsCapRevisionMask : UInt32 := 0xFF000000
def vfsCapFlagsEffective : UInt32 := 0x000001
def vfsCapRevision1 : UInt32 := 0x01000000
def vfsCapRevision2 : UInt32 := 0x02000000
def xattrCapsSz1 : Nat := 12
def xattrCapsSz2 : Nat := 20

def lsmUnsafePtraceCap : UInt32 := 4
def lsmUnsafeNoNewPrivs : UInt32 := 8
def perClearOnSetid : UInt32 := 0x0400000 ||| 0x0040000 ||| 0x0200000 ||| 0x0100000

/-- `le32_to_cpu` of the four bytes at `off`. -/
def le32 (bytes : List UInt8) (off : Nat) : UInt32 :=
  (bytes.getD off 0).toUInt32 ||| ((bytes.getD (off + 1) 0).toUInt32 <<< 8) |||
    ((bytes.getD (off + 2) 0).toUInt32 <<< 16) ||| ((bytes.getD (off + 3) 0).toUInt32 <<< 24)

/-- The file being executed: whether its mount is `MNT_NOSUID`, and what `getxattr` of
`security.capability` into a buffer of `XATTR_CAPS_SZ` bytes gives (`none` when the
inode has no `getxattr`). -/
structure ExecFile where
  mntNosuid : Bool
  capsXattr : Option (Except Errno (List UInt8))

/-- `struct linux_binprm`, the fields the capability code reads and writes. -/
structure Binprm where
  cred : Cred
  capEffective : Bool
  perClear : UInt32
  unsafeFlags : UInt32
  deriving DecidableEq

/-- `get_vfs_caps_from_disk`. Words past the revision's count stay zero. -/
def getVfsCapsFromDisk (xattr : Option (Except Errno (List UInt8))) :
    Except Errno CpuVfsCapData :=
  match xattr with
  | none => .error .noData
  | some (.error e) => if e = .noData ∨ e = .opNotSupp then .error .noData else .error e
  | some (.ok caps) => do
    let size := caps.length
    (if size < 4 then throw .inval else pure ())
    let magicEtc := le32 caps 0
    let tocopy ←
      (if magicEtc &&& vfsCapRevisionMask = vfsCapRevision1 then
        if size ≠ xattrCapsSz1 then throw .inval else pure 1
      else if magicEtc &&& vfsCapRevisionMask = vfsCapRevision2 then
        if size ≠ xattrCapsSz2 then throw .inval else pure 2
      else throw .inval)
    let word (i : Nat) (off : Nat) : UInt32 := if i < tocopy then le32 caps (4 + 8 * i + off) else 0
    pure { magicEtc
           permitted := ⟨#v[word 0 0, word 1 0]⟩
           inheritable := ⟨#v[word 0 4, word 1 4]⟩ }

/-- `bprm_caps_from_vfs_caps`: the return value, the new permitted set, and the
`effective` and `has_cap` flags. -/
def bprmCapsFromVfsCaps (caps : CpuVfsCapData) (new : Cred) (effective hasCap : Bool) :
    Except Errno Unit × KernelCap × Bool × Bool :=
  let effective := effective || (caps.magicEtc &&& vfsCapFlagsEffective != 0)
  let hasCap := hasCap || (caps.magicEtc &&& vfsCapRevisionMask != 0)
  -- pP' = (X & fP) | (pI & fI), one word at a time
  let permitted := capCombine (capIntersect new.capBset caps.permitted)
    (capIntersect new.capInheritable caps.inheritable)
  -- a forced capability the bounding set took away makes the exec fail
  let missing := !capIssubset caps.permitted permitted
  let ret : Except Errno Unit := if effective && missing then .error .perm else .ok ()
  (ret, permitted, effective, hasCap)

def bprmClearCaps (bprm : Binprm) : Binprm :=
  { bprm with cred := { bprm.cred with capPermitted := capEmptySet }, capEffective := false }

/-- `get_file_caps`: the return value, the updated `bprm`, and `effective` and
`has_cap`. `fileCapsEnabled` is the `no_file_caps` boot switch, inverted. -/
def getFileCaps (fileCapsEnabled : Bool) (file : ExecFile) (bprm : Binprm) :
    Except Errno Unit × Binprm × Bool × Bool :=
  let bprm := bprmClearCaps bprm
  if !fileCapsEnabled then (.ok (), bprm, false, false)
  else if file.mntNosuid then (.ok (), bprm, false, false)
  else
    match getVfsCapsFromDisk file.capsXattr with
    | .error .noData => (.ok (), bprm, false, false)
    | .error e => (.error e, bprmClearCaps bprm, false, false)
    | .ok vcaps =>
      let (rc, permitted, effective, hasCap) := bprmCapsFromVfsCaps vcaps bprm.cred false false
      let bprm := { bprm with cred := { bprm.cred with capPermitted := permitted } }
      match rc with
      | .ok () => (.ok (), bprm, effective, hasCap)
      | .error e => (.error e, bprmClearCaps bprm, effective, hasCap)

/-- `cap_bprm_set_creds`, with `old` the current credentials and `bprm.cred` the new
ones. `auditOk` is whether `audit_log_bprm_fcaps` returns 0. -/
def capBprmSetCreds (maps : IdMaps) (fileCapsEnabled auditOk : Bool) (file : ExecFile)
    (old : Cred) (bprm : Binprm) : Except Errno Binprm := do
  let (ret, bprm, effective, hasCap) := getFileCaps fileCapsEnabled file bprm
  ret
  let new := bprm.cred
  let rootUid := makeKuid maps new.userNs 0
  -- the legacy root rules, unless a setuid-root file with capabilities is run by a non-root uid
  let skip := hasCap ∧ new.uid ≠ rootUid ∧ new.euid = rootUid
  let legacy := issecure old.securebits secureNoroot = false ∧ ¬skip
  let new := { new with
    capPermitted :=
      if legacy ∧ (new.euid = rootUid ∨ new.uid = rootUid) then
        capCombine old.capBset old.capInheritable
      else new.capPermitted }
  let effective := effective || decide (legacy ∧ new.euid = rootUid)
  let perClear :=
    if capIssubset new.capPermitted old.capPermitted = false then bprm.perClear ||| perClearOnSetid
    else bprm.perClear
  -- an unsafe exec gets no more than it had
  let downgrade := (new.euid ≠ old.uid ∨ new.egid ≠ old.gid ∨
      capIssubset new.capPermitted old.capPermitted = false) ∧
    bprm.unsafeFlags &&& ~~~lsmUnsafePtraceCap ≠ 0
  let resetIds := downgrade ∧
    (capCapable old .init capSetuid ≠ .ok () ∨ bprm.unsafeFlags &&& lsmUnsafeNoNewPrivs ≠ 0)
  let new := { new with
    euid := if resetIds then new.uid else new.euid
    egid := if resetIds then new.gid else new.egid
    capPermitted :=
      if downgrade then capIntersect new.capPermitted old.capPermitted else new.capPermitted }
  let new := { new with suid := new.euid, fsuid := new.euid, sgid := new.egid, fsgid := new.egid }
  let new := { new with capEffective := if effective then new.capPermitted else capEmptySet }
  (if capIsclear new.capEffective = false ∧
      (capIssubset capFullSet new.capEffective = false ∨ new.euid ≠ rootUid ∨
        new.uid ≠ rootUid ∨ issecure old.securebits secureNoroot = true) ∧
      auditOk = false then throw .noMem else pure ())
  let new := { new with securebits := new.securebits &&& ~~~(issecureMask secureKeepCaps) }
  pure { bprm with cred := new, capEffective := effective, perClear }

/-! ### What an exec computes, stage by stage -/

/-- The capability sets `get_file_caps` applies: the file's, when file capabilities are
on, the mount honours set-id bits and the xattr parses. -/
def fileCaps (fileCapsEnabled : Bool) (file : ExecFile) : Option CpuVfsCapData :=
  if fileCapsEnabled && !file.mntNosuid then (getVfsCapsFromDisk file.capsXattr).toOption
  else none

/-- `pP' = (X & fP) | (pI & fI)`, and nothing without file capabilities. -/
def filePermitted (new : Cred) : Option CpuVfsCapData → KernelCap
  | some caps => capCombine (capIntersect new.capBset caps.permitted)
      (capIntersect new.capInheritable caps.inheritable)
  | none => capEmptySet

def fileEffective : Option CpuVfsCapData → Bool
  | some caps => caps.magicEtc &&& vfsCapFlagsEffective != 0
  | none => false

/-- The legacy root rules are in force: no `SECURE_NOROOT`, and not a set-uid-root file
with capabilities run by a non-root uid. -/
def legacyRootRules (maps : IdMaps) (old new : Cred) (fcaps : Option CpuVfsCapData) : Bool :=
  let rootUid := makeKuid maps new.userNs 0
  issecure old.securebits secureNoroot = false ∧
    ¬(fcaps.isSome ∧ new.uid ≠ rootUid ∧ new.euid = rootUid)

/-- The permitted set of an exec before an unsafe exec is downgraded. -/
def execPermitted (maps : IdMaps) (old new : Cred) (fcaps : Option CpuVfsCapData) : KernelCap :=
  let rootUid := makeKuid maps new.userNs 0
  if legacyRootRules maps old new fcaps ∧ (new.euid = rootUid ∨ new.uid = rootUid) then
    capCombine old.capBset old.capInheritable
  else filePermitted new fcaps

/-- Whether the exec raises its effective set. -/
def execEffective (maps : IdMaps) (old new : Cred) (fcaps : Option CpuVfsCapData) : Bool :=
  fileEffective fcaps ||
    decide (legacyRootRules maps old new fcaps ∧ new.euid = makeKuid maps new.userNs 0)

theorem getVfsCapsFromDisk_revision {xattr : Option (Except Errno (List UInt8))}
    {caps : CpuVfsCapData} (h : getVfsCapsFromDisk xattr = .ok caps) :
    (caps.magicEtc &&& vfsCapRevisionMask != 0) = true := by
  unfold getVfsCapsFromDisk at h
  split at h
  · simp at h
  · split at h <;> simp at h
  · simp only [bind_eq_ok, if_throw_eq_ok, pure_eq_ok] at h
    obtain ⟨-, -, tocopy, htocopy, rfl⟩ := h
    split at htocopy
    · rename_i hrev
      simp only [hrev]
      decide
    · split at htocopy
      · rename_i hrev
        simp only [hrev]
        decide
      · simp at htocopy

theorem getFileCaps_eq_ok {fileCapsEnabled : Bool} {file : ExecFile} {bprm b : Binprm}
    {effective hasCap : Bool}
    (h : getFileCaps fileCapsEnabled file bprm = (.ok (), b, effective, hasCap)) :
    b = { bprm with
          cred := { bprm.cred with
            capPermitted := filePermitted bprm.cred (fileCaps fileCapsEnabled file) }
          capEffective := false } ∧
      effective = fileEffective (fileCaps fileCapsEnabled file) ∧
      hasCap = (fileCaps fileCapsEnabled file).isSome := by
  unfold fileCaps
  by_cases hgate : (fileCapsEnabled && !file.mntNosuid) = true
  · have hen : fileCapsEnabled = true := by simp_all
    have hns : file.mntNosuid = false := by simp_all
    rw [if_pos hgate]
    simp only [getFileCaps, hen, hns, Bool.not_true, Bool.false_eq_true, ite_false] at h
    cases hv : getVfsCapsFromDisk file.capsXattr with
    | error e =>
      -- only a missing xattr lets the exec go on
      rw [hv] at h
      cases e <;> simp only [Prod.mk.injEq, reduceCtorEq, false_and] at h
      obtain ⟨-, rfl, rfl, rfl⟩ := h
      simp [Except.toOption, filePermitted, fileEffective, bprmClearCaps]
    | ok caps =>
      rw [hv] at h
      cases hrc : (bprmCapsFromVfsCaps caps (bprmClearCaps bprm).cred false false).1 with
      | error e => simp [hrc] at h
      | ok u =>
        simp only [hrc, Prod.mk.injEq] at h
        obtain ⟨-, rfl, rfl, rfl⟩ := h
        simp [Except.toOption, filePermitted, fileEffective, bprmClearCaps, bprmCapsFromVfsCaps,
          getVfsCapsFromDisk_revision hv]
  · -- file capabilities are off or the mount is nosuid: the sets are only cleared
    rw [if_neg hgate]
    have hoff : getFileCaps fileCapsEnabled file bprm = (.ok (), bprmClearCaps bprm, false, false) := by
      cases fileCapsEnabled <;> cases hns : file.mntNosuid <;> simp_all [getFileCaps]
    rw [hoff, Prod.mk.injEq, Prod.mk.injEq, Prod.mk.injEq] at h
    obtain ⟨-, rfl, rfl, rfl⟩ := h
    simp [filePermitted, fileEffective, bprmClearCaps]

/-- A successful `cap_bprm_set_creds`, stage by stage: the permitted set of
`execPermitted`, cut down to the old one on an unsafe exec that would gain, the effective
ids reset when the caller may not keep them, the saved and fs ids following them. -/
theorem capBprmSetCreds_eq_ok {maps : IdMaps} {fileCapsEnabled auditOk : Bool}
    {file : ExecFile} {old : Cred} {bprm bprm' : Binprm}
    (h : capBprmSetCreds maps fileCapsEnabled auditOk file old bprm = .ok bprm') :
    let fcaps := fileCaps fileCapsEnabled file
    let pre := bprm.cred
    let permitted := execPermitted maps old pre fcaps
    let downgrade := (pre.euid ≠ old.uid ∨ pre.egid ≠ old.gid ∨
        capIssubset permitted old.capPermitted = false) ∧
      bprm.unsafeFlags &&& ~~~lsmUnsafePtraceCap ≠ 0
    let resetIds := downgrade ∧
      (capCapable old .init capSetuid ≠ .ok () ∨ bprm.unsafeFlags &&& lsmUnsafeNoNewPrivs ≠ 0)
    let euid := if resetIds then pre.uid else pre.euid
    let egid := if resetIds then pre.gid else pre.egid
    let permitted := if downgrade then capIntersect permitted old.capPermitted else permitted
    bprm'.cred.capPermitted = permitted ∧
      bprm'.cred.capEffective =
        (if execEffective maps old pre fcaps then permitted else capEmptySet) ∧
      bprm'.cred.euid = euid ∧ bprm'.cred.egid = egid ∧
      bprm'.cred.suid = euid ∧ bprm'.cred.fsuid = euid ∧
      bprm'.cred.sgid = egid ∧ bprm'.cred.fsgid = egid := by
  unfold capBprmSetCreds at h
  rcases hg : getFileCaps fileCapsEnabled file bprm with ⟨ret, b, eff, hc⟩
  rw [hg] at h
  cases ret with
  | error e => simp at h
  | ok u =>
    obtain ⟨rfl, rfl, rfl⟩ := getFileCaps_eq_ok hg
    simp only [bind_eq_ok, if_throw_eq_ok, pure_eq_ok] at h
    obtain ⟨-, -, -, -, rfl⟩ := h
    simp only [execPermitted, execEffective, legacyRootRules, decide_eq_true_eq, and_self]

theorem capBprmSetCreds_exec_creds {maps : IdMaps} {fileCapsEnabled auditOk : Bool}
    {file : ExecFile} {old : Cred} {bprm bprm' : Binprm}
    (h : capBprmSetCreds maps fileCapsEnabled auditOk file old bprm = .ok bprm')
    (huid : bprm.cred.uid = old.uid) (hgid : bprm.cred.gid = old.gid) :
    let fcaps := fileCaps fileCapsEnabled file
    let permitted := execPermitted maps old bprm.cred fcaps
    let unsafeExec := bprm.unsafeFlags &&& ~~~lsmUnsafePtraceCap ≠ 0
    let new := bprm'.cred
    new.capPermitted =
        (if unsafeExec then capIntersect permitted old.capPermitted else permitted) ∧
      new.capEffective =
        (if execEffective maps old bprm.cred fcaps then new.capPermitted else capEmptySet) ∧
      (unsafeExec →
        (bprm.cred.euid ≠ old.euid ∨ bprm.cred.egid ≠ old.egid ∨
          capIssubset permitted old.capPermitted = false) →
        capIssubset new.capPermitted old.capPermitted = true ∧
          (bprm.unsafeFlags &&& lsmUnsafeNoNewPrivs ≠ 0 ∨ capCapable old .init capSetuid ≠ .ok () →
            new.euid = old.uid ∧ new.egid = old.gid)) ∧
      new.suid = new.euid ∧ new.fsuid = new.euid ∧ new.sgid = new.egid ∧ new.fsgid = new.egid := by
  dsimp only
  obtain ⟨hP, hE, heuid, hegid, hsuid, hfsuid, hsgid, hfsgid⟩ := capBprmSetCreds_eq_ok h
  set permitted := execPermitted maps old bprm.cred (fileCaps fileCapsEnabled file)
  set downgrade := (bprm.cred.euid ≠ old.uid ∨ bprm.cred.egid ≠ old.gid ∨
    capIssubset permitted old.capPermitted = false) with hdowngrade
  -- an unsafe exec that is not cut down already keeps the old ids and stays within the old set
  have hkept (hu : bprm.unsafeFlags &&& ~~~lsmUnsafePtraceCap ≠ 0)
      (hd : ¬(downgrade ∧ bprm.unsafeFlags &&& ~~~lsmUnsafePtraceCap ≠ 0)) :
      bprm.cred.euid = old.uid ∧ bprm.cred.egid = old.gid ∧
        capIssubset permitted old.capPermitted = true := by
    have hnd : ¬downgrade := fun hd' => hd ⟨hd', hu⟩
    simp only [hdowngrade, not_or, ne_eq, not_not, Bool.not_eq_false] at hnd
    exact hnd
  refine ⟨?_, ?_, ?_, ?_⟩
  · rw [hP]
    by_cases hu : bprm.unsafeFlags &&& ~~~lsmUnsafePtraceCap ≠ 0
    · rw [if_pos hu]
      by_cases hd : downgrade ∧ bprm.unsafeFlags &&& ~~~lsmUnsafePtraceCap ≠ 0
      · rw [if_pos hd]
      · rw [if_neg hd, capIntersect_eq_left (hkept hu hd).2.2]
    · rw [if_neg hu, if_neg (fun hd => hu hd.2)]
  · rw [hE, hP]
  · intro hu _
    by_cases hd : downgrade ∧ bprm.unsafeFlags &&& ~~~lsmUnsafePtraceCap ≠ 0
    · rw [hP, if_pos hd]
      refine ⟨capIntersect_subset_right _ _, fun hreset => ?_⟩
      have hr : downgrade ∧ bprm.unsafeFlags &&& ~~~lsmUnsafePtraceCap ≠ 0 ∧
          (capCapable old .init capSetuid ≠ .ok () ∨
            bprm.unsafeFlags &&& lsmUnsafeNoNewPrivs ≠ 0) := ⟨hd.1, hd.2, hreset.symm⟩
      rw [heuid, hegid, if_pos (and_assoc.mpr hr), if_pos (and_assoc.mpr hr), huid, hgid]
      exact ⟨rfl, rfl⟩
    · -- not cut down: the effective ids are the old real ids whether or not they are reset
      obtain ⟨he, hg, hsub⟩ := hkept hu hd
      rw [hP, if_neg hd]
      refine ⟨hsub, fun _ => ?_⟩
      rw [heuid, hegid]
      split_ifs
      · exact ⟨huid, hgid⟩
      · exact ⟨he, hg⟩
  · rw [hsuid, hfsuid, hsgid, hfsgid, heuid, hegid]
    exact ⟨rfl, rfl, rfl, rfl⟩

/-- A set-uid-root program run under `no_new_privs` by an unprivileged user keeps the user's
ids and gains no capability. -/
theorem exec_setuid_root_no_new_privs :
    let user : Cred := { initCred with
      uid := ⟨1000⟩, gid := ⟨1000⟩, suid := ⟨1000⟩, sgid := ⟨1000⟩, euid := ⟨1000⟩,
      egid := ⟨1000⟩, fsuid := ⟨1000⟩, fsgid := ⟨1000⟩,
      capPermitted := capEmptySet, capEffective := capEmptySet }
    let bprm : Binprm := ⟨{ user with euid := globalRootUid }, false, 0, lsmUnsafeNoNewPrivs⟩
    ∃ bprm', capBprmSetCreds IdMaps.initial true true ⟨false, none⟩ user bprm = .ok bprm' ∧
      capIssubset bprm'.cred.capPermitted user.capPermitted = true ∧
      bprm'.cred.euid = user.uid := by
  intro user bprm
  have h : capBprmSetCreds IdMaps.initial true true ⟨false, none⟩ user bprm =
      .ok ⟨user, true, perClearOnSetid, lsmUnsafeNoNewPrivs⟩ := by decide +kernel
  obtain ⟨-, -, hunsafe, -⟩ := capBprmSetCreds_exec_creds h rfl rfl
  obtain ⟨hsub, hids⟩ := hunsafe (by decide) (Or.inl (by decide))
  exact ⟨_, h, hsub, (hids (Or.inl (by decide))).1⟩

end LinuxKernel
