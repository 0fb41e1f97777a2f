import Mathlib
import LinuxKernel.Creds.SetIdSpec
import LinuxKernel.Creds.Exec
import LinuxKernel.Creds.Calls

/-!
# Credentials over a task's life

A task's credentials start as `init_cred` and change only through the calls modelled
here; a call that fails leaves them as they were. Every credentials reached this way keep
their effective set inside their permitted set, and from any of them the set*id calls give
an unprivileged caller no id it did not hold and never grow the permitted set.
-/

namespace LinuxKernel

open ExceptRules

/-- The calls that commit new credentials for the calling task, or for the child of a
`clone(CLONE_NEWUSER)`. For `exec`, `euid` and `egid` are those `prepare_binprm` chose. -/
inductive CredEvent where
  | setId (maps : IdMaps) (allocs : Allocs) (call : SetIdCall)
  | capset (allocs : Allocs) (effective inheritable permitted : KernelCap)
  | prctl (allocs : Allocs) (option : PrctlOption)
  | exec (maps : IdMaps) (fileCapsEnabled auditOk : Bool) (file : ExecFile) (euid : Kuid)
      (egid : Kgid) (unsafeFlags : UInt32)
  | cloneNewuser (maps : IdMaps) (allocs : Allocs) (allocNs : Bool) (id : Nat)

def credCall (c : Cred) : CredEvent → Except Errno Cred
  | .setId maps allocs call => setIdCall maps allocs c call
  | .capset allocs effective inheritable permitted =>
    capset allocs c effective inheritable permitted
  | .prctl allocs option => capTaskPrctl allocs c option
  | .exec maps fileCapsEnabled auditOk file euid egid unsafeFlags =>
    (·.cred) <$> capBprmSetCreds maps fileCapsEnabled auditOk file c
      ⟨{ c with euid, egid }, false, 0, unsafeFlags⟩
  | .cloneNewuser maps allocs allocNs id => cloneNewuser maps allocs allocNs c id

def credStep (c : Cred) (e : CredEvent) : Cred :=
  match credCall c e with
  | .ok c' => c'
  | .error _ => c

def credRun : Cred → List CredEvent → Cred
  | c, [] => c
  | c, e :: rest => credRun (credStep c e) rest

/-- The effective set lies inside the permitted set. -/
def CapsInv (c : Cred) : Prop := capIssubset c.capEffective c.capPermitted = true

theorem initCred_capsInv : CapsInv initCred := capIssubset_refl _

/-! ### The set*id calls from any credentials -/

section SetIdCall

variable {maps : IdMaps} {allocs : Allocs} {old new : Cred} {call : SetIdCall}

theorem setIdCall_uids_from (h : setIdCall maps allocs old call = .ok new)
    (hu : call.isUidCall = true) (hcap : nsownCapable old capSetuid = false) :
    UidsFrom new old ∧ new.fsuid = new.euid := by
  obtain ⟨mid, flags, -, rfl, hmid, hfrom⟩ := setIdCall_uid_ok h hu
  obtain ⟨p, e, hfix⟩ := capTaskFixSetuid_eq maps mid old flags
  rw [hfix]
  exact ⟨hfrom hcap, hmid.fsuid_eq⟩

theorem setIdCall_setfsuid_mem {uid : UInt32}
    (h : setIdCall maps allocs old (.setfsuid uid) = .ok new)
    (hcap : nsownCapable old capSetuid = false) :
    new.fsuid ∈ [old.uid, old.euid, old.suid, old.fsuid] := by
  simp only [List.mem_cons, List.not_mem_nil, or_false]
  rcases setIdCall_setfsuid h with rfl | ⟨-, hallowed⟩
  · exact Or.inr (Or.inr (Or.inr rfl))
  · simpa [hcap] using hallowed

theorem setIdCall_gids_from (h : setIdCall maps allocs old call = .ok new)
    (hg : call.isGidCall = true) (hcap : nsownCapable old capSetgid = false) :
    GidsFrom new old ∧ new.fsgid = new.egid := by
  obtain ⟨hgids, hfrom⟩ := setIdCall_gid_ok h hg
  exact ⟨hfrom hcap, hgids.fsgid_eq⟩

theorem setIdCall_setfsgid_mem {gid : UInt32}
    (h : setIdCall maps allocs old (.setfsgid gid) = .ok new)
    (hcap : nsownCapable old capSetgid = false) :
    new.fsgid ∈ [old.gid, old.egid, old.sgid, old.fsgid] := by
  simp only [List.mem_cons, List.not_mem_nil, or_false]
  rcases setIdCall_setfsgid h with rfl | ⟨-, hallowed⟩
  · exact Or.inr (Or.inr (Or.inr rfl))
  · simpa [hcap] using hallowed

theorem setIdCall_caps (h : setIdCall maps allocs old call = .ok new) (hinv : CapsInv old) :
    capIssubset new.capPermitted old.capPermitted = true ∧ CapsInv new := by
  cases hu : call.isUidCall
  · cases call with
    | setuid _ | setreuid _ _ | setresuid _ _ _ => simp [SetIdCall.isUidCall] at hu
    | setfsuid uid =>
      rcases setIdCall_setfsuid h with rfl | ⟨hfix, -⟩
      · exact ⟨capIssubset_refl _, hinv⟩
      · rw [hfix]
        exact capTaskFixSetuid_subset maps _ old .fs hinv
    | setfsgid gid =>
      rcases setIdCall_setfsgid h with rfl | ⟨hset, -⟩
      · exact ⟨capIssubset_refl _, hinv⟩
      · rw [hset]
        exact ⟨capIssubset_refl _, hinv⟩
    | setgid _ | setregid _ _ | setresgid _ _ _ =>
      -- the gid calls keep both sets
      obtain ⟨-, -, -, hp, he⟩ := (setIdCall_gid_ok h rfl).1.keeps
      rw [CapsInv, hp, he]
      exact ⟨capIssubset_refl _, hinv⟩
  · obtain ⟨mid, flags, -, rfl, hmid, -⟩ := setIdCall_uid_ok h hu
    obtain ⟨hp, he⟩ := hmid.caps
    have hmidinv : CapsInv mid := by rw [CapsInv, hp, he]; exact hinv
    rw [← hp]
    exact capTaskFixSetuid_subset maps mid old flags hmidinv

theorem setIdCall_drop_root (h : setIdCall maps allocs old call = .ok new)
    (hfixup : issecure old.securebits secureNoSetuidFixup = false)
    (hold : old.uid = makeKuid maps old.userNs 0 ∨ old.euid = makeKuid maps old.userNs 0 ∨
      old.suid = makeKuid maps old.userNs 0)
    (hnew : new.uid ≠ makeKuid maps old.userNs 0 ∧ new.euid ≠ makeKuid maps old.userNs 0 ∧
      new.suid ≠ makeKuid maps old.userNs 0)
    (hkeep : issecure old.securebits secureKeepCaps = false) :
    new.capPermitted = capEmptySet ∧ new.capEffective = capEmptySet := by
  cases hu : call.isUidCall
  · -- the other calls keep the three uids, so none of them left uid 0
    obtain ⟨h1, h2, h3⟩ := setIdCall_rsuid_eq h hu
    rw [h1, h2, h3] at hnew
    exfalso
    rcases hold with h0 | h0 | h0
    · exact hnew.1 h0
    · exact hnew.2.1 h0
    · exact hnew.2.2 h0
  · obtain ⟨mid, flags, hflags, rfl, -, -⟩ := setIdCall_uid_ok h hu
    obtain ⟨p, e, hfix⟩ := capTaskFixSetuid_eq maps mid old flags
    rw [hfix] at hnew
    rw [capTaskFixSetuid_of_ne_fs hflags hfixup]
    exact capEmulateSetxuid_drop_root maps mid old hold hnew hkeep

end SetIdCall

/-! ### Every reachable credentials -/

section Run

variable {c c' : Cred} {e : CredEvent}

theorem credCall_capsInv (h : credCall c e = .ok c') (hc : CapsInv c) : CapsInv c' := by
  cases e with
  | setId maps allocs call => exact (setIdCall_caps h hc).2
  | capset allocs effective inheritable permitted =>
    obtain ⟨rfl, -, he⟩ := capset_ok h
    exact he
  | prctl allocs option =>
    rw [capTaskPrctl_ok h]
    exact hc
  | exec maps fileCapsEnabled auditOk file euid egid unsafeFlags =>
    obtain ⟨bprm', hexec, rfl⟩ := map_eq_ok.mp h
    obtain ⟨hp, he, -⟩ := capBprmSetCreds_eq_ok hexec
    -- the new effective set is the new permitted set or empty
    rw [CapsInv, he, hp]
    split
    · exact capIssubset_refl _
    · exact capEmptySet_subset _
  | cloneNewuser maps allocs allocNs id =>
    obtain ⟨hp, he⟩ := cloneNewuser_caps h
    rw [CapsInv, hp, he]
    exact capIssubset_refl _

theorem credStep_capsInv (hc : CapsInv c) : CapsInv (credStep c e) := by
  unfold credStep
  split
  · rename_i c' h
    exact credCall_capsInv h hc
  · exact hc

theorem credRun_capsInv {events : List CredEvent} (hc : CapsInv c) : CapsInv (credRun c events) := by
  induction events generalizing c with
  | nil => exact hc
  | cons e rest ih => exact ih (credStep_capsInv hc)

end Run

/-- The set*id calls from any credentials a task can hold: an unprivileged caller only
gets ids it held, and with the fix-up on no call grows the permitted set, none lets the
effective set out of it, and leaving uid 0 empties both unless `SECURE_KEEP_CAPS` is set. -/
theorem setIdCall_reachable_no_new_privs {events : List CredEvent} {maps : IdMaps}
    {allocs : Allocs} {call : SetIdCall} {new : Cred}
    (h : setIdCall maps allocs (credRun initCred events) call = .ok new) :
    let old := credRun initCred events
    let rootUid := makeKuid maps old.userNs 0
    (call.isUidCall = true → nsownCapable old capSetuid = false →
      UidsFrom new old ∧ new.fsuid = new.euid) ∧
    (∀ uid, call = .setfsuid uid → nsownCapable old capSetuid = false →
      new.fsuid ∈ [old.uid, old.euid, old.suid, old.fsuid]) ∧
    (call.isGidCall = true → nsownCapable old capSetgid = false →
      GidsFrom new old ∧ new.fsgid = new.egid) ∧
    (∀ gid, call = .setfsgid gid → nsownCapable old capSetgid = false →
      new.fsgid ∈ [old.gid, old.egid, old.sgid, old.fsgid]) ∧
    (issecure old.securebits secureNoSetuidFixup = false →
      capIssubset new.capPermitted old.capPermitted = true ∧
      capIssubset new.capEffective new.capPermitted = true ∧
      ((old.uid = rootUid ∨ old.euid = rootUid ∨ old.suid = rootUid) →
        (new.uid ≠ rootUid ∧ new.euid ≠ rootUid ∧ new.suid ≠ rootUid) →
        issecure old.securebits secureKeepCaps = false →
        new.capPermitted = capEmptySet ∧ new.capEffective = capEmptySet)) := by
  intro old rootUid
  have hinv : CapsInv old := credRun_capsInv initCred_capsInv
  obtain ⟨hsub, hnewinv⟩ := setIdCall_caps h hinv
  refine ⟨setIdCall_uids_from h, ?_, setIdCall_gids_from h, ?_, fun hfixup =>
    ⟨hsub, hnewinv, fun hold hnew hkeep => setIdCall_drop_root h hfixup hold hnew hkeep⟩⟩
  · rintro uid rfl
    exact setIdCall_setfsuid_mem h
  · rintro gid rfl
    exact setIdCall_setfsgid_mem h

theorem initCred_setuid_drops_caps :
    ∃ new, setIdCall IdMaps.initial ⟨true, true⟩ (credRun initCred []) (.setuid 1000) = .ok new ∧
      new.capPermitted = capEmptySet ∧ new.capEffective = capEmptySet := by
  have h : setIdCall IdMaps.initial ⟨true, true⟩ (credRun initCred []) (.setuid 1000) =
      .ok { initCred with
        uid := ⟨1000⟩, suid := ⟨1000⟩, euid := ⟨1000⟩, fsuid := ⟨1000⟩,
        capPermitted := capEmptySet, capEffective := capEmptySet } := by decide +kernel
  obtain ⟨-, -, -, -, hcaps⟩ := setIdCall_reachable_no_new_privs h
  exact ⟨_, h, (hcaps (by decide)).2.2 (Or.inl (by decide)) (by decide) (by decide)⟩

end LinuxKernel
