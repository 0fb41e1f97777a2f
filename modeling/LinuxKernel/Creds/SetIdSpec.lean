import Mathlib
import LinuxKernel.Creds.SetId

/-!
# What the set*id calls commit

One lemma per call says what a successful call commits: the old credentials with the
ids it was asked for, passed through `cap_task_fix_setuid`, and the permission the
call checked for each id. The fix-up lemmas say what it does to the capability sets.
-/

namespace LinuxKernel

open ExceptRules

/-! ### The capability fix-up -/

theorem capTaskFixSetuid_eq (maps : IdMaps) (new old : Cred) (flags : LsmSetid) :
    ∃ p e, capTaskFixSetuid maps new old flags = { new with capPermitted := p, capEffective := e } := by
  unfold capTaskFixSetuid capEmulateSetxuid
  cases flags <;> simp only <;> split_ifs <;> exact ⟨_, _, rfl⟩

theorem capEmulateSetxuid_permitted_subset (maps : IdMaps) (new old : Cred) :
    capIssubset (capEmulateSetxuid maps new old).capPermitted new.capPermitted = true := by
  unfold capEmulateSetxuid
  dsimp only
  split_ifs <;> simp only [capIssubset_refl, capEmptySet_subset]

theorem capEmulateSetxuid_effective_subset (maps : IdMaps) (new old : Cred)
    (h : capIssubset new.capEffective new.capPermitted = true) :
    capIssubset (capEmulateSetxuid maps new old).capEffective
      (capEmulateSetxuid maps new old).capPermitted = true := by
  unfold capEmulateSetxuid
  dsimp only
  split_ifs <;> simp only [h, capIssubset_refl, capEmptySet_subset]

theorem capEmulateSetxuid_drop_root (maps : IdMaps) (new old : Cred)
    (hold : old.uid = makeKuid maps old.userNs 0 ∨ old.euid = makeKuid maps old.userNs 0 ∨
      old.suid = makeKuid maps old.userNs 0)
    (hnew : new.uid ≠ makeKuid maps old.userNs 0 ∧ new.euid ≠ makeKuid maps old.userNs 0 ∧
      new.suid ≠ makeKuid maps old.userNs 0)
    (hkeep : issecure old.securebits secureKeepCaps = false) :
    (capEmulateSetxuid maps new old).capPermitted = capEmptySet ∧
      (capEmulateSetxuid maps new old).capEffective = capEmptySet := by
  unfold capEmulateSetxuid
  simp only [hold, hnew, hkeep, ne_eq, not_false_eq_true, and_self, if_true]
  split_ifs <;> simp_all

theorem capTaskFixSetuid_fs_subset (maps : IdMaps) (new old : Cred)
    (h : capIssubset new.capEffective new.capPermitted = true) :
    (capTaskFixSetuid maps new old .fs).capPermitted = new.capPermitted ∧
      capIssubset (capTaskFixSetuid maps new old .fs).capEffective
        (capTaskFixSetuid maps new old .fs).capPermitted = true := by
  unfold capTaskFixSetuid
  dsimp only
  split_ifs <;> simp only [h, true_and]
  · exact capRaiseFsSet_subset (capIssubset_trans (capDropFsSet_subset _) h)
  · exact capIssubset_trans (capDropFsSet_subset _) h
  · exact capRaiseFsSet_subset h

theorem capTaskFixSetuid_subset (maps : IdMaps) (new old : Cred) (flags : LsmSetid)
    (h : capIssubset new.capEffective new.capPermitted = true) :
    capIssubset (capTaskFixSetuid maps new old flags).capPermitted new.capPermitted = true ∧
      capIssubset (capTaskFixSetuid maps new old flags).capEffective
        (capTaskFixSetuid maps new old flags).capPermitted = true := by
  cases flags with
  | fs =>
    obtain ⟨hp, he⟩ := capTaskFixSetuid_fs_subset maps new old h
    exact ⟨hp ▸ capIssubset_refl _, he⟩
  | re | id | res =>
    unfold capTaskFixSetuid
    split_ifs
    · exact ⟨capEmulateSetxuid_permitted_subset maps new old,
        capEmulateSetxuid_effective_subset maps new old h⟩
    · exact ⟨capIssubset_refl _, h⟩

/-! ### Shapes of the committed credentials -/

/-- `mid` is `old` with other real, effective and saved uids, and its fs uid is its
effective uid. -/
def UidsOnly (mid old : Cred) : Prop :=
  mid = { old with uid := mid.uid, euid := mid.euid, suid := mid.suid, fsuid := mid.euid }

/-- The real, effective and saved uids of `mid` are among those of `old`. -/
def UidsFrom (mid old : Cred) : Prop :=
  mid.uid ∈ [old.uid, old.euid, old.suid] ∧ mid.euid ∈ [old.uid, old.euid, old.suid] ∧
    mid.suid ∈ [old.uid, old.euid, old.suid]

/-- `mid` is `old` with other real, effective and saved gids, and its fs gid is its
effective gid. -/
def GidsOnly (mid old : Cred) : Prop :=
  mid = { old with gid := mid.gid, egid := mid.egid, sgid := mid.sgid, fsgid := mid.egid }

/-- The real, effective and saved gids of `mid` are among those of `old`. -/
def GidsFrom (mid old : Cred) : Prop :=
  mid.gid ∈ [old.gid, old.egid, old.sgid] ∧ mid.egid ∈ [old.gid, old.egid, old.sgid] ∧
    mid.sgid ∈ [old.gid, old.egid, old.sgid]

theorem UidsOnly.caps {mid old : Cred} (h : UidsOnly mid old) :
    mid.capPermitted = old.capPermitted ∧ mid.capEffective = old.capEffective := by
  rw [h]
  exact ⟨rfl, rfl⟩

theorem UidsOnly.fsuid_eq {mid old : Cred} (h : UidsOnly mid old) : mid.fsuid = mid.euid := by
  rw [h]

theorem GidsOnly.keeps {new old : Cred} (h : GidsOnly new old) :
    new.uid = old.uid ∧ new.euid = old.euid ∧ new.suid = old.suid ∧
      new.capPermitted = old.capPermitted ∧ new.capEffective = old.capEffective := by
  rw [h]
  exact ⟨rfl, rfl, rfl, rfl, rfl⟩

theorem GidsOnly.fsgid_eq {new old : Cred} (h : GidsOnly new old) : new.fsgid = new.egid := by
  rw [h]

theorem capTaskFixSetuid_of_ne_fs {maps : IdMaps} {new old : Cred} {flags : LsmSetid}
    (hflags : flags ≠ .fs) (hfixup : issecure old.securebits secureNoSetuidFixup = false) :
    capTaskFixSetuid maps new old flags = capEmulateSetxuid maps new old := by
  cases flags with
  | fs => exact absurd rfl hflags
  | re | id | res => simp only [capTaskFixSetuid, hfixup, if_true]

theorem setUser_step_ok {allocUid : Bool} {x y : Cred} {c : Prop} [Decidable c]
    (h : (if c then setUser allocUid x else pure x) = .ok y) : y = x := by
  split at h
  · simp only [setUser] at h
    split at h <;> simp_all
  · exact (pure_eq_ok.mp h).symm

/-! ### One lemma per call -/

section Calls

variable {maps : IdMaps} {allocs : Allocs} {old new : Cred}

theorem setreuid_ok {ruid euid : UInt32} (h : setreuid maps allocs old ruid euid = .ok new) :
    ∃ mid, new = capTaskFixSetuid maps mid old .re ∧ UidsOnly mid old ∧
      (nsownCapable old capSetuid = false → UidsFrom mid old) := by
  simp only [setreuid, throw_bind, if_throw_eq_ok] at h
  obtain ⟨-, -, -, hr, he, h⟩ := h
  rw [bind_eq_ok] at h
  obtain ⟨mid, hset, hfix⟩ := h
  have hmid := setUser_step_ok hset
  subst hmid
  rw [pure_eq_ok] at hfix
  refine ⟨_, hfix.symm, rfl, ?_⟩
  intro hcap
  simp only [hcap, and_true] at hr he
  simp only [UidsFrom, List.mem_cons, List.not_mem_nil, or_false]
  -- each id is the requested one, allowed by its check, or the old one
  refine ⟨?_, ?_, ?_⟩ <;> split_ifs <;> grind

theorem setuid_ok {uid : UInt32} (h : setuid maps allocs old uid = .ok new) :
    ∃ mid, new = capTaskFixSetuid maps mid old .id ∧ UidsOnly mid old ∧
      (nsownCapable old capSetuid = false → UidsFrom mid old) := by
  simp only [setuid, throw_bind, if_throw_eq_ok] at h
  obtain ⟨-, -, h⟩ := h
  obtain ⟨mid, hmid, hfix⟩ := bind_eq_ok.mp h
  split at hmid
  · -- privileged: every uid becomes the requested one
    rename_i hcap
    have hmid' := setUser_step_ok hmid
    subst hmid'
    rw [pure_eq_ok] at hfix
    refine ⟨_, hfix.symm, rfl, ?_⟩
    intro hcap'
    simp [hcap'] at hcap
  · rename_i hcap
    rw [if_throw_eq_ok, pure_eq_ok] at hmid
    obtain ⟨hallowed, rfl⟩ := hmid
    rw [pure_eq_ok] at hfix
    refine ⟨_, hfix.symm, rfl, ?_⟩
    intro _
    simp only [UidsFrom, List.mem_cons, List.not_mem_nil, or_false]
    grind

theorem setresuid_ok {ruid euid suid : UInt32}
    (h : setresuid maps allocs old ruid euid suid = .ok new) :
    ∃ mid, new = capTaskFixSetuid maps mid old .res ∧ UidsOnly mid old ∧
      (nsownCapable old capSetuid = false → UidsFrom mid old) := by
  simp only [setresuid, throw_bind, if_throw_eq_ok] at h
  obtain ⟨-, -, -, -, h⟩ := h
  obtain ⟨⟨⟩, hperm, h⟩ := bind_eq_ok.mp h
  obtain ⟨mid, hmid, hfix⟩ := bind_eq_ok.mp h
  have hmid' : mid = { old with uid := if ruid ≠ uidUnset then makeKuid maps old.userNs ruid
      else old.uid } := by
    split at hmid
    · obtain rfl := setUser_step_ok hmid
      simp_all
    · simp_all
  subst hmid'
  rw [pure_eq_ok] at hfix
  refine ⟨_, hfix.symm, rfl, ?_⟩
  intro hcap
  simp only [hcap, if_true, if_throw_eq_ok, pure_eq_ok] at hperm
  simp only [UidsFrom, List.mem_cons, List.not_mem_nil, or_false]
  refine ⟨?_, ?_, ?_⟩ <;> split_ifs <;> grind

theorem setfsuid_eq (uid : UInt32) :
    (setfsuid maps allocs old uid).2 = old ∨
      ((makeKuid maps old.userNs uid = old.uid ∨ makeKuid maps old.userNs uid = old.euid ∨
        makeKuid maps old.userNs uid = old.suid ∨ makeKuid maps old.userNs uid = old.fsuid ∨
        nsownCapable old capSetuid = true) ∧
      (setfsuid maps allocs old uid).2 =
        capTaskFixSetuid maps { old with fsuid := makeKuid maps old.userNs uid } old .fs) := by
  unfold setfsuid
  dsimp only
  split_ifs with _ _ hallowed
  · exact Or.inl rfl
  · exact Or.inl rfl
  · exact Or.inr ⟨hallowed.1, rfl⟩
  · exact Or.inl rfl

theorem setregid_ok {rgid egid : UInt32} (h : setregid maps allocs old rgid egid = .ok new) :
    GidsOnly new old ∧ (nsownCapable old capSetgid = false → GidsFrom new old) := by
  simp only [setregid, throw_bind, if_throw_eq_ok] at h
  obtain ⟨-, -, -, h⟩ := h
  rw [bind_eq_ok] at h
  obtain ⟨mid, hmid, h⟩ := h
  rw [bind_eq_ok] at h
  obtain ⟨mid', hmid', h⟩ := h
  rw [pure_eq_ok] at h
  subst h
  -- each step keeps the old gid or installs the requested one once its check passed
  have hr : mid = { old with gid := if rgid ≠ uidUnset then makeKgid maps old.userNs rgid
      else old.gid } ∧ (rgid ≠ uidUnset → old.gid = makeKgid maps old.userNs rgid ∨
        old.egid = makeKgid maps old.userNs rgid ∨ nsownCapable old capSetgid = true) := by
    split at hmid
    · rw [ite_throw_eq_ok, pure_eq_ok] at hmid
      simp_all
    · simp_all
  have he : mid' = { mid with egid := if egid ≠ uidUnset then makeKgid maps old.userNs egid
      else mid.egid } ∧ (egid ≠ uidUnset → old.gid = makeKgid maps old.userNs egid ∨
        old.egid = makeKgid maps old.userNs egid ∨ old.sgid = makeKgid maps old.userNs egid ∨
        nsownCapable old capSetgid = true) := by
    split at hmid'
    · rw [ite_throw_eq_ok, pure_eq_ok] at hmid'
      simp_all
    · simp_all
  obtain ⟨rfl, hrgid⟩ := hr
  obtain ⟨rfl, hegid⟩ := he
  refine ⟨rfl, fun hcap => ?_⟩
  simp only [hcap, Bool.false_eq_true, or_false] at hrgid hegid
  simp only [GidsFrom, List.mem_cons, List.not_mem_nil, or_false]
  refine ⟨?_, ?_, ?_⟩ <;> split_ifs <;> grind

theorem setgid_ok {gid : UInt32} (h : setgid maps allocs old gid = .ok new) :
    GidsOnly new old ∧ (nsownCapable old capSetgid = false → GidsFrom new old) := by
  simp only [setgid, throw_bind, if_throw_eq_ok] at h
  obtain ⟨-, -, h⟩ := h
  split at h
  · rename_i hcap
    rw [pure_eq_ok] at h
    subst h
    exact ⟨rfl, fun hcap' => by simp [hcap'] at hcap⟩
  · split at h
    · rename_i hallowed
      rw [pure_eq_ok] at h
      subst h
      refine ⟨rfl, fun _ => ?_⟩
      simp only [GidsFrom, List.mem_cons, List.not_mem_nil, or_false]
      grind
    · simp at h

theorem setresgid_ok {rgid egid sgid : UInt32}
    (h : setresgid maps allocs old rgid egid sgid = .ok new) :
    GidsOnly new old ∧ (nsownCapable old capSetgid = false → GidsFrom new old) := by
  simp only [setresgid, throw_bind, if_throw_eq_ok] at h
  obtain ⟨-, -, -, -, h⟩ := h
  obtain ⟨⟨⟩, hperm, h⟩ := bind_eq_ok.mp h
  rw [pure_eq_ok] at h
  subst h
  refine ⟨rfl, fun hcap => ?_⟩
  simp only [hcap, if_true, if_throw_eq_ok, pure_eq_ok] at hperm
  simp only [GidsFrom, List.mem_cons, List.not_mem_nil, or_false]
  refine ⟨?_, ?_, ?_⟩ <;> split_ifs <;> grind

theorem setfsgid_eq (gid : UInt32) :
    (setfsgid maps allocs old gid).2 = old ∨
      ((makeKgid maps old.userNs gid = old.gid ∨ makeKgid maps old.userNs gid = old.egid ∨
        makeKgid maps old.userNs gid = old.sgid ∨ makeKgid maps old.userNs gid = old.fsgid ∨
        nsownCapable old capSetgid = true) ∧
      (setfsgid maps allocs old gid).2 = { old with fsgid := makeKgid maps old.userNs gid }) := by
  unfold setfsgid
  dsimp only
  split_ifs with _ _ hallowed
  · exact Or.inl rfl
  · exact Or.inl rfl
  · exact Or.inr ⟨hallowed.1, rfl⟩
  · exact Or.inl rfl

/-! ### The eight calls together -/

theorem setIdCall_uid_ok {call : SetIdCall} (h : setIdCall maps allocs old call = .ok new)
    (hu : call.isUidCall = true) :
    ∃ mid flags, flags ≠ LsmSetid.fs ∧ new = capTaskFixSetuid maps mid old flags ∧
      UidsOnly mid old ∧ (nsownCapable old capSetuid = false → UidsFrom mid old) := by
  cases call with
  | setuid uid =>
    obtain ⟨mid, hnew, hmid, hfrom⟩ := setuid_ok h
    exact ⟨mid, .id, nofun, hnew, hmid, hfrom⟩
  | setreuid ruid euid =>
    obtain ⟨mid, hnew, hmid, hfrom⟩ := setreuid_ok h
    exact ⟨mid, .re, nofun, hnew, hmid, hfrom⟩
  | setresuid ruid euid suid =>
    obtain ⟨mid, hnew, hmid, hfrom⟩ := setresuid_ok h
    exact ⟨mid, .res, nofun, hnew, hmid, hfrom⟩
  | _ => simp [SetIdCall.isUidCall] at hu

theorem setIdCall_gid_ok {call : SetIdCall} (h : setIdCall maps allocs old call = .ok new)
    (hg : call.isGidCall = true) :
    GidsOnly new old ∧ (nsownCapable old capSetgid = false → GidsFrom new old) := by
  cases call with
  | setgid _ => exact setgid_ok h
  | setregid _ _ => exact setregid_ok h
  | setresgid _ _ _ => exact setresgid_ok h
  | _ => simp [SetIdCall.isGidCall] at hg

theorem setIdCall_setfsuid {uid : UInt32} (h : setIdCall maps allocs old (.setfsuid uid) = .ok new) :
    new = old ∨ new = capTaskFixSetuid maps { old with fsuid := new.fsuid } old .fs ∧
      (new.fsuid = old.uid ∨ new.fsuid = old.euid ∨ new.fsuid = old.suid ∨ new.fsuid = old.fsuid ∨
        nsownCapable old capSetuid = true) := by
  have hnew : (setfsuid maps allocs old uid).2 = new := Except.ok.inj h
  rcases @setfsuid_eq maps allocs old uid with hold | ⟨hallowed, hfix⟩
  · exact Or.inl (hnew ▸ hold)
  · -- the fix-up keeps the fs uid it was given
    have hfsuid : new.fsuid = makeKuid maps old.userNs uid := by
      obtain ⟨p, e, hpe⟩ := capTaskFixSetuid_eq maps { old with fsuid := makeKuid maps old.userNs uid } old .fs
      rw [← hnew, hfix, hpe]
    rw [hfsuid]
    exact Or.inr ⟨(hfix ▸ hnew).symm, hallowed⟩

theorem setIdCall_setfsgid {gid : UInt32} (h : setIdCall maps allocs old (.setfsgid gid) = .ok new) :
    new = old ∨ new = { old with fsgid := new.fsgid } ∧
      (new.fsgid = old.gid ∨ new.fsgid = old.egid ∨ new.fsgid = old.sgid ∨ new.fsgid = old.fsgid ∨
        nsownCapable old capSetgid = true) := by
  have hnew : (setfsgid maps allocs old gid).2 = new := Except.ok.inj h
  rcases @setfsgid_eq maps allocs old gid with hold | ⟨hallowed, hset⟩
  · exact Or.inl (hnew ▸ hold)
  · rw [← hnew, hset]
    exact Or.inr ⟨rfl, hallowed⟩

theorem setIdCall_rsuid_eq {call : SetIdCall} (h : setIdCall maps allocs old call = .ok new)
    (hu : call.isUidCall = false) :
    new.uid = old.uid ∧ new.euid = old.euid ∧ new.suid = old.suid := by
  cases call with
  | setuid _ | setreuid _ _ | setresuid _ _ _ => simp [SetIdCall.isUidCall] at hu
  | setfsuid uid =>
    rcases setIdCall_setfsuid h with rfl | ⟨hfix, -⟩
    · exact ⟨rfl, rfl, rfl⟩
    · obtain ⟨p, e, hpe⟩ := capTaskFixSetuid_eq maps { old with fsuid := new.fsuid } old .fs
      rw [hfix, hpe]
      exact ⟨rfl, rfl, rfl⟩
  | setgid _ | setregid _ _ | setresgid _ _ _ =>
    obtain ⟨h1, h2, h3, -⟩ := (setIdCall_gid_ok h rfl).1.keeps
    exact ⟨h1, h2, h3⟩
  | setfsgid gid =>
    rcases setIdCall_setfsgid h with rfl | ⟨hset, -⟩
    · exact ⟨rfl, rfl, rfl⟩
    · rw [hset]
      exact ⟨rfl, rfl, rfl⟩

end Calls

end LinuxKernel
