import Mathlib
import LinuxKernel.Foundation.ExceptRules
import LinuxKernel.Foundation.OnesComplement
import LinuxKernel.Creds.IdMapSpec
import LinuxKernel.Creds.MapWrite

/-!
# What `map_write` installs

The parse loop accepts only non-empty extents that do not wrap, each after the one before
on both sides; the second loop moves each lower range into one extent of the parent's
map. So an installed map is a partial bijection nested in its parent's, and since every
namespace starts with an empty map and `init_user_ns` keeps its identity map, every map
reached by writes is.
-/

namespace LinuxKernel

open ExceptRules ExtentMap ExtentMap.Extent OnesComplement

/-! ### The parse loop -/

/-- `a` ends before `b` starts, on both sides. -/
def UidGidExtent.Before (a b : UidGidExtent) : Prop :=
  a.first.toNat + a.count.toNat ≤ b.first.toNat ∧
    a.lowerFirst.toNat + a.count.toNat ≤ b.lowerFirst.toNat

theorem UidGidExtent.Before.trans {a b c : UidGidExtent} (hab : a.Before b) (hbc : b.Before c) :
    a.Before c := by
  unfold UidGidExtent.Before at *
  omega

theorem UidGidExtent.Before.apart {a b : UidGidExtent} (h : a.Before b) :
    Apart a.toExtent b.toExtent :=
  ⟨Or.inl h.1, Or.inl h.2⟩

theorem extent_wf_of_checks {e : UidGidExtent} (h₁ : ¬(e.first + e.count ≤ e.first))
    (h₂ : ¬(e.lowerFirst + e.count ≤ e.lowerFirst)) : e.Wf := by
  obtain ⟨hc, hf⟩ := UInt32.not_add_le_self_iff.mp h₁
  exact ⟨hc, hf, (UInt32.not_add_le_self_iff.mp h₂).2⟩

theorem before_of_not_outOfOrder {l e : UidGidExtent} (hl : l.Wf)
    (h : outOfOrder (some l) e = false) : l.Before e := by
  simp only [outOfOrder, Bool.or_eq_false_iff, decide_eq_false_iff_not] at h
  obtain ⟨h₁, h₂⟩ := h
  rw [gt_iff_lt, UInt32.lt_iff_toNat_lt, UInt32.toNat_add_of_lt hl.2.1] at h₁
  rw [gt_iff_lt, UInt32.lt_iff_toNat_lt, UInt32.toNat_add_of_lt hl.2.2] at h₂
  exact ⟨by omega, by omega⟩

theorem parseExtents_ok {last : Option UidGidExtent} {nr : Nat} {lines : List (List UInt8)}
    {es : List UidGidExtent} (hlast : ∀ l, last = some l → l.Wf)
    (h : parseExtents last nr lines = .ok es) :
    (∀ e ∈ es, e.Wf ∧ ∀ l, last = some l → l.Before e) ∧ es.Pairwise UidGidExtent.Before := by
  induction lines generalizing last nr es with
  | nil =>
    simp only [parseExtents, Except.ok.injEq] at h
    subst h
    simp
  | cons line rest ih =>
    simp only [parseExtents] at h
    split at h
    · simp at h
    · rename_i extent _
      split_ifs at h with h₀ h₁ h₂ h₃ h₄
      obtain ⟨es', hrest, rfl⟩ := map_eq_ok.mp h
      have hwf := extent_wf_of_checks h₁ h₂
      have hafter : ∀ l, last = some l → l.Before extent := by
        rintro l rfl
        exact before_of_not_outOfOrder (hlast l rfl) (Bool.eq_false_iff.mpr h₃)
      obtain ⟨hall, hpw⟩ := ih (fun l hl => by cases hl; exact hwf) hrest
      refine ⟨fun e he => ?_, List.Pairwise.cons (fun e he => (hall e he).2 extent rfl) hpw⟩
      rcases List.mem_cons.mp he with rfl | he
      · exact ⟨hwf, hafter⟩
      · exact ⟨(hall e he).1, fun l hl => (hafter l hl).trans ((hall e he).2 extent rfl)⟩

/-! ### The rebasing loop -/

/-- `r` is `e` with its lower range moved through `parentMap` by `ExtentMap.rebase`. -/
def Rebased (parentMap : UidGidMap) (e r : UidGidExtent) : Prop :=
  r.first = e.first ∧ r.count = e.count ∧ rebase parentMap.toExtents e.toExtent = some r.toExtent

section Rebase

variable {parentMap : UidGidMap} (hpm : parentMap.Wf)
include hpm

theorem rebased_of_ne {e : UidGidExtent} (he : e.Wf)
    (h : mapIdRangeDown parentMap e.lowerFirst e.count ≠ 0xffffffff) :
    Rebased parentMap e { e with lowerFirst := mapIdRangeDown parentMap e.lowerFirst e.count } := by
  have hnat := mapIdRangeDown_toNat hpm.extent_wf he.1 he.2.2
  refine ⟨rfl, rfl, ?_⟩
  cases hd : downRange parentMap.toExtents e.lowerFirst.toNat e.count.toNat with
  | none =>
    rw [hd] at hnat
    exact absurd (UInt32.toNat_inj.mp hnat) h
  | some y =>
    rw [hd, Option.getD_some] at hnat
    simp only [rebase, UidGidExtent.toExtent, hd, hnat, Option.map_some]

theorem rebased_wf {e r : UidGidExtent} (he : e.Wf) (hr : Rebased parentMap e r) :
    r.Wf ∧ ∃ pe ∈ parentMap.toExtents, LowerWithin r.toExtent pe := by
  obtain ⟨hfirst, hcount, hreb⟩ := hr
  obtain ⟨pe, hpe, hr', -, -, hw⟩ := rebase_spec hreb he.1
  have hb := lower_bound hpm.extent_wf pe hpe
  have hlow : r.lowerFirst.toNat = pe.toLower e.lowerFirst.toNat := by
    have := congrArg Extent.lower hr'
    exact this
  refine ⟨⟨hcount ▸ he.1, hfirst ▸ hcount ▸ he.2.1, ?_⟩, pe, hpe, hw⟩
  unfold LowerWithin UidGidExtent.toExtent at hw
  dsimp only at hw
  omega

theorem rebaseExtents_ok {es rs : List UidGidExtent} (h : rebaseExtents parentMap es = .ok rs)
    (hwf : ∀ e ∈ es, e.Wf) :
    (∀ r ∈ rs, ∃ e ∈ es, e.Wf ∧ Rebased parentMap e r) ∧
      (es.Pairwise UidGidExtent.Before → rs.Pairwise fun a b => Apart a.toExtent b.toExtent) := by
  induction es generalizing rs with
  | nil =>
    simp only [rebaseExtents, Except.ok.injEq] at h
    subst h
    simp
  | cons e es ih =>
    simp only [rebaseExtents] at h
    split_ifs at h with hneg
    obtain ⟨rs', hrest, rfl⟩ := map_eq_ok.mp h
    have hwe := hwf e List.mem_cons_self
    have hr := rebased_of_ne hpm hwe hneg
    obtain ⟨hall, hpw⟩ := ih hrest fun e' he' => hwf e' (List.mem_cons_of_mem _ he')
    refine ⟨fun r hr' => ?_, fun hbefore => ?_⟩
    · rcases List.mem_cons.mp hr' with rfl | hr'
      · exact ⟨e, List.mem_cons_self, hwe, hr⟩
      · obtain ⟨e', he', hwe', h'⟩ := hall r hr'
        exact ⟨e', List.mem_cons_of_mem _ he', hwe', h'⟩
    · rw [List.pairwise_cons] at hbefore ⊢
      refine ⟨fun r' hr' => ?_, hpw hbefore.2⟩
      -- two rebased extents stay apart because their sources were
      obtain ⟨e', he', hwe', hr''⟩ := hall r' hr'
      exact rebase_apart hpm.injective hwe.1 hwe'.1 hr.2.2 hr''.2.2 (hbefore.1 e' he').apart

end Rebase

theorem mapWrite_ok {writer : Cred} {ns parentNs : UserNamespace} {capSetid : Nat}
    {map parentMap m : UidGidMap} {buf : List UInt8} {ppos : Nat} {getPage copyOk : Bool}
    (hpm : parentMap.Wf)
    (h : mapWrite writer ns parentNs capSetid map parentMap buf ppos getPage copyOk = .ok m) :
    map.extents = [] ∧ m.Wf ∧ m.NestedIn parentMap := by
  unfold mapWrite at h
  split_ifs at h with hmap _ _ _ _ hparent
  · -- `new_idmap_permitted` refused: every way through the parse fails
    split at h
    · simp at h
    · split_ifs at h
  split at h
  · simp at h
  · rename_i extents hparse
    have hne : ¬extents = [] := by
      rintro rfl
      simp at h
    simp only [hne, if_false] at h
    obtain ⟨rs, hreb, rfl⟩ := map_eq_ok.mp h
    obtain ⟨hall, hpw⟩ := parseExtents_ok (fun l hl => by cases hl) hparse
    obtain ⟨hrs, hapart⟩ := rebaseExtents_ok hpm hreb fun e he => (hall e he).1
    refine ⟨not_not.mp hmap, ⟨fun r hr => ?_, List.pairwise_map.mpr (hapart hpw)⟩, fun re hre => ?_⟩
    · obtain ⟨e, -, hwe, hr'⟩ := hrs r hr
      exact (rebased_wf hpm hwe hr').1
    · obtain ⟨r, hr, rfl⟩ := List.mem_map.mp hre
      obtain ⟨e, -, hwe, hr'⟩ := hrs r hr
      exact (rebased_wf hpm hwe hr').2

/-! ### The maps of every namespace -/

theorem UserNamespace.parent_ne {ns p : UserNamespace} (h : ns.parent? = some p) : p ≠ ns := by
  cases ns with
  | init => cases h
  | child parent owner group id =>
    cases h
    intro heq
    have := congrArg sizeOf heq
    simp only [UserNamespace.child.sizeOf_spec] at this
    omega

theorem UidGidMap.NestedIn.extents_eq_nil {m parent : UidGidMap} (hn : m.NestedIn parent)
    (hp : parent.extents = []) : m.extents = [] := by
  cases hm : m.extents with
  | nil => rfl
  | cons e rest =>
    obtain ⟨pe, hpe, -⟩ := hn e.toExtent (by simp [UidGidMap.toExtents, hm])
    simp [UidGidMap.toExtents, hp] at hpe

theorem UidGidMap.NestedIn.of_extents_nil {m parent : UidGidMap} (hm : m.extents = []) :
    m.NestedIn parent := by
  intro e he
  simp [UidGidMap.toExtents, hm] at he

/-- Every namespace's map is a partial bijection nested in its parent's, and
`init_user_ns` keeps the identity map it booted with. -/
structure NsMapsInv (f : UserNamespace → UidGidMap) : Prop where
  init_eq : f .init = initIdMap
  wf : ∀ ns, (f ns).Wf
  nested : ∀ ns p, ns.parent? = some p → (f ns).NestedIn (f p)

def MapsInv (maps : IdMaps) : Prop := NsMapsInv maps.uidMap ∧ NsMapsInv maps.gidMap

theorem initIdMap_wf : initIdMap.Wf where
  extent_wf e he := by
    simp only [initIdMap, List.mem_singleton] at he
    subst he
    unfold UidGidExtent.Wf
    decide
  injective := List.pairwise_singleton _ _

theorem emptyIdMap_wf : emptyIdMap.Wf where
  extent_wf e he := by cases he
  injective := List.Pairwise.nil

theorem initial_nsMapsInv :
    NsMapsInv fun ns => if ns = .init then initIdMap else emptyIdMap where
  init_eq := rfl
  wf ns := by
    split
    · exact initIdMap_wf
    · exact emptyIdMap_wf
  nested ns p hp := by
    -- a namespace with a parent is not `init_user_ns`, so its map is empty
    have hns : ns ≠ .init := by
      rintro rfl
      cases hp
    simp only [hns, if_false]
    exact UidGidMap.NestedIn.of_extents_nil rfl

theorem initial_mapsInv : MapsInv IdMaps.initial := ⟨initial_nsMapsInv, initial_nsMapsInv⟩

theorem NsMapsInv.update {f : UserNamespace → UidGidMap} {ns p : UserNamespace}
    {m : UidGidMap} (hf : NsMapsInv f) (hp : ns.parent? = some p) (hempty : (f ns).extents = [])
    (hm : m.Wf) (hn : m.NestedIn (f p)) : NsMapsInv (Function.update f ns m) where
  init_eq := by
    have hns : UserNamespace.init ≠ ns := by
      rintro rfl
      cases hp
    rw [Function.update_of_ne hns, hf.init_eq]
  wf ns' := by
    by_cases h : ns' = ns
    · subst h
      rw [Function.update_self]
      exact hm
    · rw [Function.update_of_ne h]
      exact hf.wf ns'
  nested ns' p' hp' := by
    by_cases h₁ : ns' = ns
    · subst h₁
      obtain rfl : p' = p := Option.some.inj (hp'.symm.trans hp)
      rw [Function.update_self, Function.update_of_ne (UserNamespace.parent_ne hp)]
      exact hn
    · rw [Function.update_of_ne h₁]
      by_cases h₂ : p' = ns
      · -- a child of the namespace written had an empty map, and still has
        subst h₂
        exact UidGidMap.NestedIn.of_extents_nil ((hf.nested ns' p' hp').extents_eq_nil hempty)
      · rw [Function.update_of_ne h₂]
        exact hf.nested ns' p' hp'

theorem procUidMapWrite_inv {maps maps' : IdMaps} {writer : Cred} {ns : UserNamespace}
    {buf : List UInt8} {ppos : Nat} {getPage copyOk : Bool} (hinv : MapsInv maps)
    (h : procUidMapWrite maps writer ns buf ppos getPage copyOk = .ok maps') : MapsInv maps' := by
  unfold procUidMapWrite at h
  split at h
  · cases h
  · rename_i parent hp
    obtain ⟨m, hw, rfl⟩ := map_eq_ok.mp h
    obtain ⟨hempty, hm, hn⟩ := mapWrite_ok (hinv.1.wf parent) hw
    exact ⟨hinv.1.update hp hempty hm hn, hinv.2⟩

theorem procGidMapWrite_inv {maps maps' : IdMaps} {writer : Cred} {ns : UserNamespace}
    {buf : List UInt8} {ppos : Nat} {getPage copyOk : Bool} (hinv : MapsInv maps)
    (h : procGidMapWrite maps writer ns buf ppos getPage copyOk = .ok maps') : MapsInv maps' := by
  unfold procGidMapWrite at h
  split at h
  · cases h
  · rename_i parent hp
    obtain ⟨m, hw, rfl⟩ := map_eq_ok.mp h
    obtain ⟨hempty, hm, hn⟩ := mapWrite_ok (hinv.2.wf parent) hw
    exact ⟨hinv.1, hinv.2.update hp hempty hm hn⟩

/-! ### The maps over time -/

/-- A write to `/proc/<pid>/uid_map` or `gid_map` of a task in namespace `ns`. -/
inductive MapEvent where
  | uidMapWrite (writer : Cred) (ns : UserNamespace) (buf : List UInt8) (ppos : Nat)
      (getPage copyOk : Bool)
  | gidMapWrite (writer : Cred) (ns : UserNamespace) (buf : List UInt8) (ppos : Nat)
      (getPage copyOk : Bool)

def mapsCall (maps : IdMaps) : MapEvent → Except Errno IdMaps
  | .uidMapWrite writer ns buf ppos getPage copyOk =>
    procUidMapWrite maps writer ns buf ppos getPage copyOk
  | .gidMapWrite writer ns buf ppos getPage copyOk =>
    procGidMapWrite maps writer ns buf ppos getPage copyOk

def mapsStep (maps : IdMaps) (e : MapEvent) : IdMaps :=
  match mapsCall maps e with
  | .ok maps' => maps'
  | .error _ => maps

def mapsRun : IdMaps → List MapEvent → IdMaps
  | maps, [] => maps
  | maps, e :: rest => mapsRun (mapsStep maps e) rest

theorem mapsStep_inv {maps : IdMaps} {e : MapEvent} (hinv : MapsInv maps) :
    MapsInv (mapsStep maps e) := by
  unfold mapsStep
  split
  · rename_i maps' h
    cases e with
    | uidMapWrite => exact procUidMapWrite_inv hinv h
    | gidMapWrite => exact procGidMapWrite_inv hinv h
  · exact hinv

theorem mapsRun_inv {maps : IdMaps} {events : List MapEvent} (hinv : MapsInv maps) :
    MapsInv (mapsRun maps events) := by
  induction events generalizing maps with
  | nil => exact hinv
  | cons e rest ih => exact ih (mapsStep_inv hinv)

theorem NsMapsInv.partial_bijection {f : UserNamespace → UidGidMap} (hf : NsMapsInv f)
    (ns : UserNamespace) :
    (∀ u, mapIdDown (f ns) u = 0xffffffff ∨
      ∀ p, ns.parent? = some p → mapIdUp (f p) (mapIdDown (f ns) u) ≠ 0xffffffff) ∧
    (∀ u, mapIdDown (f ns) u ≠ 0xffffffff → mapIdUp (f ns) (mapIdDown (f ns) u) = u) ∧
    (∀ k, mapIdUp (f ns) k ≠ 0xffffffff → mapIdDown (f ns) (mapIdUp (f ns) k) = k) ∧
    mapIdDown (f ns) 0xffffffff = 0xffffffff ∧ mapIdUp (f ns) 0xffffffff = 0xffffffff := by
  have hwf := hf.wf ns
  refine ⟨fun u => ?_, fun u => mapIdUp_mapIdDown hwf, fun k => mapIdDown_mapIdUp hwf,
    mapIdDown_neg_one hwf, mapIdUp_neg_one hwf⟩
  by_cases hu : mapIdDown (f ns) u = 0xffffffff
  · exact Or.inl hu
  · exact Or.inr fun p hp => mapIdUp_parent_ne hwf (hf.wf p) (hf.nested ns p hp) hu

theorem makeKuid_eq_invalid_iff {maps : IdMaps} {ns : UserNamespace} {u : UInt32} :
    makeKuid maps ns u = invalidUid ↔ mapIdDown (maps.uidMap ns) u = 0xffffffff := by
  simp [makeKuid, invalidUid]

theorem makeKgid_eq_invalid_iff {maps : IdMaps} {ns : UserNamespace} {g : UInt32} :
    makeKgid maps ns g = invalidGid ↔ mapIdDown (maps.gidMap ns) g = 0xffffffff := by
  simp [makeKgid, invalidGid]

theorem mapsRun_id_maps_partial_bijection (events : List MapEvent) (ns : UserNamespace) :
    let maps := mapsRun IdMaps.initial events
    (∀ u, makeKuid maps ns u = invalidUid ∨
      ∀ p, ns.parent? = some p → kuidHasMapping maps p (makeKuid maps ns u) = true) ∧
    (∀ u, uidValid (makeKuid maps ns u) = true → fromKuid maps ns (makeKuid maps ns u) = u) ∧
    (∀ k, fromKuid maps ns k ≠ 0xffffffff → makeKuid maps ns (fromKuid maps ns k) = k) ∧
    makeKuid maps ns 0xffffffff = invalidUid ∧ fromKuid maps ns invalidUid = 0xffffffff ∧
    (∀ g, makeKgid maps ns g = invalidGid ∨
      ∀ p, ns.parent? = some p → kgidHasMapping maps p (makeKgid maps ns g) = true) ∧
    (∀ g, gidValid (makeKgid maps ns g) = true → fromKgid maps ns (makeKgid maps ns g) = g) ∧
    (∀ k, fromKgid maps ns k ≠ 0xffffffff → makeKgid maps ns (fromKgid maps ns k) = k) ∧
    makeKgid maps ns 0xffffffff = invalidGid ∧ fromKgid maps ns invalidGid = 0xffffffff := by
  intro maps
  have hinv : MapsInv maps := mapsRun_inv initial_mapsInv
  obtain ⟨hu₁, hu₂, hu₃, hu₄, hu₅⟩ := hinv.1.partial_bijection ns
  obtain ⟨hg₁, hg₂, hg₃, hg₄, hg₅⟩ := hinv.2.partial_bijection ns
  refine ⟨fun u => ?_, fun u hv => ?_, fun k hk => ?_, makeKuid_eq_invalid_iff.mpr hu₄, hu₅,
    fun g => ?_, fun g hv => ?_, fun k hk => ?_, makeKgid_eq_invalid_iff.mpr hg₄, hg₅⟩
  · rcases hu₁ u with h | h
    · exact Or.inl (makeKuid_eq_invalid_iff.mpr h)
    · exact Or.inr fun p hp => by simpa [kuidHasMapping, fromKuid, makeKuid] using h p hp
  · have hv' : mapIdDown (maps.uidMap ns) u ≠ 0xffffffff := fun h =>
      by simp [uidValid, makeKuid_eq_invalid_iff.mpr h] at hv
    exact hu₂ u hv'
  · exact congrArg Kuid.mk (hu₃ k.val hk)
  · rcases hg₁ g with h | h
    · exact Or.inl (makeKgid_eq_invalid_iff.mpr h)
    · exact Or.inr fun p hp => by simpa [kgidHasMapping, fromKgid, makeKgid] using h p hp
  · have hv' : mapIdDown (maps.gidMap ns) g ≠ 0xffffffff := fun h =>
      by simp [gidValid, makeKgid_eq_invalid_iff.mpr h] at hv
    exact hg₂ g hv'
  · exact congrArg Kgid.mk (hg₃ k.val hk)

end LinuxKernel
