import Mathlib
import LinuxKernel.Foundation.ExtentMap
import LinuxKernel.Creds.IdMap

/-!
# Id maps as partial bijections

Read through `toNat`, an extent of a `uid_gid_map` is an `ExtentMap.Extent`. On maps
whose extents are non-empty and do not wrap, the u32 lookups of `user_namespace.c` are
the lookups of `ExtentMap`, with `(u32) -1` where those find nothing; on maps whose
extents are also apart, `make_kuid` and `from_kuid` are inverse partial maps.
-/

namespace LinuxKernel

open ExtentMap ExtentMap.Extent

def UidGidExtent.toExtent (e : UidGidExtent) : Extent :=
  ⟨e.first.toNat, e.lowerFirst.toNat, e.count.toNat⟩

def UidGidMap.toExtents (m : UidGidMap) : List Extent := m.extents.map UidGidExtent.toExtent

/-- A non-empty extent neither of whose ranges wraps, as `map_write` checks. -/
def UidGidExtent.Wf (e : UidGidExtent) : Prop :=
  0 < e.count.toNat ∧ e.first.toNat + e.count.toNat < 2 ^ 32 ∧
    e.lowerFirst.toNat + e.count.toNat < 2 ^ 32

/-- A map that is a partial bijection between ids below `(u32) -1`. -/
structure UidGidMap.Wf (m : UidGidMap) : Prop where
  extent_wf : ∀ e ∈ m.extents, e.Wf
  injective : Injective m.toExtents

/-- Each lower range of `m` lies inside a lower range of `parent`. -/
def UidGidMap.NestedIn (m parent : UidGidMap) : Prop :=
  ∀ e ∈ m.toExtents, ∃ pe ∈ parent.toExtents, LowerWithin e pe

/-! ### The u32 lookups are the `ExtentMap` ones -/

theorem inExtent_eq {first count id : UInt32} (hc : 0 < count.toNat)
    (hw : first.toNat + count.toNat < 2 ^ 32) :
    inExtent first count id =
      decide (first.toNat ≤ id.toNat ∧ id.toNat < first.toNat + count.toNat) := by
  have hlast : (first + count - 1).toNat = first.toNat + count.toNat - 1 := by
    rw [UInt32.toNat_sub_of_le, UInt32.toNat_add, UInt32.toNat_one, Nat.mod_eq_of_lt hw]
    rw [UInt32.le_iff_toNat_le, UInt32.toNat_add, UInt32.toNat_one, Nat.mod_eq_of_lt hw]
    omega
  simp only [inExtent, ge_iff_le, UInt32.le_iff_toNat_le, hlast]
  by_cases ha : first.toNat ≤ id.toNat <;> by_cases hb : id.toNat < first.toNat + count.toNat <;>
    simp [ha, hb] <;> omega

theorem shift_toNat {id first lower : UInt32} (h₁ : first.toNat ≤ id.toNat)
    (h₂ : id.toNat - first.toNat + lower.toNat < 2 ^ 32) :
    (id - first + lower).toNat = id.toNat - first.toNat + lower.toNat := by
  rw [UInt32.toNat_add, UInt32.toNat_sub_of_le _ _ (UInt32.le_iff_toNat_le.mpr h₁),
    Nat.mod_eq_of_lt h₂]

section Lookups

variable {m : UidGidMap}

theorem mapIdDown_toNat (hwf : ∀ e ∈ m.extents, e.Wf) (id : UInt32) :
    (mapIdDown m id).toNat = (down m.toExtents id.toNat).getD 4294967295 := by
  have hfind : m.extents.find? (fun e => inExtent e.first e.count id) =
      m.extents.find? ((fun e => decide (e.InUpper id.toNat)) ∘ UidGidExtent.toExtent) :=
    List.find?_congr fun e he => inExtent_eq (hwf e he).1 (hwf e he).2.1
  unfold mapIdDown down UidGidMap.toExtents
  rw [List.find?_map, hfind]
  cases hf : m.extents.find? ((fun e => decide (e.InUpper id.toNat)) ∘ UidGidExtent.toExtent) with
  | none => rfl
  | some e =>
    have hin : e.first.toNat ≤ id.toNat ∧ id.toNat < e.first.toNat + e.count.toNat :=
      of_decide_eq_true (List.find?_some
        (p := (fun (x : Extent) => decide (x.InUpper id.toNat)) ∘ UidGidExtent.toExtent) hf)
    have hw := hwf e (List.mem_of_find?_eq_some hf)
    simp only [Option.map_some, Option.getD_some, toLower, UidGidExtent.toExtent]
    exact shift_toNat hin.1 (by unfold UidGidExtent.Wf at hw; omega)

theorem mapIdUp_toNat (hwf : ∀ e ∈ m.extents, e.Wf) (id : UInt32) :
    (mapIdUp m id).toNat = (up m.toExtents id.toNat).getD 4294967295 := by
  have hfind : m.extents.find? (fun e => inExtent e.lowerFirst e.count id) =
      m.extents.find? ((fun e => decide (e.InLower id.toNat)) ∘ UidGidExtent.toExtent) :=
    List.find?_congr fun e he => inExtent_eq (hwf e he).1 (hwf e he).2.2
  unfold mapIdUp up UidGidMap.toExtents
  rw [List.find?_map, hfind]
  cases hf : m.extents.find? ((fun e => decide (e.InLower id.toNat)) ∘ UidGidExtent.toExtent) with
  | none => rfl
  | some e =>
    have hin : e.lowerFirst.toNat ≤ id.toNat ∧ id.toNat < e.lowerFirst.toNat + e.count.toNat :=
      of_decide_eq_true (List.find?_some
        (p := (fun (x : Extent) => decide (x.InLower id.toNat)) ∘ UidGidExtent.toExtent) hf)
    have hw := hwf e (List.mem_of_find?_eq_some hf)
    simp only [Option.map_some, Option.getD_some, toUpper, UidGidExtent.toExtent]
    exact shift_toNat hin.1 (by unfold UidGidExtent.Wf at hw; omega)

theorem mapIdRangeDown_toNat (hwf : ∀ e ∈ m.extents, e.Wf) {id count : UInt32}
    (hc : 0 < count.toNat) (hid : id.toNat + count.toNat < 2 ^ 32) :
    (mapIdRangeDown m id count).toNat =
      (downRange m.toExtents id.toNat count.toNat).getD 4294967295 := by
  have hid2 : (id + count - 1).toNat = id.toNat + count.toNat - 1 := by
    rw [UInt32.toNat_sub_of_le, UInt32.toNat_add, UInt32.toNat_one, Nat.mod_eq_of_lt hid]
    rw [UInt32.le_iff_toNat_le, UInt32.toNat_add, UInt32.toNat_one, Nat.mod_eq_of_lt hid]
    omega
  have hfind : m.extents.find? (fun e => inExtent e.first e.count id &&
        inExtent e.first e.count (id + count - 1)) =
      m.extents.find? ((fun e => decide (e.InUpper id.toNat ∧
        e.InUpper (id.toNat + count.toNat - 1))) ∘ UidGidExtent.toExtent) := by
    refine List.find?_congr fun e he => ?_
    rw [inExtent_eq (hwf e he).1 (hwf e he).2.1, inExtent_eq (hwf e he).1 (hwf e he).2.1, hid2]
    apply Bool.eq_iff_iff.mpr
    rw [Function.comp_apply, decide_eq_true_iff]
    simp [InUpper, UidGidExtent.toExtent]
  unfold mapIdRangeDown downRange UidGidMap.toExtents
  dsimp only
  rw [List.find?_map, hfind]
  cases hf : m.extents.find? ((fun e => decide (e.InUpper id.toNat ∧
      e.InUpper (id.toNat + count.toNat - 1))) ∘ UidGidExtent.toExtent) with
  | none => rfl
  | some e =>
    have hin : (e.first.toNat ≤ id.toNat ∧ id.toNat < e.first.toNat + e.count.toNat) ∧
        (e.first.toNat ≤ id.toNat + count.toNat - 1 ∧
          id.toNat + count.toNat - 1 < e.first.toNat + e.count.toNat) :=
      of_decide_eq_true (List.find?_some (p := (fun (x : Extent) => decide (x.InUpper id.toNat ∧
        x.InUpper (id.toNat + count.toNat - 1))) ∘ UidGidExtent.toExtent) hf)
    have hw := hwf e (List.mem_of_find?_eq_some hf)
    simp only [Option.map_some, Option.getD_some, toLower, UidGidExtent.toExtent]
    exact shift_toNat hin.1.1 (by unfold UidGidExtent.Wf at hw; omega)

theorem upper_bound (hwf : ∀ e ∈ m.extents, e.Wf) : ∀ e ∈ m.toExtents, e.first + e.count ≤ 2 ^ 32 - 1 := by
  intro e he
  obtain ⟨e', he', rfl⟩ := List.mem_map.mp he
  have := (hwf e' he').2.1
  simp only [UidGidExtent.toExtent]
  omega

theorem lower_bound (hwf : ∀ e ∈ m.extents, e.Wf) : ∀ e ∈ m.toExtents, e.lower + e.count ≤ 2 ^ 32 - 1 := by
  intro e he
  obtain ⟨e', he', rfl⟩ := List.mem_map.mp he
  have := (hwf e' he').2.2
  simp only [UidGidExtent.toExtent]
  omega

end Lookups

/-! ### Round trips on a well-formed map -/

section RoundTrips

variable {m : UidGidMap} (hm : m.Wf)
include hm

theorem mapIdDown_eq_some {id : UInt32} {y : Nat} (hd : down m.toExtents id.toNat = some y) :
    (mapIdDown m id).toNat = y ∧ y < 2 ^ 32 - 1 := by
  rw [mapIdDown_toNat hm.extent_wf, hd]
  exact ⟨rfl, down_lt_of_bound (lower_bound hm.extent_wf) hd⟩

theorem mapIdUp_eq_some {id : UInt32} {x : Nat} (hu : up m.toExtents id.toNat = some x) :
    (mapIdUp m id).toNat = x ∧ x < 2 ^ 32 - 1 := by
  rw [mapIdUp_toNat hm.extent_wf, hu]
  exact ⟨rfl, up_lt_of_bound (upper_bound hm.extent_wf) hu⟩

theorem down_of_mapIdDown_ne {id : UInt32} (h : mapIdDown m id ≠ 0xffffffff) :
    down m.toExtents id.toNat = some (mapIdDown m id).toNat := by
  have hnat := mapIdDown_toNat hm.extent_wf id
  cases hd : down m.toExtents id.toNat with
  | none =>
    rw [hd] at hnat
    exact absurd (UInt32.toNat_inj.mp hnat) h
  | some y => rw [hnat, hd, Option.getD_some]

theorem up_of_mapIdUp_ne {id : UInt32} (h : mapIdUp m id ≠ 0xffffffff) :
    up m.toExtents id.toNat = some (mapIdUp m id).toNat := by
  have hnat := mapIdUp_toNat hm.extent_wf id
  cases hu : up m.toExtents id.toNat with
  | none =>
    rw [hu] at hnat
    exact absurd (UInt32.toNat_inj.mp hnat) h
  | some x => rw [hnat, hu, Option.getD_some]

theorem mapIdUp_mapIdDown {id : UInt32} (h : mapIdDown m id ≠ 0xffffffff) :
    mapIdUp m (mapIdDown m id) = id :=
  UInt32.toNat_inj.mp (mapIdUp_eq_some hm (up_down hm.injective (down_of_mapIdDown_ne hm h))).1

theorem mapIdDown_mapIdUp {id : UInt32} (h : mapIdUp m id ≠ 0xffffffff) :
    mapIdDown m (mapIdUp m id) = id :=
  UInt32.toNat_inj.mp (mapIdDown_eq_some hm (down_up hm.injective (up_of_mapIdUp_ne hm h))).1

theorem mapIdDown_neg_one : mapIdDown m 0xffffffff = 0xffffffff := by
  apply UInt32.toNat_inj.mp
  rw [mapIdDown_toNat hm.extent_wf, down_eq_none_of_bound (upper_bound hm.extent_wf)
    (show 2 ^ 32 - 1 ≤ (4294967295 : UInt32).toNat by decide)]
  rfl

theorem mapIdUp_neg_one : mapIdUp m 0xffffffff = 0xffffffff := by
  apply UInt32.toNat_inj.mp
  rw [mapIdUp_toNat hm.extent_wf, up_eq_none_of_bound (lower_bound hm.extent_wf)
    (show 2 ^ 32 - 1 ≤ (4294967295 : UInt32).toNat by decide)]
  rfl

theorem mapIdUp_parent_ne {parent : UidGidMap} (hp : parent.Wf) (hn : m.NestedIn parent)
    {id : UInt32} (h : mapIdDown m id ≠ 0xffffffff) :
    mapIdUp parent (mapIdDown m id) ≠ 0xffffffff := by
  obtain ⟨e, he, hx, hy⟩ := exists_of_down_eq_some (down_of_mapIdDown_ne hm h)
  obtain ⟨pe, hpe, hw⟩ := hn e he
  have hup := up_of_lowerWithin hp.injective hpe hw (hy ▸ inLower_toLower hx)
  intro hneg
  have hlt := (mapIdUp_eq_some hp hup).2
  rw [(mapIdUp_eq_some hp hup).1.symm, hneg] at hlt
  exact absurd hlt (by decide)

end RoundTrips

end LinuxKernel
