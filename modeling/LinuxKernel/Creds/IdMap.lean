import Mathlib
import LinuxKernel.Creds.Types

/-!
# User-namespace id maps

`struct uid_gid_map` and the lookups `map_id_down`, `map_id_range_down` and `map_id_up` of
`kernel/user_namespace.c`, through the first extent that holds the id; `(u32) -1` when none
does.
-/

namespace LinuxKernel

/-- `struct uid_gid_extent`: ids `first .. first + count - 1` of the namespace map to
`lower_first .. lower_first + count - 1`. -/
structure UidGidExtent where
  first : UInt32
  lowerFirst : UInt32
  count : UInt32
  deriving DecidableEq, Repr

/-- `struct uid_gid_map`: the first `nr_extents` entries of `extent`. -/
structure UidGidMap where
  extents : List UidGidExtent
  deriving DecidableEq, Repr

def uidGidMapMaxExtents : Nat := 5

/-- The map of `init_user_ns`: ids `0 .. 2^32 - 2` to themselves. -/
def initIdMap : UidGidMap := ⟨[⟨0, 0, 4294967295⟩]⟩

/-- The map of a namespace nobody has written yet (`kmem_cache_zalloc`). -/
def emptyIdMap : UidGidMap := ⟨[]⟩

/-- `id` lies in `first .. first + count - 1`, computed in `u32` as the loops do. -/
def inExtent (first count id : UInt32) : Bool := id ≥ first && id ≤ first + count - 1

def mapIdRangeDown (map : UidGidMap) (id count : UInt32) : UInt32 :=
  let id2 := id + count - 1
  match map.extents.find? (fun e => inExtent e.first e.count id && inExtent e.first e.count id2) with
  | some e => id - e.first + e.lowerFirst
  | none => 0xffffffff

def mapIdDown (map : UidGidMap) (id : UInt32) : UInt32 :=
  match map.extents.find? (fun e => inExtent e.first e.count id) with
  | some e => id - e.first + e.lowerFirst
  | none => 0xffffffff

def mapIdUp (map : UidGidMap) (id : UInt32) : UInt32 :=
  match map.extents.find? (fun e => inExtent e.lowerFirst e.count id) with
  | some e => id - e.lowerFirst + e.first
  | none => 0xffffffff

/-- The uid and gid maps of every namespace. -/
structure IdMaps where
  uidMap : UserNamespace → UidGidMap
  gidMap : UserNamespace → UidGidMap

/-- The maps at boot: `init_user_ns` maps every id but `(u32) -1` to itself. -/
def IdMaps.initial : IdMaps where
  uidMap ns := if ns = .init then initIdMap else emptyIdMap
  gidMap ns := if ns = .init then initIdMap else emptyIdMap

def makeKuid (maps : IdMaps) (ns : UserNamespace) (uid : UInt32) : Kuid :=
  ⟨mapIdDown (maps.uidMap ns) uid⟩

def fromKuid (maps : IdMaps) (targ : UserNamespace) (kuid : Kuid) : UInt32 :=
  mapIdUp (maps.uidMap targ) kuid.val

def makeKgid (maps : IdMaps) (ns : UserNamespace) (gid : UInt32) : Kgid :=
  ⟨mapIdDown (maps.gidMap ns) gid⟩

def fromKgid (maps : IdMaps) (targ : UserNamespace) (kgid : Kgid) : UInt32 :=
  mapIdUp (maps.gidMap targ) kgid.val

def kuidHasMapping (maps : IdMaps) (ns : UserNamespace) (uid : Kuid) : Bool :=
  fromKuid maps ns uid != 0xffffffff

def kgidHasMapping (maps : IdMaps) (ns : UserNamespace) (gid : Kgid) : Bool :=
  fromKgid maps ns gid != 0xffffffff

end LinuxKernel
