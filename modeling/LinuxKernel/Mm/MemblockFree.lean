import LinuxKernel.Mm.Memblock
import LinuxKernel.Foundation.ForEach

/-!
# The free ranges of memblock

`__next_free_mem_range` and `__next_free_mem_range_rev`. The cursor packs two `int` indices in a
`u64`; a negative or wrapped index ends the loop, so the forward loops keep 32-bit patterns and
the reverse loops count down. Each loop recurs on the rounds it has left.
-/

namespace LinuxKernel

def intMax : Nat := 2 ^ 31 - 1

/-- The `int` a value converts to: its low 32 bits in two's complement. -/
def cInt (x : Int) : Int := if x % 2 ^ 32 < 2 ^ 31 then x % 2 ^ 32 else x % 2 ^ 32 - 2 ^ 32

/-- `(u32)mi | (u64)ri << 32`. -/
def packIdx (mi ri : Int) : UInt64 := ((mi % 2 ^ 32).toNat + (ri % 2 ^ 32).toNat * 2 ^ 32).toUInt64

/-- `*out_start`, `*out_end` and `*out_nid`. -/
structure FreeRange where
  start : Nat
  end_ : Nat
  nid : Int
  deriving DecidableEq, Repr

/-- The area before reserved region `ri`, `[r_start, r_end)`: from the end of region `ri - 1`
(`0` for the first) to the base of region `ri` (`ULLONG_MAX` past the last). -/
def rsvArea (rsv : List MemblockRegion) (ri : Nat) : Nat × Nat :=
  (if ri = 0 then 0 else (rsv.getD (ri - 1) emptyRegion).base + (rsv.getD (ri - 1) emptyRegion).size,
    if ri < rsv.length then (rsv.getD ri emptyRegion).base else ullongMax)

/-- `nid != MAX_NUMNODES && nid != memblock_get_region_node(m)`: the region is skipped. -/
def nidSkips (nid : Int) (m : MemblockRegion) : Bool := nid ≠ maxNumnodes ∧ nid ≠ m.nid

/-- `[max(m_start, r_start), min(m_end, r_end))`, with the node of `m`. -/
def clipRange (m : MemblockRegion) (r : Nat × Nat) : FreeRange :=
  ⟨max m.base r.1, min (m.base + m.size) r.2, m.nid⟩

/-! ## `__next_free_mem_range` -/

/-- The loop over the areas `ri` of `__next_free_mem_range` for memory region `m` at `mi`, with
`k` rounds left: `.inr` the range found with the next `(mi, ri)`, `.inl ri` when the loop is
left by `break` or runs out. -/
def nextFreeAreas (rsv : List MemblockRegion) (m : MemblockRegion) (mi : Nat) :
    Nat → Nat → Nat ⊕ (FreeRange × Nat × Nat)
  | 0, ri => .inl ri
  | k + 1, ri =>
    let r := rsvArea rsv ri
    if r.1 ≥ m.base + m.size then .inl ri
    else if m.base < r.2 then
      -- the range that ends first is advanced
      .inr (clipRange m r, if m.base + m.size ≤ r.2 then (mi + 1, ri) else (mi, ri + 1))
    else nextFreeAreas rsv m mi k (ri + 1)

/-- The loop over the memory regions `mi` of `__next_free_mem_range`, with `k` rounds left; `ri`
runs while it is below `rsv->cnt + 1` and at most `INT_MAX`. -/
def nextFreeRegions (mem rsv : List MemblockRegion) (nid : Int) :
    Nat → Nat → Nat → Option (FreeRange × Nat × Nat)
  | 0, _, _ => none
  | k + 1, mi, ri =>
    let m := mem.getD mi emptyRegion
    if nidSkips nid m then nextFreeRegions mem rsv nid k (mi + 1) ri
    else match nextFreeAreas rsv m mi (min (rsv.length + 1) (intMax + 1) - ri) ri with
      | .inr found => some found
      | .inl ri => nextFreeRegions mem rsv nid k (mi + 1) ri

/-- `__next_free_mem_range(idx, nid, ...)`: the new `*idx` and the range it writes, if it
writes one. -/
def nextFreeMemRange (mem rsv : List MemblockRegion) (nid : Int) (idx : UInt64) :
    UInt64 × Option FreeRange :=
  let mi := idx.toNat % 2 ^ 32
  let ri := idx.toNat / 2 ^ 32
  match nextFreeRegions mem rsv nid (min mem.length (intMax + 1) - mi) mi ri with
  | some (out, mi, ri) => (packIdx mi ri, some out)
  | none => (ullongMax.toUInt64, none)

/-! ## `__next_free_mem_range_rev` -/

/-- The loop over the areas of `__next_free_mem_range_rev` for memory region `m` at `mi`, with
`j = ri + 1`: `.inr` the range found with the next `(mi, ri)`, `.inl (ri + 1)` when the loop is
left by `break` or runs out. -/
def nextFreeAreasRev (rsv : List MemblockRegion) (m : MemblockRegion) (mi : Int) :
    Nat → Nat ⊕ (FreeRange × Int × Int)
  | 0 => .inl 0
  | ri + 1 =>
    let r := rsvArea rsv ri
    if r.2 ≤ m.base then .inl (ri + 1)
    else if m.base + m.size > r.1 then
      -- the range that starts last is moved back
      .inr (clipRange m r, if m.base ≥ r.1 then (mi - 1, ri) else (mi, ri - 1))
    else nextFreeAreasRev rsv m mi ri

/-- The loop over the memory regions of `__next_free_mem_range_rev`, with `mi + 1` as its
counter. -/
def nextFreeRegionsRev (mem rsv : List MemblockRegion) (nid : Int) :
    Nat → Int → Option (FreeRange × Int × Int)
  | 0, _ => none
  | mi + 1, ri =>
    let m := mem.getD mi emptyRegion
    if nidSkips nid m then nextFreeRegionsRev mem rsv nid mi ri
    else match nextFreeAreasRev rsv m mi (ri + 1).toNat with
      | .inr found => some found
      | .inl j => nextFreeRegionsRev mem rsv nid mi (j - 1)

/-- `mi` and `ri` of `__next_free_mem_range_rev`: read from `*idx`, or for `ULLONG_MAX` the last
memory region and the area past the last reserved region. -/
def revIndices (mem rsv : List MemblockRegion) (idx : UInt64) : Int × Int :=
  if idx = ullongMax.toUInt64 then (cInt (mem.length - 1), cInt rsv.length)
  else (cInt (idx.toNat % 2 ^ 32), cInt (idx.toNat / 2 ^ 32))

def nextFreeMemRangeRev (mem rsv : List MemblockRegion) (nid : Int) (idx : UInt64) :
    UInt64 × Option FreeRange :=
  let start := revIndices mem rsv idx
  match nextFreeRegionsRev mem rsv nid (start.1 + 1).toNat start.2 with
  | some (out, mi, ri) => (packIdx mi ri, some out)
  | none => (ullongMax.toUInt64, none)

end LinuxKernel
