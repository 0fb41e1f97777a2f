import LinuxKernel.Creds.Types
import LinuxKernel.Lib.Ctype

/-!
# Supplementary groups

`kernel/groups.c`: a `group_info` of `ngroups` kgids in blocks read through `GROUP_AT`,
`groups_sort` (a Shell sort with strides `3 * stride + 1`) and the binary search
`groups_search`. `setgroups` refuses more than `NGROUPS_MAX` groups, so counts are `Nat`.
-/

namespace LinuxKernel

def ngroupsSmall : Nat := 32

/-- `NGROUPS_PER_BLOCK`: the four-byte kgids of a page. -/
def ngroupsPerBlock : Nat := pageSize / 4

/-- `struct group_info`, without its reference count. -/
structure GroupInfo where
  ngroups : Nat
  nblocks : Nat
  blocks : Nat → Nat → Kgid

/-- `GROUP_AT(gi, i)`, read. -/
def groupAt (gi : GroupInfo) (i : Nat) : Kgid :=
  gi.blocks (i / ngroupsPerBlock) (i % ngroupsPerBlock)

/-- `GROUP_AT(gi, i) = g`. -/
def setGroupAt (gi : GroupInfo) (i : Nat) (g : Kgid) : GroupInfo :=
  { gi with
    blocks := Function.update gi.blocks (i / ngroupsPerBlock)
      (Function.update (gi.blocks (i / ngroupsPerBlock)) (i % ngroupsPerBlock) g) }

def gidGt (left right : Kgid) : Bool := left.val > right.val

def gidLt (left right : Kgid) : Bool := left.val < right.val

/-- `groups_alloc(gidsetsize)`: at least one block, enough for `gidsetsize` kgids; `memory` is
what the blocks hold, and `kmallocOk` whether every allocation succeeds. -/
def groupsAlloc (gidsetsize : Nat) (memory : Nat → Nat → Kgid) (kmallocOk : Bool) :
    Option GroupInfo :=
  let nblocks := (gidsetsize + ngroupsPerBlock - 1) / ngroupsPerBlock
  let nblocks := if nblocks ≠ 0 then nblocks else 1
  if kmallocOk then some ⟨gidsetsize, nblocks, memory⟩ else none

/-- `for (stride = 1; stride < gidsetsize; stride = 3 * stride + 1);`, on fuel. -/
def groupsSortFirstStride (gidsetsize : Nat) : Nat → Nat → Nat
  | 0, stride => stride
  | fuel + 1, stride =>
    if stride < gidsetsize then groupsSortFirstStride gidsetsize fuel (3 * stride + 1) else stride

/-- The inner `while (left >= 0 && gid_gt(GROUP_AT(group_info, left), tmp))` of `groups_sort`,
on fuel: each larger kgid moves up a stride, and the hole `right` moves down to `left`. -/
def groupsSortShift (stride : Nat) (tmp : Kgid) : Nat → GroupInfo → Int → Nat → GroupInfo × Nat
  | 0, gi, _, right => (gi, right)
  | fuel + 1, gi, left, right =>
    if left ≥ 0 ∧ gidGt (groupAt gi left.toNat) tmp then
      groupsSortShift stride tmp fuel (setGroupAt gi right (groupAt gi left.toNat)) (left - stride)
        left.toNat
    else (gi, right)

/-- `for (base = 0; base < max; base++)` of `groups_sort`, on fuel: the kgid at
`base + stride` is inserted among those a multiple of `stride` below it. -/
def groupsSortPass (stride : Nat) (max : Int) : Nat → GroupInfo → Nat → GroupInfo
  | 0, gi, _ => gi
  | fuel + 1, gi, base =>
    if (base : Int) < max then
      let tmp := groupAt gi (base + stride)
      match groupsSortShift stride tmp (base + 1) gi base (base + stride) with
      | (gi, right) => groupsSortPass stride max fuel (setGroupAt gi right tmp) (base + 1)
    else gi

/-- `while (stride)` of `groups_sort`, on fuel: a pass for each stride, dividing it by 3. -/
def groupsSortStrides (gidsetsize : Nat) : Nat → GroupInfo → Nat → GroupInfo
  | 0, gi, _ => gi
  | fuel + 1, gi, stride =>
    if stride ≠ 0 then
      let max : Int := gidsetsize - stride
      groupsSortStrides gidsetsize fuel (groupsSortPass stride max gidsetsize gi 0) (stride / 3)
    else gi

def groupsSort (gi : GroupInfo) : GroupInfo :=
  let gidsetsize := gi.ngroups
  let stride := groupsSortFirstStride gidsetsize gidsetsize 1 / 3
  groupsSortStrides gidsetsize (gidsetsize + 1) gi stride

/-- The `while (left < right)` loop of `groups_search`, on fuel. -/
def groupsSearchLoop (gi : GroupInfo) (grp : Kgid) : Nat → Nat → Nat → Nat
  | 0, _, _ => 0
  | fuel + 1, left, right =>
    if left < right then
      let mid := (left + right) / 2
      if gidGt grp (groupAt gi mid) then groupsSearchLoop gi grp fuel (mid + 1) right
      else if gidLt grp (groupAt gi mid) then groupsSearchLoop gi grp fuel left mid
      else 1
    else 0

def groupsSearch (gi : Option GroupInfo) (grp : Kgid) : Nat :=
  match gi with
  | none => 0
  | some gi => groupsSearchLoop gi grp (gi.ngroups + 1) 0 gi.ngroups

/-- `set_groups(new, group_info)`, on the groups: they are sorted before they are installed. -/
def setGroups (gi : GroupInfo) : GroupInfo := groupsSort gi

end LinuxKernel
