import LinuxKernel.Foundation.Bitmap
import LinuxKernel.Creds.Types

/-!
# idr

`lib/idr.c` on a 64-bit kernel: layers of 64 slots indexed by 6-bit digits, a bitmap bit for
each full slot. Layers are values followed along a path of digits; the free list is its length,
and the loops run on fuel, with overflow or a `BUG_ON` giving `none`.
-/

namespace LinuxKernel

open Bitmap

/-- `IDR_BITS` on a 64-bit kernel. -/
def idrBits : Nat := 6

def idrSize : Nat := 64

def idrMask : Nat := 63

def idrFull : BitVec 64 := BitVec.allOnes 64

def maxIdShift : Nat := 31

def maxIdBit : Nat := 1 <<< maxIdShift

def maxIdMask : Nat := maxIdBit - 1

def maxLevel : Nat := (maxIdShift + idrBits - 1) / idrBits

def idrFreeMax : Nat := maxLevel + maxLevel

mutual

structure IdrLayer (α : Type) where
  bitmap : BitVec 64
  ary : Fin 64 → IdrSlot α
  count : Nat
  layer : Nat

/-- What a slot of `ary` points to: nothing, the caller's pointer in a leaf, or a layer. -/
inductive IdrSlot (α : Type) where
  | null
  | item (a : α)
  | layer (p : IdrLayer α)

end

/-- `struct idr`, with the free list as its number of layers. -/
structure Idr (α : Type) where
  top : Option (IdrLayer α)
  layers : Nat
  idFreeCnt : Nat

variable {α : Type}

def idrInit : Idr α := ⟨none, 0, 0⟩

/-- `(id >> (IDR_BITS * l)) & IDR_MASK`: the slot of `id` in its layer at level `l`. -/
def idrDigit (id l : Nat) : Fin 64 :=
  ⟨(id >>> (idrBits * l)) &&& idrMask, Nat.lt_of_le_of_lt Nat.and_le_right (by decide)⟩

/-- The slot a caller's pointer goes in: `NULL` stays `NULL`. -/
def IdrSlot.ofPtr : Option α → IdrSlot α
  | none => .null
  | some a => .item a

namespace IdrLayer

/-- A layer from the free list, all zero, at level `l`. -/
def empty (l : Nat) : IdrLayer α := ⟨0, fun _ => .null, 0, l⟩

/-- `p->ary[n] = s`. -/
def setSlot (p : IdrLayer α) (n : Fin 64) (s : IdrSlot α) : IdrLayer α :=
  { p with ary := Function.update p.ary n s }

/-- The layer `k` levels down `id`'s path from `p` at level `h`: `pa[h - k]`. -/
def descend (id : Nat) : Nat → Nat → IdrLayer α → Option (IdrLayer α)
  | _, 0, p => some p
  | h, k + 1, p =>
    match p.ary (idrDigit id h) with
    | .layer q => descend id (h - 1) k q
    | _ => none

/-- `f` applied to the layer `k` levels down `id`'s path from `p` at level `h`. -/
def modifyAt (id : Nat) (f : IdrLayer α → IdrLayer α) : Nat → Nat → IdrLayer α → IdrLayer α
  | _, 0, p => f p
  | h, k + 1, p =>
    match p.ary (idrDigit id h) with
    | .layer q => p.setSlot (idrDigit id h) (.layer (modifyAt id f (h - 1) k q))
    | _ => p

/-- `idr_mark_full(pa, id)` down `id`'s path from `p` at level `h`: the leaf's bit is set and,
on the way back up, each layer that came out full has its bit set in the layer above. The flag
says `p` came out full. -/
def markFull (id : Nat) : Nat → IdrLayer α → IdrLayer α × Bool
  | 0, p =>
    let p : IdrLayer α := { p with bitmap := setBit p.bitmap (idrDigit id 0) }
    (p, p.bitmap = idrFull)
  | h + 1, p =>
    let n := idrDigit id (h + 1)
    match p.ary n with
    | .layer q =>
      let r := markFull id h q
      let p := p.setSlot n (.layer r.1)
      -- `while (p->bitmap == IDR_FULL)`: the walk up stops at the first layer not full
      if r.2 then
        let p : IdrLayer α := { p with bitmap := setBit p.bitmap n }
        (p, p.bitmap = idrFull)
      else (p, false)
    | _ => (p, false)

/-- `sub_remove` down `id`'s path from `p` at level `h`: the bits of the path are cleared on
the way down; at the leaf the slot is freed if its bit is set and, on the way back up, a layer
whose count drops to zero is freed and its slot cleared. Gives the layer, `none` once freed,
and whether the id was found. -/
def subRemove (id : Nat) : Nat → IdrLayer α → Option (IdrLayer α) × Bool
  | 0, p =>
    let n := idrDigit id 0
    if p.bitmap.getLsbD n then
      let p : IdrLayer α := { p.setSlot n .null with bitmap := clearBit p.bitmap n, count := p.count - 1 }
      (if p.count = 0 then none else some p, true)
    else (some p, false)
  | h + 1, p =>
    let n := idrDigit id (h + 1)
    let p : IdrLayer α := { p with bitmap := clearBit p.bitmap n }
    match p.ary n with
    | .layer q =>
      match subRemove id h q with
      | (some q, found) => (some (p.setSlot n (.layer q)), found)
      | (none, found) =>
        let p : IdrLayer α := { p.setSlot n .null with count := p.count - 1 }
        (if p.count = 0 then none else some p, found)
    | _ => (some p, false)

end IdrLayer

/-- What `sub_alloc` and `idr_get_empty_slot` return. -/
inductive IdrAlloc
  /-- An id whose slot in `pa[0]` is free. -/
  | found (id : Nat)
  /-- `IDR_NEED_TO_GROW`, with the id the search reached. -/
  | needToGrow (id : Nat)
  /-- `IDR_NOMORE_SPACE`. -/
  | nomoreSpace
  /-- `-1`: the free list ran out. -/
  | noFree

/-- `sub_alloc`, from level `l` with the current `id`. -/
def subAlloc : Nat → Idr α → Nat → Nat → Option (Idr α × IdrAlloc)
  | 0, _, _, _ => none
  | fuel + 1, idp, id, l => do
    let top ← idp.top
    let p ← top.descend id (idp.layers - 1) (idp.layers - 1 - l)
    let n := idrDigit id l
    let m := findNextZero p.bitmap n
    if hm : m = idrSize then
      -- no space available: go back to the previous layer
      let l := l + 1
      let oid := id
      let id := (id ||| ((1 <<< (idrBits * l)) - 1)) + 1
      if maxIdBit ≤ id then none
      else if id ≥ 1 <<< (idp.layers * idrBits) then some (idp, .needToGrow id)
      else
        let sh := idrBits * (l + 1)
        if oid >>> sh = id >>> sh then subAlloc fuel idp id l
        else subAlloc fuel idp id (idp.layers - 1)
    else
      let m : Fin 64 := ⟨m, by have := findNextZero_le p.bitmap n; simp only [idrSize] at hm; omega⟩
      let sh := idrBits * l
      let id := if m ≠ n then ((id >>> sh) ^^^ n ^^^ m) <<< sh else id
      if maxIdBit ≤ id then some (idp, .nomoreSpace)
      else if l = 0 then some (idp, .found id)
      else
        match p.ary m with
        | .layer _ => subAlloc fuel idp id (l - 1)
        | _ =>
          -- create the layer below
          if idp.idFreeCnt = 0 then some (idp, .noFree)
          else
            let top := top.modifyAt id
              (fun p => { p.setSlot m (.layer (IdrLayer.empty (l - 1))) with count := p.count + 1 })
              (idp.layers - 1) (idp.layers - 1 - l)
            subAlloc fuel { idp with top := some top, idFreeCnt := idp.idFreeCnt - 1 } id (l - 1)

/-- The loop of `idr_get_empty_slot` that adds layers on top of `p` until `id` fits, at most
`k` times: the new top, its number of layers and the free list left, or `none` when the free
list runs out (the code gives the layers built back). -/
def idrGrow (id : Nat) : Nat → IdrLayer α → Nat → Nat → Option (IdrLayer α × Nat × Nat)
  | 0, p, layers, free => some (p, layers, free)
  | k + 1, p, layers, free =>
    if layers < maxLevel - 1 ∧ id ≥ 1 <<< (layers * idrBits) then
      let layers := layers + 1
      -- an empty tree grows by moving its top up
      if p.count = 0 then idrGrow id k { p with layer := p.layer + 1 } layers free
      else if free = 0 then none
      else
        let new : IdrLayer α :=
          { (IdrLayer.empty (layers - 1)).setSlot 0 (.layer p) with
            count := 1, bitmap := if p.bitmap = idrFull then setBit 0 0 else 0 }
        idrGrow id k new layers (free - 1)
    else some (p, layers, free)

/-- `idr_get_empty_slot`, going back to `build_up` while `sub_alloc` asks the tree to grow. -/
def idrGetEmptySlot : Nat → Idr α → Nat → Option (Idr α × IdrAlloc)
  | 0, _, _ => none
  | fuel + 1, idp, id =>
    let start : Option (IdrLayer α × Nat × Nat) :=
      match idp.top with
      | some p => some (p, idp.layers, idp.idFreeCnt)
      | none => if idp.idFreeCnt = 0 then none else some (IdrLayer.empty 0, 1, idp.idFreeCnt - 1)
    match start.bind fun s => idrGrow id (maxLevel - 1) s.1 s.2.1 s.2.2 with
    | none => some (idp, .noFree)
    | some (p, layers, free) =>
      (subAlloc fuel { idp with top := some p, layers, idFreeCnt := free } id (layers - 1)).bind
        fun r =>
          match r.2 with
          | .needToGrow id => idrGetEmptySlot fuel r.1 id
          | _ => some r

/-- `idr_get_new_above_int`: the pointer goes in the slot found in `pa[0]`, and the slot is
marked full. -/
def idrGetNewAboveInt (fuel : Nat) (idp : Idr α) (ptr : Option α) (startingId : Nat) :
    Option (Idr α × IdrAlloc) :=
  (idrGetEmptySlot fuel idp startingId).bind fun r =>
    match r.2, r.1.top with
    | .found id, some top =>
      let top := top.modifyAt id
        (fun p => { p.setSlot (idrDigit id 0) (.ofPtr ptr) with count := p.count + 1 })
        (r.1.layers - 1) (r.1.layers - 1)
      some ({ r.1 with top := some (top.markFull id (r.1.layers - 1)).1 }, .found id)
    | .found _, none => none
    | _, _ => some r

def idrRcToErrno : IdrAlloc → Errno
  | .noFree => .again
  | _ => .noSpc

/-- `idr_get_new_above`, with the id it stores in `*id`. -/
def idrGetNewAbove (fuel : Nat) (idp : Idr α) (ptr : Option α) (startingId : Nat) :
    Option (Idr α × Except Errno Nat) :=
  (idrGetNewAboveInt fuel idp ptr startingId).map fun r =>
    match r.2 with
    | .found id => (r.1, .ok id)
    | rc => (r.1, .error (idrRcToErrno rc))

def idrGetNew (fuel : Nat) (idp : Idr α) (ptr : Option α) : Option (Idr α × Except Errno Nat) :=
  idrGetNewAbove fuel idp ptr 0

/-- The loop of `idr_find`, `k` levels above the leaf at the slot `s`; `none` for a `BUG_ON`. -/
def idrFindLoop (id : Nat) : Nat → IdrSlot α → Option (Option α)
  | 0, .null => some none
  | 0, .item a => some (some a)
  | 0, .layer _ => none
  | _ + 1, .null => some none
  | _ + 1, .item _ => none
  | k + 1, .layer p => if k ≠ p.layer then none else idrFindLoop id k (p.ary (idrDigit id k))

/-- `idr_find`; `none` for a `BUG_ON`. -/
def idrFind (idp : Idr α) (id : Nat) : Option (Option α) :=
  match idp.top with
  | none => some none
  | some p =>
    let id := id &&& maxIdMask
    if id ≥ 1 <<< ((p.layer + 1) * idrBits) then some none
    else idrFindLoop id (p.layer + 1) (.layer p)

/-- `idr_remove`: `sub_remove`, one shrink of the top if it has a single child in slot 0, and
the free list cut to fewer than `IDR_FREE_MAX` layers. -/
def idrRemove (idp : Idr α) (id : Nat) : Idr α :=
  let id := id &&& maxIdMask
  let idp : Idr α :=
    match idp.top with
    | none => idp
    | some top =>
      match top.subRemove id (idp.layers - 1) with
      | (none, _) => { idp with top := none, layers := 0 }
      | (some top, _) => { idp with top := some top }
  let idp : Idr α :=
    match idp.top with
    | some top =>
      if top.count = 1 ∧ idp.layers > 1 then
        match top.ary 0 with
        | .layer p => { idp with top := some p, layers := idp.layers - 1 }
        | _ => idp
      else idp
    | none => idp
  { idp with idFreeCnt := if idp.idFreeCnt ≥ idrFreeMax then idrFreeMax - 1 else idp.idFreeCnt }

/-- `idr_pre_get`, where `kmem_cache_zalloc` gives `avail` layers before it fails; `true` for
its `1`. -/
def idrPreGet (idp : Idr α) (avail : Nat) : Idr α × Bool :=
  if idp.idFreeCnt + avail < idrFreeMax then ({ idp with idFreeCnt := idp.idFreeCnt + avail }, false)
  else ({ idp with idFreeCnt := max idp.idFreeCnt idrFreeMax }, true)

/-- With the free list filled, an id from `2^30` on is handed out although the tree of at most
`MAX_LEVEL - 1` layers has no slot for it: the search takes only 6 bits of the top digit, the
pointer lands in the slot of id 0, and `idr_find` of the id returned finds nothing. -/
theorem idrGetNewAbove_top_digit_wraps :
    ((idrGetNewAbove 20 (idrPreGet (idrInit : Idr Nat) idrFreeMax).1 (some 7) (2 ^ 30)).map fun r =>
      (r.2, idrFind r.1 (2 ^ 30), idrFind r.1 0)) = some (.ok (2 ^ 30), some none, some (some 7)) := by
  decide

end LinuxKernel
