import LinuxKernel.Foundation.Bitmap
import LinuxKernel.Lib.Ctype

/-!
# Pid bitmaps

`kernel/pid.c`: pids are the bits of `pidmap` pages, each with its `nr_free` count;
`alloc_pidmap` looks for a clear bit from `last_pid + 1` on, wrapping to `RESERVED_PIDS`, and
`next_pidmap` finds the next set bit. One task allocates at a time; pids are `Nat`.
-/

namespace LinuxKernel

def bitsPerPage : Nat := pageSize * 8

def bitsPerPageMask : Nat := bitsPerPage - 1

def reservedPids : Nat := 300

/-- `PID_MAX_LIMIT` on a 64-bit kernel. -/
def pidMaxLimit : Nat := 4 * 1024 * 1024

def pidmapEntries : Nat := (pidMaxLimit + 8 * pageSize - 1) / pageSize / 8

structure Pidmap where
  nrFree : Nat
  page : Option (BitVec bitsPerPage)

/-- The part of `struct pid_namespace` that pid allocation reads and writes. -/
structure PidNamespace where
  pidmap : Nat → Pidmap
  lastPid : Nat

/-- `mk_pid(pid_ns, map, off)`, with `map` given by its index in `pidmap`. -/
def mkPid (map off : Nat) : Nat := map * bitsPerPage + off

def findNextOffset (page : BitVec bitsPerPage) (off : Nat) : Nat := Bitmap.findNextZero page off

/-- `free_pidmap(upid)` for the pid `nr`, which is allocated, so its page is. -/
def freePidmap (ns : PidNamespace) (nr : Nat) : PidNamespace :=
  let map := nr / bitsPerPage
  let offset := nr &&& bitsPerPageMask
  let m := ns.pidmap map
  { ns with
    pidmap := Function.update ns.pidmap map
      { nrFree := m.nrFree + 1, page := m.page.map fun page => Bitmap.clearBit page offset } }

/-- `pid_before(base, a, b)`: the differences from `base` compared as `unsigned`. -/
def pidBefore (base a b : Nat) : Bool :=
  ((a : Int) - base) % 2 ^ 32 < ((b : Int) - base) % 2 ^ 32

/-- `set_last_pid(pid_ns, base, pid)`. The first `cmpxchg` stores `pid` where it finds `base`;
over a value another writer stored first, a second round stores `pid` if that value comes before
`pid` counted from `base`. -/
def setLastPid (ns : PidNamespace) (base pid : Nat) : PidNamespace :=
  if ns.lastPid = base ∨ pidBefore base ns.lastPid pid then { ns with lastPid := pid } else ns

/-- The page `map` in the loop of `alloc_pidmap`, allocated zeroed on first use; `none` when
`kzalloc` fails and the loop breaks. -/
def pidmapPage (ns : PidNamespace) (map : Nat) (kzallocOk : Bool) :
    Option (PidNamespace × BitVec bitsPerPage) :=
  match (ns.pidmap map).page with
  | some page => some (ns, page)
  | none =>
    if kzallocOk then
      some ({ ns with pidmap := Function.update ns.pidmap map { ns.pidmap map with page := some 0 } },
        0)
    else none

/-- The `do { ... } while (offset < BITS_PER_PAGE && pid < pid_max)` loop of `alloc_pidmap` on
page `map`, on fuel: the offset whose bit `test_and_set_bit` finds clear, if there is one. -/
def allocPidmapPage (pidMax map : Nat) (page : BitVec bitsPerPage) : Nat → Nat → Option Nat
  | 0, _ => none
  | fuel + 1, offset =>
    if !page.getLsbD offset then some offset
    else
      let offset := findNextOffset page offset
      let pid := mkPid map offset
      if offset < bitsPerPage ∧ pid < pidMax then allocPidmapPage pidMax map page fuel offset
      else none

/-- What `alloc_pidmap` does once it found `offset` of page `map` clear: the bit is set,
`nr_free` goes down by one, and `set_last_pid(pid_ns, last, pid)`. -/
def allocPidmapTake (ns : PidNamespace) (last map offset : Nat) (page : BitVec bitsPerPage) :
    PidNamespace :=
  let m := ns.pidmap map
  setLastPid
    { ns with
      pidmap := Function.update ns.pidmap map
        { nrFree := m.nrFree - 1, page := some (Bitmap.setBit page offset) } }
    last (mkPid map offset)

/-- The `for (i = 0; i <= max_scan; ++i)` loop of `alloc_pidmap`, with `fuel` the rounds left. -/
def allocPidmapLoop (pidMax last : Nat) (kzallocOk : Bool) :
    Nat → PidNamespace → Nat → Nat → PidNamespace × Int
  | 0, ns, _, _ => (ns, -1)
  | fuel + 1, ns, map, offset =>
    match pidmapPage ns map kzallocOk with
    | none => (ns, -1)
    | some (ns, page) =>
      let found :=
        if (ns.pidmap map).nrFree ≠ 0 then allocPidmapPage pidMax map page bitsPerPage offset
        else none
      match found with
      | some offset => (allocPidmapTake ns last map offset page, mkPid map offset)
      | none =>
        if map < (pidMax - 1) / bitsPerPage then
          allocPidmapLoop pidMax last kzallocOk fuel ns (map + 1) 0
        -- round to page 0 at `RESERVED_PIDS`, unless that is where the scan began
        else if last = reservedPids then (ns, -1)
        else allocPidmapLoop pidMax last kzallocOk fuel ns 0 reservedPids

/-- `alloc_pidmap(pid_ns)` under the global `pid_max`; `kzallocOk` is whether `kzalloc` can
allocate a page. -/
def allocPidmap (ns : PidNamespace) (pidMax : Nat) (kzallocOk : Bool) : PidNamespace × Int :=
  let last := ns.lastPid
  let pid := if last + 1 ≥ pidMax then reservedPids else last + 1
  let offset := pid &&& bitsPerPageMask
  let map := pid / bitsPerPage
  -- a scan that starts inside a page comes back to the start of that page at the end
  let maxScan := (pidMax + bitsPerPage - 1) / bitsPerPage - (if offset = 0 then 1 else 0)
  allocPidmapLoop pidMax last kzallocOk (maxScan + 1) ns map offset

/-- The `for (; map < end; map++, offset = 0)` loop of `next_pidmap`, on fuel. -/
def nextPidmapLoop (ns : PidNamespace) : Nat → Nat → Nat → Int
  | 0, _, _ => -1
  | fuel + 1, map, offset =>
    if map < pidmapEntries then
      match (ns.pidmap map).page with
      | none => nextPidmapLoop ns fuel (map + 1) 0
      | some page =>
        let offset := Bitmap.findNextBit page offset
        if offset < bitsPerPage then mkPid map offset else nextPidmapLoop ns fuel (map + 1) 0
    else -1

def nextPidmap (ns : PidNamespace) (last : Nat) : Int :=
  if last ≥ pidMaxLimit then -1
  else nextPidmapLoop ns pidmapEntries ((last + 1) / bitsPerPage) ((last + 1) &&& bitsPerPageMask)

/-- `init_pid_ns` after `pidmap_init`: page 0 allocated with pid 0 reserved, and every other
page free and not yet allocated. -/
def initPidNs : PidNamespace where
  pidmap map :=
    if map = 0 then { nrFree := bitsPerPage - 1, page := some (Bitmap.setBit 0 0) }
    else { nrFree := bitsPerPage, page := none }
  lastPid := 0

end LinuxKernel
