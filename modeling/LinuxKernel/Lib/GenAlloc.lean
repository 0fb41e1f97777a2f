import LinuxKernel.Lib.BitmapArea

/-!
# Special memory pools (`lib/genalloc.c`)

A `gen_pool` hands out granules of `2^min_alloc_order` bytes from its chunks, one bitmap bit
each: `gen_pool_add_virt`, `gen_pool_alloc` (first chunk with room) and `gen_pool_free`. Its
`start_bit` is reset only once, so a later chunk is searched from past the end of the first
(`genPoolAlloc_skips_low_area`).
-/

namespace LinuxKernel

/-- `struct gen_pool_chunk`, but for `phys_addr`, which only `gen_pool_virt_to_phys` reads. -/
structure GenPoolChunk where
  avail : Int
  startAddr : Nat
  endAddr : Nat
  bits : Nat → BitVec 64

/-- `struct gen_pool`: the chunks in list order and `min_alloc_order`. -/
structure GenPool where
  chunks : List GenPoolChunk
  minAllocOrder : Nat

/-! ### Setting and clearing bits without a lock -/

def firstWordMask (start : Nat) : BitVec 64 := ~~~(0 : BitVec 64) <<< (start % bitsPerLong)

def lastWordMask (nbits : Nat) : BitVec 64 :=
  if nbits % bitsPerLong ≠ 0 then (1 <<< (nbits % bitsPerLong)) - 1 else ~~~(0 : BitVec 64)

/-- `set_bits_ll(addr, mask_to_set)` on word `a`: `-EBUSY` when a bit of the mask is set
already, else the mask set. -/
def setBitsLl (map : Nat → BitVec 64) (a : Nat) (mask : BitVec 64) : Option (Nat → BitVec 64) :=
  if map a &&& mask ≠ 0 then none else some (Function.update map a (map a ||| mask))

/-- `clear_bits_ll(addr, mask_to_clear)` on word `a`: `-EBUSY` when a bit of the mask is clear
already, else the mask cleared. -/
def clearBitsLl (map : Nat → BitVec 64) (a : Nat) (mask : BitVec 64) :
    Option (Nat → BitVec 64) :=
  if map a &&& mask ≠ mask then none else some (Function.update map a (map a &&& ~~~mask))

/-- The loop of `bitmap_set_ll` and `bitmap_clear_ll`, `change` being `set_bits_ll` or
`clear_bits_ll`, from word `p` with `nr` bits left and `bits` bits under `mask` in that word,
`size` being `start + nr`, for `fuel` words: the bitmap and the `nr` it returns, 0 when all
went through. -/
def bitmapLlLoop (change : (Nat → BitVec 64) → Nat → BitVec 64 → Option (Nat → BitVec 64))
    (size : Nat) : Nat → (Nat → BitVec 64) → Nat → Nat → Nat → BitVec 64 → (Nat → BitVec 64) × Nat
  | 0, map, _, nr, _, _ => (map, nr)
  | fuel + 1, map, p, nr, bits, mask =>
    if bits ≤ nr then
      match change map p mask with
      | none => (map, nr)
      | some map => bitmapLlLoop change size fuel map (p + 1) (nr - bits) bitsPerLong (~~~(0 : BitVec 64))
    else if nr ≠ 0 then
      match change map p (mask &&& lastWordMask size) with
      | none => (map, nr)
      | some map => (map, 0)
    else (map, 0)

/-- `bitmap_set_ll` and `bitmap_clear_ll` on `nr` bits from `start`: at most `nr / 64 + 1`
whole or first words and a last one. -/
def bitmapLl (change : (Nat → BitVec 64) → Nat → BitVec 64 → Option (Nat → BitVec 64))
    (map : Nat → BitVec 64) (start nr : Nat) : (Nat → BitVec 64) × Nat :=
  bitmapLlLoop change (start + nr) (nr / bitsPerLong + 2) map (start / bitsPerLong) nr
    (bitsPerLong - start % bitsPerLong) (firstWordMask start)

def bitmapSetLl (map : Nat → BitVec 64) (start nr : Nat) : (Nat → BitVec 64) × Nat :=
  bitmapLl setBitsLl map start nr

def bitmapClearLl (map : Nat → BitVec 64) (start nr : Nat) : (Nat → BitVec 64) × Nat :=
  bitmapLl clearBitsLl map start nr

/-! ### The pool -/

/-- `gen_pool_create(min_alloc_order, nid)`, `none` when `kmalloc_node` fails. -/
def genPoolCreate (minAllocOrder : Nat) (kmallocOk : Bool) : Option GenPool :=
  if kmallocOk then some ⟨[], minAllocOrder⟩ else none

/-- `gen_pool_add_virt(pool, virt, phys, size, nid)`: a chunk of `size` bytes from `virt` with a
zeroed bitmap, put at the head of the list; `-ENOMEM` when `kmalloc_node` fails. -/
def genPoolAddVirt (pool : GenPool) (virt size : Nat) (kmallocOk : Bool) : Except Errno GenPool :=
  if kmallocOk then .ok { pool with chunks := ⟨size, virt, virt + size, fun _ => 0⟩ :: pool.chunks }
  else .error .noMem

/-- The `retry:` loop of `gen_pool_alloc` in one chunk from `start_bit`, for `fuel` rounds: the
chunk with the area set and where it starts, or the `start_bit` the search left when it found
no room. A failed `bitmap_set_ll` rolls back the bits it set and searches again; the rollback
clears only bits the same call set, so its `BUG_ON(remain)` cannot fire and is left out. -/
def genPoolAllocRetry (endBit nbits : Nat) :
    Nat → GenPoolChunk → Nat → (GenPoolChunk × Nat) ⊕ Nat
  | 0, _, startBit => .inr startBit
  | fuel + 1, chunk, startBit =>
    let startBit := bitmapFindNextZeroArea chunk.bits endBit startBit nbits 0
    if endBit ≤ startBit then .inr startBit
    else
      match bitmapSetLl chunk.bits startBit nbits with
      | (bits, 0) => .inl ({ chunk with bits }, startBit)
      | (bits, remain) =>
        genPoolAllocRetry endBit nbits fuel
          { chunk with bits := (bitmapClearLl bits startBit (nbits - remain)).1 } startBit

/-- The `list_for_each_entry_rcu` loop of `gen_pool_alloc` over the chunks, `start_bit` carried
from one chunk to the next: the chunks it leaves and the address, 0 when none had room. -/
def genPoolAllocLoop (order size nbits : Nat) :
    Nat → List GenPoolChunk → List GenPoolChunk × Nat
  | _, [] => ([], 0)
  | startBit, chunk :: chunks =>
    -- `size > atomic_read(&chunk->avail)` compares as `size_t`
    if size > (chunk.avail % 2 ^ 64).toNat then
      let (chunks, addr) := genPoolAllocLoop order size nbits startBit chunks
      (chunk :: chunks, addr)
    else
      let endBit := (chunk.endAddr - chunk.startAddr) >>> order
      match genPoolAllocRetry endBit nbits (endBit + 1) chunk startBit with
      | .inl (chunk, startBit) =>
        ({ chunk with avail := chunk.avail - ((nbits <<< order : Nat) : Int) } :: chunks,
          chunk.startAddr + (startBit <<< order))
      | .inr startBit =>
        let (chunks, addr) := genPoolAllocLoop order size nbits startBit chunks
        (chunk :: chunks, addr)

/-- `gen_pool_alloc(pool, size)`: the pool it leaves and the address, 0 for no memory. -/
def genPoolAlloc (pool : GenPool) (size : Nat) : GenPool × Nat :=
  if size = 0 then (pool, 0)
  else
    let order := pool.minAllocOrder
    let nbits := (size + (1 <<< order) - 1) >>> order
    let (chunks, addr) := genPoolAllocLoop order size nbits 0 pool.chunks
    ({ pool with chunks }, addr)

/-- The loop of `gen_pool_free` over the chunks: the chunk holding `addr` gets its bits
cleared and its `avail` back; `none` for the `BUG()` of an address in no chunk and for a
failed `BUG_ON`. -/
def genPoolFreeLoop (order addr size nbits : Nat) : List GenPoolChunk → Option (List GenPoolChunk)
  | [] => none
  | chunk :: chunks =>
    if chunk.startAddr ≤ addr ∧ addr < chunk.endAddr then
      if addr + size > chunk.endAddr then none
      else
        let startBit := (addr - chunk.startAddr) >>> order
        match bitmapClearLl chunk.bits startBit nbits with
        | (bits, 0) =>
          some ({ chunk with bits, avail := chunk.avail + ((nbits <<< order : Nat) : Int) } :: chunks)
        | _ => none
    else (genPoolFreeLoop order addr size nbits chunks).map (chunk :: ·)

def genPoolFree (pool : GenPool) (addr size : Nat) : Option GenPool :=
  let order := pool.minAllocOrder
  let nbits := (size + (1 <<< order) - 1) >>> order
  (genPoolFreeLoop order addr size nbits pool.chunks).map fun chunks => { pool with chunks }

/-- A pool of one-byte granules: a chunk of 8 bytes at `0x1000` added, then one of 4 bytes at
`0x2000`, which goes in front of it; four one-byte allocations fill the chunk at `0x2000`, and
its bytes `0x2000` and `0x2002` are freed again. -/
def fragmentedPool : Option GenPool := do
  let pool ← genPoolCreate 0 true
  let pool ← (genPoolAddVirt pool 0x1000 8 true).toOption
  let pool ← (genPoolAddVirt pool 0x2000 4 true).toOption
  let pool := (genPoolAlloc (genPoolAlloc (genPoolAlloc (genPoolAlloc pool 1).1 1).1 1).1 1).1
  let pool ← genPoolFree pool 0x2000 1
  genPoolFree pool 0x2002 1

/-- In `fragmentedPool` the first chunk has two free granules but not two in a row, and the
second has all its granules free. `gen_pool_alloc(pool, 2)` passes the first chunk, whose search
ends with `start_bit = 6`, and searches the second from granule 6: it returns `0x1006`, not the
start `0x1000` of the lowest free area of the first chunk that has one. -/
theorem genPoolAlloc_skips_low_area :
    fragmentedPool.map (fun pool => pool.chunks.map fun chunk =>
        (List.range (chunk.endAddr - chunk.startAddr)).map (wordsBit chunk.bits)) =
      some [[false, true, false, true], List.replicate 8 false] ∧
      fragmentedPool.map (fun pool => (genPoolAlloc pool 2).2) = some 0x1006 := by
  decide

end LinuxKernel
