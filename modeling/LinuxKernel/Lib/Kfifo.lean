import Mathlib
import LinuxKernel.Creds.Types
import LinuxKernel.Foundation.Ring

/-!
# kfifo

`kernel/kfifo.c`: `mask + 1` elements of `esize` bytes, with free-running 32-bit counters `in`
and `out` masked into positions. The buffers are memories from addresses to bytes; the caller's
buffer starts at address 0.
-/

namespace LinuxKernel

open Ring

structure Kfifo where
  in_ : UInt32
  out : UInt32
  mask : UInt32
  esize : UInt32
  data : Nat → UInt8

/-- `KMALLOC_MAX_SIZE`: `kmalloc` returns `NULL` above it. -/
def kmallocMaxSize : Nat := 2 ^ 25

def isPowerOf2 (n : Nat) : Bool := n != 0 && (n &&& (n - 1)) == 0

/-- `rounddown_pow_of_two`, `1UL << (fls_long(n) - 1)`; the source leaves `n = 0` undefined. -/
def rounddownPowOfTwo (n : Nat) : Nat := 1 <<< n.log2

/-- The element count of a fifo after `size` is rounded down to a power of two, as
`__kfifo_alloc` and `__kfifo_init` do. -/
def roundSize (size : Nat) : UInt32 :=
  (if isPowerOf2 size then size else rounddownPowOfTwo size).toUInt32

/-- `__kfifo_init`: the fifo of `size / esize` elements over `buffer`. -/
def kfifoInit (buffer : Nat → UInt8) (size : UInt32) (esize : UInt64) : Kfifo × Except Errno Unit :=
  let size := roundSize (size.toUInt64 / esize).toUInt32.toNat
  if size < 2 then (⟨0, 0, 0, esize.toUInt32, buffer⟩, .error .inval)
  else (⟨0, 0, size - 1, esize.toUInt32, buffer⟩, .ok ())

/-- `__kfifo_alloc`, with `kmalloc` giving `buffer` unless the request passes
`KMALLOC_MAX_SIZE` or `kmallocOk` says it fails. -/
def kfifoAlloc (size : UInt32) (esize : UInt64) (buffer : Nat → UInt8) (kmallocOk : Bool) :
    Kfifo × Except Errno Unit :=
  let size := roundSize size.toNat
  if size < 2 then (⟨0, 0, 0, esize.toUInt32, buffer⟩, .error .inval)
  else if kmallocMaxSize < size.toNat * esize.toNat ∨ !kmallocOk then
    (⟨0, 0, 0, esize.toUInt32, buffer⟩, .error .noMem)
  else (⟨0, 0, size - 1, esize.toUInt32, buffer⟩, .ok ())

def kfifoUnused (fifo : Kfifo) : UInt32 := (fifo.mask + 1) - (fifo.in_ - fifo.out)

/-- `if (esize != 1) x *= esize`: offsets and lengths in elements become bytes. -/
def kfifoScale (fifo : Kfifo) (x : UInt32) : UInt32 := if fifo.esize ≠ 1 then x * fifo.esize else x

/-- `kfifo_copy_in`: the elements go to `off & mask` on, in two copies split at the end. -/
def kfifoCopyIn (fifo : Kfifo) (src : Nat → UInt8) (len off : UInt32) : Nat → UInt8 :=
  let size := kfifoScale fifo (fifo.mask + 1)
  let off := kfifoScale fifo (off &&& fifo.mask)
  let len := kfifoScale fifo len
  let l := min len (size - off)
  memcpy (memcpy fifo.data off.toNat src 0 l.toNat) 0 src l.toNat (len - l).toNat

def kfifoCopyOut (fifo : Kfifo) (dst : Nat → UInt8) (len off : UInt32) : Nat → UInt8 :=
  let size := kfifoScale fifo (fifo.mask + 1)
  let off := kfifoScale fifo (off &&& fifo.mask)
  let len := kfifoScale fifo len
  let l := min len (size - off)
  memcpy (memcpy dst 0 fifo.data off.toNat l.toNat) l.toNat fifo.data 0 (len - l).toNat

/-- `__kfifo_in`: as many elements as there is room for. -/
def kfifoIn (fifo : Kfifo) (buf : Nat → UInt8) (len : UInt32) : Kfifo × UInt32 :=
  let l := kfifoUnused fifo
  let len := if len > l then l else len
  ({ fifo with data := kfifoCopyIn fifo buf len fifo.in_, in_ := fifo.in_ + len }, len)

/-- `__kfifo_out_peek`: as many elements as there are, copied out but left in the fifo. -/
def kfifoOutPeek (fifo : Kfifo) (buf : Nat → UInt8) (len : UInt32) : (Nat → UInt8) × UInt32 :=
  let l := fifo.in_ - fifo.out
  let len := if len > l then l else len
  (kfifoCopyOut fifo buf len fifo.out, len)

def kfifoOut (fifo : Kfifo) (buf : Nat → UInt8) (len : UInt32) :
    Kfifo × (Nat → UInt8) × UInt32 :=
  let peeked := kfifoOutPeek fifo buf len
  ({ fifo with out := fifo.out + peeked.2 }, peeked.1, peeked.2)

/-! ### Records -/

/-- `__kfifo_peek_n`: the length header of the record at `out`, low byte first. -/
def kfifoPeekN (fifo : Kfifo) (recsize : UInt64) : UInt32 :=
  let l := (fifo.data (fifo.out &&& fifo.mask).toNat).toUInt32
  if recsize - 1 ≠ 0 then l ||| (fifo.data ((fifo.out + 1) &&& fifo.mask).toNat).toUInt32 <<< 8
  else l

/-- `__kfifo_poke_n`: the length header of a record at `in`. -/
def kfifoPokeN (fifo : Kfifo) (n : UInt32) (recsize : UInt64) : Nat → UInt8 :=
  let data := Function.update fifo.data (fifo.in_ &&& fifo.mask).toNat n.toUInt8
  if recsize > 1 then Function.update data ((fifo.in_ + 1) &&& fifo.mask).toNat (n >>> 8).toUInt8
  else data

def kfifoLenR (fifo : Kfifo) (recsize : UInt64) : UInt32 := kfifoPeekN fifo recsize

/-- `__kfifo_in_r`: the header and the record, or nothing if they do not fit. -/
def kfifoInR (fifo : Kfifo) (buf : Nat → UInt8) (len : UInt32) (recsize : UInt64) :
    Kfifo × UInt32 :=
  if len.toUInt64 + recsize > (kfifoUnused fifo).toUInt64 then (fifo, 0)
  else
    let fifo := { fifo with data := kfifoPokeN fifo len recsize }
    let fifo := { fifo with data := kfifoCopyIn fifo buf len (fifo.in_ + recsize.toUInt32) }
    ({ fifo with in_ := fifo.in_ + len + recsize.toUInt32 }, len)

/-- `kfifo_out_copy_r`: the copied bytes, how many, and the record's length. -/
def kfifoOutCopyR (fifo : Kfifo) (buf : Nat → UInt8) (len : UInt32) (recsize : UInt64) :
    (Nat → UInt8) × UInt32 × UInt32 :=
  let n := kfifoPeekN fifo recsize
  let len := if len > n then n else len
  (kfifoCopyOut fifo buf len (fifo.out + recsize.toUInt32), len, n)

def kfifoOutPeekR (fifo : Kfifo) (buf : Nat → UInt8) (len : UInt32) (recsize : UInt64) :
    (Nat → UInt8) × UInt32 :=
  if fifo.in_ = fifo.out then (buf, 0)
  else
    let copied := kfifoOutCopyR fifo buf len recsize
    (copied.1, copied.2.1)

/-- `__kfifo_out_r`: the record is dequeued whole, however much of it was copied. -/
def kfifoOutR (fifo : Kfifo) (buf : Nat → UInt8) (len : UInt32) (recsize : UInt64) :
    Kfifo × (Nat → UInt8) × UInt32 :=
  if fifo.in_ = fifo.out then (fifo, buf, 0)
  else
    let copied := kfifoOutCopyR fifo buf len recsize
    ({ fifo with out := fifo.out + copied.2.2 + recsize.toUInt32 }, copied.1, copied.2.1)

def kfifoSkipR (fifo : Kfifo) (recsize : UInt64) : Kfifo :=
  { fifo with out := fifo.out + kfifoPeekN fifo recsize + recsize.toUInt32 }

end LinuxKernel
