import Mathlib
import LinuxKernel.Foundation.OnesComplement

/-!
# The generic Internet checksum

`lib/checksum.c` and `include/asm-generic/checksum.h`. A buffer is the list of its bytes
and the address of the first one; `do_csum` looks at the two low bits of the address to
reach 2- and 4-byte alignment. Loads read the machine's byte order `e`, which the source
chooses with `__LITTLE_ENDIAN`.
-/

namespace LinuxKernel

open OnesComplement

/-- `*(unsigned short *) buff`. -/
def loadU16 (e : Endian) (buff : List UInt8) : UInt32 :=
  (e.load16 (buff.getD 0 0) (buff.getD 1 0)).toUInt32

/-- `*(unsigned int *) buff`. -/
def loadU32 (e : Endian) (buff : List UInt8) : UInt32 :=
  (e.load32 (buff.getD 0 0) (buff.getD 1 0) (buff.getD 2 0) (buff.getD 3 0)).toUInt32

def from32to16 (x : UInt32) : UInt16 :=
  let x := (x &&& (0xffff : UInt32)) + (x >>> 16)
  let x := (x &&& (0xffff : UInt32)) + (x >>> 16)
  x.toUInt16

/-- The `do { ... } while (buff < end)` loop of `do_csum` over `n` 32-bit words: the carry
out of each add goes in with the next word. -/
def csumWords (e : Endian) : Nat → UInt32 → UInt32 → List UInt8 → UInt32 × UInt32
  | 0, result, carry, _ => (result, carry)
  | n + 1, result, carry, buff =>
    let w := loadU32 e buff
    let result := result + carry
    let result := result + w
    let carry : UInt32 := if w > result then 1 else 0
    csumWords e n result carry (buff.drop 4)

/-- The `len / 4` words of `if (len >= 4)`, the last carry, and one fold to 17 bits. -/
def csumWordsFold (e : Endian) (result : UInt32) (len : Nat) (buff : List UInt8) : UInt32 :=
  let (result, carry) := csumWords e (len / 4) result 0 buff
  let result := result + carry
  (result &&& (0xffff : UInt32)) + (result >>> 16)

/-- `if (2 & (unsigned long) buff)`: one 16-bit word to a 4-byte boundary. -/
def csumAlign4 (e : Endian) (addr : Nat) (result : UInt32) (len : Nat) (buff : List UInt8) :
    UInt32 × Nat × List UInt8 :=
  if addr.testBit 1 then (result + loadU16 e buff, len - 2, buff.drop 2) else (result, len, buff)

/-- `if (len >= 4)`: `buff` moves past the words; `len` does not change. -/
def csumBody4 (e : Endian) (result : UInt32) (len : Nat) (buff : List UInt8) :
    UInt32 × List UInt8 :=
  if len ≥ 4 then (csumWordsFold e result len buff, buff.drop (4 * (len / 4))) else (result, buff)

/-- `if (len & 2)`: the 16-bit word after the 32-bit words. -/
def csumTail2 (e : Endian) (result : UInt32) (len : Nat) (buff : List UInt8) :
    UInt32 × List UInt8 :=
  if len.testBit 1 then (result + loadU16 e buff, buff.drop 2) else (result, buff)

/-- The last byte of the buffer, the first half of a word padded with zero: `*buff` on
little endian, `*buff << 8` on big. -/
def csumLastByte (e : Endian) (b : UInt8) : UInt32 :=
  match e with
  | .little => b.toUInt32
  | .big => b.toUInt32 <<< 8

/-- `if (len & 1)`. -/
def csumTail1 (e : Endian) (result : UInt32) (len : Nat) (buff : List UInt8) : UInt32 :=
  if len.testBit 0 then result + csumLastByte e (buff.getD 0 0) else result

/-- `do_csum` from its first even address `addr`, with `len` bytes at `buff` left. -/
def csumAligned (e : Endian) (addr : Nat) (result : UInt32) (len : Nat) (buff : List UInt8) :
    UInt32 :=
  let (result, len, buff) :=
    if len ≥ 2 then
      let (result, len, buff) := csumAlign4 e addr result len buff
      let (result, buff) := csumBody4 e result len buff
      let (result, buff) := csumTail2 e result len buff
      (result, len, buff)
    else (result, len, buff)
  csumTail1 e result len buff

/-- The first byte at an odd address, the second half of its word: `*buff << 8` on little
endian, `*buff` on big. -/
def csumOddHead (e : Endian) (b : UInt8) : UInt32 :=
  match e with
  | .little => b.toUInt32 <<< 8
  | .big => b.toUInt32

def doCsum (e : Endian) (addr : Nat) (buff : List UInt8) (len : Int) : UInt32 :=
  if len ≤ 0 then 0
  else
    let odd := addr.testBit 0
    let result : UInt32 := if odd then csumOddHead e (buff.getD 0 0) else 0
    let result :=
      if odd then csumAligned e (addr + 1) result (len.toNat - 1) (buff.drop 1)
      else csumAligned e addr result len.toNat buff
    let result := (from32to16 result).toUInt32
    if odd then ((result >>> 8) &&& (0xff : UInt32)) ||| ((result &&& 0xff) <<< 8) else result

/-- `ip_fast_csum` of an IP header of `ihl` 32-bit words. -/
def ipFastCsum (e : Endian) (addr : Nat) (iph : List UInt8) (ihl : UInt32) : UInt16 :=
  (~~~(doCsum e addr iph (ihl * 4).toInt32.toInt)).toUInt16

def csumPartial (e : Endian) (addr : Nat) (buff : List UInt8) (len : Int) (wsum : UInt32) :
    UInt32 :=
  let sum := wsum
  let result := doCsum e addr buff len
  let result := result + sum
  if sum > result then result + 1 else result

def ipComputeCsum (e : Endian) (addr : Nat) (buff : List UInt8) (len : Int) : UInt16 :=
  (~~~(doCsum e addr buff len)).toUInt16

def csumFold (csum : UInt32) : UInt16 :=
  let sum := csum
  let sum := (sum &&& (0xffff : UInt32)) + (sum >>> 16)
  let sum := (sum &&& (0xffff : UInt32)) + (sum >>> 16)
  (~~~sum).toUInt16

/-- The 64-bit sum `s` of `csum_tcpudp_nofold` before its fold: the protocol and length are
added in host order on big endian, and shifted into network byte order on little endian. -/
def tcpudpSum (e : Endian) (saddr daddr : UInt32) (len proto : UInt16) (sum : UInt32) : UInt64 :=
  let s : UInt64 := sum.toUInt64
  let s := s + saddr.toUInt64
  let s := s + daddr.toUInt64
  match e with
  | .big => s + (proto.toNat + len.toNat).toUInt64
  | .little => s + ((proto.toNat + len.toNat) <<< 8).toUInt64

def csumTcpudpNofold (e : Endian) (saddr daddr : UInt32) (len proto : UInt16) (sum : UInt32) :
    UInt32 :=
  let s := tcpudpSum e saddr daddr len proto sum
  let s := s + (s >>> 32)
  s.toUInt32

def csumTcpudpMagic (e : Endian) (saddr daddr : UInt32) (len proto : UInt16) (sum : UInt32) :
    UInt16 :=
  csumFold (csumTcpudpNofold e saddr daddr len proto sum)

/-! ### What the checksums are for -/

/-- The TCP/UDP pseudo-header of RFC 793 and RFC 768 as it lies in memory: the source and
destination address, then the protocol and the length as 16-bit words in network byte
order. -/
def pseudoHeader (e : Endian) (saddr daddr : UInt32) (len proto : UInt16) : List UInt8 :=
  e.store32 saddr ++ e.store32 daddr ++ netBytes16 proto ++ netBytes16 len

/-- The RFC 793/768 checksum of a pseudo-header and data whose sum is `sum`: the ones'
complement of their ones' complement sum. -/
def pseudoHeaderChecksum (e : Endian) (saddr daddr : UInt32) (len proto : UInt16)
    (sum : UInt32) : Nat :=
  0xffff - reduce (sum.toNat + sum16 e (pseudoHeader e saddr daddr len proto))

end LinuxKernel
