import LinuxKernel.Foundation.Lfsr

/-!
# CRC32

`lib/crc32.c`, `lib/crc32defs.h` and the table generator `lib/gen_crc32table.c`, on a
little-endian 64-bit x86 kernel. `CRC_LE_BITS` (always equal to `CRC_BE_BITS`) picks the bit
loop, a table of 4, 16 or 256 entries, or slicing by four or eight through `crc32_body`. A
buffer is its bytes and the address of the first one, which only the alignment loop reads.
-/

namespace LinuxKernel.Crc32

def crcpolyLe : BitVec 32 := 0xedb88320

def crcpolyBe : BitVec 32 := 0x04c11db7

def crc32cPolyLe : BitVec 32 := 0x82F63B78

/-- The values `crc32defs.h` accepts for `CRC_LE_BITS` and `CRC_BE_BITS`. -/
inductive CrcBits where
  | one | two | four | eight | thirtyTwo | sixtyFour
  deriving DecidableEq, Repr

def CrcBits.toNat : CrcBits → Nat
  | .one => 1
  | .two => 2
  | .four => 4
  | .eight => 8
  | .thirtyTwo => 32
  | .sixtyFour => 64

/-- `LE_TABLE_SIZE` (and `BE_TABLE_SIZE`). -/
def tableSize (bits : CrcBits) : Nat := if bits.toNat > 8 then 256 else 1 <<< bits.toNat

/-- `LE_TABLE_ROWS` (and `BE_TABLE_ROWS`). -/
def tableRows (bits : CrcBits) : Nat := if bits.toNat > 8 then bits.toNat / 8 else 1

/-- A table `u32 tab[ROWS][256]`: its entry at a row and an index. -/
structure Table where
  entry : Nat → Nat → BitVec 32

/-- A static table before the generator writes it. -/
def Table.zero : Table := ⟨fun _ _ => 0⟩

/-- `tab[row][index] = value`. -/
def Table.set (tab : Table) (row index : Nat) (value : BitVec 32) : Table :=
  ⟨fun r n => if r = row ∧ n = index then value else tab.entry r n⟩

@[simp] theorem Table.entry_zero (row index : Nat) : Table.zero.entry row index = 0 := rfl

theorem Table.entry_set (tab : Table) (row index r n : Nat) (value : BitVec 32) :
    (tab.set row index value).entry r n = if r = row ∧ n = index then value else tab.entry r n :=
  rfl

/-- `__swab32`: `cpu_to_be32` and `be32_to_cpu` on a little-endian CPU. -/
def swab32 (x : BitVec 32) : BitVec 32 :=
  ((x &&& 0x000000ff) <<< 24) ||| ((x &&& 0x0000ff00) <<< 8) |||
    ((x &&& 0x00ff0000) >>> 8) ||| ((x &&& 0xff000000) >>> 24)

/-- A byte read into a 32-bit register (`unsigned char` promoted). -/
def widen (x : BitVec 8) : BitVec 32 := x.setWidth 32

/-! ### Bit at a time -/

/-- `crc = (crc >> 1) ^ ((crc & 1) ? polynomial : 0);` -/
def crcLeBit (polynomial crc : BitVec 32) : BitVec 32 :=
  (crc >>> 1) ^^^ (if crc &&& 1 ≠ 0 then polynomial else 0)

/-- `crc = (crc << 1) ^ ((crc & 0x80000000) ? polynomial : 0);` -/
def crcBeBit (polynomial crc : BitVec 32) : BitVec 32 :=
  (crc <<< 1) ^^^ (if crc &&& 0x80000000 ≠ 0 then polynomial else 0)

/-! ### The table generator -/

/-- The inner loop of `crc32init_le_generic`'s first loop, from `j` on:
`for (j = 0; j < LE_TABLE_SIZE; j += 2 * i) tab[0][i + j] = crc ^ tab[0][j];` -/
def initLeFill (size i : Nat) (positive : 0 < i) (crc : BitVec 32) (tab : Table) (j : Nat) :
    Table :=
  if j < size then
    initLeFill size i positive crc (tab.set 0 (i + j) (crc ^^^ tab.entry 0 j)) (j + 2 * i)
  else tab
termination_by size - j

/-- The first loop of `crc32init_le_generic`, from `i` on:
`for (i = LE_TABLE_SIZE >> 1; i; i >>= 1) { crc = (crc >> 1) ^ ...; <fill> }` -/
def initLeHalve (size : Nat) (polynomial : BitVec 32) (i : Nat) (crc : BitVec 32)
    (tab : Table) : Table :=
  if h : i = 0 then tab
  else
    let crc := crcLeBit polynomial crc
    initLeHalve size polynomial (i >>> 1) crc (initLeFill size i (Nat.pos_of_ne_zero h) crc tab 0)
termination_by i
decreasing_by simp only [Nat.shiftRight_eq_div_pow]; omega

/-- `crc = tab[0][crc & 0xff] ^ (crc >> 8)`, the row step of `crc32init_le_generic`. -/
def leRowStep (tab : Table) (crc : BitVec 32) : BitVec 32 :=
  tab.entry 0 (crc &&& 0xff).toNat ^^^ (crc >>> 8)

/-- `crc = crc32table_be[0][(crc >> 24) & 0xff] ^ (crc << 8)`, the row step of `crc32init_be`. -/
def beRowStep (tab : Table) (crc : BitVec 32) : BitVec 32 :=
  tab.entry 0 ((crc >>> 24) &&& 0xff).toNat ^^^ (crc <<< 8)

/-- The inner loop of the row loop of either generator, from `j` on:
`for (j = 1; j < ROWS; j++) { crc = <row step>; tab[j][i] = crc; }` -/
def initRows (rowStep : Table → BitVec 32 → BitVec 32) (rows i : Nat) (crc : BitVec 32)
    (tab : Table) (j : Nat) : Table :=
  if j < rows then
    let crc := rowStep tab crc
    initRows rowStep rows i crc (tab.set j i crc) (j + 1)
  else tab
termination_by rows - j

/-- The row loop of either generator, from `i` on:
`for (i = 0; i < SIZE; i++) { crc = tab[0][i]; <inner loop> }` -/
def initColumns (rowStep : Table → BitVec 32 → BitVec 32) (size rows : Nat) (tab : Table)
    (i : Nat) : Table :=
  if i < size then initColumns rowStep size rows (initRows rowStep rows i (tab.entry 0 i) tab 1) (i + 1)
  else tab
termination_by size - i

def crc32initLeGeneric (bits : CrcBits) (polynomial : BitVec 32) (tab : Table) : Table :=
  let tab := tab.set 0 0 0
  let tab := initLeHalve (tableSize bits) polynomial (tableSize bits >>> 1) 1 tab
  initColumns leRowStep (tableSize bits) (tableRows bits) tab 0

/-- The inner loop of `crc32init_be`'s first loop, from `j` on:
`for (j = 0; j < i; j++) crc32table_be[0][i + j] = crc ^ crc32table_be[0][j];` -/
def initBeFill (i : Nat) (crc : BitVec 32) (tab : Table) (j : Nat) : Table :=
  if j < i then initBeFill i crc (tab.set 0 (i + j) (crc ^^^ tab.entry 0 j)) (j + 1) else tab
termination_by i - j

/-- The first loop of `crc32init_be`, from `i` on:
`for (i = 1; i < BE_TABLE_SIZE; i <<= 1) { crc = (crc << 1) ^ ...; <fill> }` -/
def initBeDouble (size i : Nat) (positive : 0 < i) (crc : BitVec 32) (tab : Table) : Table :=
  if i < size then
    let crc := crcBeBit crcpolyBe crc
    initBeDouble size (i <<< 1) (by simp only [Nat.shiftLeft_eq]; omega) crc
      (initBeFill i crc tab 0)
  else tab
termination_by size - i
decreasing_by simp only [Nat.shiftLeft_eq]; omega

/-- `crc32init_be()`, on the static `crc32table_be`. -/
def crc32initBe (bits : CrcBits) : Table :=
  let tab := Table.zero.set 0 0 0
  let tab := initBeDouble (tableSize bits) 1 Nat.one_pos 0x80000000 tab
  initColumns beRowStep (tableSize bits) (tableRows bits) tab 0

/-- `crc32table_le` as the generated header holds it: `crc32init_le()`, printed with `tole`,
which is the identity on a little-endian CPU. -/
def crc32tableLe (bits : CrcBits) : Table := crc32initLeGeneric bits crcpolyLe .zero

/-- `crc32ctable_le`: `crc32cinit_le()`, printed with `tole`. -/
def crc32ctableLe (bits : CrcBits) : Table := crc32initLeGeneric bits crc32cPolyLe .zero

/-- `tobe(x)`: `__constant_cpu_to_be32(x)` when the configuration slices (`CRC_BE_BITS > 8`),
a byte swap on this CPU, and the identity otherwise. -/
def tobe (bits : CrcBits) (x : BitVec 32) : BitVec 32 :=
  if bits.toNat > 8 then swab32 x else x

/-- `crc32table_be`: `crc32init_be()`, each entry printed as `tobe(...)`. -/
def crc32tableBe (bits : CrcBits) : Table :=
  ⟨fun row index => tobe bits ((crc32initBe bits).entry row index)⟩

/-! ### Slicing: `crc32_body` -/

/-- `DO_CRC(x)` on a little-endian CPU: `crc = t0[(crc ^ (x)) & 255] ^ (crc >> 8)`. -/
def doCrc (tab : Table) (crc : BitVec 32) (x : BitVec 8) : BitVec 32 :=
  tab.entry 0 ((crc ^^^ widen x) &&& 255).toNat ^^^ (crc >>> 8)

/-- The four table reads of `DO_CRC4` and `DO_CRC8` on a little-endian CPU, from the rows
`base` to `base + 3`: the low byte of `q` indexes the last row. -/
def doCrcRows (tab : Table) (base : Nat) (q : BitVec 32) : BitVec 32 :=
  tab.entry (base + 3) (q &&& 255).toNat ^^^ tab.entry (base + 2) ((q >>> 8) &&& 255).toNat ^^^
    tab.entry (base + 1) ((q >>> 16) &&& 255).toNat ^^^ tab.entry base ((q >>> 24) &&& 255).toNat

/-- `DO_CRC4`: `t3[(q) & 255] ^ t2[(q >> 8) & 255] ^ t1[(q >> 16) & 255] ^ t0[(q >> 24) & 255]`. -/
def doCrc4 (tab : Table) (q : BitVec 32) : BitVec 32 := doCrcRows tab 0 q

/-- `DO_CRC8`: `t7[(q) & 255] ^ t6[(q >> 8) & 255] ^ t5[(q >> 16) & 255] ^ t4[(q >> 24) & 255]`. -/
def doCrc8 (tab : Table) (q : BitVec 32) : BitVec 32 := doCrcRows tab 4 q

/-- `*++b`: the 32-bit word at four bytes, read little-endian. -/
def load32 (b0 b1 b2 b3 : BitVec 8) : BitVec 32 := b3 ++ b2 ++ b1 ++ b0

/-- The alignment loop of `crc32_body`, entered with bytes left and `buf` not 4-aligned:
`do { DO_CRC(*buf++); } while ((--len) && ((long)buf)&3);`. It returns the register, the
address reached and the bytes left. -/
def alignLoop (tab : Table) (crc : BitVec 32) (addr : Nat) :
    List (BitVec 8) → BitVec 32 × Nat × List (BitVec 8)
  | [] => (crc, addr, [])
  | x :: rest =>
    if rest ≠ [] ∧ (addr + 1) &&& 3 ≠ 0 then alignLoop tab (doCrc tab crc x) (addr + 1) rest
    else (doCrc tab crc x, addr + 1, rest)

/-- The block loop of `crc32_body` with `CRC_LE_BITS == 32`, `n` blocks to go:
`q = crc ^ *++b; crc = DO_CRC4;`. -/
def sliceBy4Loop (tab : Table) : Nat → BitVec 32 → List (BitVec 8) → BitVec 32 × List (BitVec 8)
  | n + 1, crc, b0 :: b1 :: b2 :: b3 :: rest =>
    sliceBy4Loop tab n (doCrc4 tab (crc ^^^ load32 b0 b1 b2 b3)) rest
  | _, crc, buf => (crc, buf)

/-- The block loop of `crc32_body` with `CRC_LE_BITS == 64`, `n` blocks to go:
`q = crc ^ *++b; crc = DO_CRC8; q = *++b; crc ^= DO_CRC4;`. -/
def sliceBy8Loop (tab : Table) : Nat → BitVec 32 → List (BitVec 8) → BitVec 32 × List (BitVec 8)
  | n + 1, crc, b0 :: b1 :: b2 :: b3 :: b4 :: b5 :: b6 :: b7 :: rest =>
    sliceBy8Loop tab n (doCrc8 tab (crc ^^^ load32 b0 b1 b2 b3) ^^^ doCrc4 tab (load32 b4 b5 b6 b7))
      rest
  | _, crc, buf => (crc, buf)

/-- `crc32_body(crc, buf, len, tab)` on a little-endian x86 CPU: the bytes up to a 4-aligned
address one at a time, then `len >> 2` (or `len >> 3`) blocks, then the `len & 3` (or
`len & 7`) bytes left one at a time. -/
def crc32Body (bits : CrcBits) (crc : BitVec 32) (addr : Nat) (buf : List (BitVec 8))
    (tab : Table) : BitVec 32 :=
  let (crc, _, buf) :=
    if addr &&& 3 ≠ 0 ∧ buf ≠ [] then alignLoop tab crc addr buf else (crc, addr, buf)
  let (crc, rest) :=
    if bits = .thirtyTwo then sliceBy4Loop tab (buf.length >>> 2) crc buf
    else sliceBy8Loop tab (buf.length >>> 3) crc buf
  rest.foldl (doCrc tab) crc

/-! ### The entry points -/

/-- `crc = (crc >> shift) ^ tab[0][crc & mask];`, one table step of `crc32_le_generic`. -/
def leTableStep (tab : Table) (shift : Nat) (mask crc : BitVec 32) : BitVec 32 :=
  (crc >>> shift) ^^^ tab.entry 0 (crc &&& mask).toNat

/-- `crc = (crc << shift) ^ tab[0][crc >> top];`, one table step of `crc32_be_generic`. -/
def beTableStep (tab : Table) (shift top : Nat) (crc : BitVec 32) : BitVec 32 :=
  (crc <<< shift) ^^^ tab.entry 0 (crc >>> top).toNat

/-- `crc32_le_generic(crc, p, len, tab, polynomial)` for each `CRC_LE_BITS`. -/
def crc32LeGeneric (bits : CrcBits) (crc : BitVec 32) (addr : Nat) (p : List (BitVec 8))
    (tab : Table) (polynomial : BitVec 32) : BitVec 32 :=
  match bits with
  | .one => p.foldl (fun crc x => (crcLeBit polynomial)^[8] (crc ^^^ widen x)) crc
  | .two => p.foldl (fun crc x => (leTableStep tab 2 3)^[4] (crc ^^^ widen x)) crc
  | .four => p.foldl (fun crc x => (leTableStep tab 4 15)^[2] (crc ^^^ widen x)) crc
  | .eight => p.foldl (fun crc x => leTableStep tab 8 255 (crc ^^^ widen x)) crc
  -- `__cpu_to_le32` and `__le32_to_cpu` around the body are the identity here
  | .thirtyTwo | .sixtyFour => crc32Body bits crc addr p tab

/-- `crc32_be_generic(crc, p, len, tab, polynomial)` for each `CRC_BE_BITS`. -/
def crc32BeGeneric (bits : CrcBits) (crc : BitVec 32) (addr : Nat) (p : List (BitVec 8))
    (tab : Table) (polynomial : BitVec 32) : BitVec 32 :=
  match bits with
  | .one => p.foldl (fun crc x => (crcBeBit polynomial)^[8] (crc ^^^ (widen x <<< 24))) crc
  | .two => p.foldl (fun crc x => (beTableStep tab 2 30)^[4] (crc ^^^ (widen x <<< 24))) crc
  | .four => p.foldl (fun crc x => (beTableStep tab 4 28)^[2] (crc ^^^ (widen x <<< 24))) crc
  | .eight => p.foldl (fun crc x => beTableStep tab 8 24 (crc ^^^ (widen x <<< 24))) crc
  | .thirtyTwo | .sixtyFour => swab32 (crc32Body bits (swab32 crc) addr p tab)

def crc32Le (bits : CrcBits) (crc : BitVec 32) (addr : Nat) (p : List (BitVec 8)) : BitVec 32 :=
  crc32LeGeneric bits crc addr p (crc32tableLe bits) crcpolyLe

def crc32cLe (bits : CrcBits) (crc : BitVec 32) (addr : Nat) (p : List (BitVec 8)) : BitVec 32 :=
  crc32LeGeneric bits crc addr p (crc32ctableLe bits) crc32cPolyLe

def crc32Be (bits : CrcBits) (crc : BitVec 32) (addr : Nat) (p : List (BitVec 8)) : BitVec 32 :=
  crc32BeGeneric bits crc addr p (crc32tableBe bits) crcpolyBe

end LinuxKernel.Crc32
