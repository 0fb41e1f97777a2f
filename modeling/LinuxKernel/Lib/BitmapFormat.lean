import LinuxKernel.Foundation.Bitmap
import LinuxKernel.Lib.Ctype
import LinuxKernel.Creds.Types

/-!
# Bitmap strings

`lib/bitmap.c`: `bitmap_scnprintf` and `__bitmap_parse` (hex, in comma-separated 32-bit
chunks), `bitmap_scnlistprintf` and `__bitmap_parselist` (decimal numbers and ranges). A bitmap
is the number its bits spell; a buffer is the list of its bytes before the NUL.
-/

namespace LinuxKernel

def chunksz : Nat := 32

/-- `scnprintf(buf + len, size, ...)` of the text `s` after the bytes `out`: as much of `s` as
fits with the NUL in `size` bytes. -/
def scnprintf (out : List UInt8) (size : Nat) (s : List UInt8) : List UInt8 :=
  out ++ s.take (size - 1)

/-- The digits of `n` in base `b`, in lowercase, as `%d` and `%lx` print them. -/
def digitsText (b n : Nat) : List UInt8 := (Nat.toDigits b n).map fun c => c.toNat.toUInt8

/-- `%0*lx` of `val` with width `w`: its hex digits, padded with `'0'` on the left. -/
def hexText (w val : Nat) : List UInt8 :=
  List.replicate (w - (digitsText 16 val).length) 48 ++ digitsText 16 val

/-! ### Hex chunks -/

/-- The loop `for (; i >= 0; i -= CHUNKSZ)` of `bitmap_scnprintf` over the `k` chunks left, the
next one `chunksz'` bits wide at bit `i`. -/
def bitmapScnprintfLoop (buflen mask : Nat) : Nat → Nat → Nat → List UInt8 → List UInt8 → List UInt8
  | 0, _, _, _, out => out
  | k + 1, i, chunksz', sep, out =>
    let val := mask / 2 ^ i % 2 ^ chunksz'
    let out := scnprintf out (buflen - out.length) (sep ++ hexText ((chunksz' + 3) / 4) val)
    bitmapScnprintfLoop buflen mask k (i - chunksz) chunksz [44] out

/-- `bitmap_scnprintf(buf, buflen, maskp, nmaskbits)`: the first chunk holds the bits past the
last whole chunk. -/
def bitmapScnprintf (buflen mask nmaskbits : Nat) : List UInt8 :=
  let chunksz' := if nmaskbits % chunksz = 0 then chunksz else nmaskbits % chunksz
  let chunks := (nmaskbits + chunksz - 1) / chunksz
  bitmapScnprintfLoop buflen mask chunks (chunks * chunksz - chunksz) chunksz' [] []

/-- `hex_to_bin(c)`, as `(chunk << 4) | hex_to_bin(c)` ors it into a `u32`: `-1` is all ones.
`tolower` and `_tolower` agree on which bytes they take to `'a'`–`'f'`. -/
def hexToBin (c : UInt8) : UInt32 :=
  if 48 ≤ c ∧ c ≤ 57 then (c - 48).toUInt32
  else if 97 ≤ tolower c ∧ tolower c ≤ 102 then (tolower c - 97 + 10).toUInt32
  else 0xFFFFFFFF

/-- `nbits_to_hold_value(val)`, that is `fls(val)`. -/
def nbitsToHoldValue (val : Nat) : Nat := val.size

/-- What the loop `while (buflen)` of `__bitmap_parse` has read of a chunk when it stops at a
`'\0'`, a `','` or the end of the buffer. -/
structure HexChunk where
  chunk : UInt32
  ndigits : Nat
  totaldigits : Nat
  rest : List UInt8
  c : UInt8

/-- The loop `while (buflen)` of `__bitmap_parse`, after the byte `oldC`. -/
def bitmapParseChunk : List UInt8 → UInt8 → UInt32 → Nat → Nat → Except Errno HexChunk
  | [], c, chunk, ndigits, totaldigits => .ok ⟨chunk, ndigits, totaldigits, [], c⟩
  | c :: buf, oldC, chunk, ndigits, totaldigits =>
    if isspace c then bitmapParseChunk buf c chunk ndigits totaldigits
    -- a space and then a byte that is not NUL: embedded whitespace
    else if totaldigits ≠ 0 ∧ c ≠ 0 ∧ isspace oldC then .error .inval
    else if c = 0 ∨ c = 44 then .ok ⟨chunk, ndigits, totaldigits, buf, c⟩
    else if !isxdigit c then .error .inval
    else if chunk.toUInt64 &&& ~~~((1 <<< (chunksz - 4).toUInt64) - 1) ≠ 0 then .error .overflow
    else bitmapParseChunk buf c ((chunk <<< 4) ||| hexToBin c) (ndigits + 1) (totaldigits + 1)

theorem bitmapParseChunk_rest_lt {buf : List UInt8} {oldC : UInt8} {chunk : UInt32} {ndigits totaldigits : Nat}
    {r : HexChunk} (h : bitmapParseChunk buf oldC chunk ndigits totaldigits = .ok r) (more : r.rest ≠ []) :
    r.rest.length < buf.length := by
  induction buf generalizing oldC chunk ndigits totaldigits with
  | nil =>
    rw [bitmapParseChunk] at h
    cases h
    exact absurd rfl more
  | cons c buf ih =>
    rw [bitmapParseChunk] at h
    split at h
    · exact Nat.lt_succ_of_lt (ih h)
    split at h
    · cases h
    split at h
    · cases h
      exact Nat.lt_succ_self _
    split at h
    · cases h
    split at h
    · cases h
    · exact Nat.lt_succ_of_lt (ih h)

/-- The loop `do ... while (buflen && c == ',')` of `__bitmap_parse`, from the chunk that starts
at `buf`. -/
def bitmapParseLoop (nmaskbits : Nat) (buf : List UInt8) (c : UInt8) (totaldigits nchunks nbits mask : Nat) :
    Except Errno Unit × Nat :=
  match _h : bitmapParseChunk buf c 0 0 totaldigits with
  | .error e => (.error e, mask)
  | .ok r =>
    if r.ndigits = 0 then (.error .inval, mask)
    -- leading zero chunks are skipped: `continue` goes to the loop test
    else if nchunks = 0 ∧ r.chunk = 0 then
      if _more : r.rest ≠ [] ∧ r.c = 44 then bitmapParseLoop nmaskbits r.rest r.c r.totaldigits nchunks nbits mask
      else (.ok (), mask)
    else
      let mask := (mask <<< chunksz) % 2 ^ nmaskbits ||| r.chunk.toNat
      let nchunks := nchunks + 1
      let nbits := nbits + if nchunks = 1 then nbitsToHoldValue r.chunk.toNat else chunksz
      if nbits > nmaskbits then (.error .overflow, mask)
      else if _more : r.rest ≠ [] ∧ r.c = 44 then bitmapParseLoop nmaskbits r.rest r.c r.totaldigits nchunks nbits mask
      else (.ok (), mask)
termination_by buf.length
decreasing_by
  all_goals exact bitmapParseChunk_rest_lt _h _more.1

def bitmapParse (buf : List UInt8) (nmaskbits : Nat) : Except Errno Unit × Nat :=
  bitmapParseLoop nmaskbits buf 0 0 0 0 0

/-- A chunk and then a comma that ends the buffer read as the chunk alone: the loop test
`buflen && c == ','` fails on the empty buffer before the empty chunk after the comma is read,
though `","` and `"1,,5"` are refused. -/
theorem bitmapParse_trailing_comma (nmaskbits : Nat) (pos : 0 < nmaskbits) :
    bitmapParse [49, 44] nmaskbits = (.ok (), 1) := by
  have fits : ¬1 > nmaskbits := by omega
  rw [bitmapParse, bitmapParseLoop]
  simp [bitmapParseChunk, isspace, isxdigit, isdigit, hexToBin, chunksz, nbitsToHoldValue, fits]

theorem bitmapParse_trailing_comma_eight : 0 < 8 ∧ bitmapParse [49, 44] 8 = (.ok (), 1) :=
  ⟨by decide, bitmapParse_trailing_comma 8 (by decide)⟩

/-! ### Lists of ranges -/

/-- `bscnl_emit(buf, buflen, rbot, rtop, len)`: a comma after what is written, then `rbot`, or
`rbot-rtop`. -/
def bscnlEmit (buflen rbot rtop : Nat) (out : List UInt8) : List UInt8 :=
  let out := if out.length > 0 then scnprintf out (buflen - out.length) [44] else out
  if rbot = rtop then scnprintf out (buflen - out.length) (digitsText 10 rbot)
  else scnprintf out (buflen - out.length) (digitsText 10 rbot ++ [45] ++ digitsText 10 rtop)

theorem findNextBit_progress {n : Nat} (mask : BitVec n) {cur : Nat} (lt : cur < n) :
    n - Bitmap.findNextBit mask (cur + 1) < n - cur := by
  rcases Bitmap.findNextBit_ge (b := mask) (cur + 1) with h | h <;> omega

/-- The loop `while (cur < nmaskbits)` of `bitmap_scnlistprintf`: the run of set bits from `rbot`
goes on to the next set bit. -/
def bitmapScnlistprintfLoop {n : Nat} (buflen : Nat) (mask : BitVec n) (cur rbot : Nat) (out : List UInt8) :
    List UInt8 :=
  if lt : cur < n then
    let rtop := cur
    let next := Bitmap.findNextBit mask (cur + 1)
    if next ≥ n ∨ next > rtop + 1 then bitmapScnlistprintfLoop buflen mask next next (bscnlEmit buflen rbot rtop out)
    else bitmapScnlistprintfLoop buflen mask next rbot out
  else out
termination_by n - cur
decreasing_by
  all_goals exact findNextBit_progress mask lt

def bitmapScnlistprintf (buflen mask nmaskbits : Nat) : List UInt8 :=
  if buflen = 0 then []
  else
    let mask := BitVec.ofNat nmaskbits mask
    let cur := Bitmap.findNextBit mask 0
    bitmapScnlistprintfLoop buflen mask cur cur []

/-- What the loop `while (buflen)` of `__bitmap_parselist` has read of an item when it stops at
a `'\0'`, a `','` or the end of the buffer. -/
structure ListItem where
  a : UInt32
  b : UInt32
  totaldigits : Nat
  rest : List UInt8
  c : UInt8

/-- The loop `while (buflen)` of `__bitmap_parselist`, after the byte `oldC`; `a` and `b` are
`unsigned`, so `b * 10 + (c - '0')` wraps. -/
def bitmapParselistItem : List UInt8 → UInt8 → UInt32 → UInt32 → Bool → Bool → Nat → Except Errno ListItem
  | [], c, a, b, _, _, totaldigits => .ok ⟨a, b, totaldigits, [], c⟩
  | c :: buf, oldC, a, b, expDigit, inRange, totaldigits =>
    if isspace c then bitmapParselistItem buf c a b expDigit inRange totaldigits
    else if totaldigits ≠ 0 ∧ c ≠ 0 ∧ isspace oldC then .error .inval
    else if c = 0 ∨ c = 44 then .ok ⟨a, b, totaldigits, buf, c⟩
    else if c = 45 then
      if expDigit ∨ inRange then .error .inval
      else bitmapParselistItem buf c a 0 true true totaldigits
    else if !isdigit c then .error .inval
    else
      let b := b * 10 + (c - 48).toUInt32
      bitmapParselistItem buf c (if inRange then a else b) b false inRange (totaldigits + 1)

theorem bitmapParselistItem_rest_lt {buf : List UInt8} {oldC : UInt8} {a b : UInt32} {expDigit inRange : Bool}
    {totaldigits : Nat} {r : ListItem} (h : bitmapParselistItem buf oldC a b expDigit inRange totaldigits = .ok r)
    (more : r.rest ≠ []) : r.rest.length < buf.length := by
  induction buf generalizing oldC a b expDigit inRange totaldigits with
  | nil =>
    rw [bitmapParselistItem] at h
    cases h
    exact absurd rfl more
  | cons c buf ih =>
    rw [bitmapParselistItem] at h
    split at h
    · exact Nat.lt_succ_of_lt (ih h)
    split at h
    · cases h
    split at h
    · cases h
      exact Nat.lt_succ_self _
    split at h
    · split at h
      · cases h
      · exact Nat.lt_succ_of_lt (ih h)
    split at h
    · cases h
    · exact Nat.lt_succ_of_lt (ih h)

/-- `while (a <= b) { set_bit(a, maskp); a++; }`, over the `k` bits from `a`. -/
def setBits (mask a : Nat) : Nat → Nat
  | 0 => mask
  | k + 1 => setBits (mask ||| 2 ^ a) (a + 1) k

/-- The loop `do ... while (buflen && c == ',')` of `__bitmap_parselist`, from the item that
starts at `buf`. -/
def bitmapParselistLoop (nmaskbits : Nat) (buf : List UInt8) (c : UInt8) (totaldigits mask : Nat) :
    Except Errno Unit × Nat :=
  match _h : bitmapParselistItem buf c 0 0 true false totaldigits with
  | .error e => (.error e, mask)
  | .ok r =>
    if ¬r.a ≤ r.b then (.error .inval, mask)
    else if r.b.toNat ≥ nmaskbits then (.error .range, mask)
    else
      let mask := setBits mask r.a.toNat (r.b.toNat + 1 - r.a.toNat)
      if _more : r.rest ≠ [] ∧ r.c = 44 then bitmapParselistLoop nmaskbits r.rest r.c r.totaldigits mask
      else (.ok (), mask)
termination_by buf.length
decreasing_by
  exact bitmapParselistItem_rest_lt _h _more.1

/-- `bitmap_parselist(bp, maskp, nmaskbits)`: `__bitmap_parselist` over the string up to its first
newline. -/
def bitmapParselist (bp : List UInt8) (nmaskbits : Nat) : Except Errno Unit × Nat :=
  bitmapParselistLoop nmaskbits (bp.takeWhile (· != 10)) 0 0 0

/-- The empty bitmap prints as the empty string, which `bitmap_parselist` reads as bit 0: the
item loop reads no digit and leaves `a = b = 0`, which passes both checks. -/
theorem bitmapParselist_empty_sets_bit_zero (buflen nmaskbits : Nat) (pos : 0 < nmaskbits) :
    bitmapScnlistprintf buflen 0 nmaskbits = [] ∧
      bitmapParselist (bitmapScnlistprintf buflen 0 nmaskbits) nmaskbits = (.ok (), 1) := by
  have printed : bitmapScnlistprintf buflen 0 nmaskbits = [] := by
    rw [bitmapScnlistprintf]
    split
    · rfl
    · have zero : BitVec.ofNat nmaskbits 0 = 0 := rfl
      dsimp only
      rw [zero, Bitmap.findNextBit_zero, bitmapScnlistprintfLoop, dif_neg (Nat.lt_irrefl _)]
  have fits : ¬nmaskbits ≤ 0 := by omega
  refine ⟨printed, ?_⟩
  rw [printed, bitmapParselist, List.takeWhile_nil, bitmapParselistLoop]
  simp [bitmapParselistItem, fits, setBits]

theorem bitmapParselist_empty_sets_bit_zero_eight :
    0 < 8 ∧ bitmapScnlistprintf 16 0 8 = [] ∧ bitmapParselist (bitmapScnlistprintf 16 0 8) 8 = (.ok (), 1) :=
  ⟨by decide, bitmapParselist_empty_sets_bit_zero 16 8 (by decide)⟩

end LinuxKernel
