import Mathlib
import LinuxKernel.Foundation.GuardedWrite
import LinuxKernel.Printf.FormatDecode

/-!
# `vsnprintf`

`lib/vsprintf.c` on a 64-bit kernel. Output goes through a `Cursor` guarded by
`if (str < end)`; a `va_list` is the list of its words. What `pointer()` prints is a parameter,
and the store of `%n` is not modelled.
-/

namespace LinuxKernel.Vsprintf

open GuardedWrite GuardedWrite.Cursor

/-- A `va_list` argument: its word and, read as a `char *`, the bytes of the string it points
to, up to its NUL. -/
structure VaArg where
  word : UInt64
  str : List UInt8

/-- `va_arg`: the next argument; past the end it reads a zero word. -/
def vaArg (args : List VaArg) : VaArg := args.headD ⟨0, []⟩

/-! ### Decimal digits: `put_dec` -/

/-- `static const char digits[16] = "0123456789ABCDEF"`. -/
def digits : List UInt8 :=
  ['0', '1', '2', '3', '4', '5', '6', '7', '8', '9', 'A', 'B', 'C', 'D', 'E', 'F'].map
    Char.toUInt8

/-- `(x * (uint64_t)0x1999999a) >> 32`, a quotient by ten. -/
def div10Wide (x : UInt32) : UInt32 := ((x.toUInt64 * 0x1999999a) >>> 32).toUInt32

/-- `(x * m) >> s` in 32 bits, a quotient by ten for small `x`. -/
def div10Narrow (m s : UInt32) (x : UInt32) : UInt32 := (x * m) >>> s

/-- `(x - 10 * q) + '0'`. -/
def decDigit (x q : UInt32) : UInt8 := (x - 10 * q + 48).toUInt8

/-- The straight-line bodies of `put_dec_full9` and `put_dec_trunc8`: a digit for each
quotient step of `qs`, then the last quotient as a digit. With `stop`, a zero quotient
returns early. -/
def decSteps (stop : Bool) : List (UInt32 → UInt32) → UInt32 → List UInt8
  | [], x => [(x + 48).toUInt8]
  | div :: qs, x =>
    let q := div x
    decDigit x q :: if stop ∧ q = 0 then [] else decSteps stop qs q

/-- `put_dec_full9`: the nine digits of `q < 10^9`, least significant first. -/
def putDecFull9 (q : UInt32) : List UInt8 :=
  decSteps false [div10Wide, div10Wide, div10Wide, div10Wide, div10Wide,
    div10Narrow 0x199a 16, div10Narrow 0xcd 11, div10Narrow 0xcd 11] q

/-- `put_dec_trunc8`: the digits of `r < 10^8` without leading zeros. -/
def putDecTrunc8 (r : UInt32) : List UInt8 :=
  decSteps true [div10Wide, div10Wide, div10Wide, div10Wide,
    div10Narrow 0x199a 16, div10Narrow 0xcd 11, div10Narrow 0xcd 11] r

/-- `while (n >= 1000*1000*1000) buf = put_dec_full9(buf, do_div(n, 1000*1000*1000));`:
the digits written and the `n` left. -/
def putDecGroups (n : UInt64) : List UInt8 × UInt64 :=
  if n ≥ 1000000000 then
    let r := putDecGroups (n / 1000000000)
    (putDecFull9 (n % 1000000000).toUInt32 ++ r.1, r.2)
  else ([], n)
termination_by n.toNat
decreasing_by
  have h : 1000000000 ≤ n.toNat := by simpa using UInt64.le_iff_toNat_le.mp ‹1000000000 ≤ n›
  rw [UInt64.toNat_div]
  exact Nat.div_lt_self (by omega) (by decide)

def putDec (n : UInt64) : List UInt8 :=
  if n ≥ 100000000 then
    let r := putDecGroups n
    if r.2 ≥ 100000000 then r.1 ++ putDecFull9 r.2.toUInt32 else r.1 ++ putDecTrunc8 r.2.toUInt32
  else putDecTrunc8 n.toUInt32

/-- `put_dec_full4` of the second algorithm: the four digits of `q < 10^4`, least significant
first. -/
def putDecFull4 (q : UInt32) : List UInt8 :=
  decSteps false [div10Narrow 0xcccd 19, div10Narrow 0x199a 16, div10Narrow 0xcd 11] q

/-- `while (buf[-1] == '0') --buf;`: the zeros written last, the leading zeros of the number,
are taken back. -/
def putDecStripZeros (out : List UInt8) : List UInt8 := (out.reverse.dropWhile (· == 48)).reverse

/-- `put_dec` of the second algorithm: `n` split into four 16-bit chunks, recombined into groups
of four decimal digits by the base-10000 digits of `2^16`, `2^32` and `2^48`, with no 64-bit
division. -/
def putDec32 (n : UInt64) : List UInt8 :=
  if n < 100000000 then putDecTrunc8 n.toUInt32
  else
    let d1 : UInt32 := n.toUInt32 >>> 16
    let h : UInt32 := (n >>> 32).toUInt32
    let d2 : UInt32 := h &&& 0xffff
    let d3 : UInt32 := h >>> 16
    let q : UInt32 := 656 * d3 + 7296 * d2 + 5536 * d1 + (n.toUInt32 &&& 0xffff)
    let out := putDecFull4 (q % 10000)
    let q := q / 10000
    let d1 := q + 7671 * d3 + 9496 * d2 + 6 * d1
    let out := out ++ putDecFull4 (d1 % 10000)
    let q := d1 / 10000
    let d2 := q + 4749 * d3 + 42 * d2
    let out := out ++ putDecFull4 (d2 % 10000)
    let q := d2 / 10000
    let d3 := q + 281 * d3
    -- `if (!d3) goto done;` and `if (!q) goto done;`
    let out := if d3 = 0 then out
      else if d3 / 10000 = 0 then out ++ putDecFull4 (d3 % 10000)
      else out ++ putDecFull4 (d3 % 10000) ++ putDecFull4 (d3 / 10000)
    putDecStripZeros out

/-- `num_to_str(buf, size, num)`, with `put` the `put_dec` the kernel is built with: the buffer
after it and the return value. -/
def numToStr (put : UInt64 → List UInt8) (buf : Nat → UInt8) (size : Int) (num : UInt64) :
    (Nat → UInt8) × Int :=
  let tmp := if num ≤ 9 then [(num + 48).toUInt8] else put num
  let len := tmp.length
  if size < len then (buf, 0)
  else (fun idx => if idx < len then tmp.getD (len - idx - 1) 0 else buf idx, len)

/-! ### `number` -/

/-- The `do ... while (num)` loop of `number` for base 8 or 16, with `shift` 4 for `hex`. -/
def digitsPow2 (locase mask : UInt8) (hex : Bool) (num : UInt64) : List UInt8 :=
  let d := digits.getD (num.toUInt8 &&& mask).toNat 0 ||| locase
  let num' := num >>> (if hex then 4 else 3)
  if num' = 0 then [d] else d :: digitsPow2 locase mask hex num'
termination_by num.toNat
decreasing_by
  have hpos : 0 < num.toNat := by
    rcases Nat.eq_zero_or_pos num.toNat with h0 | h0
    · have hz : num = 0 := UInt64.toNat_inj.mp h0
      exact absurd (by simp [num', hz]) ‹¬num' = 0›
    · exact h0
  rw [UInt64.toNat_shiftRight, Nat.shiftRight_eq_div_pow]
  exact Nat.div_lt_self hpos (Nat.one_lt_two_pow (by split <;> decide))

/-- `tmp[]` of `number`: the digits of `num`, least significant first. -/
def numberDigits (num : UInt64) (base locase : UInt8) : List UInt8 :=
  if num < base.toUInt64 then [digits.getD num.toNat 0 ||| locase]
  else if base ≠ 10 then digitsPow2 locase (base - 1) (base == 16) num
  else putDec num

/-- The sign block of `number`: the sign character, `0` for none, and the magnitude. The
field width loses one exactly when there is a sign. -/
def numberSign (flags : UInt8) (num : UInt64) : UInt8 × UInt64 :=
  if flags &&& Flags.sign ≠ 0 then
    if num.toInt64 < 0 then ('-'.toUInt8, -num)
    else if flags &&& Flags.plus ≠ 0 then ('+'.toUInt8, num)
    else if flags &&& Flags.space ≠ 0 then (' '.toUInt8, num)
    else (0, num)
  else (0, num)

def number (bound : Option Nat) (buf : Cursor UInt8) (num : UInt64) (spec : PrintfSpec) :
    Cursor UInt8 :=
  let needPfx := spec.flags &&& Flags.special ≠ 0 ∧ spec.base ≠ 10
  let isZero := num = 0
  let locase := spec.flags &&& Flags.small
  let flags :=
    if spec.flags &&& Flags.left ≠ 0 then spec.flags &&& ~~~Flags.zeropad else spec.flags
  let sign := (numberSign flags num).1
  let num := (numberSign flags num).2
  let fieldWidth := if sign ≠ 0 then spec.fieldWidth - 1 else spec.fieldWidth
  let fieldWidth :=
    if needPfx then
      if spec.base = 16 then fieldWidth - 2
      else if ¬isZero then fieldWidth - 1 else fieldWidth
    else fieldWidth
  let tmp := numberDigits num spec.base locase
  -- printing 100 using %2d gives "100", not "00"
  let precision : Int16 :=
    if (tmp.length : Int) > spec.precision.toInt then tmp.length.toInt16 else spec.precision
  let fieldWidth := fieldWidth - precision
  -- leading space padding
  let lead :=
    if flags &&& (Flags.zeropad + Flags.left) = 0 then
      buf.preDecPad 0 bound ' '.toUInt8 fieldWidth
    else (fieldWidth, buf)
  let buf := if sign ≠ 0 then lead.2.put bound sign else lead.2
  -- "0x" / "0" prefix
  let buf := if needPfx ∧ (spec.base = 16 ∨ ¬isZero) then buf.put bound '0'.toUInt8 else buf
  let buf := if needPfx ∧ spec.base = 16 then buf.put bound ('X'.toUInt8 ||| locase) else buf
  -- zero or space padding
  let pad :=
    if flags &&& Flags.left = 0 then
      buf.preDecPad 0 bound (if flags &&& Flags.zeropad ≠ 0 then '0'.toUInt8 else ' '.toUInt8)
        lead.1
    else (lead.1, buf)
  -- `while (i <= --spec.precision)`: more zero padding
  let buf := (pad.2.preDecPad tmp.length bound '0'.toUInt8 precision).2
  let buf := buf.putList bound tmp.reverse
  -- trailing space padding
  (buf.preDecPad 0 bound ' '.toUInt8 pad.1).2

/-! ### `string` -/

/-- `"(null)"`. -/
def nullStr : List UInt8 := ['(', 'n', 'u', 'l', 'l', ')'].map Char.toUInt8

/-- `strnlen(s, count)` of a string whose bytes before the NUL are `s`. -/
def strnlen (s : List UInt8) (count : Nat) : Nat := min s.length count

/-- The bytes `string` prints from: `"(null)"` for a pointer below `PAGE_SIZE`. -/
def stringBytes (s : VaArg) : List UInt8 := if s.word.toNat < pageSize then nullStr else s.str

/-- `len = strnlen(s, spec.precision)`: the `s16` precision is taken as a `size_t`, and the
count is stored in an `int`. -/
def stringLen (s : VaArg) (spec : PrintfSpec) : Int32 :=
  (strnlen (stringBytes s) spec.precision.toInt64.toUInt64.toNat).toInt32

/-- `string`. Below `-2^15` its `int len` makes the padding loops never end. -/
def string (bound : Option Nat) (buf : Cursor UInt8) (s : VaArg) (spec : PrintfSpec) :
    Option (Cursor UInt8) := do
  let len := stringLen s spec
  let lead ←
    if spec.flags &&& Flags.left = 0 then
      buf.postDecPad len.toInt bound ' '.toUInt8 spec.fieldWidth
    else pure (spec.fieldWidth, buf)
  let buf := lead.2.putList bound ((stringBytes s).take len.toInt.toNat)
  let trail ← buf.postDecPad len.toInt bound ' '.toUInt8 lead.1
  pure trail.2

/-! ### The loop of `vsnprintf` -/

/-- The `num = va_arg(...)` of each integer type, as an `unsigned long long`. -/
def vaNumber (type : FormatType) (w : UInt64) : UInt64 :=
  match type with
  | .longLong | .ulong | .long | .sizeT | .ptrdiff => w
  | .ubyte => w.toUInt8.toUInt64
  | .byte => w.toUInt8.toInt8.toInt64.toUInt64
  | .ushort => w.toUInt16.toUInt64
  | .short => w.toUInt16.toInt16.toInt64.toUInt64
  | .int => w.toUInt32.toInt32.toInt64.toUInt64
  | _ => w.toUInt32.toUInt64

section Loop

variable (pointer : List UInt8 → UInt64 → PrintfSpec → List UInt8)

/-- One round of the `while (*fmt)` loop: the format, arguments and `spec` it leaves, and the
cursor `str`; `none` when the round does not end. -/
def vsnStep (bound : Option Nat) (fmt : List UInt8) (args : List VaArg) (spec : PrintfSpec)
    (str : Cursor UInt8) : Option (List UInt8 × List VaArg × PrintfSpec × Cursor UInt8) :=
  let read := (formatDecode fmt spec).1
  let spec := (formatDecode fmt spec).2
  let oldFmt := fmt
  let fmt := fmt.drop read
  match spec.type with
  | .none => some (fmt, args, spec, str.copy bound (oldFmt.take read))
  | .width =>
    some (fmt, args.tail, { spec with fieldWidth := (vaArg args).word.toUInt32.toInt32.toInt16 },
      str)
  | .precision =>
    some (fmt, args.tail, { spec with precision := (vaArg args).word.toUInt32.toInt32.toInt16 },
      str)
  | .char =>
    let lead :=
      if spec.flags &&& Flags.left = 0 then str.preDecPad 1 bound ' '.toUInt8 spec.fieldWidth
      else (spec.fieldWidth, str)
    let str := lead.2.put bound (vaArg args).word.toUInt8
    let trail := str.preDecPad 1 bound ' '.toUInt8 lead.1
    some (fmt, args.tail, { spec with fieldWidth := trail.1 }, trail.2)
  | .str => (string bound str (vaArg args) spec).map fun str => (fmt, args.tail, spec, str)
  | .ptr =>
    some (fmt.dropWhile isalnum, args.tail, spec,
      str.putList bound (pointer (fmt.drop 1) (vaArg args).word spec))
  | .percentChar => some (fmt, args, spec, str.put bound '%'.toUInt8)
  | .invalid => some (fmt, args, spec, str.put bound '%'.toUInt8)
  | .nrchars => some (fmt, args.tail, spec, str)
  | _ => some (fmt, args.tail, spec, number bound str (vaNumber spec.type (vaArg args).word) spec)

/-- The measure of the loop: two per byte of format left, and one while a `*` waits. -/
def vsnMeasure (fmt : List UInt8) (spec : PrintfSpec) : Nat := 2 * fmt.length + spec.type.pendingArg

variable {pointer} {bound : Option Nat} {fmt fmt' : List UInt8} {args args' : List VaArg}
  {spec spec' : PrintfSpec} {str str' : Cursor UInt8}

theorem vsnStep_shape (hstep : vsnStep pointer bound fmt args spec str = some (fmt', args', spec', str')) :
    fmt' <:+ (decodeSpec fmt spec).1 ∧ spec'.type = (decodeSpec fmt spec).2.type := by
  unfold vsnStep at hstep
  simp only [drop_formatDecode, formatDecode_snd] at hstep
  split at hstep
  all_goals simp only [Option.some.injEq, Prod.mk.injEq, Option.map_eq_some_iff] at hstep
  -- `%s` goes through `string`; every other round is one `some`
  all_goals
    first
    | obtain ⟨_, -, rfl, -, rfl, -⟩ := hstep
      exact ⟨List.suffix_refl _, rfl⟩
    | obtain ⟨rfl, -, rfl, -⟩ := hstep
      first
      | exact ⟨List.suffix_refl _, rfl⟩
      | exact ⟨List.dropWhile_suffix _, rfl⟩

theorem vsnStep_measure (h : fmt.headD 0 ≠ 0)
    (hstep : vsnStep pointer bound fmt args spec str = some (fmt', args', spec', str')) :
    vsnMeasure fmt' spec' < vsnMeasure fmt spec := by
  obtain ⟨hsuf, htype⟩ := vsnStep_shape hstep
  have hdec := decodeSpec_measure fmt spec h
  have hle := hsuf.length_le
  unfold vsnMeasure
  rw [htype]
  omega

variable (pointer)

/-- The `while (*fmt)` loop of `vsnprintf`; `none` when it does not end. -/
def vsnLoop (bound : Option Nat) (fmt : List UInt8) (args : List VaArg) (spec : PrintfSpec)
    (str : Cursor UInt8) : Option (Cursor UInt8) :=
  if fmt.headD 0 = 0 then some str
  else
    match _step : vsnStep pointer bound fmt args spec str with
    | none => none
    | some (fmt', args', spec', str') => vsnLoop bound fmt' args' spec' str'
termination_by vsnMeasure fmt spec
decreasing_by exact vsnStep_measure ‹_› _step

variable {pointer}

theorem vsnLoop_nul (h : fmt.headD 0 = 0) : vsnLoop pointer bound fmt args spec str = some str := by
  rw [vsnLoop, if_pos h]

theorem vsnLoop_step (h : fmt.headD 0 ≠ 0)
    (hstep : vsnStep pointer bound fmt args spec str = some (fmt', args', spec', str')) :
    vsnLoop pointer bound fmt args spec str = vsnLoop pointer bound fmt' args' spec' str' := by
  rw [vsnLoop, if_neg h]
  split
  · rename_i hs
    rw [hstep] at hs
    cases hs
  · rename_i hs
    rw [hstep] at hs
    simp only [Option.some.injEq, Prod.mk.injEq] at hs
    obtain ⟨rfl, rfl, rfl, rfl⟩ := hs
    rfl

variable (pointer)

/-- `vsnprintf` into `buf` of `size` bytes: the `int` it returns, and the buffer. -/
def vsnprintf (buf : Nat → UInt8) (size : UInt64) (fmt : List UInt8) (args : List VaArg) :
    Option (Int32 × (Nat → UInt8)) :=
  -- reject out-of-range values early
  if size.toUInt32.toInt32 < 0 then some (0, buf)
  else
    let endPos := size.toNat
    (vsnLoop pointer (some endPos) fmt args PrintfSpec.zero ⟨buf, 0⟩).map fun str =>
      let mem :=
        if size > 0 then
          if str.pos < endPos then Function.update str.mem str.pos 0
          else Function.update str.mem (endPos - 1) 0
        else str.mem
      (str.pos.toInt32, mem)

/-- `vscnprintf`: `i < size` compares the `int` as a `size_t`. -/
def vscnprintf (buf : Nat → UInt8) (size : UInt64) (fmt : List UInt8) (args : List VaArg) :
    Option (Int32 × (Nat → UInt8)) :=
  (vsnprintf pointer buf size fmt args).map fun r =>
    if r.1.toInt64.toUInt64 < size then r
    else if size ≠ 0 then ((size - 1).toUInt32.toInt32, r.2)
    else (0, r.2)

end Loop

end LinuxKernel.Vsprintf
