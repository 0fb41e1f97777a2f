import Mathlib
import LinuxKernel.Lib.Ctype

/-!
# Format directives

`format_decode` reads one token of a format: literal text or one `%` directive. A `*` width or
precision returns to `vsnprintf` early; `FormatType.pendingArg` and `decodeSpec_measure` say why
the loop still ends.
-/

namespace LinuxKernel.Vsprintf

/-- `enum format_type`. -/
inductive FormatType
  | none | width | precision | char | str | ptr | percentChar | invalid
  | longLong | ulong | long | ubyte | byte | ushort | short | uint | int | nrchars
  | sizeT | ptrdiff
  deriving DecidableEq, Repr

structure PrintfSpec where
  type : FormatType
  flags : UInt8
  base : UInt8
  qualifier : UInt8
  fieldWidth : Int16
  precision : Int16
  deriving DecidableEq, Repr

/-- `struct printf_spec spec = {0}`. -/
def PrintfSpec.zero : PrintfSpec := ⟨.none, 0, 0, 0, 0, 0⟩

namespace Flags

def zeropad : UInt8 := 1
def sign : UInt8 := 2
def plus : UInt8 := 4
def space : UInt8 := 8
def left : UInt8 := 16
def small : UInt8 := 32
def special : UInt8 := 64

end Flags

/-- `skip_atoi` from an accumulator `i`: the `int` it reads (wrapping), and the rest. -/
def skipAtoiFrom (i : Int32) : List UInt8 → Int32 × List UInt8
  | c :: s => if isdigit c then skipAtoiFrom (i * 10 + c.toUInt32.toInt32 - 48) s else (i, c :: s)
  | [] => (i, [])

def skipAtoi (s : List UInt8) : Int32 × List UInt8 := skipAtoiFrom 0 s

/-- The flag characters of the `switch` in the flags loop, and the bit each sets. -/
def flagOf (c : UInt8) : Option UInt8 :=
  if c = '-'.toUInt8 then some Flags.left
  else if c = '+'.toUInt8 then some Flags.plus
  else if c = ' '.toUInt8 then some Flags.space
  else if c = '#'.toUInt8 then some Flags.special
  else if c = '0'.toUInt8 then some Flags.zeropad
  else none

/-- The `while (1)` loop over the flags, from the byte after the `%`. -/
def decodeFlags : List UInt8 → UInt8 → List UInt8 × UInt8
  | c :: s, flags =>
    match flagOf c with
    | some f => decodeFlags s (flags ||| f)
    | none => (c :: s, flags)
  | [], flags => ([], flags)

/-- The integer conversions of the `switch (*fmt)`: the base and flags each sets. -/
def integerConversion (c : UInt8) (spec : PrintfSpec) : Option PrintfSpec :=
  if c = 'o'.toUInt8 then some { spec with base := 8 }
  else if c = 'x'.toUInt8 then some { spec with flags := spec.flags ||| Flags.small, base := 16 }
  else if c = 'X'.toUInt8 then some { spec with base := 16 }
  else if c = 'd'.toUInt8 ∨ c = 'i'.toUInt8 then
    some { spec with flags := spec.flags ||| Flags.sign }
  else if c = 'u'.toUInt8 then some spec
  else none

/-- The type of an integer conversion, from its qualifier and `SIGN`. -/
def integerType (spec : PrintfSpec) : FormatType :=
  let signed := spec.flags &&& Flags.sign ≠ 0
  if spec.qualifier = 'L'.toUInt8 then .longLong
  else if spec.qualifier = 'l'.toUInt8 then (if signed then .long else .ulong)
  else if tolower spec.qualifier = 'z'.toUInt8 then .sizeT
  else if spec.qualifier = 't'.toUInt8 then .ptrdiff
  else if spec.qualifier = 'H'.toUInt8 then (if signed then .byte else .ubyte)
  else if spec.qualifier = 'h'.toUInt8 then (if signed then .short else .ushort)
  else if signed then .int else .uint

/-- The `switch (*fmt)` on the conversion character. `%p` and an invalid byte are left
unread. -/
def decodeConversion (s : List UInt8) (spec : PrintfSpec) : List UInt8 × PrintfSpec :=
  let c := s.headD 0
  if c = 'c'.toUInt8 then (s.tail, { spec with type := .char })
  else if c = 's'.toUInt8 then (s.tail, { spec with type := .str })
  else if c = 'p'.toUInt8 then (s, { spec with type := .ptr })
  else if c = 'n'.toUInt8 then (s.tail, { spec with type := .nrchars })
  else if c = '%'.toUInt8 then (s.tail, { spec with type := .percentChar })
  else
    match integerConversion c spec with
    | some spec => (s.tail, { spec with type := integerType spec })
    | none => (s, { spec with type := .invalid })

/-- From label `qualifier:` on: `h`, `l`, `L`, `z`, `Z` or `t`, with `hh` and `ll` as
`H` and `L`, then the conversion. -/
def decodeQualifier (s : List UInt8) (spec : PrintfSpec) : List UInt8 × PrintfSpec :=
  let c := s.headD 0
  let (s, qualifier) :=
    if c = 'h'.toUInt8 ∨ tolower c = 'l'.toUInt8 ∨ tolower c = 'z'.toUInt8 ∨ c = 't'.toUInt8 then
      if c = s.tail.headD 0 then
        if c = 'l'.toUInt8 then (s.tail.tail, 'L'.toUInt8)
        else if c = 'h'.toUInt8 then (s.tail.tail, 'H'.toUInt8)
        else (s.tail, c)
      else (s.tail, c)
    else (s, 255)
  decodeConversion s { spec with qualifier := qualifier, base := 10 }

/-- From label `precision:` on. The precision is stored in an `s16`, then clamped at 0. -/
def decodePrecision (s : List UInt8) (spec : PrintfSpec) : List UInt8 × PrintfSpec :=
  let spec := { spec with precision := -1 }
  if s.headD 0 = '.'.toUInt8 then
    let s := s.tail
    if isdigit (s.headD 0) then
      let p := (skipAtoi s).1.toInt16
      decodeQualifier (skipAtoi s).2 { spec with precision := if p < 0 then 0 else p }
    else if s.headD 0 = '*'.toUInt8 then (s.tail, { spec with type := .precision })
    else decodeQualifier s spec
  else decodeQualifier s spec

/-- The field width after the flags: digits, or `*` for the next argument. -/
def decodeWidth (s : List UInt8) (spec : PrintfSpec) : List UInt8 × PrintfSpec :=
  let spec := { spec with fieldWidth := -1 }
  if isdigit (s.headD 0) then
    decodePrecision (skipAtoi s).2 { spec with fieldWidth := (skipAtoi s).1.toInt16 }
  else if s.headD 0 = '*'.toUInt8 then (s.tail, { spec with type := .width })
  else decodePrecision s spec

/-- `format_decode` with `fmt` at its end: where the token ends, and the new `spec`. -/
def decodeSpec (fmt : List UInt8) (spec : PrintfSpec) : List UInt8 × PrintfSpec :=
  match spec.type with
  | .width =>
    -- we finished early by reading the field width; a negative one means `-`
    let spec :=
      if spec.fieldWidth < 0 then
        { spec with fieldWidth := -spec.fieldWidth, flags := spec.flags ||| Flags.left }
      else spec
    decodePrecision fmt { spec with type := .none }
  | .precision =>
    let spec := if spec.precision < 0 then { spec with precision := 0 } else spec
    decodeQualifier fmt { spec with type := .none }
  | _ =>
    let spec := { spec with type := .none }
    let s := fmt.dropWhile fun c => c != 0 && c != '%'.toUInt8
    -- the literal text before the next `%`, or the end of the format
    if s.length ≠ fmt.length ∨ s.headD 0 = 0 then (s, spec)
    else
      let (s, flags) := decodeFlags s.tail 0
      decodeWidth s { spec with flags := flags }

/-- `format_decode`: the number of bytes of `fmt` it read, and the new `spec`. -/
def formatDecode (fmt : List UInt8) (spec : PrintfSpec) : Nat × PrintfSpec :=
  (fmt.length - (decodeSpec fmt spec).1.length, (decodeSpec fmt spec).2)

@[simp] theorem formatDecode_snd (fmt : List UInt8) (spec : PrintfSpec) :
    (formatDecode fmt spec).2 = (decodeSpec fmt spec).2 := rfl

/-! ### Each call reads a suffix, and the loop of `vsnprintf` ends -/

/-- `1` while a `*` width or precision waits for its argument. -/
def FormatType.pendingArg : FormatType → Nat
  | .width => 1
  | .precision => 1
  | _ => 0

theorem skipAtoiFrom_suffix (i : Int32) (s : List UInt8) : (skipAtoiFrom i s).2 <:+ s := by
  fun_induction skipAtoiFrom i s with
  | case1 i c s h ih => exact ih.trans (List.suffix_cons c s)
  | case2 i c s h => exact List.suffix_refl _
  | case3 i => exact List.suffix_refl _

theorem skipAtoi_suffix (s : List UInt8) : (skipAtoi s).2 <:+ s := skipAtoiFrom_suffix 0 s

theorem decodeFlags_suffix (s : List UInt8) (flags : UInt8) : (decodeFlags s flags).1 <:+ s := by
  fun_induction decodeFlags s flags with
  | case1 c s flags f h ih => exact ih.trans (List.suffix_cons c s)
  | case2 c s flags h => exact List.suffix_refl _
  | case3 flags => exact List.suffix_refl _

theorem decodeConversion_suffix (s : List UInt8) (spec : PrintfSpec) :
    (decodeConversion s spec).1 <:+ s := by
  unfold decodeConversion
  dsimp only
  repeat' split
  all_goals first | exact List.suffix_refl _ | exact List.tail_suffix _

theorem integerType_pendingArg (spec : PrintfSpec) : (integerType spec).pendingArg = 0 := by
  unfold integerType
  dsimp only
  split_ifs <;> rfl

theorem decodeConversion_pendingArg (s : List UInt8) (spec : PrintfSpec) :
    (decodeConversion s spec).2.type.pendingArg = 0 := by
  unfold decodeConversion
  dsimp only
  split_ifs
  any_goals rfl
  split
  · exact integerType_pendingArg _
  · rfl

theorem decodeQualifier_suffix (s : List UInt8) (spec : PrintfSpec) :
    (decodeQualifier s spec).1 <:+ s := by
  unfold decodeQualifier
  dsimp only
  refine (decodeConversion_suffix _ _).trans ?_
  repeat' split
  all_goals
    first
    | exact List.suffix_refl _
    | exact List.tail_suffix _
    | exact (List.tail_suffix _).trans (List.tail_suffix _)

theorem decodeQualifier_pendingArg (s : List UInt8) (spec : PrintfSpec) :
    (decodeQualifier s spec).2.type.pendingArg = 0 :=
  decodeConversion_pendingArg _ _

/-- What one stage of the directive reads: a suffix, strictly shorter when it stops at a
`*`. -/
def ReadsSuffix (f : List UInt8 → PrintfSpec → List UInt8 × PrintfSpec) : Prop :=
  ∀ s spec, (f s spec).1 <:+ s ∧
    ((f s spec).2.type.pendingArg = 1 → (f s spec).1.length < s.length)

theorem readsSuffix_decodeQualifier : ReadsSuffix decodeQualifier := by
  intro s spec
  refine ⟨decodeQualifier_suffix s spec, fun h => ?_⟩
  rw [decodeQualifier_pendingArg] at h
  cases h

theorem length_tail_lt {s : List UInt8} (h : s.headD 0 ≠ 0) : s.tail.length < s.length := by
  cases s with
  | nil => exact absurd rfl h
  | cons c s => simp

theorem readsSuffix_decodePrecision : ReadsSuffix decodePrecision := by
  intro s spec
  unfold decodePrecision
  dsimp only
  split
  · rename_i hdot
    have hdot' : s.headD 0 ≠ 0 := by rw [hdot]; decide
    split
    · -- a literal precision, then the qualifier
      have h := readsSuffix_decodeQualifier (skipAtoi s.tail).2
        { spec with precision := if (skipAtoi s.tail).1.toInt16 < 0 then 0
                                 else (skipAtoi s.tail).1.toInt16 }
      exact ⟨h.1.trans ((skipAtoi_suffix _).trans (List.tail_suffix s)), fun hp =>
        absurd hp (by rw [decodeQualifier_pendingArg]; decide)⟩
    split
    · -- `.*`: the precision is the next argument
      exact ⟨(List.tail_suffix _).trans (List.tail_suffix s), fun _ =>
        Nat.lt_of_le_of_lt (List.tail_suffix _).length_le (length_tail_lt hdot')⟩
    · have h := readsSuffix_decodeQualifier s.tail { spec with precision := -1 }
      exact ⟨h.1.trans (List.tail_suffix s), fun hp =>
        absurd hp (by rw [decodeQualifier_pendingArg]; decide)⟩
  · exact readsSuffix_decodeQualifier s _

theorem readsSuffix_decodeWidth : ReadsSuffix decodeWidth := by
  intro s spec
  unfold decodeWidth
  dsimp only
  split
  · have h := readsSuffix_decodePrecision (skipAtoi s).2
      { spec with fieldWidth := (skipAtoi s).1.toInt16 }
    exact ⟨h.1.trans (skipAtoi_suffix s), fun hp =>
      Nat.lt_of_lt_of_le (h.2 hp) (skipAtoi_suffix s).length_le⟩
  split
  · rename_i hstar
    have hstar' : s.headD 0 ≠ 0 := by rw [hstar]; decide
    exact ⟨List.tail_suffix s, fun _ => length_tail_lt hstar'⟩
  · exact readsSuffix_decodePrecision s _

theorem decodeSpec_suffix (fmt : List UInt8) (spec : PrintfSpec) :
    (decodeSpec fmt spec).1 <:+ fmt := by
  unfold decodeSpec
  split
  · exact (readsSuffix_decodePrecision fmt _).1
  · exact decodeQualifier_suffix fmt _
  · dsimp only
    split
    · exact List.dropWhile_suffix _
    · exact ((readsSuffix_decodeWidth _ _).1.trans (decodeFlags_suffix _ _)).trans
        ((List.tail_suffix _).trans (List.dropWhile_suffix _))

theorem drop_formatDecode (fmt : List UInt8) (spec : PrintfSpec) :
    fmt.drop (formatDecode fmt spec).1 = (decodeSpec fmt spec).1 := by
  obtain ⟨t, ht⟩ := decodeSpec_suffix fmt spec
  have hlen : (formatDecode fmt spec).1 = t.length := by
    have h := congrArg List.length ht
    rw [List.length_append] at h
    unfold formatDecode
    omega
  calc fmt.drop (formatDecode fmt spec).1
      = (t ++ (decodeSpec fmt spec).1).drop t.length := by rw [hlen, ht]
    _ = (decodeSpec fmt spec).1 := List.drop_left

theorem FormatType.pendingArg_le_one (t : FormatType) : t.pendingArg ≤ 1 := by
  cases t <;> decide

theorem FormatType.pendingArg_eq_zero {t : FormatType} (hw : t ≠ .width)
    (hp : t ≠ .precision) : t.pendingArg = 0 := by
  cases t <;> simp_all [FormatType.pendingArg]

theorem ReadsSuffix.measure_le {f : List UInt8 → PrintfSpec → List UInt8 × PrintfSpec}
    (hf : ReadsSuffix f) (s : List UInt8) (spec : PrintfSpec) :
    2 * (f s spec).1.length + (f s spec).2.type.pendingArg ≤ 2 * s.length := by
  obtain ⟨hsuf, hlt⟩ := hf s spec
  have hle := hsuf.length_le
  have h1 := (f s spec).2.type.pendingArg_le_one
  by_cases hp : (f s spec).2.type.pendingArg = 1
  · have := hlt hp
    omega
  · omega

theorem literal_length_lt {fmt : List UInt8} (h : fmt.headD 0 ≠ 0)
    (hlit : (fmt.dropWhile fun c => c != 0 && c != '%'.toUInt8).length ≠ fmt.length ∨
      (fmt.dropWhile fun c => c != 0 && c != '%'.toUInt8).headD 0 = 0) :
    (fmt.dropWhile fun c => c != 0 && c != '%'.toUInt8).length < fmt.length := by
  have hsuf := List.dropWhile_suffix (l := fmt) fun c => c != 0 && c != '%'.toUInt8
  rcases hlit with hne | hnul
  · have := hsuf.length_le
    omega
  · rcases Nat.lt_or_ge _ fmt.length with hlt | hge
    · exact hlt
    · rw [hsuf.eq_of_length (Nat.le_antisymm hsuf.length_le hge)] at hnul
      exact absurd hnul h

theorem decodeSpec_measure (fmt : List UInt8) (spec : PrintfSpec) (h : fmt.headD 0 ≠ 0) :
    2 * (decodeSpec fmt spec).1.length + (decodeSpec fmt spec).2.type.pendingArg <
      2 * fmt.length + spec.type.pendingArg := by
  unfold decodeSpec
  split
  · rename_i hw
    refine Nat.lt_of_le_of_lt (readsSuffix_decodePrecision.measure_le fmt _) ?_
    simp [hw, FormatType.pendingArg]
  · rename_i hp
    refine Nat.lt_of_le_of_lt (readsSuffix_decodeQualifier.measure_le fmt _) ?_
    simp [hp, FormatType.pendingArg]
  · rename_i hw hp
    rw [FormatType.pendingArg_eq_zero hw hp]
    dsimp only
    split
    · rename_i hlit
      have := literal_length_lt h hlit
      simp only [FormatType.pendingArg]
      omega
    · -- a directive: the `%` and the flags, then the width and the rest
      rename_i hdir
      have hne : (fmt.dropWhile fun c => c != 0 && c != '%'.toUInt8).headD 0 ≠ 0 :=
        fun hnul => hdir (Or.inr hnul)
      have htail := length_tail_lt hne
      have hflags := (decodeFlags_suffix
        (fmt.dropWhile fun c => c != 0 && c != '%'.toUInt8).tail 0).length_le
      have hdrop := (List.dropWhile_suffix (l := fmt) fun c => c != 0 && c != '%'.toUInt8).length_le
      have := readsSuffix_decodeWidth.measure_le
        (decodeFlags (fmt.dropWhile fun c => c != 0 && c != '%'.toUInt8).tail 0).1
        { spec with type := .none,
                    flags := (decodeFlags (fmt.dropWhile fun c => c != 0 && c != '%'.toUInt8).tail 0).2 }
      omega

end LinuxKernel.Vsprintf
