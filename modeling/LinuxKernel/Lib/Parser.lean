import LinuxKernel.Lib.Cmdline
import LinuxKernel.Lib.KstrtoxSpec
import LinuxKernel.Foundation.Decimal

/-!
# Mount-option patterns (`lib/parser.c`)

`match_one` matches an option string against literal bytes, `%%` and the conversions `%s`,
`%<n>s`, `%d`, `%u`, `%o`, `%x`; `match_token` tries a table in order. A match is sound
(`matchOne_sound`), but a number argument may be a lone `-` (`matchToken_accepts_bare_minus`).
-/

namespace LinuxKernel.Parser

open Kstrtox Cmdline Decimal

/-! ### From `lib/string.c` -/

def strncmp (cs ct : List UInt8) : Nat → Int
  | 0 => 0
  | count + 1 =>
    let c1 := charAt cs 0
    let c2 := charAt ct 0
    if c1 ≠ c2 then if c1 < c2 then -1 else 1
    else if c1 = 0 then 0
    else strncmp (cs.drop 1) (ct.drop 1) count

/-- `strcmp(cs, ct)`: the loop of `strncmp`, which stops at the NUL of `cs` at the latest, so
`cs.length + 1` bytes in. -/
def strcmp (cs ct : List UInt8) : Int := strncmp cs ct (cs.length + 1)

/-! ### `match_one` and `match_token` -/

/-- `substring_t`: the string from `from` on and from `to` on. -/
structure SubstringT where
  fromStr : List UInt8
  toStr : List UInt8

/-- The bytes from `from` up to `to`. -/
def SubstringT.text (a : SubstringT) : List UInt8 :=
  a.fromStr.take (a.fromStr.length - a.toStr.length)

def maxOptArgs : Nat := 3

/-- The `switch (*p++)` of `match_one` on the letter `c`, at `s` with the width `len` (`-1` for
none): `none` for a `return 0` before `args[argc].to` is set, else `to` and whether the match
goes on. -/
def convertArg (c : UInt8) (len : Int32) (s : List UInt8) : Option (List UInt8 × Bool) :=
  -- a number conversion fails when `to` did not move
  let number := fun (past : List UInt8) => some (past, decide (past.length ≠ s.length))
  if c = 's'.toUInt8 then
    if s.length = 0 then none
    else
      -- `len > str_len` compares the `int` as a `size_t`
      let len := if len = -1 ∨ s.length < len.toInt64.toUInt64.toNat then s.length else len.toInt.toNat
      some (s.drop len, true)
  else if c = 'd'.toUInt8 then number (simpleStrtol s 0).2
  else if c = 'u'.toUInt8 then number (simpleStrtoull s 0).2
  else if c = 'o'.toUInt8 then number (simpleStrtoull s 8).2
  else if c = 'x'.toUInt8 then number (simpleStrtoull s 16).2
  else none

/-- The `while (1)` loop of `match_one` for `fuel` rounds, at the pattern `p` and the string
`s` with `argc` arguments found: whether it returns 1, and `args` after it. Each round takes
the `%` it stops at off the pattern, so `p.length + 1` rounds are enough. -/
def matchOneLoop : Nat → List UInt8 → List UInt8 → Nat → (Nat → SubstringT) →
    Bool × (Nat → SubstringT)
  | 0, _, _, _, args => (false, args)
  | fuel + 1, p, s, argc, args =>
    match p.findIdx? (· == '%'.toUInt8) with
    | none => (strcmp p s == 0, args)
    | some m =>
      if strncmp p s m ≠ 0 then (false, args)
      else
        let s := s.drop m
        let p := p.drop (m + 1)
        if ¬isdigit (charAt p 0) ∧ charAt p 0 = '%'.toUInt8 then
          -- `%%` matches a `%`
          if charAt s 0 ≠ '%'.toUInt8 then (false, args)
          else matchOneLoop fuel (p.drop 1) (s.drop 1) argc args
        else
          let (len, p) : Int32 × List UInt8 :=
            if isdigit (charAt p 0) then
              ((simpleStrtoull p 10).1.toUInt32.toInt32, (simpleStrtoull p 10).2)
            else (-1, p)
          if maxOptArgs ≤ argc then (false, args)
          else
            let args := Function.update args argc { args argc with fromStr := s }
            match convertArg (charAt p 0) len s with
            | none => (false, args)
            | some (past, more) =>
              let args := Function.update args argc { args argc with toStr := past }
              if more then matchOneLoop fuel (p.drop 1) past (argc + 1) args else (false, args)

theorem matchOneLoop_round (fuel : Nat) (p s : List UInt8) (argc : Nat) (args : Nat → SubstringT) :
    matchOneLoop (fuel + 1) p s argc args =
      match p.findIdx? (· == '%'.toUInt8) with
      | none => (strcmp p s == 0, args)
      | some m =>
        if strncmp p s m ≠ 0 then (false, args)
        else
          let s := s.drop m
          let p := p.drop (m + 1)
          if ¬isdigit (charAt p 0) ∧ charAt p 0 = '%'.toUInt8 then
            -- `%%` matches a `%`
            if charAt s 0 ≠ '%'.toUInt8 then (false, args)
            else matchOneLoop fuel (p.drop 1) (s.drop 1) argc args
          else
            let (len, p) : Int32 × List UInt8 :=
              if isdigit (charAt p 0) then
                ((simpleStrtoull p 10).1.toUInt32.toInt32, (simpleStrtoull p 10).2)
              else (-1, p)
            if maxOptArgs ≤ argc then (false, args)
            else
              let args := Function.update args argc { args argc with fromStr := s }
              match convertArg (charAt p 0) len s with
              | none => (false, args)
              | some (past, more) =>
                let args := Function.update args argc { args argc with toStr := past }
                if more then matchOneLoop fuel (p.drop 1) past (argc + 1) args else (false, args) :=
  rfl

/-- `match_one(s, p, args)`: whether it returns 1, and `args` after it. A `NULL` pattern
matches any string. -/
def matchOne (s : List UInt8) (p : Option (List UInt8)) (args : Nat → SubstringT) :
    Bool × (Nat → SubstringT) :=
  match p with
  | none => (true, args)
  | some p => matchOneLoop (p.length + 1) p s 0 args

structure MatchToken where
  token : Int
  pattern : Option (List UInt8)

/-- `match_token(s, table, args)`: the token of the first entry whose pattern matches, and
`args` after it; `none` when the loop runs past the table, which ends with a `NULL` pattern. -/
def matchToken (s : List UInt8) : List MatchToken → (Nat → SubstringT) →
    Option (Int × (Nat → SubstringT))
  | [], _ => none
  | t :: table, args =>
    match matchOne s t.pattern args with
    | (true, args) => some (t.token, args)
    | (false, args) => matchToken s table args

/-! ### Reading a number argument -/

/-- `match_number(s, result, base)`: the return code and what is stored in `*result`, the
`long` that `simple_strtol` returns cut to an `int`; `-ENOMEM` when `kmalloc` fails. -/
def matchNumber (s : SubstringT) (base : Nat) (kmallocOk : Bool) : Except Errno Unit × Option Int32 :=
  if ¬kmallocOk then (.error .noMem, none)
  else
    -- `buf` is a copy of the argument with a NUL after it
    let buf := s.text
    match simpleStrtol buf base with
    | (result, endp) =>
      (if endp.length = buf.length then .error .inval else .ok (), some result.toUInt32.toInt32)

def matchInt (s : SubstringT) (kmallocOk : Bool) : Except Errno Unit × Option Int32 :=
  matchNumber s 0 kmallocOk

def matchOctal (s : SubstringT) (kmallocOk : Bool) : Except Errno Unit × Option Int32 :=
  matchNumber s 8 kmallocOk

def matchHex (s : SubstringT) (kmallocOk : Bool) : Except Errno Unit × Option Int32 :=
  matchNumber s 16 kmallocOk

/-- `uid=%d` matches `uid=-`: `simple_strtol` takes the `-` and no digit, and its end pointer
moved. The argument is `-`, and `match_int` reads it as 0. The same goes for `%x` and `0x`. -/
theorem matchToken_accepts_bare_minus :
    (matchToken ("uid=-".toList.map Char.toUInt8) [⟨0, some ("uid=%d".toList.map Char.toUInt8)⟩, ⟨1, none⟩]
        (fun _ => ⟨[], []⟩)).map (fun r => (r.1, (r.2 0).text)) = some (0, ['-'.toUInt8]) ∧
      (matchToken ("uid=-".toList.map Char.toUInt8) [⟨0, some ("uid=%d".toList.map Char.toUInt8)⟩, ⟨1, none⟩]
        (fun _ => ⟨[], []⟩)).map (fun r => matchInt (r.2 0) true) = some (.ok (), some 0) ∧
      (matchToken ("size=0x".toList.map Char.toUInt8) [⟨0, some ("size=%x".toList.map Char.toUInt8)⟩, ⟨1, none⟩]
        (fun _ => ⟨[], []⟩)).map (fun r => (r.1, (r.2 0).text)) = some (0, ['0'.toUInt8, 'x'.toUInt8]) ∧
      (matchToken ("size=0x".toList.map Char.toUInt8) [⟨0, some ("size=%x".toList.map Char.toUInt8)⟩, ⟨1, none⟩]
        (fun _ => ⟨[], []⟩)).map (fun r => matchHex (r.2 0) true) = some (.ok (), some 0) := by
  decide

/-! ### Patterns -/

inductive Conversion
  /-- `%s`, and `%<n>s` with a width. -/
  | str (width : Option Nat)
  /-- `%d`. -/
  | dec
  /-- `%u`. -/
  | udec
  /-- `%o`. -/
  | oct
  /-- `%x`. -/
  | hex
  deriving DecidableEq

/-- An item of a pattern: a literal byte, written `%%` for a `%`, or a conversion. -/
inductive PatternItem
  | lit (c : UInt8)
  | conv (c : Conversion)

def Conversion.letter : Conversion → UInt8
  | str _ => 's'.toUInt8
  | dec => 'd'.toUInt8
  | udec => 'u'.toUInt8
  | oct => 'o'.toUInt8
  | hex => 'x'.toUInt8

def Conversion.isNumber : Conversion → Bool
  | str _ => false
  | _ => true

/-- What follows the `%` of a conversion: the width, then the letter. -/
def Conversion.text : Conversion → List UInt8
  | str (some n) => decimalText n ++ [Conversion.letter (str (some n))]
  | c => [c.letter]

def PatternItem.text : PatternItem → List UInt8
  | lit c => if c = '%'.toUInt8 then ['%'.toUInt8, '%'.toUInt8] else [c]
  | conv c => '%'.toUInt8 :: c.text

def patternText (items : List PatternItem) : List UInt8 := items.flatMap PatternItem.text

@[simp] theorem patternText_nil : patternText [] = [] := rfl

@[simp] theorem patternText_cons (item : PatternItem) (items : List PatternItem) :
    patternText (item :: items) = item.text ++ patternText items := rfl

def convCount : List PatternItem → Nat
  | [] => 0
  | .lit _ :: items => convCount items
  | .conv _ :: items => convCount items + 1

/-- The items of a `match_table` pattern: literal bytes that are not NUL, widths that fit an
`unsigned long`, and at most `MAX_OPT_ARGS` conversions. -/
structure WellFormed (items : List PatternItem) : Prop where
  lit_ne_zero : ∀ c, .lit c ∈ items → c ≠ 0
  width_lt : ∀ n, .conv (.str (some n)) ∈ items → n < 2 ^ 64
  conv_count : convCount items ≤ maxOptArgs

/-- `s` is made of the items, the arguments from `args k` on standing for the conversions: each
argument starts where the string is and ends at a point of it, and the argument of a number
conversion is not empty. -/
def Matches : List PatternItem → (Nat → SubstringT) → Nat → List UInt8 → Prop
  | [], _, _, s => s = []
  | .lit c :: items, args, k, s => ∃ rest, s = c :: rest ∧ Matches items args k rest
  | .conv c :: items, args, k, s =>
    (args k).fromStr = s ∧ (args k).toStr <:+ s ∧ (c.isNumber → (args k).text ≠ []) ∧
      Matches items args (k + 1) (args k).toStr

/-- The literal bytes and the texts of the arguments from `args k` on, in order. -/
def expand : List PatternItem → (Nat → SubstringT) → Nat → List UInt8
  | [], _, _ => []
  | .lit c :: items, args, k => c :: expand items args k
  | .conv _ :: items, args, k => (args k).text ++ expand items args (k + 1)

theorem SubstringT.text_append {a : SubstringT} (suffix : a.toStr <:+ a.fromStr) :
    a.text ++ a.toStr = a.fromStr := by
  obtain ⟨t, eq⟩ := suffix
  unfold SubstringT.text
  rw [← eq, List.length_append, Nat.add_sub_cancel, List.take_left' rfl]

theorem Matches.eq_expand {items : List PatternItem} {args : Nat → SubstringT} {k : Nat}
    {s : List UInt8} (h : Matches items args k s) : s = expand items args k := by
  induction items generalizing k s with
  | nil => exact h
  | cons item items ih =>
    cases item with
    | lit c =>
      obtain ⟨rest, rfl, h⟩ := h
      rw [expand, ← ih h]
    | conv c =>
      obtain ⟨start, suffix, -, h⟩ := h
      rw [expand, ← ih h, SubstringT.text_append (start ▸ suffix), start]

/-! ### `strncmp` and `strcmp` -/

theorem strncmp_cons_of_eq {c : UInt8} {ct : List UInt8} (same : charAt ct 0 = c) (nonzero : c ≠ 0)
    (cs : List UInt8) (n : Nat) : strncmp (c :: cs) ct (n + 1) = strncmp cs (ct.drop 1) n := by
  simp [strncmp, charAt_cons_zero, same, nonzero]

theorem strncmp_cons_of_ne {c : UInt8} {ct : List UInt8} (differ : charAt ct 0 ≠ c) (cs : List UInt8)
    (n : Nat) : strncmp (c :: cs) ct (n + 1) ≠ 0 := by
  have ne : charAt (c :: cs) 0 ≠ charAt ct 0 := Ne.symm differ
  unfold strncmp
  dsimp only
  rw [if_pos ne]
  split <;> decide

theorem strcmp_cons_of_eq {c : UInt8} {ct : List UInt8} (same : charAt ct 0 = c) (nonzero : c ≠ 0)
    (cs : List UInt8) : strcmp (c :: cs) ct = strcmp cs (ct.drop 1) :=
  strncmp_cons_of_eq same nonzero cs (cs.length + 1)

theorem strcmp_cons_of_ne {c : UInt8} {ct : List UInt8} (differ : charAt ct 0 ≠ c) (cs : List UInt8) :
    strcmp (c :: cs) ct ≠ 0 :=
  strncmp_cons_of_ne differ cs (cs.length + 1)

theorem strcmp_nil {ct : List UInt8} (nul : 0 ∉ ct) : strcmp [] ct = 0 ↔ ct = [] := by
  cases ct with
  | nil => decide
  | cons c ct =>
    have : c ≠ 0 := fun h => nul (h ▸ List.mem_cons_self)
    simp [strcmp, strncmp, charAt, Ne.symm this]
    split <;> decide

/-! ### One round of `match_one` -/

section Round

variable (fuel : Nat) (p s : List UInt8) (argc : Nat) (args : Nat → SubstringT)

theorem matchOneLoop_lit {c : UInt8} (percent : c ≠ '%'.toUInt8) (nonzero : c ≠ 0) :
    matchOneLoop (fuel + 1) (c :: p) s argc args =
      if charAt s 0 = c then matchOneLoop (fuel + 1) p (s.drop 1) argc args else (false, args) := by
  have find : (c :: p).findIdx? (· == '%'.toUInt8) = (p.findIdx? (· == '%'.toUInt8)).map (· + 1) := by
    rw [List.findIdx?_cons, if_neg (by simpa using percent)]
  by_cases same : charAt s 0 = c
  · rw [if_pos same, matchOneLoop_round, matchOneLoop_round, find]
    cases p.findIdx? (· == '%'.toUInt8) with
    | none => simp only [Option.map_none, strcmp_cons_of_eq same nonzero]
    | some m =>
      simp only [Option.map_some, strncmp_cons_of_eq same nonzero, List.drop_succ_cons,
        List.drop_drop, Nat.add_comm 1 m]
  · rw [if_neg same, matchOneLoop_round, find]
    cases p.findIdx? (· == '%'.toUInt8) with
    | none => simp [strcmp_cons_of_ne same]
    | some m => simp [strncmp_cons_of_ne same]

theorem matchOneLoop_percent :
    matchOneLoop (fuel + 1) ('%'.toUInt8 :: '%'.toUInt8 :: p) s argc args =
      if charAt s 0 = '%'.toUInt8 then matchOneLoop fuel p (s.drop 1) argc args else (false, args) := by
  rw [matchOneLoop_round, List.findIdx?_cons, if_pos (by decide)]
  simp [strncmp, charAt, isdigit, show ('%' : Char).toUInt8 = 37 from rfl]

end Round


/-! ### The width of `%<n>s` -/

theorem isDigitOf_digitByte {d : Nat} (lt : d < 10) : isDigitOf 10 (digitByte d) := by
  have all : ∀ d < 10, isDigitOf 10 (digitByte d) := by decide
  exact all d lt

theorem isdigit_digitByte {d : Nat} (lt : d < 10) : isdigit (digitByte d) := by
  have all : ∀ d < 10, isdigit (digitByte d) := by decide
  exact all d lt

theorem or_and_not_overflow (x : UInt32) :
    (x ||| kstrtoxOverflow) &&& ~~~kstrtoxOverflow = x &&& ~~~kstrtoxOverflow := by
  apply UInt32.toBitVec_inj.mp
  simp only [UInt32.toBitVec_and, UInt32.toBitVec_or, UInt32.toBitVec_not]
  ext i
  simp only [BitVec.getElem_and, BitVec.getElem_or, BitVec.getElem_not]
  cases x.toBitVec[i] <;> simp

theorem simpleStrtoull_digits {ds r : List UInt8} {c : UInt8} (digits : ∀ x ∈ ds, isDigitOf 10 x)
    (short : ds.length < 2 ^ 31) (stop : isDigitOf 10 c = false) :
    (simpleStrtoull (ds ++ c :: r) 10).2 = c :: r := by
  have fixup : parseIntegerFixupRadix (ds ++ c :: r) 10 = (ds ++ c :: r, 10) := by
    simp [parseIntegerFixupRadix]
  -- the overflow bit is masked off the count
  have count : ∀ ov : Bool,
      ((if ov then ds.length.toUInt32 ||| kstrtoxOverflow else ds.length.toUInt32) &&&
        ~~~kstrtoxOverflow).toNat = ds.length := by
    have masked := (overflow_bit short).2.2
    have value : ds.length.toUInt32.toNat = ds.length :=
      UInt32.toNat_ofNat_of_lt' (lt_of_lt_of_le short (by decide))
    intro ov
    cases ov
    · rw [if_neg Bool.false_ne_true, masked, value]
    · rw [if_pos rfl, or_and_not_overflow, masked, value]
  unfold simpleStrtoull Kstrtox.parseInteger
  rw [fixup]
  simp only [parseIntegerLoop_eq (show 10 ≤ 16 by decide),
    @digitRun_append 10 ds (c :: r) digits (by simpa using stop), UInt32.zero_add, count]
  rw [List.drop_left]


/-! ### A conversion -/

section Conv

variable (fuel : Nat) (p s : List UInt8) (argc : Nat) (args : Nat → SubstringT)

/-- The letter of a conversion at the front of what is left of the pattern, after the width: the
argument starts at `s`, and `convertArg` says where it ends and whether the match goes on. -/
def convRound (letter : UInt8) (len : Int32) : Bool × (Nat → SubstringT) :=
  match convertArg letter len s with
  | none => (false, Function.update args argc { args argc with fromStr := s })
  | some (past, more) =>
    if more then matchOneLoop fuel p past (argc + 1) (Function.update args argc ⟨s, past⟩)
    else (false, Function.update args argc ⟨s, past⟩)

theorem charAt_text_append (c : Conversion) (p : List UInt8) :
    ∃ d, charAt (c.text ++ p) 0 = d ∧ d ≠ '%'.toUInt8 ∧ (isdigit d ↔ ∃ n, c = .str (some n)) := by
  cases c with
  | str width =>
    cases width with
    | none => exact ⟨'s'.toUInt8, rfl, by decide, iff_of_false (by decide) (by simp)⟩
    | some n =>
      obtain ⟨first, rest, text⟩ := List.exists_cons_of_ne_nil (decimalText_ne_nil n)
      obtain ⟨d, lt, rfl⟩ := mem_decimalText (text ▸ List.mem_cons_self : first ∈ decimalText n)
      have all : ∀ d < 10, digitByte d ≠ '%'.toUInt8 := by decide
      refine ⟨digitByte d, by simp [Conversion.text, text, charAt], all d lt, ?_⟩
      simp [isdigit_digitByte lt]
  | dec => exact ⟨'d'.toUInt8, rfl, by decide, iff_of_false (by decide) (by simp)⟩
  | udec => exact ⟨'u'.toUInt8, rfl, by decide, iff_of_false (by decide) (by simp)⟩
  | oct => exact ⟨'o'.toUInt8, rfl, by decide, iff_of_false (by decide) (by simp)⟩
  | hex => exact ⟨'x'.toUInt8, rfl, by decide, iff_of_false (by decide) (by simp)⟩

theorem width_rest {c : Conversion} (width : ∀ n, c = .str (some n) → n < 2 ^ 64) (p : List UInt8) :
    (if isdigit (charAt (c.text ++ p) 0) then
        ((simpleStrtoull (c.text ++ p) 10).1.toUInt32.toInt32, (simpleStrtoull (c.text ++ p) 10).2)
      else ((-1 : Int32), c.text ++ p)).2 = c.letter :: p := by
  obtain ⟨d, first, -, digit⟩ := charAt_text_append c p
  rw [first]
  by_cases number : ∃ n, c = .str (some n)
  · obtain ⟨n, rfl⟩ := number
    have short : (decimalText n).length < 2 ^ 31 :=
      lt_of_le_of_lt (length_decimalText_le (k := 20) (by decide)
        (lt_of_lt_of_le (width n rfl) (by decide))) (by decide)
    have digits : ∀ x ∈ decimalText n, isDigitOf 10 x := fun x mem => by
      obtain ⟨d, lt, rfl⟩ := mem_decimalText mem
      exact isDigitOf_digitByte lt
    rw [if_pos (digit.mpr ⟨n, rfl⟩)]
    simp only [Conversion.text, Conversion.letter, List.append_assoc, List.singleton_append]
    exact simpleStrtoull_digits digits short (by decide)
  · rw [if_neg (fun h => number (digit.mp h))]
    cases c <;> simp_all [Conversion.text]

theorem matchOneLoop_conv {c : Conversion} (width : ∀ n, c = .str (some n) → n < 2 ^ 64)
    (room : argc < maxOptArgs) :
    ∃ len, matchOneLoop (fuel + 1) (('%'.toUInt8 :: c.text) ++ p) s argc args =
      convRound fuel p s argc args c.letter len := by
  obtain ⟨d, first, percent, -⟩ := charAt_text_append c p
  have rest := width_rest width p
  rw [first] at rest
  rw [List.cons_append, matchOneLoop_round, List.findIdx?_cons, if_pos (by decide)]
  simp only [strncmp, List.drop_zero, Nat.zero_add, List.drop_succ_cons, ne_eq, not_true_eq_false,
    if_false, Nat.not_le.mpr room, first, percent, and_false]
  generalize (if isdigit d then
      ((simpleStrtoull (c.text ++ p) 10).1.toUInt32.toInt32, (simpleStrtoull (c.text ++ p) 10).2)
    else ((-1 : Int32), c.text ++ p)) = width at rest ⊢
  obtain ⟨len, after⟩ := width
  simp only at rest
  subst rest
  refine ⟨len, ?_⟩
  simp only [charAt_cons_zero, Function.update_idem, Function.update_self]
  rfl

end Conv

/-! ### What a run of `match_one` writes and returns -/

theorem matchOneLoop_frame (fuel : Nat) (p s : List UInt8) (argc : Nat) (args : Nat → SubstringT)
    {j : Nat} (below : j < argc) : (matchOneLoop fuel p s argc args).2 j = args j := by
  fun_induction matchOneLoop fuel p s argc args <;>
    simp_all +zetaDelta [Function.update_of_ne (Nat.ne_of_lt below), Nat.le_of_lt below]

theorem matchOneLoop_fst (fuel : Nat) (p s : List UInt8) (argc : Nat) (args args' : Nat → SubstringT) :
    (matchOneLoop fuel p s argc args).1 = (matchOneLoop fuel p s argc args').1 := by
  induction fuel generalizing p s argc args args' with
  | zero => rfl
  | succ fuel ih =>
    simp only [matchOneLoop_round]
    split
    · rfl
    · -- the conditions do not read `args`: the two runs take the same branches
      split_ifs
      all_goals first
        | rfl
        | exact ih _ _ _ _ _
        | (split <;> first | rfl | (split_ifs <;> first | rfl | exact ih _ _ _ _ _))

theorem matchOne_fst (s : List UInt8) (p : Option (List UInt8)) (args args' : Nat → SubstringT) :
    (matchOne s p args).1 = (matchOne s p args').1 := by
  cases p with
  | none => rfl
  | some p => exact matchOneLoop_fst _ p s 0 args args'

/-! ### Soundness -/

theorem convertArg_suffix {letter : UInt8} {len : Int32} {s past : List UInt8} {more : Bool}
    (h : convertArg letter len s = some (past, more)) : past <:+ s := by
  unfold convertArg at h
  split_ifs at h <;> simp only [Option.some.injEq, Prod.mk.injEq] at h <;> obtain ⟨rfl, -⟩ := h
  all_goals first
    | exact List.drop_suffix _ s
    | exact simpleStrtol_suffix s 0
    | exact simpleStrtoull_suffix s _

theorem convertArg_number {c : Conversion} (number : c.isNumber) {len : Int32} {s past : List UInt8}
    (h : convertArg c.letter len s = some (past, true)) : past.length ≠ s.length := by
  cases c with
  | str => cases number
  | dec | udec | oct | hex =>
    simp +decide [convertArg] at h
    obtain ⟨rfl, moved⟩ := h
    exact moved

theorem Matches.conv {c : Conversion} {items : List PatternItem} {args : Nat → SubstringT} {k : Nat}
    {s past : List UInt8} (arg : args k = ⟨s, past⟩) (suffix : past <:+ s)
    (number : c.isNumber → past.length ≠ s.length) (rest : Matches items args (k + 1) past) :
    Matches (.conv c :: items) args k s := by
  refine ⟨by rw [arg], by rw [arg]; exact suffix, fun isNumber => ?_, by rw [arg]; exact rest⟩
  have shorter : past.length < s.length := lt_of_le_of_ne suffix.length_le (number isNumber)
  rw [arg]
  simp only [SubstringT.text, ne_eq, List.take_eq_nil_iff]
  intro empty
  rcases empty with zero | nil
  · omega
  · simp [nil] at shorter

/-- A run of `match_one` that returns 1 on a pattern made of `items` leaves the string made of
them, the arguments from `args[argc]` on standing for the conversions. The induction is on the
items; a literal byte other than `%` takes no round of the loop, the others one each. -/
theorem matchOneLoop_sound (items : List PatternItem) (lits : ∀ c, .lit c ∈ items → c ≠ 0)
    (widths : ∀ n, .conv (.str (some n)) ∈ items → n < 2 ^ 64) :
    ∀ (fuel : Nat) (s : List UInt8) (argc : Nat) (args : Nat → SubstringT), 0 ∉ s →
      argc + convCount items ≤ maxOptArgs →
      (matchOneLoop fuel (patternText items) s argc args).1 = true →
      Matches items (matchOneLoop fuel (patternText items) s argc args).2 argc s := by
  induction items with
  | nil =>
    intro fuel s argc args nul _ ok
    cases fuel with
    | zero => cases ok
    | succ fuel =>
      simp only [patternText_nil, matchOneLoop_round, List.findIdx?_nil, beq_iff_eq] at ok ⊢
      exact (strcmp_nil nul).mp ok
  | cons item items ih =>
    have lits' : ∀ c, .lit c ∈ items → c ≠ 0 := fun c mem => lits c (List.mem_cons_of_mem _ mem)
    have widths' : ∀ n, .conv (.str (some n)) ∈ items → n < 2 ^ 64 :=
      fun n mem => widths n (List.mem_cons_of_mem _ mem)
    intro fuel s argc args nul room ok
    cases fuel with
    | zero => cases ok
    | succ fuel =>
    cases item with
    | lit c =>
      have nonzero : c ≠ 0 := lits c List.mem_cons_self
      have tail : 0 ∉ s.drop 1 := fun mem => nul (List.mem_of_mem_drop mem)
      by_cases percent : c = '%'.toUInt8
      · -- `%%`: one round, which matches a `%`
        subst percent
        simp only [patternText_cons, PatternItem.text, if_true, List.cons_append,
          List.nil_append, matchOneLoop_percent] at ok ⊢
        split_ifs at ok ⊢ with same
        exact ⟨s.drop 1, eq_cons_of_charAt same (by decide), ih lits' widths' fuel _ argc args tail room ok⟩
      · -- a plain byte: compared within the round
        simp only [patternText_cons, PatternItem.text, if_neg percent, List.cons_append,
          List.nil_append, matchOneLoop_lit fuel _ s argc args percent nonzero] at ok ⊢
        split_ifs at ok ⊢ with same
        exact ⟨s.drop 1, eq_cons_of_charAt same nonzero, ih lits' widths' (fuel + 1) _ argc args tail room ok⟩
    | conv c =>
      have room' : argc < maxOptArgs := by simp only [convCount] at room; omega
      obtain ⟨len, round⟩ := matchOneLoop_conv fuel (patternText items) s argc args
        (fun n eq => widths n (eq ▸ List.mem_cons_self)) room'
      simp only [patternText_cons, PatternItem.text] at ok ⊢
      rw [round] at ok ⊢
      unfold convRound at ok ⊢
      split at ok
      · cases ok
      · rename_i past more found
        cases more with
        | false => cases ok
        | true =>
          simp only [if_true] at ok ⊢
          have suffix := convertArg_suffix found
          refine Matches.conv ?_ suffix (fun number => convertArg_number number found)
            (ih lits' widths' fuel past (argc + 1) _ (fun mem => nul (suffix.subset mem))
              (by simp only [convCount] at room; omega) ok)
          rw [matchOneLoop_frame _ _ _ _ _ (Nat.lt_succ_self argc), Function.update_self]

/-- `match_one` on a `match_table` pattern: when it returns 1, the string is the pattern's
literal bytes and the arguments `args[0]`, `args[1]`, ... in order, each argument lying where
the string has it and that of a number conversion not empty. -/
theorem matchOne_sound {items : List PatternItem} (wf : WellFormed items) {s : List UInt8}
    (nul : 0 ∉ s) (args : Nat → SubstringT)
    (ok : (matchOne s (some (patternText items)) args).1 = true) :
    Matches items (matchOne s (some (patternText items)) args).2 0 s ∧
      s = expand items (matchOne s (some (patternText items)) args).2 0 := by
  have made := matchOneLoop_sound items wf.lit_ne_zero wf.width_lt _ s 0 args nul
    (by simpa using wf.conv_count) ok
  exact ⟨made, made.eq_expand⟩

/-! ### `match_token` -/

theorem matchToken_token (s : List UInt8) (table : List MatchToken) (args : Nat → SubstringT) :
    (matchToken s table args).map Prod.fst =
      (table.find? fun t => (matchOne s t.pattern args).1).map MatchToken.token := by
  induction table generalizing args with
  | nil => rfl
  | cons t table ih =>
    rw [matchToken, List.find?_cons]
    cases found : matchOne s t.pattern args with
    | mk ok after =>
      cases ok with
      | true => rfl
      | false =>
        -- what the failed match left in `args` does not change which patterns match
        have same : (fun t' : MatchToken => (matchOne s t'.pattern after).1) =
            fun t' => (matchOne s t'.pattern args).1 :=
          funext fun t' => matchOne_fst s t'.pattern after args
        simp only [ih after, same]

/-- A run that returns 1 is that of a table entry whose pattern matches, with what that match
left in `args`; with every pattern `NULL` or a `match_table` pattern, the string is made of the
entry's items and arguments. -/
theorem matchToken_sound {s : List UInt8} (nul : 0 ∉ s) {table : List MatchToken}
    (patterns : ∀ t ∈ table, t.pattern = none ∨
      ∃ items, WellFormed items ∧ t.pattern = some (patternText items))
    {args : Nat → SubstringT} {tok : Int} {args' : Nat → SubstringT}
    (found : matchToken s table args = some (tok, args')) :
    ∃ t ∈ table, t.token = tok ∧
      (t.pattern = none ∨ ∃ items, t.pattern = some (patternText items) ∧ Matches items args' 0 s) := by
  induction table generalizing args with
  | nil => cases found
  | cons t table ih =>
    rw [matchToken] at found
    cases result : matchOne s t.pattern args with
    | mk ok after =>
      rw [result] at found
      cases ok with
      | true =>
        simp only [Option.some.injEq, Prod.mk.injEq] at found
        obtain ⟨rfl, rfl⟩ := found
        refine ⟨t, List.mem_cons_self, rfl, ?_⟩
        rcases patterns t List.mem_cons_self with none | ⟨items, wf, pattern⟩
        · exact .inl none
        · -- the match that returned 1 is sound
          have ok : (matchOne s (some (patternText items)) args).1 = true := by
            rw [← pattern, result]
          have made := (matchOne_sound wf nul args ok).1
          rw [← pattern, result] at made
          exact .inr ⟨items, pattern, made⟩
      | false =>
        obtain ⟨t', mem, token, sound⟩ :=
          ih (fun t' mem => patterns t' (List.mem_cons_of_mem _ mem)) found
        exact ⟨t', List.mem_cons_of_mem _ mem, token, sound⟩

/-- `"n=42"` against the table `{7, "hi"}, {1, "n=%d"}`: the second entry matches, and its `%d`
records the digits `"42"`. -/
theorem matchToken_sound_number :
    let table : List MatchToken := [⟨7, some [104, 105]⟩, ⟨1, some [110, 61, 37, 100]⟩]
    let args : Nat → SubstringT := fun _ => ⟨[], []⟩
    (0 : UInt8) ∉ [110, 61, 52, 50] ∧
      ∃ args', matchToken [110, 61, 52, 50] table args = some (1, args') ∧ (args' 0).text = [52, 50] ∧
        ∃ t ∈ table, t.token = 1 ∧ (t.pattern = none ∨
          ∃ items, t.pattern = some (patternText items) ∧ Matches items args' 0 [110, 61, 52, 50]) := by
  intro table args
  have patterns : ∀ t ∈ table, t.pattern = none ∨
      ∃ items, WellFormed items ∧ t.pattern = some (patternText items) := by
    intro t mem
    simp only [table, List.mem_cons, List.not_mem_nil, or_false] at mem
    rcases mem with rfl | rfl
    · exact .inr ⟨[.lit 104, .lit 105], ⟨by simp, by simp, by decide⟩, rfl⟩
    · exact .inr ⟨[.lit 110, .lit 61, .conv .dec], ⟨by simp, by simp, by decide⟩, rfl⟩
  exact ⟨by decide, _, rfl, rfl, matchToken_sound (by decide) patterns rfl⟩

end LinuxKernel.Parser
