import LinuxKernel.Foundation.Decimal
import LinuxKernel.Printf.VsprintfSpec

/-!
# Human-readable sizes (`lib/string_helpers.c`)

`string_get_size` divides while a larger unit is left and prints up to three decimals from the
last remainder. In powers of 1000 that is the size truncated to three figures
(`stringGetSize_units10`); in powers of 1024 remainders are lost
(`stringGetSize_units2_drops_remainders`).
-/

namespace LinuxKernel

open Decimal

/-- `enum string_size_units`. -/
inductive StringSizeUnits
  | units10
  | units2
  deriving DecidableEq, Repr

namespace StringSizeUnits

/-- `divisor[units]`. -/
def divisor : StringSizeUnits → Nat
  | units10 => 1000
  | units2 => 1024

/-- `units_str[units]`: the names before its `NULL`. -/
def unitsStr : StringSizeUnits → List (List UInt8)
  | units10 =>
    ["B", "kB", "MB", "GB", "TB", "PB", "EB", "ZB", "YB"].map fun s => s.toList.map Char.toUInt8
  | units2 =>
    ["B", "KiB", "MiB", "GiB", "TiB", "PiB", "EiB", "ZiB", "YiB"].map fun s =>
      s.toList.map Char.toUInt8

theorem thousand_le_divisor (units : StringSizeUnits) : 1000 ≤ units.divisor := by
  cases units <;> decide

theorem divisor_le (units : StringSizeUnits) : units.divisor ≤ 1024 := by
  cases units <;> decide

@[simp] theorem length_unitsStr (units : StringSizeUnits) : units.unitsStr.length = 9 := by
  cases units <;> rfl

theorem length_getD_unitsStr_le (units : StringSizeUnits) (i : Nat) :
    (units.unitsStr.getD i []).length ≤ 3 := by
  have names : ∀ name ∈ units.unitsStr, name.length ≤ 3 := by
    cases units <;> decide
  rw [List.getD_eq_getElem?_getD]
  cases h : units.unitsStr[i]? with
  | none => simp
  | some name => exact names name (List.mem_of_getElem? h)

end StringSizeUnits

/-! ### The model -/

/-- The loop `while (size >= divisor[units] && units_str[units][i])` with `remainder =
do_div(size, divisor[units])`, `names` being the names from `units_str[units][i]` on: the
`size`, `remainder` and `i` it leaves. -/
def sizeDivideLoop (d : Nat) : List (List UInt8) → Nat → Nat → Nat → Nat × Nat × Nat
  | [], size, remainder, i => (size, remainder, i)
  | _ :: names, size, remainder, i =>
    if d ≤ size then sizeDivideLoop d names (size / d) (size % d) (i + 1)
    else (size, remainder, i)

/-- `for (j = 0; sf_cap*10 < 1000; j++) sf_cap *= 10;` for `fuel` rounds from `sf_cap` and `j`:
the `j` it ends with, `none` when the rounds run out. Three rounds end it from any
`sf_cap ≥ 1`; from `sf_cap = 0` it never ends. -/
def sfCapLoop : Nat → Nat → Nat → Option Nat
  | 0, _, _ => none
  | fuel + 1, sfCap, j =>
    if sfCap * 10 < 1000 then sfCapLoop fuel (sfCap * 10) (j + 1) else some j

/-- `snprintf(tmp, sizeof(tmp), ".%03lld", remainder)` and `tmp[j+1] = '\0'`: a dot and the
digits of `remainder` with zeros before them up to three, cut to the seven bytes before the NUL
and then to `j + 1`. -/
def fractionText (remainder j : Nat) : List UInt8 :=
  let digits := decimalText remainder
  (('.'.toUInt8 :: (List.replicate (3 - digits.length) (digitByte 0) ++ digits)).take 7).take (j + 1)

/-- The text `snprintf(buf, len, "%lld%s %s", size, tmp, units_str[units][i])` prints in
`string_get_size(size, units, buf, len)`; `none` when the `sf_cap` loop does not end. -/
def stringGetSizeText (size : UInt64) (units : StringSizeUnits) : Option (List UInt8) := do
  let d := units.divisor
  let (size, tmp, i) ←
    if d ≤ size.toNat then do
      let (size, remainder, i) := sizeDivideLoop d units.unitsStr size.toNat 0 0
      let j ← sfCapLoop 3 size 0
      pure (size, if j ≠ 0 then fractionText (remainder * 1000 / d) j else [], i)
    else pure (size.toNat, [], 0)
  -- `%s` of the `NULL` after the last name prints `(null)`
  pure (decimalText size ++ tmp ++ ' '.toUInt8 :: (units.unitsStr[i]?).getD Vsprintf.nullStr)

/-- `string_get_size(size, units, buf, len)` for `len ≥ 0`, on a buffer that held `buf`: the
buffer it leaves, with the text cut to `len - 1` bytes and a NUL. It returns 0. -/
def stringGetSize (size : UInt64) (units : StringSizeUnits) (buf : Nat → UInt8) (len : Nat) :
    Option (Nat → UInt8) :=
  (stringGetSizeText size units).map (Vsprintf.truncatedBuffer buf len)

/-! ### Three significant figures -/

/-- The decimals that make three significant figures with an integer part `q`, `1 ≤ q < 1000`. -/
def sigDecimals (q : Nat) : Nat := if q < 10 then 2 else if q < 100 then 1 else 0

/-- `x / e` truncated to `j` decimals: the digits of `⌊x · 10^j / e⌋` with a point before the
last `j`. -/
def truncatedText (x e j : Nat) : List UInt8 :=
  let t := x * 10 ^ j / e
  decimalText (t / 10 ^ j) ++ if j = 0 then [] else '.'.toUInt8 :: (decPadded (t % 10 ^ j) j).reverse

/-- What `string_get_size` is for: `size` in the unit `d^i`, truncated to three significant
figures, a space and the unit's name; whole bytes below the first unit. -/
def humanSize (units : StringSizeUnits) (size i : Nat) : List UInt8 :=
  let e := units.divisor ^ i
  truncatedText size e (if i = 0 then 0 else sigDecimals (size / e)) ++
    ' '.toUInt8 :: units.unitsStr.getD i []

/-! ### What the loops leave -/

/-- The loop divides once for each power of `d` up to `size`: from `d^i ≤ size < d^(i+1)` (or
`size < d` and `i = 0`) with `i` names left, it leaves `size / d^i`, the last remainder and
`k + i`. -/
theorem sizeDivideLoop_spec {d : Nat} (two : 2 ≤ d) (names : List (List UInt8)) {size i : Nat}
    (le : i ≤ names.length) (lo : i = 0 ∨ d ^ i ≤ size) (hi : size < d ^ (i + 1))
    (remainder k : Nat) :
    sizeDivideLoop d names size remainder k =
      (size / d ^ i, if i = 0 then remainder else size / d ^ (i - 1) % d, k + i) := by
  induction names generalizing size remainder k i with
  | nil =>
    obtain rfl : i = 0 := Nat.le_zero.mp le
    simp [sizeDivideLoop]
  | cons name names ih =>
    rw [sizeDivideLoop]
    by_cases big : d ≤ size
    · -- one division, and what is left has an exponent one less
      obtain ⟨i, rfl⟩ : ∃ i', i = i' + 1 := by
        refine ⟨i - 1, ?_⟩
        have : i ≠ 0 := by
          rintro rfl
          rw [zero_add, pow_one] at hi
          omega
        omega
      have lo' : i = 0 ∨ d ^ i ≤ size / d := by
        refine lo.imp (by omega) fun lo => ?_
        exact (Nat.le_div_iff_mul_le (by omega)).mpr (by rwa [← pow_succ])
      have hi' : size / d < d ^ (i + 1) :=
        (Nat.div_lt_iff_lt_mul (by omega)).mpr (by rwa [← pow_succ])
      rw [if_pos big, ih (by simpa using le) lo' hi', Nat.div_div_eq_div_mul, ← pow_succ',
        Prod.mk.injEq, Prod.mk.injEq]
      refine ⟨rfl, ?_, by omega⟩
      -- the remainder: the first division's when it was the last
      rcases Nat.eq_zero_or_pos i with rfl | pos
      · simp
      · obtain ⟨i, rfl⟩ : ∃ i', i = i' + 1 := ⟨i - 1, by omega⟩
        simp [Nat.div_div_eq_div_mul, ← pow_succ']
    · have zero : i = 0 := by
        rcases lo with lo | lo
        · exact lo
        · by_contra ne
          exact big (le_trans (Nat.le_self_pow ne d) lo)
      subst zero
      simp [if_neg big]

theorem sfCapLoop_three {q : Nat} (pos : 0 < q) : sfCapLoop 3 q 0 = some (sigDecimals q) := by
  unfold sigDecimals
  simp only [sfCapLoop]
  split_ifs <;> first | rfl | omega

theorem exponent_le_six {d size i : Nat} (big : 1000 ≤ d) (lo : d ^ i ≤ size) (fits : size < 2 ^ 64) :
    i ≤ 6 := by
  by_contra! seven
  have reach : 1000 ^ 7 ≤ size := calc
    1000 ^ 7 ≤ 1000 ^ i := Nat.pow_le_pow_right (by decide) seven
    _ ≤ d ^ i := Nat.pow_le_pow_left big i
    _ ≤ size := lo
  exact absurd (lt_of_le_of_lt reach fits) (by decide)

theorem StringSizeUnits.getElem?_unitsStr {units : StringSizeUnits} {i : Nat} (lt : i < 9) :
    units.unitsStr[i]? = some (units.unitsStr.getD i []) := by
  rw [List.getD_eq_getElem?_getD, List.getElem?_eq_getElem (by simpa using lt), Option.getD_some]

/-! ### What `string_get_size` prints -/

theorem stringGetSizeText_of_lt (size : UInt64) (units : StringSizeUnits)
    (small : size.toNat < units.divisor) :
    stringGetSizeText size units =
      some (decimalText size.toNat ++ ' '.toUInt8 :: units.unitsStr.getD 0 []) := by
  simp [stringGetSizeText, Nat.not_le.mpr small]

/-- From `d^i ≤ size < d^(i+1)`, `i ≥ 1`: the quotient by `d^i`, the decimals the quotient leaves
room for, taken from the last remainder in thousandths of `d`, and the name of the unit. -/
theorem stringGetSizeText_of_le (size : UInt64) (units : StringSizeUnits) {i : Nat} (pos : 0 < i)
    (lo : units.divisor ^ i ≤ size.toNat) (hi : size.toNat < units.divisor ^ (i + 1)) :
    stringGetSizeText size units =
      some (decimalText (size.toNat / units.divisor ^ i) ++
        (if sigDecimals (size.toNat / units.divisor ^ i) ≠ 0 then
          fractionText (size.toNat / units.divisor ^ (i - 1) % units.divisor * 1000 / units.divisor)
            (sigDecimals (size.toNat / units.divisor ^ i))
        else []) ++ ' '.toUInt8 :: units.unitsStr.getD i []) := by
  have big := units.thousand_le_divisor
  have six : i ≤ 6 := exponent_le_six big lo size.toNat_lt
  have divided : units.divisor ≤ size.toNat :=
    le_trans (Nat.le_self_pow pos.ne' _) lo
  have one : 0 < size.toNat / units.divisor ^ i := Nat.div_pos lo (by positivity)
  have loop := sizeDivideLoop_spec (by omega) units.unitsStr (by simp; omega) (.inr lo) hi 0 0
  unfold stringGetSizeText
  simp only [if_pos divided, loop, sfCapLoop_three one, if_neg pos.ne', Nat.zero_add,
    Option.pure_def, Option.bind_eq_bind, Option.bind_some,
    StringSizeUnits.getElem?_unitsStr (show i < 9 by omega), Option.getD_some]

theorem length_fractionText_le (r j : Nat) : (fractionText r j).length ≤ j + 1 := by
  unfold fractionText
  exact List.length_take_le _ _

theorem stringGetSizeText_length (size : UInt64) (units : StringSizeUnits) :
    ∃ out, stringGetSizeText size units = some out ∧ out.length ≤ 11 := by
  have big := units.thousand_le_divisor
  have small := units.divisor_le
  by_cases below : size.toNat < units.divisor
  · refine ⟨_, stringGetSizeText_of_lt size units below, ?_⟩
    have digits := length_decimalText_le (n := size.toNat) (k := 4) (by decide) (by omega)
    have name := units.length_getD_unitsStr_le 0
    simp only [List.length_append, List.length_cons]
    omega
  · -- the exponent of `size` in base `d`
    set i := Nat.log units.divisor size.toNat
    have pos : 0 < i := Nat.log_pos (by omega) (by omega)
    have lo : units.divisor ^ i ≤ size.toNat := Nat.pow_log_le_self _ (by omega)
    have hi : size.toNat < units.divisor ^ (i + 1) := Nat.lt_pow_succ_log_self (by omega) _
    refine ⟨_, stringGetSizeText_of_le size units pos lo hi, ?_⟩
    have quotient : size.toNat / units.divisor ^ i < units.divisor :=
      (Nat.div_lt_iff_lt_mul (by positivity)).mpr (by rwa [← pow_succ'])
    have digits := length_decimalText_le (n := size.toNat / units.divisor ^ i) (k := 4)
      (by decide) (by omega)
    have decimals : sigDecimals (size.toNat / units.divisor ^ i) ≤ 2 := by
      unfold sigDecimals
      split_ifs <;> omega
    have fraction := length_fractionText_le
      (size.toNat / units.divisor ^ (i - 1) % units.divisor * 1000 / units.divisor)
      (sigDecimals (size.toNat / units.divisor ^ i))
    have name := units.length_getD_unitsStr_le i
    simp only [List.length_append, List.length_cons]
    split_ifs
    · omega
    · rw [List.length_nil]
      omega

theorem stringGetSize_stores (size : UInt64) (units : StringSizeUnits) (buf : Nat → UInt8)
    {len : Nat} (room : 12 ≤ len) {out : List UInt8} (text : stringGetSizeText size units = some out) :
    ∃ b, stringGetSize size units buf len = some b ∧ (List.range (out.length + 1)).map b = out ++ [0] := by
  obtain ⟨out', text', short⟩ := stringGetSizeText_length size units
  obtain rfl : out = out' := Option.some.inj (text.symm.trans text')
  refine ⟨_, by rw [stringGetSize, text, Option.map_some], ?_⟩
  exact Vsprintf.truncatedBuffer_of_lt buf (by omega)

/-! ### Powers of 1000 -/

theorem fractionText_eq {r j : Nat} (lt : r < 1000) (le : j ≤ 3) :
    fractionText r j = '.'.toUInt8 :: (decPadded (r / 10 ^ (3 - j)) j).reverse := by
  have padded := zeroPad_decimalText (n := r) (k := 3) (by decide) (by simpa using lt)
  have split := decPadded_append (a := r % 10 ^ (3 - j)) (b := r / 10 ^ (3 - j)) (m := j)
    (Nat.mod_lt _ (by positivity))
  rw [Nat.mod_add_div, Nat.sub_add_cancel le] at split
  simp only [fractionText]
  rw [padded, List.take_of_length_le (l := '.'.toUInt8 :: (decPadded r 3).reverse) (i := 7) (by simp),
    List.take_succ_cons, ← split, List.reverse_append, List.take_left' (by simp)]

theorem truncatedText_thousand {x f j : Nat} (le : j ≤ 3) :
    truncatedText x (f * 1000) j =
      decimalText (x / f / 1000) ++
        if j = 0 then [] else '.'.toUInt8 :: (decPadded (x / f % 1000 / 10 ^ (3 - j)) j).reverse := by
  have thousand : 1000 = 10 ^ (3 - j) * 10 ^ j := by rw [← pow_add, Nat.sub_add_cancel le]; rfl
  have digits : x / f % 1000 / 10 ^ (3 - j) < 10 ^ j :=
    (Nat.div_lt_iff_lt_mul (by positivity)).mpr
      (by rw [Nat.mul_comm, ← thousand]; exact Nat.mod_lt _ (by decide))
  -- the truncated value: the digits of the remainder, then the quotient in the place of `10^j`
  have t : x * 10 ^ j / (f * 1000) = x / f % 1000 / 10 ^ (3 - j) + 10 ^ j * (x / f / 1000) := calc
    x * 10 ^ j / (f * 1000) = 10 ^ j * x / (10 ^ j * (f * 10 ^ (3 - j))) := by
        rw [thousand]
        congr 1 <;> ring
    _ = x / f / 10 ^ (3 - j) := by
        rw [Nat.mul_div_mul_left _ _ (by positivity), Nat.div_div_eq_div_mul]
    _ = (x / f % 1000 + 10 ^ (3 - j) * (10 ^ j * (x / f / 1000))) / 10 ^ (3 - j) := by
        rw [← Nat.mul_assoc, ← thousand, Nat.mod_add_div]
    _ = x / f % 1000 / 10 ^ (3 - j) + 10 ^ j * (x / f / 1000) :=
        Nat.add_mul_div_left _ _ (by positivity)
  simp only [truncatedText]
  rw [t, Nat.add_mul_div_left _ _ (by positivity), Nat.div_eq_of_lt digits, Nat.zero_add,
    Nat.add_mul_mod_self_left, Nat.mod_eq_of_lt digits]

theorem stringGetSizeText_units10 (size : UInt64) {i : Nat} (lo : i = 0 ∨ 1000 ^ i ≤ size.toNat)
    (hi : size.toNat < 1000 ^ (i + 1)) :
    stringGetSizeText size .units10 = some (humanSize .units10 size.toNat i) := by
  rcases Nat.eq_zero_or_pos i with rfl | pos
  · rw [stringGetSizeText_of_lt size .units10 (by simpa [StringSizeUnits.divisor] using hi)]
    simp [humanSize, truncatedText]
  · rw [stringGetSizeText_of_le size .units10 pos (lo.resolve_left pos.ne') hi]
    -- `1000^i` is `f · 1000` for the unit `f` below it
    have unit : (1000 : Nat) ^ i = 1000 ^ (i - 1) * 1000 := by rw [← pow_succ, Nat.sub_add_cancel pos]
    simp only [humanSize, StringSizeUnits.divisor, if_neg pos.ne', unit,
      Nat.mul_div_cancel _ (by decide : 0 < 1000)]
    have decimals : sigDecimals (size.toNat / (1000 ^ (i - 1) * 1000)) ≤ 3 := by
      unfold sigDecimals
      split_ifs <;> omega
    rw [truncatedText_thousand decimals, fractionText_eq (Nat.mod_lt _ (by decide)) decimals,
      Nat.div_div_eq_div_mul]
    simp only [ne_eq, ite_not]

/-- `string_get_size` with `STRING_UNITS_10` and a buffer of 16 bytes or more: the buffer holds
`size` in the largest unit `1000^i ≤ size` (bytes below 1000) truncated to three significant
figures, the unit's name, and a NUL. -/
theorem stringGetSize_units10 (size : UInt64) {i : Nat} (lo : i = 0 ∨ 1000 ^ i ≤ size.toNat)
    (hi : size.toNat < 1000 ^ (i + 1)) (buf : Nat → UInt8) {len : Nat} (room : 16 ≤ len) :
    ∃ b, stringGetSize size .units10 buf len = some b ∧
      (List.range ((humanSize .units10 size.toNat i).length + 1)).map b =
        humanSize .units10 size.toNat i ++ [0] :=
  stringGetSize_stores size .units10 buf (by omega) (stringGetSizeText_units10 size lo hi)

theorem stringGetSize_units10_mega :
    ((2 = 0 ∨ 1000 ^ 2 ≤ (1234567 : UInt64).toNat) ∧ (1234567 : UInt64).toNat < 1000 ^ (2 + 1) ∧
      16 ≤ 16) ∧
      ∃ b, stringGetSize 1234567 .units10 (fun _ => 0) 16 = some b ∧
        (List.range ((humanSize .units10 (1234567 : UInt64).toNat 2).length + 1)).map b =
          humanSize .units10 (1234567 : UInt64).toNat 2 ++ [0] :=
  ⟨⟨.inr (by decide), by decide, le_refl 16⟩,
    stringGetSize_units10 1234567 (.inr (by decide)) (by decide) (fun _ => 0) (le_refl 16)⟩

example : stringGetSizeText 12345678 .units10 = some ("12.3 MB".toList.map Char.toUInt8) := by
  decide

/-! ### Powers of 1024 -/

/-- With `STRING_UNITS_2`, 1059839 bytes are 1.0107 MiB and `string_get_size` stores
`1.00 MiB`: the first remainder, 1023 bytes, is dropped, and the last, 10 KiB, is 9 thousandths
of a MiB rounded down. And 1047552 bytes are stored as `1023 KiB`, four figures. -/
theorem stringGetSize_units2_drops_remainders :
    1024 ^ 2 ≤ 1059839 ∧ 1059839 < 1024 ^ 3 ∧
      (stringGetSize 1059839 .units2 (fun _ => 0) 16).map (fun b => (List.range 9).map b) =
        some ("1.00 MiB".toList.map Char.toUInt8 ++ [0]) ∧
      humanSize .units2 1059839 2 = "1.01 MiB".toList.map Char.toUInt8 ∧
      (stringGetSize 1047552 .units2 (fun _ => 0) 16).map (fun b => (List.range 9).map b) =
        some ("1023 KiB".toList.map Char.toUInt8 ++ [0]) := by
  decide

end LinuxKernel
