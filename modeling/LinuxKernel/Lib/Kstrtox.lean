import LinuxKernel.Lib.Ctype
import LinuxKernel.Creds.Types

/-!
# kstrtox

`lib/kstrtox.c`: `kstrtoull` and `kstrtoll`. A string is its bytes before the NUL; reading past
its end gives the NUL. `_parse_integer` keeps a 64-bit value and a 32-bit digit count whose top
bit is `KSTRTOX_OVERFLOW`.
-/

namespace LinuxKernel.Kstrtox

def kstrtoxOverflow : UInt32 := (1 : UInt32) <<< 31

/-- `s[i]`: the terminating NUL at and past the end of the string. -/
def charAt (s : List UInt8) (i : Nat) : UInt8 := s.getD i 0

/-- `_parse_integer_fixup_radix`: the base, detected from the string when it is 0, and the
string past a `0x` prefix when the base is 16. -/
def parseIntegerFixupRadix (s : List UInt8) (base : Nat) : List UInt8 × Nat :=
  let base :=
    if base = 0 then
      -- '0', then 'x' and a hex digit
      if charAt s 0 = 48 then
        if tolower (charAt s 1) = 120 ∧ isxdigit (charAt s 2) then 16 else 8
      else 10
    else base
  if base = 16 ∧ charAt s 0 = 48 ∧ tolower (charAt s 1) = 120 then (s.drop 2, base) else (s, base)

/-- The value `_parse_integer` gives a byte: `'0'`–`'9'`, then `'a'`–`'f'` in either case. -/
def digitValue (c : UInt8) : Option Nat :=
  if 48 ≤ c ∧ c ≤ 57 then some (c - 48).toNat
  else if 97 ≤ tolower c ∧ tolower c ≤ 102 then some ((tolower c - 97).toNat + 10)
  else none

/-- The loop of `_parse_integer`: the value so far, the number of digits taken and whether the
value overflowed. -/
def parseIntegerLoop (base : Nat) : List UInt8 → UInt64 → UInt32 → Bool → UInt64 × UInt32 × Bool
  | [], res, rv, overflow => (res, rv, overflow)
  | c :: s, res, rv, overflow =>
    match digitValue c with
    | none => (res, rv, overflow)
    | some val =>
      if val ≥ base then (res, rv, overflow)
      else
        -- overflow is checked only where base 16 can reach it
        let overflow :=
          if res &&& (~~~(0 : UInt64) <<< 60) ≠ 0 then
            if res.toNat > (2 ^ 64 - 1 - val) / base then true else overflow
          else overflow
        parseIntegerLoop base s (res * base.toUInt64 + val.toUInt64) (rv + 1) overflow

/-- `_parse_integer`: the number of digits taken, or-ed with `KSTRTOX_OVERFLOW` on overflow, and
the value, wrapped on overflow. -/
def parseInteger (s : List UInt8) (base : Nat) : UInt32 × UInt64 :=
  match parseIntegerLoop base s 0 0 false with
  | (res, rv, overflow) => (if overflow then rv ||| kstrtoxOverflow else rv, res)

def kstrtoullAux (s : List UInt8) (base : Nat) (res : UInt64) : Except Errno Unit × UInt64 :=
  match parseIntegerFixupRadix s base with
  | (s, base) =>
    match parseInteger s base with
    | (rv, value) =>
      if rv &&& kstrtoxOverflow ≠ 0 then (.error .range, res)
      else
        let rv := rv &&& ~~~kstrtoxOverflow
        if rv = 0 then (.error .inval, res)
        else
          let s := s.drop rv.toNat
          let s := if charAt s 0 = 10 then s.drop 1 else s
          if charAt s 0 ≠ 0 then (.error .inval, res) else (.ok (), value)

/-- `kstrtoull`: an optional `'+'`, then `_kstrtoull`. -/
def kstrtoull (s : List UInt8) (base : Nat) (res : UInt64) : Except Errno Unit × UInt64 :=
  if charAt s 0 = 43 then kstrtoullAux (s.drop 1) base res else kstrtoullAux s base res

/-- `(long long)x`: the 64-bit word read in two's complement. -/
def toLongLong (x : UInt64) : Int := if x.toNat < 2 ^ 63 then x.toNat else x.toNat - 2 ^ 64

/-- `kstrtoll`: a `'-'` negates what `_kstrtoull` reads, which must then be negative; otherwise
what `kstrtoull` reads must be nonnegative. -/
def kstrtoll (s : List UInt8) (base : Nat) (res : Int) : Except Errno Unit × Int :=
  if charAt s 0 = 45 then
    match kstrtoullAux (s.drop 1) base 0 with
    | (.error e, _) => (.error e, res)
    | (.ok (), tmp) => if toLongLong (-tmp) ≥ 0 then (.error .range, res) else (.ok (), toLongLong (-tmp))
  else
    match kstrtoull s base 0 with
    | (.error e, _) => (.error e, res)
    | (.ok (), tmp) => if toLongLong tmp < 0 then (.error .range, res) else (.ok (), toLongLong tmp)

end LinuxKernel.Kstrtox
