import Mathlib
import LinuxKernel.Foundation.Reciprocal

/-!
# Jiffies and time units (`kernel/time.c`, `include/linux/jiffies.h`)

The conversions between jiffies and milliseconds, microseconds, `timespec` and `timeval` on the
64-bit build, with the constants `kernel/timeconst.pl` computes for `HZ` (`timeConst`).
`msecs_to_jiffies` never gives fewer ticks than last as long and at most one more, the fewest
where `HZ` divides 1000 (`msecsToJiffies_within_one`); with `HZ = 100` and the x86 PIT the
`timespec` round trip is exact (`timespec_roundtrip_hz100`) and the `timeval` one a tick off
(`timeval_roundtrip_hz100`).
-/

namespace LinuxKernel.Jiffies

/-! ### The constants of `jiffies.h` -/

def msecPerSec : Nat := 1000

def usecPerSec : Nat := 1000000

def nsecPerSec : Nat := 1000000000

def nsecPerUsec : Nat := 1000

/-- `LONG_MAX` on 64-bit. -/
def longMax : Nat := 2 ^ 63 - 1

def maxJiffyOffset : Nat := (longMax >>> 1) - 1

/-- `SH_DIV(NOM, DEN, LSH)`: `(NOM << LSH) / DEN`, rounded to nearest. -/
def shDiv (nom den lsh : Nat) : Nat := ((nom / den) <<< lsh) + (((nom % den) <<< lsh) + den / 2) / den

section Constants

variable (hz clockTickRate : Nat)

/-- `SHIFT_HZ`, for the `HZ` from 12 to 12287 that the header builds with. -/
def shiftHz : Nat :=
  if hz < 24 then 4 else if hz < 48 then 5 else if hz < 96 then 6 else if hz < 192 then 7
  else if hz < 384 then 8 else if hz < 768 then 9 else if hz < 1536 then 10
  else if hz < 3072 then 11 else if hz < 6144 then 12 else 13

def latch : Nat := (clockTickRate + hz / 2) / hz

/-- `ACTHZ`, the actual tick rate times 256. -/
def actHz : Nat := shDiv clockTickRate (latch hz clockTickRate) 8

def tickNsec : Nat := shDiv (1000000 * 1000) (actHz hz clockTickRate) 8

/-- `SEC_JIFFIE_SC`: `31 - SHIFT_HZ`, or one more where the scaled second leaves the top bit
clear. -/
def secJiffieSc : Nat :=
  if (((nsecPerSec <<< 2) / tickNsec hz clockTickRate) <<< (31 - shiftHz hz - 2)) &&& 0x80000000 = 0 then
    32 - shiftHz hz
  else 31 - shiftHz hz

def nsecJiffieSc : Nat := secJiffieSc hz clockTickRate + 29

def usecJiffieSc : Nat := secJiffieSc hz clockTickRate + 19

def secConversion : Nat :=
  ((nsecPerSec <<< secJiffieSc hz clockTickRate) + tickNsec hz clockTickRate - 1) / tickNsec hz clockTickRate

def nsecConversion : Nat :=
  ((1 <<< nsecJiffieSc hz clockTickRate) + tickNsec hz clockTickRate - 1) / tickNsec hz clockTickRate

def usecConversion : Nat :=
  ((nsecPerUsec <<< usecJiffieSc hz clockTickRate) + tickNsec hz clockTickRate - 1) / tickNsec hz clockTickRate

def usecRound : Nat := (1 <<< usecJiffieSc hz clockTickRate) - 1

/-- `MAX_SEC_IN_JIFFIES` for `BITS_PER_LONG == 64`. -/
def maxSecInJiffies : Nat :=
  shDiv ((maxJiffyOffset >>> secJiffieSc hz clockTickRate) * tickNsec hz clockTickRate) nsecPerSec 1 - 1

end Constants

/-! ### Milliseconds and microseconds -/

/-- The constants `kernel/timeconst.pl` writes into `timeconst.h` for the configured `HZ`, which
the general cases of the conversions use. -/
structure TimeConst where
  hzToMsecNum : UInt64
  hzToMsecDen : UInt64
  msecToHzMul32 : UInt64
  msecToHzAdj32 : UInt64
  msecToHzShr32 : UInt64
  hzToUsecNum : UInt64
  hzToUsecDen : UInt64
  usecToHzMul32 : UInt64
  usecToHzAdj32 : UInt64
  usecToHzShr32 : UInt64

/-! ### `kernel/timeconst.pl` -/

/-- `fmul(b, n, d)`: `n / d` at the scale `2^b`, rounded up. -/
def fmul (b n d : Nat) : Nat := ((n <<< b) + d - 1) / d

/-- `fadj(b, n, d)`: `(d - 1) / d` at the scale `2^b`, rounded down, once `d` has lost its common
factor with `n`. -/
def fadj (b n d : Nat) : Nat :=
  let d := d / Nat.gcd n d
  ((d - 1) <<< b) / d

/-- The loop of `fmuls` from the shift `s`, with `fuel` rounds left. -/
def fmulsFrom (b n d : Nat) : Nat → Nat → Nat
  | 0, s => s
  | fuel + 1, s => if 2 ^ (b - 1) ≤ fmul s n d then s else fmulsFrom b n d fuel (s + 1)

/-- `fmuls(b, n, d)`: the least shift at which `fmul` reaches `2^(b-1)`. The Perl loop has no
bound; `b + d` rounds reach the shift for every `n ≥ 1` (`fmuls_spec`). -/
def fmuls (b n d : Nat) : Nat := fmulsFrom b n d (b + d) 0

def numden (n d : Nat) : Nat × Nat := (n / Nat.gcd n d, d / Nat.gcd n d)

/-- `muladj(b, t, hz)`: the multiplier, the addend and the shift. -/
def muladj (b t hz : Nat) : Nat × Nat × Nat :=
  let s := fmuls b t hz
  (fmul s t hz, fadj s t hz, s)

/-- The `timeconst.h` that `timeconst.pl HZ` writes: `conversions(1000, HZ)` and
`conversions(1000000, HZ)`, of which the conversions use the `xx_TO_HZ` multipliers and the
`HZ_TO_xx` fractions. -/
def timeConst (hz : Nat) : TimeConst :=
  let msecToHz := muladj 32 hz msecPerSec
  let usecToHz := muladj 32 hz usecPerSec
  { hzToMsecNum := (numden msecPerSec hz).1.toUInt64
    hzToMsecDen := (numden msecPerSec hz).2.toUInt64
    msecToHzMul32 := msecToHz.1.toUInt64
    msecToHzAdj32 := msecToHz.2.1.toUInt64
    msecToHzShr32 := msecToHz.2.2.toUInt64
    hzToUsecNum := (numden usecPerSec hz).1.toUInt64
    hzToUsecDen := (numden usecPerSec hz).2.toUInt64
    usecToHzMul32 := usecToHz.1.toUInt64
    usecToHzAdj32 := usecToHz.2.1.toUInt64
    usecToHzShr32 := usecToHz.2.2.toUInt64 }

/-- The `MSEC_TO_HZ` constants of the canned table for `HZ = 128`. -/
example : ((timeConst 128).msecToHzMul32, (timeConst 128).msecToHzAdj32, (timeConst 128).msecToHzShr32) =
    (0x83126e98, 0x3f7ced916, 34) := by decide

section Units

variable (hz : Nat) (tc : TimeConst)

/-- `jiffies_to_msecs(j)` on 64-bit. -/
def jiffiesToMsecs (j : UInt64) : UInt32 :=
  if hz ≤ msecPerSec ∧ msecPerSec % hz = 0 then ((msecPerSec / hz).toUInt64 * j).toUInt32
  else if hz > msecPerSec ∧ hz % msecPerSec = 0 then
    ((j + (hz / msecPerSec).toUInt64 - 1) / (hz / msecPerSec).toUInt64).toUInt32
  else (j * tc.hzToMsecNum / tc.hzToMsecDen).toUInt32

/-- `jiffies_to_usecs(j)` on 64-bit. -/
def jiffiesToUsecs (j : UInt64) : UInt32 :=
  if hz ≤ usecPerSec ∧ usecPerSec % hz = 0 then ((usecPerSec / hz).toUInt64 * j).toUInt32
  else if hz > usecPerSec ∧ hz % usecPerSec = 0 then
    ((j + (hz / usecPerSec).toUInt64 - 1) / (hz / usecPerSec).toUInt64).toUInt32
  else (j * tc.hzToUsecNum / tc.hzToUsecDen).toUInt32

def msecsToJiffies (m : UInt32) : UInt64 :=
  if m.toInt32 < 0 then maxJiffyOffset.toUInt64
  else if hz ≤ msecPerSec ∧ msecPerSec % hz = 0 then
    -- round up
    (m.toUInt64 + (msecPerSec / hz).toUInt64 - 1) / (msecPerSec / hz).toUInt64
  else if hz > msecPerSec ∧ hz % msecPerSec = 0 then
    if m > jiffiesToMsecs hz tc maxJiffyOffset.toUInt64 then maxJiffyOffset.toUInt64
    else m.toUInt64 * (hz / msecPerSec).toUInt64
  else if hz > msecPerSec ∧ m > jiffiesToMsecs hz tc maxJiffyOffset.toUInt64 then maxJiffyOffset.toUInt64
  else (tc.msecToHzMul32 * m.toUInt64 + tc.msecToHzAdj32) >>> tc.msecToHzShr32

def usecsToJiffies (u : UInt32) : UInt64 :=
  if u > jiffiesToUsecs hz tc maxJiffyOffset.toUInt64 then maxJiffyOffset.toUInt64
  else if hz ≤ usecPerSec ∧ usecPerSec % hz = 0 then
    (u.toUInt64 + (usecPerSec / hz).toUInt64 - 1) / (usecPerSec / hz).toUInt64
  else if hz > usecPerSec ∧ hz % usecPerSec = 0 then u.toUInt64 * (hz / usecPerSec).toUInt64
  else (tc.usecToHzMul32 * u.toUInt64 + tc.usecToHzAdj32) >>> tc.usecToHzShr32

end Units

/-! ### `timespec` and `timeval` -/

structure Timespec where
  tvSec : Int64
  tvNsec : Int64
  deriving DecidableEq, Repr

structure Timeval where
  tvSec : Int64
  tvUsec : Int64
  deriving DecidableEq, Repr

/-- `div_u64_rem(dividend, divisor, &rem)` on 64-bit: the quotient and the remainder. -/
def divU64Rem (dividend : UInt64) (divisor : UInt32) : UInt64 × UInt32 :=
  (dividend / divisor.toUInt64, (dividend % divisor.toUInt64).toUInt32)

section Timespec

variable (hz clockTickRate : Nat)

def timespecToJiffies (value : Timespec) : UInt64 :=
  let sec := value.tvSec.toUInt64
  -- `long nsec = value->tv_nsec + TICK_NSEC - 1`, an `unsigned long` sum stored in a `long`
  let nsec := value.tvNsec.toUInt64 + (tickNsec hz clockTickRate).toUInt64 - 1
  let clamped := sec ≥ (maxSecInJiffies hz clockTickRate).toUInt64
  let sec := if clamped then (maxSecInJiffies hz clockTickRate).toUInt64 else sec
  let nsec := if clamped then 0 else nsec
  (sec * (secConversion hz clockTickRate).toUInt64 +
      (nsec * (nsecConversion hz clockTickRate).toUInt64) >>>
        (nsecJiffieSc hz clockTickRate - secJiffieSc hz clockTickRate).toUInt64) >>>
    (secJiffieSc hz clockTickRate).toUInt64

def jiffiesToTimespec (jiffies : UInt64) : Timespec :=
  let (sec, rem) := divU64Rem (jiffies * (tickNsec hz clockTickRate).toUInt64) nsecPerSec.toUInt32
  { tvSec := sec.toInt64, tvNsec := rem.toUInt64.toInt64 }

def timevalToJiffies (value : Timeval) : UInt64 :=
  let sec := value.tvSec.toUInt64
  let usec := value.tvUsec.toUInt64
  let clamped := sec ≥ (maxSecInJiffies hz clockTickRate).toUInt64
  let sec := if clamped then (maxSecInJiffies hz clockTickRate).toUInt64 else sec
  let usec := if clamped then 0 else usec
  (sec * (secConversion hz clockTickRate).toUInt64 +
      (usec * (usecConversion hz clockTickRate).toUInt64 + (usecRound hz clockTickRate).toUInt64) >>>
        (usecJiffieSc hz clockTickRate - secJiffieSc hz clockTickRate).toUInt64) >>>
    (secJiffieSc hz clockTickRate).toUInt64

def jiffiesToTimeval (jiffies : UInt64) : Timeval :=
  let (sec, rem) := divU64Rem (jiffies * (tickNsec hz clockTickRate).toUInt64) nsecPerSec.toUInt32
  { tvSec := sec.toInt64, tvUsec := (rem.toNat / nsecPerUsec).toUInt64.toInt64 }

end Timespec

/-! ### Words and numbers -/

theorem toNat_toUInt64_of_lt {n : Nat} (h : n < 2 ^ 64) : n.toUInt64.toNat = n := by
  rw [Nat.toUInt64, UInt64.toNat_ofNat', Nat.mod_eq_of_lt h]

theorem toNat_mul_of_lt {a b : UInt64} (h : a.toNat * b.toNat < 2 ^ 64) :
    (a * b).toNat = a.toNat * b.toNat := by
  rw [UInt64.toNat_mul, Nat.mod_eq_of_lt h]

theorem toNat_add_of_lt {a b : UInt64} (h : a.toNat + b.toNat < 2 ^ 64) :
    (a + b).toNat = a.toNat + b.toNat := by
  rw [UInt64.toNat_add, Nat.mod_eq_of_lt h]

theorem toNat_shiftRight_of_lt (a : UInt64) {n : Nat} (h : n < 64) :
    (a >>> n.toUInt64).toNat = a.toNat / 2 ^ n := by
  rw [UInt64.toNat_shiftRight, toNat_toUInt64_of_lt (by omega), Nat.mod_eq_of_lt h,
    Nat.shiftRight_eq_div_pow]

theorem toNat_roundUp (x : UInt32) {k : Nat} (pos : 0 < k) (small : k ≤ 1000000) :
    ((x.toUInt64 + k.toUInt64 - 1) / k.toUInt64).toNat = (x.toNat + k - 1) / k := by
  have kWord : k.toUInt64.toNat = k := toNat_toUInt64_of_lt (by omega)
  have sum : (x.toUInt64 + k.toUInt64).toNat = x.toNat + k := by
    have := x.toNat_lt
    rw [toNat_add_of_lt] <;> rw [UInt32.toNat_toUInt64, kWord]
    omega
  have one : (1 : UInt64) ≤ x.toUInt64 + k.toUInt64 := by
    rw [UInt64.le_iff_toNat_le, sum, UInt64.toNat_one]
    omega
  rw [UInt64.toNat_div, UInt64.toNat_sub_of_le _ _ one, sum, UInt64.toNat_one, kWord]

theorem ceilDiv_least (m : Nat) {k : Nat} (pos : 0 < k) :
    m ≤ (m + k - 1) / k * k ∧ ∀ j, m ≤ j * k → (m + k - 1) / k ≤ j := by
  have split := Nat.div_add_mod (m + k - 1) k
  have rest := Nat.mod_lt (m + k - 1) pos
  refine ⟨?_, fun j enough => ?_⟩
  · rw [Nat.mul_comm]
    omega
  · rw [Nat.div_le_iff_le_mul_add_pred pos, Nat.mul_comm]
    omega

/-! ### Milliseconds where `HZ` divides 1000 -/

theorem not_toInt32_neg {m : UInt32} (small : m.toNat ≤ 2 ^ 31 - 1) : ¬m.toInt32 < 0 := by
  rw [Int32.lt_iff_toInt_lt, Int32.toInt_zero]
  show ¬m.toBitVec.toInt < 0
  rw [BitVec.toInt_eq_toNat_cond, UInt32.toNat_toBitVec]
  split <;> omega

/-- Where `HZ` divides 1000, a tick lasts `1000 / HZ` ms, and for every `m ≤ INT_MAX`,
`msecs_to_jiffies(m)` is the fewest ticks that last at least `m` ms. -/
theorem msecsToJiffies_least (tc : TimeConst) {hz : Nat} (pos : 0 < hz) (le : hz ≤ msecPerSec)
    (dvd : msecPerSec % hz = 0) {m : UInt32} (small : m.toNat ≤ 2 ^ 31 - 1) :
    m.toNat ≤ (msecsToJiffies hz tc m).toNat * (msecPerSec / hz) ∧
      ∀ j, m.toNat ≤ j * (msecPerSec / hz) → (msecsToJiffies hz tc m).toNat ≤ j := by
  have tick : 0 < msecPerSec / hz := Nat.div_pos le pos
  have tickLe : msecPerSec / hz ≤ 1000 := Nat.div_le_self _ _
  unfold msecsToJiffies
  rw [if_neg (not_toInt32_neg small), if_pos ⟨le, dvd⟩, toNat_roundUp m tick (by omega)]
  exact ceilDiv_least m.toNat tick

/-! ### The shift of `timeconst.pl` -/

section Fmuls

variable {b n d : Nat}

theorem le_fmul_mul (s : Nat) (hd : 0 < d) : n * 2 ^ s ≤ fmul s n d * d := by
  unfold fmul
  rw [Nat.shiftLeft_eq]
  exact Reciprocal.le_ceil_mul hd

theorem fmul_mul_lt (s : Nat) (hd : 0 < d) : fmul s n d * d < n * 2 ^ s + d := by
  unfold fmul
  rw [Nat.shiftLeft_eq]
  exact Reciprocal.ceil_mul_lt hd

theorem fmulsFrom_spec : ∀ fuel s, (∀ t < s, fmul t n d < 2 ^ (b - 1)) →
    (∃ t < s + fuel, 2 ^ (b - 1) ≤ fmul t n d) →
    2 ^ (b - 1) ≤ fmul (fmulsFrom b n d fuel s) n d ∧ ∀ t < fmulsFrom b n d fuel s, fmul t n d < 2 ^ (b - 1)
  | 0, s, below, ⟨t, lt, reach⟩ => absurd reach (Nat.not_le.mpr (below t (by omega)))
  | fuel + 1, s, below, reaches => by
    unfold fmulsFrom
    split_ifs with found
    · exact ⟨found, below⟩
    · refine fmulsFrom_spec fuel (s + 1) (fun t lt => ?_) ?_
      · rcases Nat.lt_succ_iff_lt_or_eq.mp lt with lt | rfl
        · exact below t lt
        · exact Nat.not_le.mp found
      · obtain ⟨t, lt, reach⟩ := reaches
        exact ⟨t, by omega, reach⟩

/-- `fmuls` is the least shift at which `fmul` reaches `2^(b-1)`: at the shift `b - 1 + d` the
scaled `n / d` has passed it, so the `b + d` rounds are enough. -/
theorem fmuls_spec (hb : 0 < b) (hn : 0 < n) (hd : 0 < d) :
    2 ^ (b - 1) ≤ fmul (fmuls b n d) n d ∧ ∀ t < fmuls b n d, fmul t n d < 2 ^ (b - 1) := by
  refine fmulsFrom_spec (b + d) 0 (fun t lt => absurd lt (Nat.not_lt_zero t)) ⟨b - 1 + d, by omega, ?_⟩
  apply Nat.le_of_mul_le_mul_right _ hd
  calc 2 ^ (b - 1) * d ≤ 2 ^ (b - 1) * 2 ^ d := Nat.mul_le_mul_left _ Nat.lt_two_pow_self.le
    _ = 2 ^ (b - 1 + d) := (Nat.pow_add 2 (b - 1) d).symm
    _ ≤ n * 2 ^ (b - 1 + d) := Nat.le_mul_of_pos_left _ hn
    _ ≤ fmul (b - 1 + d) n d * d := le_fmul_mul _ hd

end Fmuls

/-! ### Milliseconds at every `HZ` up to 1000 -/

section MsecToHz

variable {hz : Nat}

theorem msecToHz_mul_bounds (pos : 0 < hz) (le : hz ≤ msecPerSec) :
    2 ^ 31 ≤ fmul (fmuls 32 hz msecPerSec) hz msecPerSec ∧
      fmul (fmuls 32 hz msecPerSec) hz msecPerSec < 2 ^ 32 ∧
      2 ^ fmuls 32 hz msecPerSec ≤ fmul (fmuls 32 hz msecPerSec) hz msecPerSec * msecPerSec ∧
      fmul (fmuls 32 hz msecPerSec) hz msecPerSec ≤ 2 ^ fmuls 32 hz msecPerSec := by
  obtain ⟨reach, below⟩ := @fmuls_spec 32 hz msecPerSec (by decide) pos (by decide)
  set s := fmuls 32 hz msecPerSec
  have lo := @le_fmul_mul hz msecPerSec s (by decide)
  have hi := @fmul_mul_lt hz msecPerSec s (by decide)
  have scaled : hz * 2 ^ s ≤ msecPerSec * 2 ^ s := Nat.mul_le_mul_right _ le
  unfold msecPerSec at *
  refine ⟨reach, ?_, by nlinarith, by omega⟩
  -- the shift before `s` left the multiplier below `2^31`, and one more shift at most doubles it
  cases hs : s with
  | zero =>
    rw [hs] at reach
    unfold fmul at reach
    simp only [Nat.shiftLeft_zero] at reach
    omega
  | succ t =>
    have prev := below t (by omega)
    unfold fmul at prev ⊢
    rw [Nat.shiftLeft_eq] at prev ⊢
    rw [pow_succ, ← Nat.mul_assoc]
    generalize hz * 2 ^ t = x at prev ⊢
    omega

theorem fadj_msecToHz_eq (s : Nat) :
    fadj s hz msecPerSec = (msecPerSec / Nat.gcd hz msecPerSec - 1) * 2 ^ s / (msecPerSec / Nat.gcd hz msecPerSec) := by
  simp only [fadj, Nat.shiftLeft_eq]

/-- On the path for an `HZ` up to 1000 that does not divide 1000, `MSEC_TO_HZ_MUL32 * m +
MSEC_TO_HZ_ADJ32` stays below 2^64 for every `m ≤ INT_MAX`, so the shift divides exactly. -/
theorem msecsToJiffies_general (pos : 0 < hz) (le : hz ≤ msecPerSec) (notDvd : msecPerSec % hz ≠ 0)
    {m : UInt32} (small : m.toNat ≤ 2 ^ 31 - 1) :
    (msecsToJiffies hz (timeConst hz) m).toNat =
      (fmul (fmuls 32 hz msecPerSec) hz msecPerSec * m.toNat + fadj (fmuls 32 hz msecPerSec) hz msecPerSec) /
        2 ^ fmuls 32 hz msecPerSec := by
  obtain ⟨-, mul, big, -⟩ := msecToHz_mul_bounds pos le
  set s := fmuls 32 hz msecPerSec
  set M := fmul s hz msecPerSec
  have reduced : 0 < msecPerSec / Nat.gcd hz msecPerSec :=
    Nat.div_pos (Nat.gcd_le_right _ (by decide)) (Nat.gcd_pos_of_pos_left _ pos)
  have adj : fadj s hz msecPerSec < 2 ^ s := by
    rw [fadj_msecToHz_eq, Nat.div_lt_iff_lt_mul reduced]
    rw [Nat.mul_comm (2 ^ s)]
    exact Nat.mul_lt_mul_of_pos_right (Nat.sub_lt reduced Nat.one_pos) (Nat.two_pow_pos s)
  set A := fadj s hz msecPerSec
  have shift : 2 ^ s < 2 ^ 42 := by
    unfold msecPerSec at big
    omega
  have shiftLt : s < 42 := (Nat.pow_lt_pow_iff_right (by decide)).mp shift
  have product : M * m.toNat < 2 ^ 63 := by
    calc M * m.toNat < 2 ^ 32 * 2 ^ 31 := Nat.mul_lt_mul_of_lt_of_lt mul (by omega)
      _ = 2 ^ 63 := by norm_num
  unfold msecsToJiffies
  rw [if_neg (not_toInt32_neg small), if_neg (fun h => notDvd h.2), if_neg (by omega), if_neg (by omega)]
  have fields : (timeConst hz).msecToHzMul32 = M.toUInt64 ∧ (timeConst hz).msecToHzAdj32 = A.toUInt64 ∧
      (timeConst hz).msecToHzShr32 = s.toUInt64 := ⟨rfl, rfl, rfl⟩
  rw [fields.1, fields.2.1, fields.2.2, toNat_shiftRight_of_lt _ (by omega)]
  have mulWord : (M.toUInt64 * m.toUInt64).toNat = M * m.toNat := by
    rw [toNat_mul_of_lt] <;> rw [toNat_toUInt64_of_lt (by omega), UInt32.toNat_toUInt64]
    exact product.trans (by norm_num)
  rw [toNat_add_of_lt] <;> rw [mulWord, toNat_toUInt64_of_lt (by omega)]
  omega

/-- On that path `msecs_to_jiffies(m)` lasts at least `m` ms and is at most one jiffy more than any
count that does: the multiplier rounds `HZ / 1000` up at the scale `2^s`, and the addend is just
short of one jiffy in the reduced denominator. -/
theorem msecsToJiffies_general_bounds (pos : 0 < hz) (le : hz ≤ msecPerSec) (notDvd : msecPerSec % hz ≠ 0)
    {m : UInt32} (small : m.toNat ≤ 2 ^ 31 - 1) :
    m.toNat * hz ≤ (msecsToJiffies hz (timeConst hz) m).toNat * msecPerSec ∧
      ∀ j, m.toNat * hz ≤ j * msecPerSec → (msecsToJiffies hz (timeConst hz) m).toNat ≤ j + 1 := by
  obtain ⟨-, -, -, mulLe⟩ := msecToHz_mul_bounds pos le
  rw [msecsToJiffies_general pos le notDvd small, fadj_msecToHz_eq]
  set s := fmuls 32 hz msecPerSec
  set M := fmul s hz msecPerSec
  set g := Nat.gcd hz msecPerSec
  have gPos : 0 < g := Nat.gcd_pos_of_pos_left _ pos
  have hzEq : hz = hz / g * g := (Nat.div_mul_cancel (Nat.gcd_dvd_left _ _)).symm
  have secEq : msecPerSec = msecPerSec / g * g := (Nat.div_mul_cancel (Nat.gcd_dvd_right _ _)).symm
  set n := hz / g
  set d := msecPerSec / g
  have dPos : 0 < d := Nat.div_pos (Nat.gcd_le_right _ (by decide)) gPos
  -- the multiplier's bounds in the reduced fraction `n / d`
  have lo : n * 2 ^ s ≤ M * d := by
    apply Nat.le_of_mul_le_mul_right _ gPos
    calc n * 2 ^ s * g = n * g * 2 ^ s := by ring
      _ = hz * 2 ^ s := by rw [← hzEq]
      _ ≤ M * msecPerSec := le_fmul_mul s (by decide)
      _ = M * d * g := by rw [secEq, Nat.mul_assoc]
  have hi : M * d < n * 2 ^ s + d := by
    apply Nat.lt_of_mul_lt_mul_right (a := g)
    calc M * d * g = M * msecPerSec := by rw [Nat.mul_assoc, ← secEq]
      _ < hz * 2 ^ s + msecPerSec := fmul_mul_lt s (by decide)
      _ = (n * 2 ^ s + d) * g := by rw [hzEq, secEq]; ring
  have below : m.toNat < 2 ^ s := by
    have : 2 ^ 31 ≤ M := (msecToHz_mul_bounds pos le).1
    omega
  have atLeast := Reciprocal.ceil_le_mul_add_div (N := 2 ^ s) (a := m.toNat) (Nat.two_pow_pos s) dPos lo
  have atMost := Reciprocal.mul_add_div_le_ceil_succ dPos hi below
  set R := (M * m.toNat + (d - 1) * 2 ^ s / d) / 2 ^ s
  -- the requests in milliseconds are the requests in the reduced fraction, times `g`
  have scale : ∀ j, m.toNat * hz ≤ j * msecPerSec ↔ m.toNat * n ≤ j * d := fun j => by
    rw [hzEq, secEq, ← Nat.mul_assoc, ← Nat.mul_assoc]
    exact Nat.mul_le_mul_right_iff gPos
  obtain ⟨enough, least⟩ := ceilDiv_least (m.toNat * n) dPos
  refine ⟨(scale R).mpr (enough.trans (Nat.mul_le_mul_right d atLeast)), fun j h => ?_⟩
  have := least j ((scale j).mp h)
  omega

/-- For every `HZ` from 1 to 1000, with the constants `timeconst.pl` writes for it, and every
`m ≤ INT_MAX`: `msecs_to_jiffies(m)` lasts at least `m` ms, is at most one jiffy more than any
count that does, and where `HZ` divides 1000 is the fewest that do. -/
theorem msecsToJiffies_within_one (pos : 0 < hz) (le : hz ≤ msecPerSec) {m : UInt32}
    (small : m.toNat ≤ 2 ^ 31 - 1) :
    m.toNat * hz ≤ (msecsToJiffies hz (timeConst hz) m).toNat * msecPerSec ∧
      (∀ j, m.toNat * hz ≤ j * msecPerSec → (msecsToJiffies hz (timeConst hz) m).toNat ≤ j + 1) ∧
      (msecPerSec % hz = 0 → ∀ j, m.toNat * hz ≤ j * msecPerSec → (msecsToJiffies hz (timeConst hz) m).toNat ≤ j) := by
  by_cases dvd : msecPerSec % hz = 0
  · -- `HZ` divides 1000: a tick is `1000 / HZ` ms and the count is rounded up exactly
    obtain ⟨enough, least⟩ := msecsToJiffies_least (timeConst hz) pos le dvd small
    have scale : ∀ j, m.toNat * hz ≤ j * msecPerSec ↔ m.toNat ≤ j * (msecPerSec / hz) := fun j => by
      have cancel : j * (msecPerSec / hz) * hz = j * msecPerSec := by
        rw [Nat.mul_assoc, Nat.div_mul_cancel (Nat.dvd_of_mod_eq_zero dvd)]
      rw [← cancel]
      exact Nat.mul_le_mul_right_iff pos
    exact ⟨(scale _).mpr enough, fun j h => (least j ((scale j).mp h)).trans (Nat.le_succ j),
      fun _ j h => least j ((scale j).mp h)⟩
  · obtain ⟨enough, within⟩ := msecsToJiffies_general_bounds pos le dvd small
    exact ⟨enough, within, fun divides => absurd divides dvd⟩

/-- At `HZ = 128`, 306783500 ms are exactly 39268288 jiffies: `msecs_to_jiffies` gives one more,
as many as the bound allows. -/
theorem msecsToJiffies_within_one_hz128 :
    0 < 128 ∧ 128 ≤ msecPerSec ∧ (306783500 : UInt32).toNat ≤ 2 ^ 31 - 1 ∧
      (306783500 : UInt32).toNat * 128 ≤ 39268288 * msecPerSec ∧
      (msecsToJiffies 128 (timeConst 128) 306783500).toNat ≤ 39268288 + 1 ∧
      (msecsToJiffies 128 (timeConst 128) 306783500).toNat = 39268289 :=
  have exact : (306783500 : UInt32).toNat * 128 ≤ 39268288 * msecPerSec := by decide
  ⟨by decide, by decide, by decide, exact,
    (msecsToJiffies_within_one (by decide) (by decide) (by decide)).2.1 39268288 exact, by decide⟩

end MsecToHz

/-! ### `HZ = 100` on x86 -/

/-- `PIT_TICK_RATE`, the `CLOCK_TICK_RATE` of x86. -/
def pitTickRate : Nat := 1193182

theorem tickNsec_hz100 : tickNsec 100 pitTickRate = 10000000 := by decide

theorem secJiffieSc_hz100 : secJiffieSc 100 pitTickRate = 25 := by decide

theorem nsecJiffieSc_hz100 : nsecJiffieSc 100 pitTickRate = 54 := by decide

theorem usecJiffieSc_hz100 : usecJiffieSc 100 pitTickRate = 44 := by decide

theorem secConversion_hz100 : secConversion 100 pitTickRate = 3355443200 := by decide

theorem nsecConversion_hz100 : nsecConversion 100 pitTickRate = 1801439851 := by decide

theorem usecConversion_hz100 : usecConversion 100 pitTickRate = 1759218605 := by decide

theorem usecRound_hz100 : usecRound 100 pitTickRate = 2 ^ 44 - 1 := by decide

theorem maxSecInJiffies_hz100 : maxSecInJiffies 100 pitTickRate = 2748779068 := by decide

/-- The quotient and remainder of `j * TICK_NSEC` by `NSEC_PER_SEC`, at `HZ = 100`: the seconds
and the 10 ms ticks past them, while the product fits in 64 bits. -/
theorem divU64Rem_hz100 {j : UInt64} (fits : j.toNat < 1844674407370) :
    (divU64Rem (j * (tickNsec 100 pitTickRate).toUInt64) nsecPerSec.toUInt32).1.toNat = j.toNat / 100 ∧
      (divU64Rem (j * (tickNsec 100 pitTickRate).toUInt64) nsecPerSec.toUInt32).2.toNat =
        j.toNat % 100 * 10000000 := by
  have product : (j * (tickNsec 100 pitTickRate).toUInt64).toNat = j.toNat * 10000000 := by
    rw [tickNsec_hz100, toNat_mul_of_lt] <;> rw [toNat_toUInt64_of_lt (by decide)]
    omega
  have divisor : nsecPerSec.toUInt32.toUInt64.toNat = 1000000000 := by decide
  unfold divU64Rem
  refine ⟨?_, ?_⟩
  · rw [UInt64.toNat_div, product, divisor]
    omega
  · have below : j.toNat * 10000000 % 1000000000 < 2 ^ 32 :=
      Nat.lt_of_lt_of_le (Nat.mod_lt _ (by decide)) (by decide)
    rw [UInt64.toNat_toUInt32, UInt64.toNat_mod, product, divisor, Nat.mod_eq_of_lt below]
    omega

theorem jiffiesToTimespec_hz100 {j : UInt64} (fits : j.toNat < 1844674407370) :
    (jiffiesToTimespec 100 pitTickRate j).tvSec.toUInt64.toNat = j.toNat / 100 ∧
      (jiffiesToTimespec 100 pitTickRate j).tvNsec.toUInt64.toNat = j.toNat % 100 * 10000000 := by
  obtain ⟨sec, rem⟩ := divU64Rem_hz100 fits
  have value : jiffiesToTimespec 100 pitTickRate j =
      { tvSec := (divU64Rem (j * (tickNsec 100 pitTickRate).toUInt64) nsecPerSec.toUInt32).1.toInt64,
        tvNsec := (divU64Rem (j * (tickNsec 100 pitTickRate).toUInt64) nsecPerSec.toUInt32).2.toUInt64.toInt64 } :=
    rfl
  rw [value]
  exact ⟨sec, by rw [UInt64.toUInt64_toInt64, UInt32.toNat_toUInt64, rem]⟩

theorem jiffiesToTimeval_hz100 {j : UInt64} (fits : j.toNat < 1844674407370) :
    (jiffiesToTimeval 100 pitTickRate j).tvSec.toUInt64.toNat = j.toNat / 100 ∧
      (jiffiesToTimeval 100 pitTickRate j).tvUsec.toUInt64.toNat = j.toNat % 100 * 10000 := by
  obtain ⟨sec, rem⟩ := divU64Rem_hz100 fits
  have value : jiffiesToTimeval 100 pitTickRate j =
      { tvSec := (divU64Rem (j * (tickNsec 100 pitTickRate).toUInt64) nsecPerSec.toUInt32).1.toInt64,
        tvUsec := ((divU64Rem (j * (tickNsec 100 pitTickRate).toUInt64) nsecPerSec.toUInt32).2.toNat /
          nsecPerUsec).toUInt64.toInt64 } :=
    rfl
  rw [value]
  refine ⟨sec, ?_⟩
  rw [UInt64.toUInt64_toInt64, rem, nsecPerUsec, toNat_toUInt64_of_lt (by omega)]
  omega

/-- `timespec_to_jiffies` at `HZ = 100` below `MAX_SEC_IN_JIFFIES` seconds, as a number: the
scaled seconds plus the scaled nanoseconds rounded up by a tick less one, shifted back. -/
theorem timespecToJiffies_hz100 {value : Timespec}
    (sec : value.tvSec.toUInt64.toNat < maxSecInJiffies 100 pitTickRate)
    (nsec : value.tvNsec.toUInt64.toNat < nsecPerSec) :
    (timespecToJiffies 100 pitTickRate value).toNat =
      (value.tvSec.toUInt64.toNat * 3355443200 +
        (value.tvNsec.toUInt64.toNat + 9999999) * 1801439851 / 2 ^ 29) / 2 ^ 25 := by
  rw [maxSecInJiffies_hz100] at sec
  unfold nsecPerSec at nsec
  unfold timespecToJiffies
  rw [tickNsec_hz100, maxSecInJiffies_hz100, secConversion_hz100, nsecConversion_hz100, nsecJiffieSc_hz100,
    secJiffieSc_hz100]
  generalize value.tvSec.toUInt64 = s at *
  generalize value.tvNsec.toUInt64 = n at *
  have limit : ¬s ≥ (2748779068 : Nat).toUInt64 := by
    rw [ge_iff_le, UInt64.le_iff_toNat_le, toNat_toUInt64_of_lt (by decide)]
    omega
  simp only [if_neg limit]
  -- each word operation is exact: the scaled values stay below 2^64
  have tick : ((10000000 : Nat).toUInt64).toNat = 10000000 := toNat_toUInt64_of_lt (by decide)
  have secScale : ((3355443200 : Nat).toUInt64).toNat = 3355443200 := toNat_toUInt64_of_lt (by decide)
  have nsecScale : ((1801439851 : Nat).toUInt64).toNat = 1801439851 := toNat_toUInt64_of_lt (by decide)
  have rounded : (n + (10000000 : Nat).toUInt64).toNat = n.toNat + 10000000 := by
    rw [toNat_add_of_lt] <;> rw [tick]
    omega
  have one : (1 : UInt64) ≤ n + (10000000 : Nat).toUInt64 := by
    rw [UInt64.le_iff_toNat_le, rounded, UInt64.toNat_one]
    omega
  have less : (n + (10000000 : Nat).toUInt64 - 1).toNat = n.toNat + 9999999 := by
    rw [UInt64.toNat_sub_of_le _ _ one, rounded, UInt64.toNat_one]
    omega
  have scaledNsec : ((n + (10000000 : Nat).toUInt64 - 1) * (1801439851 : Nat).toUInt64).toNat =
      (n.toNat + 9999999) * 1801439851 := by
    rw [toNat_mul_of_lt] <;> rw [less, nsecScale]
    omega
  have scaledSec : (s * (3355443200 : Nat).toUInt64).toNat = s.toNat * 3355443200 := by
    rw [toNat_mul_of_lt] <;> rw [secScale]
    omega
  have shifted : (((n + (10000000 : Nat).toUInt64 - 1) * (1801439851 : Nat).toUInt64) >>>
      (54 - 25 : Nat).toUInt64).toNat = (n.toNat + 9999999) * 1801439851 / 2 ^ 29 := by
    rw [toNat_shiftRight_of_lt _ (by decide), scaledNsec]
  rw [toNat_shiftRight_of_lt _ (by decide), toNat_add_of_lt (by rw [scaledSec, shifted]; omega), scaledSec,
    shifted]

theorem timevalToJiffies_hz100 {value : Timeval}
    (sec : value.tvSec.toUInt64.toNat < maxSecInJiffies 100 pitTickRate)
    (usec : value.tvUsec.toUInt64.toNat < usecPerSec) :
    (timevalToJiffies 100 pitTickRate value).toNat =
      (value.tvSec.toUInt64.toNat * 3355443200 +
        (value.tvUsec.toUInt64.toNat * 1759218605 + (2 ^ 44 - 1)) / 2 ^ 19) / 2 ^ 25 := by
  rw [maxSecInJiffies_hz100] at sec
  unfold usecPerSec at usec
  unfold timevalToJiffies
  rw [maxSecInJiffies_hz100, secConversion_hz100, usecConversion_hz100, usecRound_hz100, usecJiffieSc_hz100,
    secJiffieSc_hz100]
  generalize value.tvSec.toUInt64 = s at *
  generalize value.tvUsec.toUInt64 = u at *
  have limit : ¬s ≥ (2748779068 : Nat).toUInt64 := by
    rw [ge_iff_le, UInt64.le_iff_toNat_le, toNat_toUInt64_of_lt (by decide)]
    omega
  simp only [if_neg limit]
  have secScale : ((3355443200 : Nat).toUInt64).toNat = 3355443200 := toNat_toUInt64_of_lt (by decide)
  have usecScale : ((1759218605 : Nat).toUInt64).toNat = 1759218605 := toNat_toUInt64_of_lt (by decide)
  have round : ((2 ^ 44 - 1 : Nat).toUInt64).toNat = 2 ^ 44 - 1 := toNat_toUInt64_of_lt (by decide)
  have scaledUsec : (u * (1759218605 : Nat).toUInt64).toNat = u.toNat * 1759218605 := by
    rw [toNat_mul_of_lt] <;> rw [usecScale]
    omega
  have roundedUsec : (u * (1759218605 : Nat).toUInt64 + (2 ^ 44 - 1 : Nat).toUInt64).toNat =
      u.toNat * 1759218605 + (2 ^ 44 - 1) := by
    rw [toNat_add_of_lt] <;> rw [scaledUsec, round]
    omega
  have scaledSec : (s * (3355443200 : Nat).toUInt64).toNat = s.toNat * 3355443200 := by
    rw [toNat_mul_of_lt] <;> rw [secScale]
    omega
  have shifted : ((u * (1759218605 : Nat).toUInt64 + (2 ^ 44 - 1 : Nat).toUInt64) >>>
      (44 - 25 : Nat).toUInt64).toNat = (u.toNat * 1759218605 + (2 ^ 44 - 1)) / 2 ^ 19 := by
    rw [toNat_shiftRight_of_lt _ (by decide), roundedUsec]
  rw [toNat_shiftRight_of_lt _ (by decide), toNat_add_of_lt (by rw [scaledSec, shifted]; omega), scaledSec,
    shifted]

/-- At `HZ = 100` on x86, every tick count below `MAX_SEC_IN_JIFFIES` seconds comes back from a
`timespec` unchanged: the nanoseconds of a whole number of ticks, rounded up by a tick less one,
scale back to those ticks. -/
theorem timespec_roundtrip_hz100 (j : UInt64) (below : j.toNat < 100 * maxSecInJiffies 100 pitTickRate) :
    timespecToJiffies 100 pitTickRate (jiffiesToTimespec 100 pitTickRate j) = j := by
  rw [maxSecInJiffies_hz100] at below
  obtain ⟨sec, nsec⟩ := jiffiesToTimespec_hz100 (j := j) (by omega)
  apply UInt64.toNat_inj.mp
  rw [timespecToJiffies_hz100 (by rw [sec, maxSecInJiffies_hz100]; omega) (by rw [nsec, nsecPerSec]; omega),
    sec, nsec]
  omega

theorem timespec_roundtrip_hz100_minutes :
    (12345 : UInt64).toNat < 100 * maxSecInJiffies 100 pitTickRate ∧
      timespecToJiffies 100 pitTickRate (jiffiesToTimespec 100 pitTickRate 12345) = 12345 :=
  have below : (12345 : UInt64).toNat < 100 * maxSecInJiffies 100 pitTickRate := by
    rw [maxSecInJiffies_hz100]
    decide
  ⟨below, timespec_roundtrip_hz100 12345 below⟩

/-- At `HZ = 100` on x86, a tick count below `MAX_SEC_IN_JIFFIES` seconds comes back from a
`timeval` one tick larger unless it is a whole number of seconds: `USEC_ROUND` rounds up the
microseconds of a whole number of ticks, which `USEC_CONVERSION` already rounded up, to the next
tick. -/
theorem timeval_roundtrip_hz100 (j : UInt64) (below : j.toNat < 100 * maxSecInJiffies 100 pitTickRate) :
    timevalToJiffies 100 pitTickRate (jiffiesToTimeval 100 pitTickRate j) = if j.toNat % 100 = 0 then j else j + 1 := by
  rw [maxSecInJiffies_hz100] at below
  obtain ⟨sec, usec⟩ := jiffiesToTimeval_hz100 (j := j) (by omega)
  apply UInt64.toNat_inj.mp
  rw [timevalToJiffies_hz100 (by rw [sec, maxSecInJiffies_hz100]; omega) (by rw [usec, usecPerSec]; omega),
    sec, usec]
  by_cases whole : j.toNat % 100 = 0
  · rw [if_pos whole]
    omega
  · rw [if_neg whole, toNat_add_of_lt (by rw [UInt64.toNat_one]; omega), UInt64.toNat_one]
    omega

/-- 150 ticks come back from a `timeval` as 151. -/
theorem timeval_roundtrip_hz100_one_over :
    (150 : UInt64).toNat < 100 * maxSecInJiffies 100 pitTickRate ∧
      timevalToJiffies 100 pitTickRate (jiffiesToTimeval 100 pitTickRate 150) =
        if (150 : UInt64).toNat % 100 = 0 then 150 else 150 + 1 :=
  have below : (150 : UInt64).toNat < 100 * maxSecInJiffies 100 pitTickRate := by
    rw [maxSecInJiffies_hz100]
    decide
  ⟨below, timeval_roundtrip_hz100 150 below⟩

/-- At `HZ = 100` on x86-64, one tick converted to a `timeval` and back is two ticks, and `2^40`
ticks, below `MAX_JIFFY_OFFSET`, come back from a `timespec` clamped to `MAX_SEC_IN_JIFFIES`
seconds. -/
theorem jiffies_roundtrip_breaks :
    timevalToJiffies 100 pitTickRate (jiffiesToTimeval 100 pitTickRate 1) = 2 ∧
      2 ^ 40 ≤ maxJiffyOffset ∧
      timespecToJiffies 100 pitTickRate (jiffiesToTimespec 100 pitTickRate (2 ^ 40)) = 274877906800 :=
  ⟨by decide, by decide, by decide⟩

end LinuxKernel.Jiffies
