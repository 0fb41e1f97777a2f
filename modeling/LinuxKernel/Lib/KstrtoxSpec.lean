import LinuxKernel.Lib.Kstrtox

/-!
# What `kstrtoull` and `kstrtoll` accept

`_parse_integer` flags overflow exactly when its run of digits passes `ULLONG_MAX`. On strings
shorter than `2^31` bytes `kstrtoull` accepts exactly the grammar of its comment and fails with
`-ERANGE` exactly on overflow.
-/

namespace LinuxKernel.Kstrtox

/-! ### Machine words -/

theorem testBit_highMask {i : Nat} :
    (0xF000000000000000 : Nat).testBit i = (decide (60 ≤ i) && decide (i < 64)) := by
  rw [show (0xF000000000000000 : Nat) = 15 * 2 ^ 60 by norm_num, Nat.testBit_mul_two_pow]
  by_cases hi : 60 ≤ i
  · by_cases hi' : i < 64
    · obtain ⟨k, rfl⟩ := Nat.exists_eq_add_of_le hi
      simp only [hi, hi', decide_true, Bool.true_and, Nat.add_sub_cancel_left]
      have : k < 4 := by omega
      interval_cases k <;> decide
    · have : (15 : Nat).testBit (i - 60) = false :=
        Nat.testBit_eq_false_of_lt (lt_of_lt_of_le (show (15 : Nat) < 2 ^ 4 by norm_num)
          (Nat.pow_le_pow_right (by norm_num) (show 4 ≤ i - 60 by omega)))
      simp [hi, hi', this]
  · simp [hi]

theorem and_highMask_ne_zero (res : UInt64) : res &&& (~~~(0 : UInt64) <<< 60) ≠ 0 ↔ 2 ^ 60 ≤ res.toNat := by
  have mask : (~~~(0 : UInt64) <<< 60).toNat = 0xF000000000000000 := by decide
  have lt := res.toNat_lt
  rw [ne_eq, ← UInt64.toNat_inj, UInt64.toNat_and, mask, UInt64.toNat_zero, not_iff_comm, not_le]
  constructor
  · intro hx
    apply Nat.eq_of_testBit_eq
    intro i
    rw [Nat.testBit_and, Nat.zero_testBit, testBit_highMask]
    by_cases hi : 60 ≤ i
    · rw [Nat.testBit_eq_false_of_lt (lt_of_lt_of_le hx (Nat.pow_le_pow_right (by norm_num) hi)), Bool.false_and]
    · simp [hi]
  · intro hz
    have low : res.toNat = res.toNat &&& (2 ^ 60 - 1) := by
      apply Nat.eq_of_testBit_eq
      intro i
      rw [Nat.testBit_and, Nat.testBit_two_pow_sub_one]
      have bit := congrArg (fun n => n.testBit i) hz
      simp only [Nat.testBit_and, Nat.zero_testBit, testBit_highMask] at bit
      by_cases hi : i < 60
      · simp [hi]
      · by_cases hi' : i < 64
        · simp only [show 60 ≤ i by omega, hi', decide_true, Bool.and_true] at bit
          simp [hi, bit]
        · rw [Nat.testBit_eq_false_of_lt (lt_of_lt_of_le lt (Nat.pow_le_pow_right (by norm_num) (by omega)))]
          simp
    rw [low, Nat.and_two_pow_sub_one_eq_mod]
    exact Nat.mod_lt _ (by norm_num)

theorem overflow_step {base val : Nat} (hb : base ≤ 16) (hv : val < base) (res : UInt64) (ov : Bool) :
    (if res &&& (~~~(0 : UInt64) <<< 60) ≠ 0 then
      if res.toNat > (2 ^ 64 - 1 - val) / base then true else ov else ov) =
      (ov || decide (2 ^ 64 ≤ res.toNat * base + val)) := by
  have pos : 0 < base := by omega
  by_cases high : 2 ^ 60 ≤ res.toNat
  · rw [if_pos ((and_highMask_ne_zero res).mpr high)]
    have iff : res.toNat > (2 ^ 64 - 1 - val) / base ↔ 2 ^ 64 ≤ res.toNat * base + val := by
      rw [gt_iff_lt, Nat.div_lt_iff_lt_mul pos]
      omega
    by_cases h : 2 ^ 64 ≤ res.toNat * base + val
    · rw [if_pos (iff.mpr h)]
      simp only [h, decide_true, Bool.or_true]
    · rw [if_neg (fun h' => h (iff.mp h'))]
      simp only [h, decide_false, Bool.or_false]
  · rw [if_neg (fun h => high ((and_highMask_ne_zero res).mp h))]
    have small : res.toNat * base + val < 2 ^ 64 := by
      have := Nat.mul_le_mul_left res.toNat hb
      omega
    simp only [Nat.not_le.mpr small, decide_false, Bool.or_false]

theorem overflow_bit {n : Nat} (hn : n < 2 ^ 31) :
    n.toUInt32 &&& kstrtoxOverflow = 0 ∧ (n.toUInt32 ||| kstrtoxOverflow) &&& kstrtoxOverflow ≠ 0 ∧
      n.toUInt32 &&& ~~~kstrtoxOverflow = n.toUInt32 := by
  have flag : kstrtoxOverflow.toNat = 2 ^ 31 := by decide
  have val : n.toUInt32.toNat = n := UInt32.toNat_ofNat_of_lt' (lt_of_lt_of_le hn (by decide))
  have low : n.testBit 31 = false := Nat.testBit_eq_false_of_lt hn
  refine ⟨?_, ?_, ?_⟩
  · rw [← UInt32.toNat_inj, UInt32.toNat_and, flag, val, UInt32.toNat_zero]
    apply Nat.eq_of_testBit_eq
    intro i
    rw [Nat.testBit_and, Nat.testBit_two_pow, Nat.zero_testBit]
    by_cases hi : 31 = i
    · subst hi
      simp [low]
    · simp [hi]
  · rw [ne_eq, ← UInt32.toNat_inj, UInt32.toNat_and, UInt32.toNat_or, flag, val, UInt32.toNat_zero]
    intro zero
    have bit := congrArg (fun m => m.testBit 31) zero
    simp only [Nat.testBit_and, Nat.testBit_or, Nat.testBit_two_pow_self, Bool.or_true, Bool.and_true,
      Nat.zero_testBit] at bit
    cases bit
  · rw [← UInt32.toNat_inj, UInt32.toNat_and, UInt32.toNat_not, flag, val]
    apply Nat.eq_of_testBit_eq
    intro i
    rw [Nat.testBit_and, show UInt32.size - 1 - 2 ^ 31 = 2 ^ 31 - 1 by decide, Nat.testBit_two_pow_sub_one]
    by_cases hi : i < 31
    · simp [hi]
    · rw [Nat.testBit_eq_false_of_lt (lt_of_lt_of_le hn (Nat.pow_le_pow_right (by norm_num) (by omega)))]
      simp

/-! ### The digit loop -/

/-- `c` is a digit of base `base`. -/
def isDigitOf (base : Nat) (c : UInt8) : Bool :=
  match digitValue c with
  | some d => decide (d < base)
  | none => false

/-- The run of digits of base `base` at the front of `s`: what `_parse_integer` reads. -/
def digitRun (base : Nat) (s : List UInt8) : List UInt8 := s.takeWhile (isDigitOf base)

/-- The value of the digits `ds` of base `base` read after the value `v`. -/
def valueFrom (base v : Nat) (ds : List UInt8) : Nat := ds.foldl (fun v c => v * base + (digitValue c).getD 0) v

theorem valueFrom_cons (base v : Nat) (c : UInt8) (ds : List UInt8) :
    valueFrom base v (c :: ds) = valueFrom base (v * base + (digitValue c).getD 0) ds := rfl

theorem valueFrom_mod (base v : Nat) (ds : List UInt8) :
    valueFrom base (v % 2 ^ 64) ds % 2 ^ 64 = valueFrom base v ds % 2 ^ 64 := by
  induction ds generalizing v with
  | nil => exact Nat.mod_mod _ _
  | cons c ds ih =>
    rw [valueFrom_cons, valueFrom_cons, ← ih, ← ih (v * base + _)]
    congr 2
    rw [Nat.add_mod, Nat.mul_mod, Nat.mod_mod, ← Nat.mul_mod, ← Nat.add_mod]

theorem le_valueFrom {base : Nat} (hb : 0 < base) (v : Nat) (ds : List UInt8) : v ≤ valueFrom base v ds := by
  induction ds generalizing v with
  | nil => exact le_rfl
  | cons c ds ih =>
    rw [valueFrom_cons]
    exact le_trans (Nat.le_add_right_of_le (Nat.le_mul_of_pos_right v hb)) (ih _)

theorem digitRun_cons_of_digit {base : Nat} {c : UInt8} {val : Nat} (hc : digitValue c = some val)
    (hv : val < base) (s : List UInt8) : digitRun base (c :: s) = c :: digitRun base s := by
  simp [digitRun, isDigitOf, hc, hv]

theorem digitRun_cons_of_not_digit {base : Nat} {c : UInt8} (hc : isDigitOf base c = false) (s : List UInt8) :
    digitRun base (c :: s) = [] := by
  simp [digitRun, hc]

/-- `_parse_integer`'s loop reads the run of digits: its value wrapped in 64 bits, their count
wrapped in 32, and an overflow flag set exactly when the value passes `ULLONG_MAX`. -/
theorem parseIntegerLoop_eq {base : Nat} (hb : base ≤ 16) : ∀ (s : List UInt8) (res : UInt64) (rv : UInt32)
    (ov : Bool), parseIntegerLoop base s res rv ov =
      ((valueFrom base res.toNat (digitRun base s)).toUInt64, rv + (digitRun base s).length.toUInt32,
        ov || decide (2 ^ 64 ≤ valueFrom base res.toNat (digitRun base s)))
  | [], res, rv, ov => by
    simp [parseIntegerLoop, digitRun, valueFrom, Nat.not_le.mpr res.toNat_lt]
  | c :: s, res, rv, ov => by
    rw [parseIntegerLoop]
    cases hc : digitValue c with
    | none =>
      rw [digitRun_cons_of_not_digit (by simp [isDigitOf, hc])]
      simp [valueFrom, Nat.not_le.mpr res.toNat_lt]
    | some val =>
      dsimp only
      by_cases hv : val ≥ base
      · rw [if_pos hv, digitRun_cons_of_not_digit (by simp [isDigitOf, hc]; omega)]
        simp [valueFrom, Nat.not_le.mpr res.toNat_lt]
      rw [if_neg hv, overflow_step hb (by omega), parseIntegerLoop_eq hb s, digitRun_cons_of_digit hc (by omega),
        valueFrom_cons, hc, Option.getD_some]
      -- the value after this digit, before it wraps
      have step : (res * base.toUInt64 + val.toUInt64).toNat = (res.toNat * base + val) % 2 ^ 64 := by
        rw [UInt64.toNat_add, UInt64.toNat_mul, Nat.toUInt64_eq, Nat.toUInt64_eq, UInt64.toNat_ofNat',
          UInt64.toNat_ofNat', Nat.mod_eq_of_lt (show base < 2 ^ 64 by omega),
          Nat.mod_eq_of_lt (show val < 2 ^ 64 by omega), Nat.add_mod, Nat.mod_mod, ← Nat.add_mod]
      rw [step]
      refine Prod.ext ?_ (Prod.ext ?_ ?_)
      · rw [← UInt64.toNat_inj]
        simp only [Nat.toUInt64_eq, UInt64.toNat_ofNat']
        exact valueFrom_mod _ _ _
      · simp only [List.length_cons, Nat.toUInt32_eq]
        rw [UInt32.ofNat_add, UInt32.ofNat_one]
        ac_rfl
      · show ((ov || decide (2 ^ 64 ≤ res.toNat * base + val)) ||
            decide (2 ^ 64 ≤ valueFrom base ((res.toNat * base + val) % 2 ^ 64) (digitRun base s))) =
          (ov || decide (2 ^ 64 ≤ valueFrom base (res.toNat * base + val) (digitRun base s)))
        by_cases big : 2 ^ 64 ≤ res.toNat * base + val
        · have grown := le_valueFrom (show 0 < base by omega) (res.toNat * base + val) (digitRun base s)
          simp only [big, decide_true, Bool.or_true, Bool.true_or, show 2 ^ 64 ≤ valueFrom base (res.toNat * base + val)
            (digitRun base s) by omega]
        · rw [Nat.mod_eq_of_lt (Nat.not_le.mp big)]
          simp only [big, decide_false, Bool.or_false]

/-! ### `_kstrtoull` -/

theorem fixupRadix_cases (s : List UInt8) (base : Nat) :
    (parseIntegerFixupRadix s base = (s.drop 2, 16) ∧ charAt s 0 = 48 ∧ tolower (charAt s 1) = 120 ∧
        (base = 16 ∨ base = 0 ∧ isxdigit (charAt s 2))) ∨
      (parseIntegerFixupRadix s base = (s, (parseIntegerFixupRadix s base).2) ∧
        ((base = 0 ∧ charAt s 0 = 48 ∧ ¬(tolower (charAt s 1) = 120 ∧ isxdigit (charAt s 2)) ∧
            (parseIntegerFixupRadix s base).2 = 8) ∨
          (base = 0 ∧ charAt s 0 ≠ 48 ∧ (parseIntegerFixupRadix s base).2 = 10) ∨
          (base ≠ 0 ∧ (parseIntegerFixupRadix s base).2 = base ∧
            ¬(base = 16 ∧ charAt s 0 = 48 ∧ tolower (charAt s 1) = 120)))) := by
  unfold parseIntegerFixupRadix
  by_cases h0 : base = 0
  · by_cases z : charAt s 0 = 48
    · by_cases x : tolower (charAt s 1) = 120 ∧ isxdigit (charAt s 2)
      · left
        simp [h0, z, x]
      · right
        simp [h0, z, x]
    · right
      simp [h0, z]
  · by_cases p : base = 16 ∧ charAt s 0 = 48 ∧ tolower (charAt s 1) = 120
    · left
      obtain ⟨rfl, z, x⟩ := p
      simp [z, x]
    · right
      simp only [h0, if_false, if_neg p, true_and, false_and, false_or]
      exact ⟨fun e => h0 e, p⟩

theorem fixupRadix_base_le {s : List UInt8} {base : Nat} (hb : base ≤ 16) :
    (parseIntegerFixupRadix s base).2 ≤ 16 := by
  rcases fixupRadix_cases s base with ⟨e, -⟩ | ⟨-, ⟨-, -, -, e⟩ | ⟨-, -, e⟩ | ⟨-, e, -⟩⟩ <;> rw [e] <;> omega

theorem fixupRadix_suffix (s : List UInt8) (base : Nat) :
    ∃ k, (parseIntegerFixupRadix s base).1 = s.drop k := by
  rcases fixupRadix_cases s base with ⟨e, -⟩ | ⟨e, -⟩
  · exact ⟨2, by rw [e]⟩
  · exact ⟨0, by rw [e]; rfl⟩

theorem charAt_cons_zero (c : UInt8) (s : List UInt8) : charAt (c :: s) 0 = c := rfl

theorem tail_check {α : Type} (rest : List UInt8) (zero : 0 ∉ rest) (ok bad : α) :
    (if charAt (if charAt rest 0 = 10 then rest.drop 1 else rest) 0 ≠ 0 then bad else ok) =
      if rest = [] ∨ rest = [10] then ok else bad := by
  match rest, zero with
  | [], _ => rfl
  | [c], zero =>
    by_cases hc : c = 10
    · subst hc
      rfl
    · have hc0 : c ≠ 0 := fun e => zero (e ▸ List.mem_singleton_self _)
      simp [charAt, hc, hc0]
  | c :: d :: rest, zero =>
    have hc0 : c ≠ 0 := fun e => zero (e ▸ List.mem_cons_self)
    have hd0 : d ≠ 0 := fun e => zero (e ▸ List.mem_cons_of_mem _ List.mem_cons_self)
    by_cases hc : c = 10
    · simp [charAt, hc, hd0]
    · simp [charAt, hc, hc0]

/-- `_kstrtoull` decided by the run of digits after the prefix: `-ERANGE` when its value passes
`ULLONG_MAX`, whatever follows it; `-EINVAL` when it is empty or followed by more than one
newline; otherwise its value. -/
theorem kstrtoullAux_eq {s s' : List UInt8} {base b : Nat} (res : UInt64) (hb : base ≤ 16) (zero : 0 ∉ s)
    (short : s.length < 2 ^ 31) (hf : parseIntegerFixupRadix s base = (s', b)) :
    kstrtoullAux s base res =
      if 2 ^ 64 ≤ valueFrom b 0 (digitRun b s') then (.error .range, res)
      else if digitRun b s' = [] then (.error .inval, res)
      else if s'.drop (digitRun b s').length = [] ∨ s'.drop (digitRun b s').length = [10] then
        (.ok (), (valueFrom b 0 (digitRun b s')).toUInt64)
      else (.error .inval, res) := by
  have hb' : b ≤ 16 := by
    have := @fixupRadix_base_le s base hb
    rwa [hf] at this
  obtain ⟨k, hk⟩ := fixupRadix_suffix s base
  simp only [hf] at hk
  have runShort : (digitRun b s').length < 2 ^ 31 :=
    lt_of_le_of_lt (List.takeWhile_prefix _).length_le (by rw [hk, List.length_drop]; omega)
  obtain ⟨clear, set, keep⟩ := overflow_bit runShort
  unfold kstrtoullAux parseInteger
  rw [hf]
  dsimp only
  rw [parseIntegerLoop_eq hb', UInt64.toNat_zero, UInt32.zero_add]
  by_cases big : 2 ^ 64 ≤ valueFrom b 0 (digitRun b s')
  · simp only [big, decide_true, Bool.or_true, if_true, ne_eq, set, not_false_eq_true]
  simp only [big, decide_false, Bool.or_false, Bool.false_eq_true, if_false, clear, ne_eq, not_true_eq_false,
    keep]
  have count : (digitRun b s').length.toUInt32 = 0 ↔ digitRun b s' = [] := by
    rw [← UInt32.toNat_inj, UInt32.toNat_ofNat_of_lt' (lt_of_lt_of_le runShort (by decide)), UInt32.toNat_zero,
      List.length_eq_zero_iff]
  by_cases empty : digitRun b s' = []
  · simp [empty]
  rw [if_neg (fun h => empty (count.mp h)), if_neg empty,
    UInt32.toNat_ofNat_of_lt' (lt_of_lt_of_le runShort (by decide))]
  exact tail_check _ (fun h => zero (by rw [hk] at h; exact List.mem_of_mem_drop (List.mem_of_mem_drop h))) _ _

/-! ### The grammar -/

theorem tolower_eq_x (x : UInt8) : tolower x = 120 ↔ x = 120 ∨ x = 88 := by
  revert x
  decide +kernel

theorem digitValue_facts : ∀ c : UInt8, (digitValue c).all (fun d => d < 16) ∧
    ((digitValue c).isSome → isxdigit c ∧ tolower c ≠ 120) := by
  decide +kernel

theorem isDigitOf_iff {b : Nat} {c : UInt8} : isDigitOf b c ↔ ∃ d, digitValue c = some d ∧ d < b := by
  unfold isDigitOf
  cases digitValue c <;> simp

theorem isxdigit_of_digit {b : Nat} {c : UInt8} (h : isDigitOf b c) : isxdigit c ∧ tolower c ≠ 120 := by
  obtain ⟨d, hd, -⟩ := isDigitOf_iff.mp h
  exact (digitValue_facts c).2 (by simp [hd])

theorem valueFrom_single {b : Nat} {c : UInt8} (h : isDigitOf b c) : valueFrom b 0 [c] < b := by
  obtain ⟨d, hd, lt⟩ := isDigitOf_iff.mp h
  simpa [valueFrom, hd] using lt

theorem charAt_mem (s : List UInt8) (i : Nat) : charAt s i ∈ s ∨ charAt s i = 0 := by
  unfold charAt
  by_cases h : i < s.length
  · exact .inl (by rw [List.getD_eq_getElem _ _ h]; exact List.getElem_mem h)
  · exact .inr (List.getD_eq_default _ _ (by omega))

theorem digitRun_cons {b : Nat} {c : UInt8} (h : isDigitOf b c) (s : List UInt8) :
    digitRun b (c :: s) = c :: digitRun b s := by
  simp [digitRun, h]

theorem digitRun_digits {b : Nat} {s : List UInt8} : ∀ c ∈ digitRun b s, isDigitOf b c :=
  fun _ h => List.mem_takeWhile_imp h

theorem digitRun_split (b : Nat) : ∀ s : List UInt8, s = digitRun b s ++ s.drop (digitRun b s).length ∧
    ∀ c ∈ (s.drop (digitRun b s).length).head?, isDigitOf b c = false
  | [] => ⟨rfl, by simp⟩
  | c :: s => by
    by_cases h : isDigitOf b c
    · rw [digitRun_cons h, List.length_cons, List.drop_succ_cons]
      obtain ⟨e, stop⟩ := digitRun_split b s
      exact ⟨by rw [List.cons_append, ← e], stop⟩
    · rw [digitRun_cons_of_not_digit (by simpa using h)]
      simpa using h

theorem digitRun_append {b : Nat} {ds rest : List UInt8} (hds : ∀ c ∈ ds, isDigitOf b c)
    (stop : ∀ c ∈ rest.head?, isDigitOf b c = false) : digitRun b (ds ++ rest) = ds := by
  induction ds with
  | nil =>
    cases rest with
    | nil => rfl
    | cons c rest => exact digitRun_cons_of_not_digit (stop c rfl) rest
  | cons c ds ih =>
    rw [List.cons_append, digitRun_cons (hds c List.mem_cons_self),
      ih (fun d hd => hds d (List.mem_cons_of_mem _ hd))]

/-- How `_parse_integer_fixup_radix` reads the base `base` it is given and the prefix `pre`
before the digits `ds`: they are read in base `b`. -/
inductive Radix : Nat → List UInt8 → List UInt8 → Nat → Prop
  | autoHex {x : UInt8} {ds : List UInt8} : x = 120 ∨ x = 88 → Radix 0 [48, x] ds 16
  | autoOctal {ds : List UInt8} : Radix 0 [] (48 :: ds) 8
  | autoDecimal {c : UInt8} {ds : List UInt8} : c ≠ 48 → Radix 0 [] (c :: ds) 10
  | hex {ds : List UInt8} : Radix 16 [] ds 16
  | hexPrefix {x : UInt8} {ds : List UInt8} : x = 120 ∨ x = 88 → Radix 16 [48, x] ds 16
  | given {base : Nat} {ds : List UInt8} : 2 ≤ base → base < 16 → Radix base [] ds base

/-- The strings `_kstrtoull` accepts in base `base`, with their value `v`: the prefix, one or
more digits of the base it gives, at most one newline, and the end. -/
def Numeral (base : Nat) (s : List UInt8) (v : Nat) : Prop :=
  ∃ pre ds nl b, s = pre ++ ds ++ nl ∧ Radix base pre ds b ∧ ds ≠ [] ∧ (∀ c ∈ ds, isDigitOf b c) ∧
    (nl = [] ∨ nl = [10]) ∧ v = valueFrom b 0 ds

/-- The strings on which `_kstrtoull` overflows: the prefix and a longest run of digits whose
value passes `ULLONG_MAX`, then anything. -/
def Overflows (base : Nat) (s : List UInt8) : Prop :=
  ∃ pre ds rest b, s = pre ++ ds ++ rest ∧ Radix base pre ds b ∧ (∀ c ∈ ds, isDigitOf b c) ∧
    (∀ c ∈ rest.head?, isDigitOf b c = false) ∧ 2 ^ 64 ≤ valueFrom b 0 ds

/-- `P` after an optional `'+'`. -/
def OptPlus (P : List UInt8 → Prop) (s : List UInt8) : Prop := P s ∨ ∃ t, s = 43 :: t ∧ P t

theorem Radix.base_le {base b : Nat} {pre ds : List UInt8} : Radix base pre ds b → b ≤ 16 := by
  rintro (_ | _ | _ | _ | _ | ⟨-, h⟩) <;> omega

theorem Radix.head {base b : Nat} {pre ds : List UInt8} (hr : Radix base pre ds b) (ne : ds ≠ [])
    (hds : ∀ c ∈ ds, isDigitOf b c) (rest : List UInt8) :
    ∃ c t, pre ++ ds ++ rest = c :: t ∧ (c = 48 ∨ (digitValue c).isSome) := by
  cases hr with
  | autoHex _ | hexPrefix _ => exact ⟨48, _, rfl, .inl rfl⟩
  | _ =>
    obtain ⟨c, t, e⟩ := List.exists_cons_of_ne_nil ne
    obtain ⟨d, hd, -⟩ := isDigitOf_iff.mp (hds c (e ▸ List.mem_cons_self))
    exact ⟨c, t ++ rest, by rw [e]; rfl, .inr (by simp [hd])⟩

theorem radix_of_fixupRadix {s s' : List UInt8} {base b : Nat} (hb : base = 0 ∨ 2 ≤ base ∧ base ≤ 16)
    (hf : parseIntegerFixupRadix s base = (s', b)) (ne : digitRun b s' ≠ []) :
    ∃ pre, s = pre ++ s' ∧ Radix base pre (digitRun b s') b := by
  rcases fixupRadix_cases s base with ⟨e, z, x, how⟩ | ⟨e, how⟩
  · -- the `0x` is dropped: the string has at least two bytes
    rw [hf, Prod.mk.injEq] at e
    obtain ⟨rfl, rfl⟩ := e
    rcases s with _ | ⟨a, _ | ⟨y, t⟩⟩
    · exact absurd x (by decide)
    · rw [show charAt [a] 1 = 0 from rfl] at x
      exact absurd x (by decide)
    obtain rfl : a = 48 := z
    have hy := (tolower_eq_x y).mp x
    refine ⟨[48, y], rfl, ?_⟩
    rcases how with rfl | ⟨rfl, -⟩
    · exact .hexPrefix hy
    · exact .autoHex hy
  · rw [hf, Prod.mk.injEq] at e
    obtain ⟨rfl, -⟩ := e
    refine ⟨[], rfl, ?_⟩
    obtain ⟨c, t, rfl⟩ : ∃ c t, s' = c :: t := by
      cases s' with
      | nil => exact absurd rfl ne
      | cons c t => exact ⟨c, t, rfl⟩
    have hc : isDigitOf b c := by
      by_contra h
      exact ne (digitRun_cons_of_not_digit (by simpa using h) t)
    rw [digitRun_cons hc]
    simp only [hf] at how
    rcases how with ⟨rfl, z, -, rfl⟩ | ⟨rfl, z, rfl⟩ | ⟨h0, rfl, -⟩
    · obtain rfl : c = 48 := z
      exact .autoOctal
    · exact .autoDecimal z
    · by_cases h16 : b = 16
      · subst h16
        exact .hex
      · exact .given (by omega) (by omega)

theorem fixupRadix_of_radix {base b : Nat} {pre ds rest : List UInt8} (hr : Radix base pre ds b)
    (ne : ds ≠ []) (hds : ∀ c ∈ ds, isDigitOf b c) (hx : tolower (charAt (ds ++ rest) 1) ≠ 120) :
    parseIntegerFixupRadix (pre ++ ds ++ rest) base = (ds ++ rest, b) := by
  unfold parseIntegerFixupRadix
  cases hr with
  | autoHex x =>
    obtain ⟨c, t, rfl⟩ := List.exists_cons_of_ne_nil ne
    have hc := (isxdigit_of_digit (hds c List.mem_cons_self)).1
    simp [charAt, (tolower_eq_x _).mpr x, hc]
  | autoOctal =>
    rw [List.cons_append] at hx
    simp [charAt_cons_zero, hx]
  | autoDecimal c => simp [charAt_cons_zero, c]
  | hex => simp [hx]
  | hexPrefix x => simp [charAt, (tolower_eq_x _).mpr x]
  | given two lt => simp [show base ≠ 0 by omega, show base ≠ 16 by omega]

/-! ### What `_kstrtoull` accepts -/

theorem kstrtoullAux_error {s : List UInt8} {base : Nat} {res : UInt64} {e : Errno}
    (h : (kstrtoullAux s base res).1 = .error e) :
    (e = .range ∨ e = .inval) ∧ (kstrtoullAux s base res).2 = res := by
  unfold kstrtoullAux at h ⊢
  generalize parseIntegerFixupRadix s base = p at h ⊢
  obtain ⟨s', b⟩ := p
  generalize parseInteger s' b = q at h ⊢
  obtain ⟨rv, value⟩ := q
  dsimp only at h ⊢
  split_ifs at h ⊢ <;> simp_all

section Grammar

variable {s : List UInt8} {base : Nat} (hb : base = 0 ∨ 2 ≤ base ∧ base ≤ 16) (nul : 0 ∉ s)
  (short : s.length < 2 ^ 31)
include hb nul short

theorem kstrtoullAux_ok_iff (res v : UInt64) :
    kstrtoullAux s base res = (.ok (), v) ↔ Numeral base s v.toNat := by
  rcases hf : parseIntegerFixupRadix s base with ⟨s', b⟩
  rw [kstrtoullAux_eq res (by omega) nul short hf]
  constructor
  · intro ok
    have big : ¬2 ^ 64 ≤ valueFrom b 0 (digitRun b s') := fun big => by
      rw [if_pos big] at ok
      simp at ok
    have ne : digitRun b s' ≠ [] := fun e => by
      rw [if_neg big, if_pos e] at ok
      simp at ok
    have tail : s'.drop (digitRun b s').length = [] ∨ s'.drop (digitRun b s').length = [10] := by
      by_contra tail
      rw [if_neg big, if_neg ne, if_neg tail] at ok
      simp at ok
    rw [if_neg big, if_neg ne, if_pos tail, Prod.mk.injEq] at ok
    obtain ⟨pre, rfl, hr⟩ := radix_of_fixupRadix hb hf ne
    refine ⟨pre, digitRun b s', _, b, by rw [List.append_assoc, ← (digitRun_split b s').1], hr, ne,
      digitRun_digits, tail, ?_⟩
    rw [← ok.2, Nat.toUInt64_eq, UInt64.toNat_ofNat', Nat.mod_eq_of_lt (Nat.lt_of_not_le big)]
  · rintro ⟨pre, ds, nl, b', rfl, hr, ne, hds, hnl, hv⟩
    have ten : digitValue 10 = none := by decide
    have stop : ∀ c ∈ nl.head?, isDigitOf b' c = false := by
      rcases hnl with rfl | rfl <;> simp [isDigitOf, ten]
    -- the byte after the first digit is a digit, the newline or the NUL: no `x`
    have hx : tolower (charAt (ds ++ nl) 1) ≠ 120 := by
      rcases charAt_mem (ds ++ nl) 1 with h | h
      · rcases List.mem_append.mp h with h | h
        · exact (isxdigit_of_digit (hds _ h)).2
        · rcases hnl with rfl | rfl
          · simp at h
          · rw [List.mem_singleton.mp h]
            decide
      · rw [h]
        decide
    rw [fixupRadix_of_radix hr ne hds hx, Prod.mk.injEq] at hf
    obtain ⟨rfl, rfl⟩ := hf
    rw [digitRun_append hds stop, List.drop_left, ← hv, if_neg (Nat.not_le.mpr v.toNat_lt), if_neg ne,
      if_pos hnl, Nat.toUInt64_eq, UInt64.ofNat_toNat]

theorem kstrtoullAux_range_iff (res : UInt64) :
    (kstrtoullAux s base res).1 = .error .range ↔ Overflows base s := by
  rcases hf : parseIntegerFixupRadix s base with ⟨s', b⟩
  rw [kstrtoullAux_eq res (by omega) nul short hf]
  constructor
  · intro h
    have big : 2 ^ 64 ≤ valueFrom b 0 (digitRun b s') := by
      by_contra big
      rw [if_neg big] at h
      split_ifs at h <;> simp at h
    have ne : digitRun b s' ≠ [] := fun e => by simp [e, valueFrom] at big
    obtain ⟨pre, rfl, hr⟩ := radix_of_fixupRadix hb hf ne
    obtain ⟨split, stop⟩ := digitRun_split b s'
    exact ⟨pre, _, _, b, by rw [List.append_assoc, ← split], hr, digitRun_digits, stop, big⟩
  · rintro ⟨pre, ds, rest, b', rfl, hr, hds, stop, big⟩
    -- a run past `ULLONG_MAX` has two digits at least, so no `x` follows its first
    obtain ⟨c, d, t, rfl⟩ : ∃ c d t, ds = c :: d :: t := by
      match ds, hds, big with
      | [], _, big => simp [valueFrom] at big
      | [c], hds, big =>
        have := valueFrom_single (hds c List.mem_cons_self)
        have := hr.base_le
        omega
      | c :: d :: t, _, _ => exact ⟨c, d, t, rfl⟩
    have hx : tolower (charAt (c :: d :: t ++ rest) 1) ≠ 120 := (isxdigit_of_digit (hds d (by simp))).2
    rw [fixupRadix_of_radix hr (List.cons_ne_nil _ _) hds hx, Prod.mk.injEq] at hf
    obtain ⟨rfl, rfl⟩ := hf
    rw [digitRun_append hds stop, if_pos big]

end Grammar

/-! ### Signs -/

theorem eq_cons_of_charAt {s : List UInt8} {x : UInt8} (h : charAt s 0 = x) (hx : x ≠ 0) : s = x :: s.drop 1 := by
  cases s with
  | nil => exact absurd h.symm hx
  | cons c t =>
    obtain rfl : c = x := h
    rfl

theorem numeral_head {base v : Nat} {c : UInt8} {t : List UInt8} (h : Numeral base (c :: t) v) :
    c = 48 ∨ (digitValue c).isSome := by
  obtain ⟨pre, ds, nl, b, e, hr, ne, hds, -, -⟩ := h
  obtain ⟨c', t', e', hc⟩ := hr.head ne hds nl
  rw [e'] at e
  obtain ⟨rfl, -⟩ := List.cons.inj e
  exact hc

theorem overflows_head {base : Nat} {c : UInt8} {t : List UInt8} (h : Overflows base (c :: t)) :
    c = 48 ∨ (digitValue c).isSome := by
  obtain ⟨pre, ds, rest, b, e, hr, hds, -, big⟩ := h
  have ne : ds ≠ [] := fun e => by simp [e, valueFrom] at big
  obtain ⟨c', t', e', hc⟩ := hr.head ne hds rest
  rw [e'] at e
  obtain ⟨rfl, -⟩ := List.cons.inj e
  exact hc

theorem not_sign_head {c : UInt8} (hc : c = 43 ∨ c = 45) : ¬(c = 48 ∨ (digitValue c).isSome) := by
  rcases hc with rfl | rfl <;> decide

theorem optPlus_cons {P : List UInt8 → Prop} (hP : ∀ t, ¬P (43 :: t)) (t : List UInt8) :
    OptPlus P (43 :: t) ↔ P t := by
  constructor
  · rintro (h | ⟨t', e, h⟩)
    · exact absurd h (hP t)
    · rwa [(List.cons.inj e).2]
  · exact fun h => .inr ⟨t, rfl, h⟩

theorem optPlus_of_ne {P : List UInt8 → Prop} {s : List UInt8} (h : charAt s 0 ≠ 43) : OptPlus P s ↔ P s := by
  constructor
  · rintro (h' | ⟨t, rfl, -⟩)
    · exact h'
    · exact absurd rfl h
  · exact .inl

theorem kstrtoull_optPlus {P : List UInt8 → Prop} (R : Except Errno Unit × UInt64 → Prop) {s : List UInt8}
    {base : Nat} {res : UInt64} (hP : ∀ t, ¬P (43 :: t))
    (aux : ∀ t, 0 ∉ t → t.length < 2 ^ 31 → (R (kstrtoullAux t base res) ↔ P t)) (nul : 0 ∉ s)
    (short : s.length < 2 ^ 31) : R (kstrtoull s base res) ↔ OptPlus P s := by
  by_cases plus : charAt s 0 = 43
  · obtain ⟨t, rfl⟩ : ∃ t, s = 43 :: t := ⟨_, eq_cons_of_charAt plus (by decide)⟩
    rw [kstrtoull, charAt_cons_zero, if_pos rfl, optPlus_cons hP, List.drop_one, List.tail_cons]
    exact aux t (fun h => nul (List.mem_cons_of_mem _ h)) (by rw [List.length_cons] at short; omega)
  · rw [kstrtoull, if_neg plus, optPlus_of_ne plus]
    exact aux s nul short

/-! ### Signed values -/

theorem toLongLong_of_lt {x : UInt64} (h : x.toNat < 2 ^ 63) : toLongLong x = x.toNat := if_pos h

theorem toLongLong_neg_iff (x : UInt64) : toLongLong x < 0 ↔ 2 ^ 63 ≤ x.toNat := by
  unfold toLongLong
  have := x.toNat_lt
  split_ifs <;> omega

theorem toLongLong_neg_lt_iff (x : UInt64) :
    toLongLong (-x) < 0 ↔ 0 < x.toNat ∧ x.toNat ≤ 2 ^ 63 := by
  rw [toLongLong_neg_iff, UInt64.toNat_neg, show UInt64.size = 2 ^ 64 from rfl]
  have := x.toNat_lt
  by_cases zero : x.toNat = 0
  · simp [zero]
  · rw [Nat.mod_eq_of_lt (by omega)]
    omega

theorem toLongLong_neg_eq {x : UInt64} (h0 : 0 < x.toNat) (h : x.toNat ≤ 2 ^ 63) :
    toLongLong (-x) = -x.toNat := by
  have lt := (toLongLong_neg_lt_iff x).mpr ⟨h0, h⟩
  rw [toLongLong_neg_iff] at lt
  unfold toLongLong
  rw [if_neg (by omega), UInt64.toNat_neg, show UInt64.size = 2 ^ 64 from rfl, Nat.mod_eq_of_lt (by omega)]
  omega

theorem kstrtoll_minus_ok_iff (t : List UInt8) (base : Nat) (res r : Int) :
    kstrtoll (45 :: t) base res = (.ok (), r) ↔
      ∃ tmp : UInt64, kstrtoullAux t base 0 = (.ok (), tmp) ∧
        (0 < tmp.toNat ∧ tmp.toNat ≤ 2 ^ 63 ∧ r = -tmp.toNat) := by
  rw [kstrtoll, charAt_cons_zero, if_pos rfl, List.drop_one, List.tail_cons]
  rcases kstrtoullAux t base 0 with ⟨_ | ⟨⟩, tmp⟩
  · simp
  · dsimp only
    by_cases neg : toLongLong (-tmp) < 0
    · obtain ⟨h0, h⟩ := (toLongLong_neg_lt_iff tmp).mp neg
      rw [if_neg (not_le.mpr neg), toLongLong_neg_eq h0 h]
      simp only [Prod.mk.injEq, true_and, exists_eq_left', @eq_comm _ r]
      exact ⟨fun e => ⟨h0, h, e⟩, fun h => h.2.2⟩
    · rw [if_pos (le_of_not_gt neg)]
      simp only [Prod.mk.injEq, reduceCtorEq, false_and, true_and, exists_eq_left', false_iff, not_and]
      exact fun h0 h _ => neg ((toLongLong_neg_lt_iff tmp).mpr ⟨h0, h⟩)

theorem kstrtoll_of_ne_ok_iff {s : List UInt8} (minus : charAt s 0 ≠ 45) (base : Nat) (res r : Int) :
    kstrtoll s base res = (.ok (), r) ↔
      ∃ tmp : UInt64, kstrtoull s base 0 = (.ok (), tmp) ∧ (tmp.toNat < 2 ^ 63 ∧ r = tmp.toNat) := by
  rw [kstrtoll, if_neg minus]
  rcases kstrtoull s base 0 with ⟨_ | ⟨⟩, tmp⟩
  · simp
  · dsimp only
    by_cases small : tmp.toNat < 2 ^ 63
    · rw [if_neg (by rw [toLongLong_neg_iff]; omega), toLongLong_of_lt small]
      simp only [Prod.mk.injEq, true_and, exists_eq_left', @eq_comm _ r]
      exact ⟨fun h => ⟨small, h⟩, And.right⟩
    · rw [if_pos (by rw [toLongLong_neg_iff]; omega)]
      simp only [Prod.mk.injEq, reduceCtorEq, false_and, true_and, exists_eq_left', false_iff, not_and]
      exact fun h => absurd h small

theorem exists_ok_toNat {R Q : Nat → Prop} {x : Except Errno Unit × UInt64}
    (h : ∀ v : UInt64, x = (.ok (), v) ↔ R v.toNat) :
    (∃ tmp : UInt64, x = (.ok (), tmp) ∧ Q tmp.toNat) ↔ ∃ v, R v ∧ v < 2 ^ 64 ∧ Q v := by
  constructor
  · rintro ⟨tmp, hx, q⟩
    exact ⟨tmp.toNat, (h tmp).mp hx, tmp.toNat_lt, q⟩
  · rintro ⟨v, r, lt, q⟩
    have e : v.toUInt64.toNat = v := by rw [Nat.toUInt64_eq, UInt64.toNat_ofNat_of_lt' lt]
    exact ⟨v.toUInt64, (h _).mpr (by rwa [e]), by rwa [e]⟩

/-! ### `kstrtoull` and `kstrtoll` -/

theorem kstrtoull_error {s : List UInt8} {base : Nat} {res : UInt64} {e : Errno}
    (h : (kstrtoull s base res).1 = .error e) : (e = .range ∨ e = .inval) ∧ (kstrtoull s base res).2 = res := by
  unfold kstrtoull at h ⊢
  split_ifs at h ⊢ <;> exact kstrtoullAux_error h

theorem kstrtoll_error {s : List UInt8} {base : Nat} {res : Int} {e : Errno}
    (h : (kstrtoll s base res).1 = .error e) : (kstrtoll s base res).2 = res := by
  unfold kstrtoll at h ⊢
  split_ifs at h ⊢
  · generalize kstrtoullAux (s.drop 1) base 0 = x at h ⊢
    rcases x with ⟨_ | ⟨⟩, tmp⟩
    · simp_all
    · dsimp only at h ⊢
      split_ifs at h ⊢
      rfl
  · generalize kstrtoull s base 0 = x at h ⊢
    rcases x with ⟨_ | ⟨⟩, tmp⟩
    · simp_all
    · dsimp only at h ⊢
      split_ifs at h ⊢
      rfl

section Grammar

variable {s : List UInt8} {base : Nat} (hb : base = 0 ∨ 2 ≤ base ∧ base ≤ 16) (nul : 0 ∉ s)
  (short : s.length < 2 ^ 31)
include hb nul short

theorem kstrtoull_ok_iff (res v : UInt64) :
    kstrtoull s base res = (.ok (), v) ↔ OptPlus (fun t => Numeral base t v.toNat) s :=
  kstrtoull_optPlus (· = (.ok (), v)) (fun _ h => not_sign_head (.inl rfl) (numeral_head h))
    (fun _ nul short => kstrtoullAux_ok_iff hb nul short res v) nul short

theorem kstrtoull_range_iff (res : UInt64) :
    (kstrtoull s base res).1 = .error .range ↔ OptPlus (Overflows base) s :=
  kstrtoull_optPlus (fun x => x.1 = .error .range) (fun _ h => not_sign_head (.inl rfl) (overflows_head h))
    (fun _ nul short => kstrtoullAux_range_iff hb nul short res) nul short

theorem kstrtoll_ok_iff (res r : Int) :
    kstrtoll s base res = (.ok (), r) ↔
      (∃ v, OptPlus (fun t => Numeral base t v) s ∧ v < 2 ^ 63 ∧ r = v) ∨
        ∃ t v, s = 45 :: t ∧ Numeral base t v ∧ 0 < v ∧ v ≤ 2 ^ 63 ∧ r = -v := by
  by_cases minus : charAt s 0 = 45
  · obtain ⟨t, rfl⟩ : ∃ t, s = 45 :: t := ⟨_, eq_cons_of_charAt minus (by decide)⟩
    have nul' : 0 ∉ t := fun h => nul (List.mem_cons_of_mem _ h)
    have short' : t.length < 2 ^ 31 := by
      rw [List.length_cons] at short
      omega
    rw [kstrtoll_minus_ok_iff]
    refine (@exists_ok_toNat (fun v => Numeral base t v) (fun v => 0 < v ∧ v ≤ 2 ^ 63 ∧ r = -(v : Int)) _
      (kstrtoullAux_ok_iff hb nul' short' 0)).trans ?_
    constructor
    · rintro ⟨v, h, -, h0, hv, rfl⟩
      exact .inr ⟨t, v, rfl, h, h0, hv, rfl⟩
    · -- a `'-'` is neither a `'+'` nor the start of a numeral
      rintro (⟨v, h | ⟨t', e, -⟩, -⟩ | ⟨t', v, e, h, h0, hv, rfl⟩)
      · exact absurd (numeral_head h) (not_sign_head (.inr rfl))
      · exact absurd (List.cons.inj e).1 (by decide)
      · obtain rfl := (List.cons.inj e).2
        exact ⟨v, h, by omega, h0, hv, rfl⟩
  · rw [kstrtoll_of_ne_ok_iff minus]
    refine (@exists_ok_toNat (fun v => OptPlus (fun t => Numeral base t v) s) (fun v => v < 2 ^ 63 ∧ r = (v : Int))
      _ (kstrtoull_ok_iff hb nul short 0)).trans ?_
    constructor
    · rintro ⟨v, h, -, hv, rfl⟩
      exact .inl ⟨v, h, hv, rfl⟩
    · rintro (⟨v, h, hv, rfl⟩ | ⟨t, v, rfl, -⟩)
      · exact ⟨v, h, by omega, hv, rfl⟩
      · exact absurd rfl minus

end Grammar

/-- `kstrtoull` and `kstrtoll` over strings shorter than `2^31` bytes: success exactly on the
grammar, with its value; `-ERANGE` from `kstrtoull` exactly when the run of digits it reads
passes `ULLONG_MAX`, whatever follows; `*res` untouched on every error. -/
theorem kstrtox_grammar {s : List UInt8} {base : Nat} (hb : base = 0 ∨ 2 ≤ base ∧ base ≤ 16) (nul : 0 ∉ s)
    (short : s.length < 2 ^ 31) :
    (∀ res v : UInt64, kstrtoull s base res = (.ok (), v) ↔ OptPlus (fun t => Numeral base t v.toNat) s) ∧
      (∀ res : UInt64, (kstrtoull s base res).1 = .error .range ↔ OptPlus (Overflows base) s) ∧
      (∀ res e, (kstrtoull s base res).1 = .error e →
        (e = .range ∨ e = .inval) ∧ (kstrtoull s base res).2 = res) ∧
      (∀ res r : Int, kstrtoll s base res = (.ok (), r) ↔
        (∃ v, OptPlus (fun t => Numeral base t v) s ∧ v < 2 ^ 63 ∧ r = v) ∨
          ∃ t v, s = 45 :: t ∧ Numeral base t v ∧ 0 < v ∧ v ≤ 2 ^ 63 ∧ r = -v) ∧
      ∀ res e, (kstrtoll s base res).1 = .error e → (kstrtoll s base res).2 = res :=
  ⟨kstrtoull_ok_iff hb nul short, kstrtoull_range_iff hb nul short, fun _ _ => kstrtoull_error,
    kstrtoll_ok_iff hb nul short, fun _ _ => kstrtoll_error⟩

/-- `"0x1a\n"` in base 0 is a numeral of value 26, read off what `kstrtoull` returns. -/
theorem kstrtox_grammar_hex :
    ((0 : Nat) = 0 ∨ 2 ≤ 0 ∧ 0 ≤ 16) ∧ (0 : UInt8) ∉ [48, 120, 49, 97, 10] ∧
      [48, 120, 49, 97, 10].length < 2 ^ 31 ∧ OptPlus (fun t => Numeral 0 t 26) [48, 120, 49, 97, 10] :=
  ⟨by decide, by decide, by decide, ((kstrtox_grammar (by decide) (by decide) (by decide)).1 7 26).mp (by decide)⟩

/-- `_kstrtoull` returns `-ERANGE` for a run of digits past `ULLONG_MAX` before it looks at the
byte after it: a string outside the grammar that still gives `-ERANGE`. -/
theorem kstrtoull_range_before_trailing :
    kstrtoull ("18446744073709551616x".toList.map Char.toUInt8) 10 0 = (.error .range, 0) := by
  decide

end LinuxKernel.Kstrtox
