import LinuxKernel.Lib.Kstrtox

/-!
# Option strings

`lib/cmdline.c`: `get_option` reads one integer with `simple_strtol`, `get_options` a list with
ranges `M-N` into an array of `int`s whose first element gets the count. The array is memory
indexed from `ints`, so a store past its end is seen.
-/

namespace LinuxKernel.Cmdline

open Kstrtox

/-- `simple_strtoull(cp, &endp, base)`: the value, and the string from `endp` on. -/
def simpleStrtoull (cp : List UInt8) (base : Nat) : UInt64 × List UInt8 :=
  match parseIntegerFixupRadix cp base with
  | (cp, base) =>
    match Kstrtox.parseInteger cp base with
    | (rv, result) => (result, cp.drop (rv &&& ~~~kstrtoxOverflow).toNat)

/-- `simple_strtol`: a leading `'-'` negates the `unsigned long` read after it. -/
def simpleStrtol (cp : List UInt8) (base : Nat) : UInt64 × List UInt8 :=
  if charAt cp 0 = 45 then
    match simpleStrtoull (cp.drop 1) base with
    | (v, endp) => (-v, endp)
  else simpleStrtoull cp base

/-- `get_option(&str, pint)`: the return code, the string left in `*str`, and what is stored in
`*pint`, the `long` cut to an `int`. The value is stored before `cur == *str` is tested. -/
def getOption (str : List UInt8) : Nat × List UInt8 × Option Int32 :=
  if charAt str 0 = 0 then (0, str, none)
  else
    match simpleStrtol str 0 with
    | (v, endp) =>
      let v := v.toUInt32.toInt32
      if endp.length = str.length then (0, endp, some v)
      else if charAt endp 0 = 44 then (2, endp.drop 1, some v)
      else if charAt endp 0 = 45 then (3, endp, some v)
      else (1, endp, some v)

/-- `for (x = *pint; x < upper_range; x++) *pint++ = x;` from `ints + p`, run for the
`upper_range - x` rounds it takes. -/
def fillRange (ints : Int → Int32) (p : Int) (x upper : Int32) : Nat → Int → Int32
  | 0 => ints
  | n + 1 => if x < upper then fillRange (Function.update ints p x) (p + 1) (x + 1) upper n else ints

/-- `get_range(&str, ints + p)`: past the `'-'` the upper end is read, without moving `*str`, and
`M = ints[p]`, ..., `N - 1` are stored from `ints + p` on, however far that is. The count
`N - M`. -/
def getRange (str : List UInt8) (ints : Int → Int32) (p : Int) :
    List UInt8 × (Int → Int32) × Int32 :=
  let str := str.drop 1
  let upperRange := (simpleStrtol str 0).1.toUInt32.toInt32
  let incCounter := upperRange - ints p
  (str, fillRange ints p (ints p) upperRange (upperRange.toInt - (ints p).toInt).toNat, incCounter)

/-- The `while (i < nints)` loop of `get_options` on fuel: the string left, `i` and the array.
A round that goes on takes at least one byte of the string. -/
def getOptionsLoop (nints : Int32) : Nat → List UInt8 → Int32 → (Int → Int32) →
    Option (List UInt8 × Int32 × (Int → Int32))
  | 0, _, _, _ => none
  | fuel + 1, str, i, ints =>
    if i < nints then
      match getOption str with
      | (res, str, v) =>
        let ints := match v with
          | some v => Function.update ints i.toInt v
          | none => ints
        if res = 0 then some (str, i, ints)
        else if res = 3 then
          match getRange str ints i.toInt with
          | (str, ints, rangeNums) =>
            -- the last number of the range is read again by the next round
            if rangeNums < 0 then some (str, i, ints)
            else getOptionsLoop nints fuel str (i + (rangeNums - 1) + 1) ints
        else if res = 1 then some (str, i + 1, ints)
        else getOptionsLoop nints fuel str (i + 1) ints
    else some (str, i, ints)

/-- `get_options(str, nints, ints)`: the string where the parse stopped, and the array with the
count in `ints[0]`. -/
def getOptions (str : List UInt8) (nints : Int32) (ints : Int → Int32) :
    Option (List UInt8 × (Int → Int32)) :=
  (getOptionsLoop nints (str.length + 1) str 1 ints).map fun r =>
    (r.1, Function.update r.2.2 0 (r.2.1 - 1))

/-! ### Every round that goes on takes a byte -/

theorem parseIntegerFixupRadix_suffix (s : List UInt8) (base : Nat) :
    (parseIntegerFixupRadix s base).1 <:+ s := by
  unfold parseIntegerFixupRadix
  dsimp only
  split_ifs <;> simp [List.drop_suffix]

theorem simpleStrtoull_suffix (cp : List UInt8) (base : Nat) : (simpleStrtoull cp base).2 <:+ cp :=
  (List.drop_suffix _ _).trans (parseIntegerFixupRadix_suffix cp base)

theorem simpleStrtol_suffix (cp : List UInt8) (base : Nat) : (simpleStrtol cp base).2 <:+ cp := by
  unfold simpleStrtol
  split
  · exact (simpleStrtoull_suffix _ base).trans (List.drop_suffix 1 cp)
  · exact simpleStrtoull_suffix cp base

theorem getOption_rest (str : List UInt8) :
    (getOption str).2.1.length ≤ str.length ∧
      ((getOption str).1 = 2 → (getOption str).2.1.length < str.length) ∧
      ((getOption str).1 = 3 → (getOption str).2.1 ≠ []) := by
  have le := (simpleStrtol_suffix str 0).length_le
  unfold getOption
  split
  · simp
  · dsimp only
    split_ifs with same comma dash
    · simp [le]
    · -- the comma is a byte of `endp`, so `endp` is not empty
      have ne : (simpleStrtol str 0).2 ≠ [] := fun e => by simp [e, charAt] at comma
      have pos := List.length_pos_iff.mpr ne
      simp only [List.length_drop, Nat.reduceEqDiff, true_implies, false_implies, and_true]
      omega
    · refine ⟨le, by simp, fun _ e => ?_⟩
      simp only at e
      simp [e, charAt] at dash
    · simp [le]

theorem getOption_code_le (str : List UInt8) : (getOption str).1 ≤ 3 := by
  unfold getOption
  split
  · simp
  · dsimp only
    split_ifs <;> simp

theorem getOptionsLoop_isSome (nints : Int32) {fuel : Nat} {str : List UInt8} (i : Int32)
    (ints : Int → Int32) (enough : str.length < fuel) :
    (getOptionsLoop nints fuel str i ints).isSome := by
  induction fuel generalizing str i ints with
  | zero => omega
  | succ fuel ih =>
    obtain ⟨-, comma, dash⟩ := getOption_rest str
    unfold getOptionsLoop
    split
    · dsimp only
      split_ifs with zero three negative one
      · rfl
      · rfl
      · -- a range: `get_range` steps past the `'-'`
        have ne := dash three
        have shorter : ((getOption str).2.1.drop 1).length < fuel := by
          have := (getOption_rest str).1
          have := List.length_pos_iff.mpr ne
          simp only [List.length_drop]
          omega
        exact ih _ _ shorter
      · rfl
      · -- a comma: the code is 2
        have two : (getOption str).1 = 2 := by
          have := getOption_code_le str
          omega
        exact ih _ _ (lt_of_lt_of_le (comma two) (Nat.lt_succ_iff.mp enough))
    · rfl

/-- `get_options` returns on every string, whatever `nints` and the array hold. -/
theorem getOptions_isSome (str : List UInt8) (nints : Int32) (ints : Int → Int32) :
    (getOptions str nints ints).isSome := by
  rw [getOptions, Option.isSome_map]
  exact getOptionsLoop_isSome nints 1 ints (Nat.lt_succ_self _)

/-- `get_options("0-9", 2, ints)`: the range writes `ints[1]` to `ints[9]`, past the two `int`s
of the array, and `ints[0]` receives 9. -/
theorem getOptions_range_overruns :
    (getOptions [48, 45, 57] 2 fun _ => -1).map (fun r => (r.2 0, r.2 2, r.2 9, r.1)) =
      some (9, 1, 8, [57]) := by
  decide

end LinuxKernel.Cmdline
