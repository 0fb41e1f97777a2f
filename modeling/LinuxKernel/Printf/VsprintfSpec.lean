import Mathlib
import LinuxKernel.Printf.Vsprintf

/-!
# `vsnprintf` stores a prefix of its unbounded output

Every emitter writes through `if (str < end)` and moves `str` on anyway, so a run into `size`
bytes stores the first `size` bytes of the unbounded output (`vsnLoop_emits`,
`vsnprintf_truncates`); the returned `int` holds the length only below `2^31`.
-/

namespace LinuxKernel.Vsprintf

open GuardedWrite GuardedWrite.Cursor

/-! ### The `int` a length is returned in -/

theorem toInt_toInt32 {n : Nat} (h : n < 2 ^ 31) : n.toInt32.toInt = n := by
  rw [show n.toInt32 = Int32.ofNat n from rfl, Int32.toInt_ofNat']
  exact Int.bmod_eq_of_le (by simp [Int32.size]) (by simp [Int32.size]; omega)

theorem toUInt64_toInt64_toInt32 {n : Nat} (h : n < 2 ^ 31) :
    n.toInt32.toInt64.toUInt64 = n.toUInt64 := by
  rw [show n.toInt32 = Int32.ofNat n from rfl,
    Int32.toInt64_ofNat' (by rw [Int32.toInt_maxValue]; omega), Int64.toUInt64_ofNat']

/-! ### What each emitter writes -/

theorem number_emits (num : UInt64) (spec : PrintfSpec) :
    ∃ l, ∀ bound buf, number bound buf num spec = buf.putList bound l := by
  refine ⟨?text, fun bound buf => ?run⟩
  case run =>
    -- the conditional loops first, before `preDecPad_eq` opens them
    simp only [number, ite_preDecPad]
    simp only [preDecPad_eq, ite_put, ← putList_append]
    rfl

theorem stringLen_toInt (s : VaArg) (spec : PrintfSpec) (h : s.str.length < 2 ^ 31) :
    (stringLen s spec).toInt =
      strnlen (stringBytes s) spec.precision.toInt64.toUInt64.toNat := by
  have hbytes : (stringBytes s).length < 2 ^ 31 := by
    unfold stringBytes
    split
    · simp [nullStr]
    · exact h
  have hlen : strnlen (stringBytes s) spec.precision.toInt64.toUInt64.toNat < 2 ^ 31 := by
    unfold strnlen
    omega
  exact toInt_toInt32 hlen

/-- What `string` prints of `s`: the padding before it unless `-`, the first `len` bytes, and
the padding after. -/
def stringText (s : VaArg) (spec : PrintfSpec) : List UInt8 :=
  let len := (stringLen s spec).toInt
  let right := spec.flags &&& Flags.left = 0
  let fieldWidth := if right then postDecFinal len spec.fieldWidth else spec.fieldWidth
  (if right then List.replicate (postDecRounds len spec.fieldWidth) ' '.toUInt8 else []) ++
    (stringBytes s).take len.toNat ++ List.replicate (postDecRounds len fieldWidth) ' '.toUInt8

theorem stringText_plain (s : VaArg) (hs : pageSize ≤ s.word.toNat) (hlen : s.str.length < 2 ^ 31) :
    stringText s ⟨.str, 0, 10, 255, -1, -1⟩ = s.str := by
  have hbytes : stringBytes s = s.str := by
    unfold stringBytes
    rw [if_neg (by omega)]
  have hl : (stringLen s ⟨.str, 0, 10, 255, -1, -1⟩).toInt = s.str.length := by
    rw [stringLen_toInt _ _ hlen, hbytes]
    have : ((-1 : Int16).toInt64.toUInt64.toNat) = 2 ^ 64 - 1 := by decide
    simp only [strnlen, this]
    omega
  have hw : ¬ (s.str.length : Int) < (-1 : Int16).toInt := by
    rw [show (-1 : Int16).toInt = -1 from rfl]
    omega
  unfold stringText postDecRounds postDecFinal
  simp only [hl, hbytes, if_pos (show (0 : UInt8) &&& Flags.left = 0 by decide), if_neg hw]
  rw [show (-1 - 1 : Int16).toInt = -2 from rfl, show (-1 : Int16).toInt = -1 from rfl]
  simp

theorem string_eq (bound : Option Nat) (buf : Cursor UInt8) (s : VaArg) (spec : PrintfSpec)
    (hlen : -2 ^ 15 ≤ (stringLen s spec).toInt) :
    string bound buf s spec = some (buf.putList bound (stringText s spec)) := by
  unfold string stringText
  simp only [postDecPad_eq_some _ _ _ _ hlen]
  split <;> simp [putList_append]

/-! ### A round of the loop -/

variable (pointer : List UInt8 → UInt64 → PrintfSpec → List UInt8)

/-- Every `%s` argument is shorter than `2^31` bytes, so that `string`'s `int len` holds its
length. -/
def ShortStrings (args : List VaArg) : Prop := ∀ a ∈ args, a.str.length < 2 ^ 31

theorem ShortStrings.tail {args : List VaArg} (h : ShortStrings args) : ShortStrings args.tail :=
  fun a ha => h a (List.mem_of_mem_tail ha)

theorem ShortStrings.vaArg {args : List VaArg} (h : ShortStrings args) :
    (vaArg args).str.length < 2 ^ 31 := by
  cases args with
  | nil => simp [Vsprintf.vaArg]
  | cons a args => exact h a List.mem_cons_self

theorem vsnStep_emits (fmt : List UInt8) (args : List VaArg) (spec : PrintfSpec)
    (hargs : ShortStrings args) :
    ∃ fmt' args' spec' l, ShortStrings args' ∧
      ∀ bound str, vsnStep pointer bound fmt args spec str = some (fmt', args', spec', str.putList bound l) := by
  obtain ⟨ln, hln⟩ := number_emits
    (vaNumber (formatDecode fmt spec).2.type (vaArg args).word) (formatDecode fmt spec).2
  have hstr : -2 ^ 15 ≤ (stringLen (vaArg args) (formatDecode fmt spec).2).toInt := by
    rw [stringLen_toInt _ _ hargs.vaArg]
    omega
  unfold vsnStep
  simp only [drop_formatDecode]
  revert hln
  cases (formatDecode fmt spec).2.type
  all_goals intro hln; dsimp only
  case none => exact ⟨_, _, _, _, hargs, fun bound str => by rw [copy_eq_putList]⟩
  case width => exact ⟨_, _, _, [], hargs.tail, fun bound str => rfl⟩
  case precision => exact ⟨_, _, _, [], hargs.tail, fun bound str => rfl⟩
  case char =>
    exact ⟨_, _, _, _, hargs.tail, fun bound str => by
      simp only [ite_preDecPad]
      simp only [preDecPad_eq, ← putList_singleton, ← putList_append]
      rfl⟩
  case str =>
    exact ⟨_, _, _, _, hargs.tail, fun bound str => by rw [string_eq _ _ _ _ hstr]; rfl⟩
  case ptr => exact ⟨_, _, _, _, hargs.tail, fun bound str => rfl⟩
  case percentChar => exact ⟨_, _, _, [_], hargs, fun bound str => rfl⟩
  case invalid => exact ⟨_, _, _, [_], hargs, fun bound str => rfl⟩
  case nrchars => exact ⟨_, _, _, [], hargs.tail, fun bound str => rfl⟩
  -- the integer conversions
  all_goals exact ⟨_, _, _, ln, hargs.tail, fun bound str => by rw [hln]⟩

/-! ### The loop -/

theorem vsnLoop_emits (fmt : List UInt8) (args : List VaArg) (spec : PrintfSpec)
    (hargs : ShortStrings args) :
    ∃ out, ∀ bound str, vsnLoop pointer bound fmt args spec str = some (str.putList bound out) := by
  -- on the measure each round lowers
  induction hm : vsnMeasure fmt spec using Nat.strong_induction_on generalizing fmt args spec with
  | _ n ih =>
  by_cases hnul : fmt.headD 0 = 0
  · exact ⟨[], fun bound str => vsnLoop_nul hnul⟩
  · obtain ⟨fmt', args', spec', l, hargs', hstep⟩ := vsnStep_emits pointer fmt args spec hargs
    have hlt : vsnMeasure fmt' spec' < n := hm ▸ vsnStep_measure hnul (hstep none ⟨fun _ => 0, 0⟩)
    obtain ⟨out, hout⟩ := ih _ hlt fmt' args' spec' hargs' rfl
    refine ⟨l ++ out, fun bound str => ?_⟩
    rw [vsnLoop_step hnul (hstep bound str), hout, putList_append]

/-! ### What the buffer holds -/

/-- What an unbounded buffer receives: the run with no end. -/
def vsnOutput (fmt : List UInt8) (args : List VaArg) : Option (List UInt8) :=
  (vsnLoop pointer none fmt args PrintfSpec.zero ⟨fun _ => 0, 0⟩).map fun str =>
    (List.range str.pos).map str.mem

/-- A buffer of `size` bytes that held `mem`, after the output `out` went into it cut to
`size - 1` bytes and a NUL. -/
def truncatedBuffer (mem : Nat → UInt8) (size : Nat) (out : List UInt8) : Nat → UInt8 := fun i =>
  if size = 0 then mem i
  else if h : i < min out.length (size - 1) then out.get ⟨i, by omega⟩
  else if i = min out.length (size - 1) then 0
  else mem i

theorem truncatedBuffer_of_lt (mem : Nat → UInt8) {size : Nat} {out : List UInt8}
    (fits : out.length < size) :
    (List.range (out.length + 1)).map (truncatedBuffer mem size out) = out ++ [0] := by
  apply List.ext_getElem (by simp)
  intro i inRange _
  rw [List.length_map, List.length_range] at inRange
  simp only [List.getElem_map, List.getElem_range, truncatedBuffer]
  rw [if_neg (by omega)]
  by_cases inside : i < out.length
  · rw [dif_pos (by omega), List.getElem_append_left inside]
    rfl
  · obtain rfl : i = out.length := by omega
    rw [dif_neg (by omega), if_pos (by omega), List.getElem_append_right (by omega)]
    simp

variable {pointer} {fmt : List UInt8} {args : List VaArg} {out : List UInt8}

theorem vsnOutput_eq
    (hout : ∀ bound str, vsnLoop pointer bound fmt args PrintfSpec.zero str =
      some (str.putList bound out)) :
    vsnOutput pointer fmt args = some out := by
  unfold vsnOutput
  rw [hout, Option.map_some, putList_pos, Nat.zero_add, map_range_putList_none]

theorem vsnprintf_eq (buf : Nat → UInt8) {size : UInt64} (hsize : size.toNat < 2 ^ 31)
    (hout : ∀ bound str, vsnLoop pointer bound fmt args PrintfSpec.zero str =
      some (str.putList bound out)) :
    vsnprintf pointer buf size fmt args = some (out.length.toInt32, truncatedBuffer buf size.toNat out) := by
  have hpos : ¬ size.toUInt32.toInt32 < 0 := by
    rw [show size.toUInt32.toInt32 = size.toNat.toInt32 from rfl, Int32.lt_iff_toInt_lt,
      toInt_toInt32 hsize]
    simp
  unfold vsnprintf
  rw [if_neg hpos]
  dsimp only
  rw [hout, Option.map_some, putList_pos, Nat.zero_add]
  congr 2
  funext i
  have hmem := putList_some_mem size.toNat out buf i
  unfold truncatedBuffer
  by_cases hz : size.toNat = 0
  · -- `size == 0`: nothing is written
    have hgt : ¬ size > 0 := by simp [UInt64.lt_iff_toNat_lt, hz]
    rw [if_neg hgt, hmem, dif_neg (by omega), if_pos hz]
  · have hgt : size > 0 := by simp [UInt64.lt_iff_toNat_lt]; omega
    rw [if_pos hgt, if_neg hz]
    -- the NUL goes after the output if it fits, else into `end[-1]`
    split <;> rw [Function.update_apply, hmem] <;> split_ifs <;> first | rfl | omega

theorem vscnprintf_fst {buf mem : Nat → UInt8} {size : UInt64} {n : Nat}
    (hsize : size.toNat < 2 ^ 31) (hn : n < 2 ^ 31)
    (hrun : vsnprintf pointer buf size fmt args = some (n.toInt32, mem)) :
    (vscnprintf pointer buf size fmt args).map Prod.fst =
      some (if size = 0 then 0 else (min n (size.toNat - 1)).toInt32) := by
  unfold vscnprintf
  rw [hrun, Option.map_some, Option.map_some, toUInt64_toInt64_toInt32 hn]
  have hn64 : n.toUInt64.toNat = n := by simp; omega
  by_cases hlt : n < size.toNat
  · -- `i < size`: the length itself
    have hz : size ≠ 0 := fun h => by simp [h] at hlt
    rw [if_pos (UInt64.lt_iff_toNat_lt.mpr (by omega)), if_neg hz, Nat.min_eq_left (by omega)]
  · rw [if_neg (fun h => hlt (by rw [UInt64.lt_iff_toNat_lt] at h; omega))]
    by_cases hz : size = 0
    · rw [if_neg (not_not.mpr hz), if_pos hz]
    · -- `size - 1`, as an `int`
      have hpos : 0 < size.toNat := by
        rcases Nat.eq_zero_or_pos size.toNat with h | h
        · exact absurd (UInt64.toNat_inj.mp h) hz
        · exact h
      have hsub : (size - 1).toUInt32 = (size.toNat - 1).toUInt32 := by
        apply UInt32.toNat_inj.mp
        rw [UInt64.toNat_toUInt32, UInt64.toNat_sub_of_le _ _ (by simp [UInt64.le_iff_toNat_le]; omega)]
        simp
      rw [if_pos hz, if_neg hz, Nat.min_eq_right (by omega)]
      show some (size - 1).toUInt32.toInt32 = some (size.toNat - 1).toUInt32.toInt32
      rw [hsub]

variable (pointer)

theorem vsnprintf_truncates (buf : Nat → UInt8) (size : UInt64) (fmt : List UInt8)
    (args : List VaArg) (hargs : ShortStrings args) (hsize : size.toNat < 2 ^ 31) :
    ∃ out, vsnOutput pointer fmt args = some out ∧
      (out.length < 2 ^ 31 →
        vsnprintf pointer buf size fmt args =
            some (out.length.toInt32, truncatedBuffer buf size.toNat out) ∧
          out.length.toInt32.toInt = out.length ∧
          (vscnprintf pointer buf size fmt args).map Prod.fst =
            some (if size = 0 then 0 else (min out.length (size.toNat - 1)).toInt32)) := by
  obtain ⟨out, hout⟩ := vsnLoop_emits pointer fmt args PrintfSpec.zero hargs
  refine ⟨out, vsnOutput_eq hout, fun hlen => ?_⟩
  have hrun := vsnprintf_eq buf hsize hout
  exact ⟨hrun, toInt_toInt32 hlen, vscnprintf_fst hsize hlen hrun⟩

theorem vsnprintf_truncates_percent_d :
    ShortStrings [⟨42, []⟩] ∧ (3 : UInt64).toNat < 2 ^ 31 ∧
      ∃ out, vsnOutput (fun _ _ _ => []) [37, 100] [⟨42, []⟩] = some out ∧
        (out.length < 2 ^ 31 →
          vsnprintf (fun _ _ _ => []) (fun _ => 0) 3 [37, 100] [⟨42, []⟩] =
              some (out.length.toInt32, truncatedBuffer (fun _ => 0) (3 : UInt64).toNat out) ∧
            out.length.toInt32.toInt = out.length ∧
            (vscnprintf (fun _ _ _ => []) (fun _ => 0) 3 [37, 100] [⟨42, []⟩]).map Prod.fst =
              some (if (3 : UInt64) = 0 then 0
                else (min out.length ((3 : UInt64).toNat - 1)).toInt32)) :=
  ⟨by simp [ShortStrings], by decide,
    vsnprintf_truncates _ _ 3 [37, 100] [⟨42, []⟩] (by simp [ShortStrings]) (by decide)⟩

theorem vsnStep_of_decodeSpec_str {bound : Option Nat} {spec sp : PrintfSpec} {rest : List UInt8}
    {str : Cursor UInt8} (hd : decodeSpec fmt spec = (rest, sp)) (hsp : sp.type = .str)
    (hlen : -2 ^ 15 ≤ (stringLen (vaArg args) sp).toInt) :
    vsnStep pointer bound fmt args spec str =
      some (rest, args.tail, sp, str.putList bound (stringText (vaArg args) sp)) := by
  have hrest : fmt.drop (formatDecode fmt spec).1 = rest := by rw [drop_formatDecode, hd]
  have hspec : (formatDecode fmt spec).2 = sp := by rw [formatDecode_snd, hd]
  unfold vsnStep
  simp only [hrest]
  rw [hspec]
  simp only [hsp]
  rw [string_eq _ _ _ _ hlen]
  rfl

theorem vsnprintf_length_wraps (buf : Nat → UInt8) :
    vsnOutput pointer [37, 115, 37, 115]
        [⟨4096, List.replicate (2 ^ 30) 97⟩, ⟨4096, List.replicate (2 ^ 30) 97⟩] =
      some (List.replicate (2 ^ 31) 97) ∧
    (vsnprintf pointer buf 1 [37, 115, 37, 115]
        [⟨4096, List.replicate (2 ^ 30) 97⟩, ⟨4096, List.replicate (2 ^ 30) 97⟩]).map
      (fun r => r.1.toInt) = some (-2 ^ 31) := by
  -- keep the strings opaque: no step below may build them
  have hR : (List.replicate (2 ^ 30) (97 : UInt8)) ++ List.replicate (2 ^ 30) 97 =
      List.replicate (2 ^ 31) 97 := by
    rw [List.replicate_append_replicate, show 2 ^ 30 + 2 ^ 30 = 2 ^ 31 by norm_num]
  have hRlen : (List.replicate (2 ^ 30) (97 : UInt8)).length = 2 ^ 30 := List.length_replicate
  rw [← hR]
  generalize List.replicate (2 ^ 30) (97 : UInt8) = R at hRlen ⊢
  have ha : stringText ⟨4096, R⟩ ⟨.str, 0, 10, 255, -1, -1⟩ = R :=
    stringText_plain _ (by show pageSize ≤ (4096 : UInt64).toNat; decide) (by rw [hRlen]; decide)
  have hshort : ShortStrings [⟨4096, R⟩, ⟨4096, R⟩] := by
    intro a ha
    simp only [List.mem_cons, List.not_mem_nil, or_false, or_self] at ha
    rw [ha, hRlen]
    decide
  have hlen : ∀ args : List VaArg, ShortStrings args →
      -2 ^ 15 ≤ (stringLen (vaArg args) ⟨.str, 0, 10, 255, -1, -1⟩).toInt := fun args h => by
    rw [stringLen_toInt _ _ h.vaArg]
    omega
  -- `"%s%s"` decodes to two plain `%s`
  have hd1 : decodeSpec [37, 115, 37, 115] PrintfSpec.zero =
      ([37, 115], ⟨.str, 0, 10, 255, -1, -1⟩) := by decide
  have hd2 : decodeSpec [37, 115] ⟨.str, 0, 10, 255, -1, -1⟩ =
      ([], ⟨.str, 0, 10, 255, -1, -1⟩) := by decide
  have hout : ∀ bound str, vsnLoop pointer bound [37, 115, 37, 115]
      [⟨4096, R⟩, ⟨4096, R⟩] PrintfSpec.zero str = some (str.putList bound (R ++ R)) := by
    intro bound str
    rw [vsnLoop_step (by decide) (vsnStep_of_decodeSpec_str pointer hd1 rfl (hlen _ hshort)),
      vsnLoop_step (by decide) (vsnStep_of_decodeSpec_str pointer hd2 rfl (hlen _ hshort.tail)),
      vsnLoop_nul (by decide)]
    rw [List.tail_cons, show vaArg [⟨4096, R⟩, ⟨4096, R⟩] = ⟨4096, R⟩ from rfl,
      show vaArg [⟨4096, R⟩] = ⟨4096, R⟩ from rfl, ha, putList_append]
  refine ⟨vsnOutput_eq hout, ?_⟩
  rw [vsnprintf_eq buf (by decide) hout, Option.map_some, List.length_append, hRlen]
  dsimp only
  decide

/-- The same run with `%p` printing nothing and a zeroed buffer. -/
theorem vsnprintf_two_strings_wrap :
    vsnOutput (fun _ _ _ => []) [37, 115, 37, 115]
        [⟨4096, List.replicate (2 ^ 30) 97⟩, ⟨4096, List.replicate (2 ^ 30) 97⟩] =
      some (List.replicate (2 ^ 31) 97) ∧
    (vsnprintf (fun _ _ _ => []) (fun _ => 0) 1 [37, 115, 37, 115]
        [⟨4096, List.replicate (2 ^ 30) 97⟩, ⟨4096, List.replicate (2 ^ 30) 97⟩]).map
      (fun r => r.1.toInt) = some (-2 ^ 31) :=
  vsnprintf_length_wraps (fun _ _ _ => []) (fun _ => 0)

end LinuxKernel.Vsprintf
