import LinuxKernel.Creds.MapWrite
import LinuxKernel.Lib.Kstrtox

/-!
# Parsing the command line (`kernel/params.c`)

`parse_args` cuts the string into words at whitespace outside quotes; `next_arg` ends the name
and value with NULs and `parse_one` calls the parameter's `set`. Quotes without `=` are kept
(`parseArgs_keeps_quote`); plain words split as documented (`parseArgs_plain_words`).
-/

namespace LinuxKernel.Params

open Kstrtox

/-! ### Parameters -/

/-- `struct kernel_param` as `parse_one` reads it: the name, the level, whether `ops->set` is
`param_set_bool` or `param_set_bint`, and what `ops->set` returns for a value. -/
structure KernelParam where
  name : List UInt8
  level : Int16
  setsBool : Bool
  set : Option (List UInt8) → Except Errno Unit

def dash2underscore (c : UInt8) : UInt8 := if c = '-'.toUInt8 then '_'.toUInt8 else c

def parameqn (a b : List UInt8) (n : Nat) : Bool :=
  (List.range n).all fun i => dash2underscore (charAt a i) = dash2underscore (charAt b i)

/-- `parameq(a, b)`: the bytes of `a` and its NUL. -/
def parameq (a b : List UInt8) : Bool := parameqn a b (a.length + 1)

/-- `parse_one(param, val, doing, params, num_params, min_level, max_level, handle_unknown)`,
with `doing` inside `handleUnknown`. -/
def parseOne (params : List KernelParam) (minLevel maxLevel : Int16)
    (handleUnknown : Option (List UInt8 → Option (List UInt8) → Except Errno Unit))
    (param : List UInt8) (val : Option (List UInt8)) : Except Errno Unit :=
  match params.find? fun p => parameq param p.name with
  | some p =>
    if p.level < minLevel ∨ p.level > maxLevel then .ok ()
    -- no one handled `NULL`, so it is done here
    else if val.isNone ∧ ¬p.setsBool then .error .inval
    else p.set val
  | none =>
    match handleUnknown with
    | some handle => handle param val
    | none => .error .noEnt

/-! ### Cutting the words -/

/-- The string at `buf + k`: its bytes up to the first NUL. -/
def cstrAt (buf : List UInt8) (k : Nat) : List UInt8 := (buf.drop k).takeWhile (· != 0)

/-- `args[k] = '\0'`. -/
def putNul (buf : List UInt8) (k : Nat) : List UInt8 := buf.set k 0

/-- The `for (i = 0; args[i]; i++)` loop of `next_arg` from `args + i`, with `equals` and
`in_quote`: the `i` it stops at and `equals`. -/
def nextArgScan : List UInt8 → Nat → Nat → Bool → Nat × Nat
  | [], i, equals, _ => (i, equals)
  | c :: rest, i, equals, inQuote =>
    if isspace c ∧ ¬inQuote then (i, equals)
    else
      nextArgScan rest (i + 1) (if equals = 0 ∧ c = '='.toUInt8 then i else equals)
        (if c = '"'.toUInt8 then !inQuote else inQuote)

/-- `next_arg(args, &param, &val)`: `param`, `val` (`none` for `NULL`) and the string it returns,
read off the buffer after the NULs it wrote. -/
def nextArg (args : List UInt8) : List UInt8 × Option (List UInt8) × List UInt8 :=
  let quoted := charAt args 0 = '"'.toUInt8
  let args := if quoted then args.drop 1 else args
  let (i, equals) := nextArgScan args 0 0 quoted
  let (buf, val) : List UInt8 × Option Nat :=
    if equals = 0 then (args, none)
    else
      let buf := putNul args equals
      -- don't include quotes in the value
      let (buf, val) :=
        if charAt buf (equals + 1) = '"'.toUInt8 then
          (if charAt buf (i - 1) = '"'.toUInt8 then putNul buf (i - 1) else buf, equals + 2)
        else (buf, equals + 1)
      let buf := if quoted ∧ charAt buf (i - 1) = '"'.toUInt8 then putNul buf (i - 1) else buf
      (buf, some val)
  let (buf, next) := if charAt buf i ≠ 0 then (putNul buf i, i + 1) else (buf, i)
  -- chew up trailing spaces
  (cstrAt buf 0, val.map (cstrAt buf ·), skipSpaces (buf.drop next))

/-- The `while (*args)` loop of `parse_args` for `fuel` rounds, with `parse_one` and the calls
made so far: what it returns and the calls, `none` when the rounds run out. Each round takes
at least a byte, so `args.length + 1` rounds are enough. -/
def parseArgsLoop (parseOne : List UInt8 → Option (List UInt8) → Except Errno Unit) :
    Nat → List UInt8 → List (List UInt8 × Option (List UInt8)) →
      Option (Except Errno Unit × List (List UInt8 × Option (List UInt8)))
  | 0, _, _ => none
  | fuel + 1, args, calls =>
    if charAt args 0 = 0 then some (.ok (), calls)
    else
      let (param, val, args) := nextArg args
      let calls := calls ++ [(param, val)]
      -- `-ENOENT`, `-ENOSPC` and any other error end the parse
      match parseOne param val with
      | .ok () => parseArgsLoop parseOne fuel args calls
      | .error e => some (.error e, calls)

/-- `parse_args(doing, args, params, num, min_level, max_level, unknown)`: what it returns, and
the `param` and `val` of each call of `parse_one`, in order. -/
def parseArgs (params : List KernelParam) (minLevel maxLevel : Int16)
    (unknown : Option (List UInt8 → Option (List UInt8) → Except Errno Unit)) (args : List UInt8) :
    Option (Except Errno Unit × List (List UInt8 × Option (List UInt8))) :=
  -- chew leading spaces
  let args := skipSpaces args
  parseArgsLoop (parseOne params minLevel maxLevel unknown) (args.length + 1) args []

/-- `"foo"` reaches `parse_one` as the name `foo"`: the closing quote is dropped only after an
`=`. And `=foo` reaches it as the name `=foo` with no value: an `=` at the start of the word is
taken for none. Here every name is unknown and accepted. -/
theorem parseArgs_keeps_quote :
    parseArgs [] 0 0 (some fun _ _ => .ok ()) ['"'.toUInt8, 'f'.toUInt8, 'o'.toUInt8, 'o'.toUInt8, '"'.toUInt8] =
      some (.ok (), [(['f'.toUInt8, 'o'.toUInt8, 'o'.toUInt8, '"'.toUInt8], none)]) ∧
    parseArgs [] 0 0 (some fun _ _ => .ok ()) ['='.toUInt8, 'f'.toUInt8, 'o'.toUInt8, 'o'.toUInt8] =
      some (.ok (), [(['='.toUInt8, 'f'.toUInt8, 'o'.toUInt8, 'o'.toUInt8], none)]) :=
  ⟨rfl, rfl⟩

/-! ### Words without quotes -/

/-- `s` is the words `ws` with whitespace before, between and after them: each word is a run of
bytes that are not whitespace, and whitespace or the end follows it. -/
inductive Words : List (List UInt8) → List UInt8 → Prop
  | nil {sp : List UInt8} : (∀ c ∈ sp, isspace c) → Words [] sp
  | cons {sp w rest : List UInt8} {ws : List (List UInt8)} : (∀ c ∈ sp, isspace c) → w ≠ [] →
      (∀ c ∈ w, isspace c = false) → (∀ c ∈ rest.head?, isspace c) → Words ws rest →
      Words (w :: ws) (sp ++ w ++ rest)

/-- The name and the value of a word: the bytes before its first `=` and those after it, no
value without an `=`. -/
def splitParam (w : List UInt8) : List UInt8 × Option (List UInt8) :=
  match w.findIdx? (· == '='.toUInt8) with
  | none => (w, none)
  | some k => (w.take k, some (w.drop (k + 1)))

/-- What `parse_args` should do with the words: call `parse_one` on each, in order, until one
fails, and return that failure. -/
def callsOf (parseOne : List UInt8 → Option (List UInt8) → Except Errno Unit) :
    List (List UInt8) → Except Errno Unit × List (List UInt8 × Option (List UInt8))
  | [] => (.ok (), [])
  | w :: ws =>
    match parseOne (splitParam w).1 (splitParam w).2 with
    | .ok () => ((callsOf parseOne ws).1, splitParam w :: (callsOf parseOne ws).2)
    | .error e => (.error e, [splitParam w])

/-! ### `skip_spaces` and the buffer -/

theorem skipSpaces_append {sp t : List UInt8} (spaces : ∀ c ∈ sp, isspace c) :
    skipSpaces (sp ++ t) = skipSpaces t := by
  induction sp with
  | nil => rfl
  | cons c sp ih =>
    rw [List.cons_append, skipSpaces, if_pos (spaces c List.mem_cons_self)]
    exact ih fun c mem => spaces c (List.mem_cons_of_mem _ mem)

theorem skipSpaces_of_head {t : List UInt8} (word : ∀ c ∈ t.head?, isspace c = false) :
    skipSpaces t = t := by
  cases t with
  | nil => rfl
  | cons c t => rw [skipSpaces, if_neg (by simpa using word c rfl)]

theorem skipSpaces_drop_one {t : List UInt8} (space : ∀ c ∈ t.head?, isspace c) :
    skipSpaces (t.drop 1) = skipSpaces t := by
  cases t with
  | nil => rfl
  | cons c t => rw [List.drop_one, List.tail_cons, skipSpaces, if_pos (space c rfl)]

theorem length_skipSpaces_le (t : List UInt8) : (skipSpaces t).length ≤ t.length := by
  induction t with
  | nil => exact Nat.le_refl 0
  | cons c t ih =>
    rw [skipSpaces]
    split
    · exact Nat.le_succ_of_le ih
    · exact Nat.le_refl _

theorem cstrAt_append {a : List UInt8} (nonzero : ∀ c ∈ a, c ≠ 0) (b : List UInt8) :
    cstrAt (a ++ b) 0 = a ++ cstrAt b 0 := by
  simp only [cstrAt, List.drop_zero]
  exact List.takeWhile_append_of_pos (by simpa using nonzero)

theorem cstrAt_nul (b : List UInt8) : cstrAt (0 :: b) 0 = [] := rfl

theorem cstrAt_nil : cstrAt [] 0 = [] := rfl

theorem cstrAt_ended (rest : List UInt8) :
    cstrAt (if rest = [] then [] else 0 :: rest.drop 1) 0 = [] := by
  split <;> rfl

theorem cstrAt_drop (buf : List UInt8) (k : Nat) : cstrAt buf k = cstrAt (buf.drop k) 0 := by
  simp [cstrAt]

theorem putNul_append (a b : List UInt8) (k : Nat) :
    putNul (a ++ b) (a.length + k) = a ++ putNul b k := by
  simp [putNul, List.set_append_right]

theorem nextArg_end (X rest : List UInt8) (stop : ∀ c ∈ rest.head?, isspace c) :
    (if charAt (X ++ rest) X.length ≠ 0 then (putNul (X ++ rest) X.length, X.length + 1)
      else (X ++ rest, X.length)) =
      (X ++ (if rest = [] then [] else 0 :: rest.drop 1), X.length + (if rest = [] then 0 else 1)) ∧
    skipSpaces ((X ++ (if rest = [] then [] else 0 :: rest.drop 1)).drop
      (X.length + (if rest = [] then 0 else 1))) = skipSpaces rest := by
  cases rest with
  | nil => simp [charAt]
  | cons r rs =>
    have nonzero : r ≠ 0 := fun zero => by simp [zero, isspace] at stop
    have at_end : charAt (X ++ r :: rs) X.length = r := by simp [charAt]
    have written : putNul (X ++ r :: rs) X.length = X ++ 0 :: rs := putNul_append X (r :: rs) 0
    refine ⟨?_, ?_⟩
    · rw [at_end, if_pos nonzero, written]
      rfl
    · have past : (X ++ 0 :: rs).drop (X.length + 1) = rs := by
        rw [List.drop_append, List.drop_eq_nil_of_le (by omega), List.nil_append,
          Nat.add_sub_cancel_left, List.drop_one, List.tail_cons]
      simp only [reduceCtorEq, if_false, List.drop_one, List.tail_cons, past]
      rw [← skipSpaces_drop_one stop, List.drop_one, List.tail_cons]

theorem nextArgScan_plain {w rest : List UInt8} (plain : ∀ c ∈ w, isspace c = false ∧ c ≠ '"'.toUInt8)
    (stop : ∀ c ∈ rest.head?, isspace c) {i : Nat} (pos : 0 < i) (equals : Nat) :
    nextArgScan (w ++ rest) i equals false =
      (i + w.length,
        if equals ≠ 0 then equals else ((w.findIdx? (· == '='.toUInt8)).map (i + ·)).getD 0) := by
  induction w generalizing i equals with
  | nil =>
    have ended : nextArgScan rest i equals false = (i, equals) := by
      cases rest with
      | nil => rfl
      | cons r rs => simp [nextArgScan, stop r rfl]
    rw [List.nil_append, ended]
    by_cases zero : equals = 0 <;> simp [zero]
  | cons c w ih =>
    obtain ⟨notSpace, notQuote⟩ := plain c List.mem_cons_self
    rw [List.cons_append, nextArgScan, if_neg (by simp [notSpace]), if_neg notQuote,
      ih (fun c mem => plain c (List.mem_cons_of_mem _ mem)) (by omega), List.findIdx?_cons]
    by_cases zero : equals = 0
    · by_cases eq : c = '='.toUInt8
      · -- the first `=` of the word, recorded at `i > 0`
        simp [zero, eq, Nat.pos_iff_ne_zero.mp pos]
        omega
      · simp [zero, eq, Option.map_map, Function.comp_def, Nat.add_comm, Nat.add_left_comm]
    · simp [zero]
      omega

theorem putNul_equals (P V tail : List UInt8) :
    putNul (P ++ '='.toUInt8 :: V ++ tail) P.length = (P ++ 0 :: V) ++ tail := by
  rw [List.append_assoc, ← Nat.add_zero P.length, putNul_append]
  simp [putNul]

theorem drop_value (P V tail : List UInt8) :
    ((P ++ 0 :: V) ++ tail).drop (P.length + 1) = V ++ tail := by
  rw [List.append_assoc, List.drop_append, List.drop_eq_nil_of_le (by simp), List.nil_append,
    Nat.add_sub_cancel_left, List.drop_one]
  rfl

theorem charAt_value (P V tail : List UInt8) :
    charAt ((P ++ 0 :: V) ++ tail) (P.length + 1) = charAt (V ++ tail) 0 := by
  simp only [charAt, ← drop_value P V tail, List.getD_eq_getElem?_getD, List.getElem?_drop,
    Nat.add_zero]

theorem charAt_value_ne_quote {V rest : List UInt8} (plainV : ∀ x ∈ V, x ≠ '"'.toUInt8)
    (stop : ∀ c ∈ rest.head?, isspace c) : ¬charAt (V ++ rest) 0 = '"'.toUInt8 := by
  cases V with
  | nil =>
    cases rest with
    | nil => decide
    | cons r rs =>
      intro quote
      have isQuote : r = '"'.toUInt8 := quote
      have space := stop r rfl
      rw [isQuote] at space
      exact absurd space (by decide)
  | cons v vs => exact plainV v List.mem_cons_self

/-- A word without quotes that does not start with `=`, followed by whitespace or the end:
`next_arg` splits it at its first `=` and returns the string from the next word on. -/
theorem nextArg_plain {w rest : List UInt8} (nonempty : w ≠ [])
    (plain : ∀ c ∈ w, isspace c = false ∧ c ≠ '"'.toUInt8 ∧ c ≠ 0) (first : w.head? ≠ some '='.toUInt8)
    (stop : ∀ c ∈ rest.head?, isspace c) :
    nextArg (w ++ rest) = ((splitParam w).1, (splitParam w).2, skipSpaces rest) := by
  obtain ⟨c, w, rfl⟩ := List.exists_cons_of_ne_nil nonempty
  obtain ⟨notSpace, notQuote, -⟩ := plain c List.mem_cons_self
  have notEq : c ≠ '='.toUInt8 := fun eq => first (by rw [eq]; rfl)
  have plain' : ∀ c ∈ w, isspace c = false ∧ c ≠ '"'.toUInt8 :=
    fun c mem => ⟨(plain c (List.mem_cons_of_mem _ mem)).1, (plain c (List.mem_cons_of_mem _ mem)).2.1⟩
  -- past the first byte, which is no `=`, the scan records the first `=` of the rest
  have scan : nextArgScan (c :: w ++ rest) 0 0 false =
      (w.length + 1, ((w.findIdx? (· == '='.toUInt8)).map (1 + ·)).getD 0) := by
    rw [List.cons_append, nextArgScan, if_neg (by simp [notSpace]), if_neg notQuote,
      nextArgScan_plain plain' stop (by decide)]
    simp [Nat.add_comm]
  have unquoted : ¬charAt (c :: w ++ rest) 0 = '"'.toUInt8 := notQuote
  have nonzero : ∀ x ∈ c :: w, x ≠ 0 := fun x mem => (plain x mem).2.2
  unfold nextArg
  simp only [unquoted, if_false, decide_false, scan]
  cases found : w.findIdx? (· == '='.toUInt8) with
  | none =>
    have split : splitParam (c :: w) = (c :: w, none) := by
      simp [splitParam, List.findIdx?_cons, notEq, found]
    obtain ⟨finish, next⟩ := nextArg_end (c :: w) rest stop
    simp only [List.length_cons] at finish next
    simp only [Option.map_none, Option.getD_none, if_true, finish, split, next,
      cstrAt_append nonzero, cstrAt_ended, List.append_nil]
  | some k =>
    -- the word is `P = c :: w.take k`, the `=`, and `V = w.drop (k + 1)`
    obtain ⟨lt, isEq, -⟩ := List.findIdx?_eq_some_iff_getElem.mp found
    obtain ⟨P, V, hP, hV⟩ : ∃ P V, P = c :: w.take k ∧ V = w.drop (k + 1) := ⟨_, _, rfl, rfl⟩
    have word : c :: w = P ++ '='.toUInt8 :: V := by
      rw [hP, hV, List.cons_append, ← show w[k] = '='.toUInt8 by simpa using isEq,
        ← List.drop_eq_getElem_cons lt, List.take_append_drop]
    have lenP : P.length = 1 + k := by simp [hP, Nat.min_eq_left lt.le, Nat.add_comm]
    have lenX : (P ++ 0 :: V).length = w.length + 1 := by
      have := congrArg List.length word
      simp only [List.length_append, List.length_cons] at this ⊢
      omega
    have nonzeroP : ∀ x ∈ P, x ≠ 0 := fun x mem => nonzero x (by rw [word]; simp [mem])
    have plainV : ∀ x ∈ V, x ≠ 0 ∧ x ≠ '"'.toUInt8 := fun x mem =>
      ⟨nonzero x (by rw [word]; simp [mem]), (plain x (by rw [word]; simp [mem])).2.1⟩
    -- the NUL that ends the name, and past it the value, which starts with no quote
    have named : putNul (c :: w ++ rest) (1 + k) = (P ++ 0 :: V) ++ rest := by
      rw [word, ← lenP]
      exact putNul_equals P V rest
    have valueStart : ¬charAt ((P ++ 0 :: V) ++ rest) (1 + k + 1) = '"'.toUInt8 := by
      rw [← lenP, charAt_value]
      exact charAt_value_ne_quote (fun x mem => (plainV x mem).2) stop
    obtain ⟨finish, next⟩ := nextArg_end (P ++ 0 :: V) rest stop
    rw [lenX] at finish next
    have split : splitParam (c :: w) = (P, some V) := by
      simp [splitParam, List.findIdx?_cons, notEq, found, hP, hV]
    simp only [Option.map_some, Option.getD_some, show 1 + k ≠ 0 by omega, if_false, named,
      valueStart, false_and, finish, split, next]
    rw [cstrAt_drop _ (1 + k + 1), ← lenP, drop_value, cstrAt_append (fun x mem => (plainV x mem).1),
      cstrAt_ended, List.append_assoc, cstrAt_append nonzeroP, List.cons_append, cstrAt_nul]
    simp

/-! ### The loop over the words -/

section Loop

variable (parseOne : List UInt8 → Option (List UInt8) → Except Errno Unit)

/-- From the first word on, each round of the loop makes the call of the next word, and the
loop stops at the first error or when only whitespace is left. By induction on the words, the
fuel dropping by one a word. -/
theorem parseArgsLoop_words {ws : List (List UInt8)} {s : List UInt8} (words : Words ws s)
    (clean : ∀ c ∈ s, c ≠ '"'.toUInt8 ∧ c ≠ 0) (firsts : ∀ w ∈ ws, w.head? ≠ some '='.toUInt8)
    (calls : List (List UInt8 × Option (List UInt8))) {fuel : Nat}
    (enough : (skipSpaces s).length < fuel) :
    parseArgsLoop parseOne fuel (skipSpaces s) calls =
      some ((callsOf parseOne ws).1, calls ++ (callsOf parseOne ws).2) := by
  induction words generalizing calls fuel with
  | @nil sp spaces =>
    obtain ⟨fuel, rfl⟩ : ∃ f, fuel = f + 1 := ⟨fuel - 1, by omega⟩
    have blank : skipSpaces sp = [] := by
      rw [← List.append_nil sp, skipSpaces_append spaces]
      rfl
    simp [blank, parseArgsLoop, charAt, callsOf]
  | @cons sp w rest ws spaces nonempty word stop _ ih =>
    have cleanW : ∀ c ∈ w, isspace c = false ∧ c ≠ '"'.toUInt8 ∧ c ≠ 0 :=
      fun c mem => ⟨word c mem, clean c (by simp [mem])⟩
    -- leading whitespace is skipped, and the word is where the loop stands
    have start : skipSpaces (sp ++ w ++ rest) = w ++ rest := by
      rw [List.append_assoc, skipSpaces_append spaces, skipSpaces_of_head]
      obtain ⟨c, w, rfl⟩ := List.exists_cons_of_ne_nil nonempty
      simpa using word c List.mem_cons_self
    rw [start] at enough ⊢
    obtain ⟨c, w', rfl⟩ := List.exists_cons_of_ne_nil nonempty
    obtain ⟨fuel, rfl⟩ : ∃ f, fuel = f + 1 := ⟨fuel - 1, by omega⟩
    have notEnd : charAt (c :: w' ++ rest) 0 ≠ 0 := (cleanW c List.mem_cons_self).2.2
    have next : (skipSpaces rest).length < fuel := by
      have := length_skipSpaces_le rest
      simp only [List.length_append, List.length_cons] at enough
      omega
    have later := ih (fun c mem => clean c (by simp [mem])) (fun w mem => firsts w (by simp [mem]))
    rw [parseArgsLoop, if_neg notEnd,
      nextArg_plain nonempty cleanW (firsts _ List.mem_cons_self) stop]
    dsimp only
    rw [callsOf]
    cases parseOne (splitParam (c :: w')).1 (splitParam (c :: w')).2 with
    | ok u =>
      cases u
      dsimp only
      rw [later _ next, List.append_assoc, List.singleton_append]
    | error e => rfl

end Loop

/-- On words without quotes and NULs, none starting with `=`, `parse_args` calls `parse_one` on
the name and the value of each word in turn, up to the first that fails. -/
theorem parseArgs_plain_words (params : List KernelParam) (minLevel maxLevel : Int16)
    (unknown : Option (List UInt8 → Option (List UInt8) → Except Errno Unit))
    {ws : List (List UInt8)} {s : List UInt8} (words : Words ws s)
    (clean : ∀ c ∈ s, c ≠ '"'.toUInt8 ∧ c ≠ 0) (firsts : ∀ w ∈ ws, w.head? ≠ some '='.toUInt8) :
    parseArgs params minLevel maxLevel unknown s =
      some (callsOf (parseOne params minLevel maxLevel unknown) ws) := by
  rw [parseArgs, parseArgsLoop_words _ words clean firsts [] (Nat.lt_succ_self _), List.nil_append]

/-- "ab=1 cd": a word with a value, then a word without one. -/
theorem parseArgs_plain_words_two :
    Words [[97, 98, 61, 49], [99, 100]] [97, 98, 61, 49, 32, 99, 100] ∧
      (∀ c ∈ ([97, 98, 61, 49, 32, 99, 100] : List UInt8), c ≠ '"'.toUInt8 ∧ c ≠ 0) ∧
      (∀ w ∈ ([[97, 98, 61, 49], [99, 100]] : List (List UInt8)), w.head? ≠ some '='.toUInt8) ∧
      parseArgs [] 0 0 none [97, 98, 61, 49, 32, 99, 100] =
        some (callsOf (parseOne [] 0 0 none) [[97, 98, 61, 49], [99, 100]]) :=
  have words : Words [[97, 98, 61, 49], [99, 100]] [97, 98, 61, 49, 32, 99, 100] :=
    @Words.cons [] [97, 98, 61, 49] [32, 99, 100] [[99, 100]] (by simp) (by simp) (by decide +kernel) (by decide +kernel)
      (@Words.cons [32] [99, 100] [] [] (by decide +kernel) (by simp) (by decide +kernel) (by simp) (.nil (by simp)))
  have clean : ∀ c ∈ ([97, 98, 61, 49, 32, 99, 100] : List UInt8), c ≠ '"'.toUInt8 ∧ c ≠ 0 := by
    decide +kernel
  have firsts : ∀ w ∈ ([[97, 98, 61, 49], [99, 100]] : List (List UInt8)),
      w.head? ≠ some '='.toUInt8 := by
    decide +kernel
  ⟨words, clean, firsts, parseArgs_plain_words [] 0 0 none words clean firsts⟩

end LinuxKernel.Params
