import LinuxKernel.Lib.TextSearch

/-!
# Boyer-Moore text search (`lib/ts_bm.c`)

`bm_init` fills `bad_shift` and `good_shift`; `bm_find` reports only occurrences, each inside
one block (`bmFind_found`), but under `TS_IGNORECASE` a 0xff in the text reads the default shift and
the search jumps over an occurrence (`bmFind_skips_folded_match`).
-/

namespace LinuxKernel

/-- `struct ts_bm`: the pattern as `bm_init` stores it, `bad_shift` and `good_shift`. -/
structure TsBm where
  pattern : List UInt8
  badShift : UInt8 → Nat
  goodShift : Nat → Nat

/-! ### `bm_init` -/

/-- `pattern[k]` at an `int` index; `subpattern` reads only from index 0 on. -/
def bmAt (pattern : List UInt8) (k : Int) : UInt8 := pattern.getD k.toNat 0

/-- The first loop of `compute_prefix_tbl`: `bad_shift[pattern[i]] = patlen - 1 - i` for each
`i` below `patlen - 1`, and under `TS_IGNORECASE` at `tolower(pattern[i])` too; `patlen`
elsewhere. -/
def bmBadShift (pattern : List UInt8) (icase : Bool) : UInt8 → Nat :=
  (List.range (pattern.length - 1)).foldl
    (fun tbl i =>
      let c := pattern.getD i 0
      let tbl := Function.update tbl c (pattern.length - 1 - i)
      if icase then Function.update tbl (tolowerCtype c) (pattern.length - 1 - i) else tbl)
    fun _ => pattern.length

/-- The `while (pattern[x--] == pattern[y--])` loop of `subpattern(pattern, i, j, g)`, with `g`
the count it decrements. -/
def bmSubpatternLoop (pattern : List UInt8) (i j : Int) : Nat → Int → Int → Bool
  | 0, _, _ => false
  | g + 1, x, y =>
    if bmAt pattern x = bmAt pattern y then
      if y - 1 < 0 then true
      else if g = 0 then bmAt pattern (i - 1) != bmAt pattern (j - 1)
      else bmSubpatternLoop pattern i j g (x - 1) (y - 1)
    else false

def bmSubpattern (pattern : List UInt8) (i j : Int) (g : Nat) : Bool :=
  bmSubpatternLoop pattern i j g (i + g - 1) (j + g - 1)

/-- The inner loop of the good shifts, `for (j = i-1; j >= 1-g; j--)`: the first `j` with
`subpattern(pattern, i, j, g)`, over `rounds` values of `j`. -/
def bmGoodShiftFind (pattern : List UInt8) (i : Int) (g : Nat) : Nat → Int → Option Int
  | 0, _ => none
  | rounds + 1, j => if bmSubpattern pattern i j g then some j else bmGoodShiftFind pattern i g rounds (j - 1)

/-- The good shifts of `compute_prefix_tbl`: `good_shift[0] = 1`, `patlen` elsewhere, and for
`i` from `patlen - 1` down to 1 with `g = patlen - i`, `patlen - j - g` at the first `j` found. -/
def bmGoodShift (pattern : List UInt8) : Nat → Nat :=
  (List.range (pattern.length - 1)).foldl
    (fun tbl t =>
      let g : Nat := t + 1
      let i : Int := pattern.length - g
      match bmGoodShiftFind pattern i g (pattern.length - 1) (i - 1) with
      | some j => Function.update tbl g (pattern.length - j - g).toNat
      | none => tbl)
    fun k => if k = 0 then 1 else pattern.length

/-- `bm_init(pattern, len, gfp_mask, flags)`, `icase` being `flags & TS_IGNORECASE`. -/
def bmInit (pattern : List UInt8) (icase : Bool) : TsBm :=
  let stored := pattern.map (tsFold icase)
  ⟨stored, bmBadShift stored icase, bmGoodShift stored⟩

/-! ### `bm_find` -/

/-- The `for` over `i` of `bm_find`: how many bytes the pattern matches from its end, with its
last byte at `shift`; `patlen` for all of them. -/
def bmMatched (bm : TsBm) (icase : Bool) (text : List UInt8) (shift : Nat) : Nat :=
  ((List.range bm.pattern.length).find? fun i =>
    tsFold icase (text.getD (shift - i) 0) != bm.pattern.getD (bm.pattern.length - 1 - i) 0).getD
    bm.pattern.length

/-- The `while (shift < text_len)` loop of `bm_find` over one block, with `fuel` rounds: `.inl`
the offset in the block of the match, `.inr` the `shift` the loop leaves with. -/
def bmScanBlock (bm : TsBm) (icase : Bool) (text : List UInt8) : Nat → Nat → Nat ⊕ Nat
  | 0, shift => .inr shift
  | fuel + 1, shift =>
    if shift < text.length then
      let i := bmMatched bm icase text shift
      if i = bm.pattern.length then .inl (shift - (bm.pattern.length - 1))
      else
        let bs := bm.badShift (text.getD (shift - i) 0)
        bmScanBlock bm icase text fuel (max (shift - i + bs) (shift + bm.goodShift i))
    else .inr shift

/-- The `for (;;)` loop of `bm_find` over the blocks `get_next_block` returns from `consumed`
on. Each round of a block moves `shift` on by at least `good_shift[i]`, which is at least 1, so
`text_len` rounds finish it. -/
def bmFindLoop (bm : TsBm) (icase : Bool) : Nat → Nat → List (List UInt8) → Nat
  | _, _, [] => uintMax
  | shift, consumed, text :: blocks =>
    if text.length = 0 then uintMax
    else
      match bmScanBlock bm icase text text.length shift with
      | .inl pos => consumed + pos
      | .inr shift => bmFindLoop bm icase shift (consumed + text.length) blocks

/-- `bm_find(conf, state)` from `state->offset`, over the blocks from there on. -/
def bmFind (bm : TsBm) (icase : Bool) (offset : Nat) (blocks : List (List UInt8)) : Nat :=
  bmFindLoop bm icase (bm.pattern.length - 1) offset blocks

/-! ### What `bm_find` reports -/

section Found

variable {pattern : List UInt8} {icase : Bool} {text : List UInt8}

@[simp] theorem bmInit_pattern_length : (bmInit pattern icase).pattern.length = pattern.length := by
  simp [bmInit]

theorem bmInit_pattern_getD (j : Nat) (lt : j < pattern.length) :
    (bmInit pattern icase).pattern.getD j 0 = tsFold icase (pattern.getD j 0) := by
  simp [bmInit, List.getD_eq_getElem?_getD, lt]

theorem find?_range_getD_spec {n i : Nat} {p : Nat → Bool} (lt : i < ((List.range n).find? p).getD n) :
    i < n ∧ p i = false := by
  cases find : (List.range n).find? p with
  | none =>
    rw [find, Option.getD_none] at lt
    exact ⟨lt, by simpa using List.find?_eq_none.mp find i (List.mem_range.mpr lt)⟩
  | some m =>
    rw [find, Option.getD_some] at lt
    obtain ⟨-, idx, bound, at_idx, before⟩ := List.find?_eq_some_iff_getElem.mp find
    rw [List.getElem_range] at at_idx
    subst at_idx
    rw [List.length_range] at bound
    have := before i lt
    simp only [List.getElem_range] at this
    exact ⟨lt.trans bound, by simpa using this⟩

theorem bmMatched_agree {shift i : Nat} (lt : i < bmMatched (bmInit pattern icase) icase text shift) :
    tsFold icase (text.getD (shift - i) 0) = tsFold icase (pattern.getD (pattern.length - 1 - i) 0) := by
  obtain ⟨bound, same⟩ := find?_range_getD_spec lt
  rw [bmInit_pattern_length] at bound
  simp only [bne_eq_false_iff_eq, bmInit_pattern_length] at same
  rw [same, bmInit_pattern_getD _ (by omega)]

theorem bmScanBlock_found (nonempty : pattern ≠ []) :
    ∀ {fuel shift pos : Nat}, pattern.length - 1 ≤ shift →
      bmScanBlock (bmInit pattern icase) icase text fuel shift = .inl pos → TsOccursAt icase pattern text pos
  | 0, _, _, _, found => by cases found
  | fuel + 1, shift, pos, past, found => by
    have len : 0 < pattern.length := List.length_pos_of_ne_nil nonempty
    simp only [bmScanBlock, bmInit_pattern_length] at found
    split_ifs at found with within all
    · -- all `patlen` bytes from `shift` back agree
      cases found
      refine ⟨by omega, fun j lt => ?_⟩
      have agree := @bmMatched_agree pattern icase text shift (pattern.length - 1 - j)
        (by rw [all]; omega)
      rw [show shift - (pattern.length - 1 - j) = shift - (pattern.length - 1) + j by omega,
        show pattern.length - 1 - (pattern.length - 1 - j) = j by omega] at agree
      exact agree
    · exact bmScanBlock_found nonempty (le_trans past (le_max_of_le_right (Nat.le_add_right _ _))) found

theorem bmScanBlock_inr_ge {bm : TsBm} :
    ∀ {fuel shift shift' : Nat}, bmScanBlock bm icase text fuel shift = .inr shift' → shift ≤ shift'
  | 0, _, _, left => by
    cases left
    exact le_rfl
  | fuel + 1, shift, shift', left => by
    simp only [bmScanBlock] at left
    -- a match answers `.inl`, so the loop went on or stopped at the end of the block
    split_ifs at left
    · exact le_trans (le_max_of_le_right (Nat.le_add_right _ _)) (bmScanBlock_inr_ge left)
    · cases left
      exact le_rfl

/-- From a `shift` of at least `patlen - 1`, over any blocks, the loop answers `UINT_MAX` or an
occurrence inside one block, counted from `consumed` past the blocks before it. By induction on
the blocks: a block the loop leaves hands on a `shift` no smaller. -/
theorem bmFindLoop_found (nonempty : pattern ≠ []) :
    ∀ {blocks : List (List UInt8)} {shift consumed : Nat}, pattern.length - 1 ≤ shift →
      bmFindLoop (bmInit pattern icase) icase shift consumed blocks = uintMax ∨
        ∃ before b after p, blocks = before ++ b :: after ∧ TsOccursAt icase pattern b p ∧
          bmFindLoop (bmInit pattern icase) icase shift consumed blocks =
            consumed + (before.map List.length).sum + p
  | [], _, _, _ => .inl rfl
  | b :: blocks, shift, consumed, past => by
    unfold bmFindLoop
    split_ifs
    · exact .inl rfl
    · split
      · next pos found =>
        exact .inr ⟨[], b, blocks, pos, rfl, bmScanBlock_found nonempty past found, by simp⟩
      · next shift' left =>
        rcases bmFindLoop_found nonempty (past.trans (bmScanBlock_inr_ge left)) with
          none | ⟨before, b', after, p, split, occurs, eq⟩
        · exact .inl none
        · refine .inr ⟨b :: before, b', after, p, by rw [split, List.cons_append], occurs, ?_⟩
          rw [eq, List.map_cons, List.sum_cons]
          omega

theorem bmFind_found (nonempty : pattern ≠ []) (offset : Nat) (blocks : List (List UInt8)) :
    bmFind (bmInit pattern icase) icase offset blocks = uintMax ∨
      ∃ before b after p, blocks = before ++ b :: after ∧ TsOccursAt icase pattern b p ∧
        bmFind (bmInit pattern icase) icase offset blocks = offset + (before.map List.length).sum + p :=
  bmFindLoop_found nonempty (by simp)

/-- "b" over the blocks "aa" and "ab". -/
theorem bmFind_found_second_block :
    ([0x62] : List UInt8) ≠ [] ∧
      (bmFind (bmInit [0x62] false) false 0 [[0x61, 0x61], [0x61, 0x62]] = uintMax ∨
        ∃ before b after p, ([[0x61, 0x61], [0x61, 0x62]] : List (List UInt8)) = before ++ b :: after ∧
          TsOccursAt false [0x62] b p ∧
          bmFind (bmInit [0x62] false) false 0 [[0x61, 0x61], [0x61, 0x62]] =
            0 + (before.map List.length).sum + p) :=
  ⟨by decide, bmFind_found (by decide) 0 _⟩

end Found

/-- A 0xff in the text under `TS_IGNORECASE`: the pattern `ÿb` (0xff 0x62) occurs at 1 in
`aÿb` (0x61 0xff 0x62), where `toupper` gives 0xdf 0x42 on both sides. `bm_find` first tries
the pattern with its end at 1, mismatches at once on the 0xff, reads `bad_shift[0xff] = 2` and
moves to 3, past the end, and returns `UINT_MAX`. -/
theorem bmFind_skips_folded_match :
    TsOccursAt true [0xff, 0x62] [0x61, 0xff, 0x62] 1 ∧
      bmFind (bmInit [0xff, 0x62] true) true 0 (linearBlocks [0x61, 0xff, 0x62] 0) = uintMax := by
  decide

end LinuxKernel
