import LinuxKernel.Lib.TextSearch
import LinuxKernel.Foundation.PrefixFunction

/-!
# Knuth-Morris-Pratt text search (`lib/ts_kmp.c`)

`kmp_init` builds the prefix table (`kmpInit_tableSpec`) and `kmp_find` runs the automaton one
byte a step (`kmpStep_isLongest`) across blocks, returning the first occurrence or `UINT_MAX`
(`kmpFind_first_occurrence`). Positions are `Nat`; with the code's `unsigned int` positions the
search gives the same modulo `2^32` (`kmpFindLoop32_toNat`), and the same while the text ends
below `2^32` (`kmpFind32_spec`).
-/

namespace LinuxKernel

open PrefixFunction

/-- `struct ts_kmp`: the pattern as `kmp_init` stores it and `prefix_tbl`. -/
structure TsKmp where
  pattern : List UInt8
  prefixTbl : Nat → Nat

/-! ### The automaton's step -/

/-- The `while (k > 0 && pattern[k] != c) k = prefix_tbl[k-1]` of both loops, `same k` being
`pattern[k] == c`, for `fuel` rounds. -/
def kmpFallback (tbl : Nat → Nat) (same : Nat → Bool) : Nat → Nat → Nat
  | 0, k => k
  | fuel + 1, k => if 0 < k ∧ same k = false then kmpFallback tbl same fuel (tbl (k - 1)) else k

/-- The body of both loops on the byte `c` in state `k`, `byteAt j` being the pattern's byte
`j`: fall back, then `k++` when `c` extends the state. The table leads to lower states, so `k`
rounds of the fallback are enough. -/
def kmpStep (tbl : Nat → Nat) (byteAt : Nat → UInt8) (k : Nat) (c : UInt8) : Nat :=
  let k := kmpFallback tbl (fun j => byteAt j == c) k k
  if byteAt k == c then k + 1 else k

/-! ### `kmp_init` -/

/-- The loop `for (k = 0, q = 1; q < len; q++)` of `compute_prefix_tbl` from `q` on, for
`rounds` rounds: `prefix_tbl[q]` is the state after `pattern[q]`, both sides folded. -/
def computePrefixTblLoop (pattern : List UInt8) (icase : Bool) :
    Nat → Nat → Nat → (Nat → Nat) → Nat → Nat
  | 0, _, _, tbl => tbl
  | rounds + 1, q, k, tbl =>
    let byteAt := fun j => tsFold icase (pattern.getD j 0)
    let k := kmpStep tbl byteAt k (byteAt q)
    computePrefixTblLoop pattern icase rounds (q + 1) k (Function.update tbl q k)

/-- `compute_prefix_tbl(pattern, len, prefix_tbl, flags)` on a zeroed table. -/
def computePrefixTbl (pattern : List UInt8) (icase : Bool) : Nat → Nat :=
  computePrefixTblLoop pattern icase (pattern.length - 1) 1 0 fun _ => 0

/-- `kmp_init(pattern, len, gfp_mask, flags)`, `icase` being `flags & TS_IGNORECASE`: the table
from the pattern as given, and the pattern stored upper-cased under `TS_IGNORECASE`. -/
def kmpInit (pattern : List UInt8) (icase : Bool) : TsKmp :=
  ⟨pattern.map (tsFold icase), computePrefixTbl pattern icase⟩

/-! ### `kmp_find` -/

/-- The `for` over `i` of `kmp_find` on one block, from the state `q`, `pos` being the offset of
the block's first byte: `.inl` the `state->offset` after the byte that completes the pattern,
`.inr` the state at the block's end. -/
def kmpScanBlock (kmp : TsKmp) (icase : Bool) : Nat → Nat → List UInt8 → Nat ⊕ Nat
  | q, _, [] => .inr q
  | q, pos, c :: text =>
    let q := kmpStep kmp.prefixTbl (fun j => kmp.pattern.getD j 0) q (tsFold icase c)
    if q = kmp.pattern.length then .inl (pos + 1) else kmpScanBlock kmp icase q (pos + 1) text

/-- The `for (;;)` loop of `kmp_find` over the blocks `get_next_block` returns from `consumed`
on, the state `q` carried across them. -/
def kmpFindLoop (kmp : TsKmp) (icase : Bool) : Nat → Nat → List (List UInt8) → Nat
  | _, _, [] => uintMax
  | q, consumed, text :: blocks =>
    if text.length = 0 then uintMax
    else
      match kmpScanBlock kmp icase q consumed text with
      | .inl offset => offset - kmp.pattern.length
      | .inr q => kmpFindLoop kmp icase q (consumed + text.length) blocks

/-- `kmp_find(conf, state)` from `state->offset`, over the blocks from there on. -/
def kmpFind (kmp : TsKmp) (icase : Bool) (offset : Nat) (blocks : List (List UInt8)) : Nat :=
  kmpFindLoop kmp icase 0 offset blocks

/-- The `for (;;)` loop of `kmp_find` with the code's `unsigned int` positions: `consumed`,
`consumed + i + 1` and the difference with `pattern_len` wrap modulo `2^32`. The scan of a block
counts `i` from 0. -/
def kmpFindLoop32 (kmp : TsKmp) (icase : Bool) : Nat → UInt32 → List (List UInt8) → UInt32
  | _, _, [] => uintMax.toUInt32
  | q, consumed, text :: blocks =>
    if text.length.toUInt32 = 0 then uintMax.toUInt32
    else
      match kmpScanBlock kmp icase q 0 text with
      | .inl next => consumed + next.toUInt32 - kmp.pattern.length.toUInt32
      | .inr q => kmpFindLoop32 kmp icase q (consumed + text.length.toUInt32) blocks

/-- `kmp_find(conf, state)` with the code's `unsigned int` positions. -/
def kmpFind32 (kmp : TsKmp) (icase : Bool) (offset : UInt32) (blocks : List (List UInt8)) : UInt32 :=
  kmpFindLoop32 kmp icase 0 offset blocks

/-! ### The step keeps the automaton's invariant -/

section Step

variable {P : List UInt8} {tbl : Nat → Nat} {K : Nat}

theorem getElem?_eq_some_getD {k : Nat} (lt : k < P.length) : P[k]? = some (P.getD k 0) := by
  rw [List.getD_eq_getElem _ _ lt, List.getElem?_eq_getElem lt]

theorem getD_beq_iff {k : Nat} {c : UInt8} (lt : k < P.length) :
    (P.getD k 0 == c) = true ↔ P[k]? = some c := by
  simp [List.getD_eq_getElem?_getD, List.getElem?_eq_getElem lt]

theorem kmpFallback_spec (spec : TableSpec P tbl K) (c : UInt8) :
    ∀ {fuel k : Nat}, k ≤ fuel → k ≤ K → k < P.length →
      Fallback P k c (kmpFallback tbl (fun j => P.getD j 0 == c) fuel k)
  | 0, k, enough, _, _ => by
    obtain rfl : k = 0 := by omega
    exact Fallback.refl (.inl rfl)
  | fuel + 1, k, enough, le, lt => by
    unfold kmpFallback
    split
    · next falls =>
      obtain ⟨pos, miss⟩ := falls
      have lower := spec.lt pos le
      have miss' : P[k]? ≠ some c := fun hit => by
        rw [(getD_beq_iff lt).mpr hit] at miss
        cases miss
      exact Fallback.of_table spec pos le lt.le miss'
        (kmpFallback_spec spec c (by omega) (by omega) (by omega))
    · next stops =>
      apply Fallback.refl
      rcases Nat.eq_zero_or_pos k with zero | pos
      · exact .inl zero
      · exact .inr ((getD_beq_iff lt).mp (by simpa [pos] using stops))

theorem kmpStep_isLongest (spec : TableSpec P tbl K) {w : List UInt8} {q : Nat}
    (h : IsLongest P w q) (le : q ≤ K) (lt : q < P.length) (c : UInt8) :
    IsLongest P (w ++ [c]) (kmpStep tbl (fun j => P.getD j 0) q c) := by
  have fb := kmpFallback_spec spec c (le_refl q) le lt
  have next := h.concat lt fb
  unfold kmpStep
  dsimp only
  generalize kmpFallback tbl (fun j => P.getD j 0 == c) q q = k at fb next
  have iff := getD_beq_iff (P := P) (c := c) (show k < P.length by have := fb.le; omega)
  by_cases grows : P[k]? = some c
  · rw [if_pos grows] at next
    rwa [if_pos (iff.mpr grows)]
  · rw [if_neg grows] at next
    rwa [if_neg (mt iff.mp grows)]

end Step

/-! ### The table `kmp_init` builds -/

section Table

variable {pattern : List UInt8} {icase : Bool}

theorem tsFold_getD (pattern : List UInt8) (icase : Bool) (j : Nat) :
    tsFold icase (pattern.getD j 0) = (pattern.map (tsFold icase)).getD j 0 := by
  have zero : tsFold icase 0 = 0 := by cases icase <;> decide
  by_cases lt : j < pattern.length
  · simp [List.getD_eq_getElem?_getD, lt]
  · simp [List.getD_eq_getElem?_getD, lt, zero]

/-- Round `q` of `compute_prefix_tbl`, from `k = prefix_tbl[q - 1]`, sets `prefix_tbl[q]` to the
longest proper border of the first `q + 1` folded bytes; the loop ends with the whole table. -/
theorem computePrefixTblLoop_spec (pattern : List UInt8) (icase : Bool) :
    ∀ {rounds q k : Nat} {tbl : Nat → Nat}, 0 < q → q + rounds = pattern.length →
      TableSpec (pattern.map (tsFold icase)) tbl q → k = tbl (q - 1) →
      TableSpec (pattern.map (tsFold icase)) (computePrefixTblLoop pattern icase rounds q k tbl)
        pattern.length
  | 0, q, k, tbl, _, done, spec, _ => by
    rw [computePrefixTblLoop, ← done]
    exact spec
  | rounds + 1, q, k, tbl, pos, count, spec, state => by
    rw [computePrefixTblLoop]
    dsimp only
    simp only [tsFold_getD]
    have lt : q < (pattern.map (tsFold icase)).length := by simp only [List.length_map]; omega
    have lower : k < q := state ▸ spec.lt pos le_rfl
    have h := spec q pos le_rfl
    rw [← state] at h
    have next := kmpStep_isLongest spec h lower.le (by omega) ((pattern.map (tsFold icase)).getD q 0)
    rw [← drop_one_take_add_one pos (getElem?_eq_some_getD lt)] at next
    exact computePrefixTblLoop_spec pattern icase (by omega) (by omega) (spec.update next)
      (by rw [Nat.add_sub_cancel, Function.update_self])

theorem kmpInit_tableSpec (nonempty : pattern ≠ []) :
    TableSpec (kmpInit pattern icase).pattern (kmpInit pattern icase).prefixTbl
      (kmpInit pattern icase).pattern.length := by
  have len := List.length_pos_of_ne_nil nonempty
  simp only [kmpInit, List.length_map]
  exact computePrefixTblLoop_spec pattern icase Nat.one_pos (by omega) (TableSpec.one rfl) rfl

example : (List.range 4).map (computePrefixTbl [0x61, 0x62, 0x61, 0x62] false) = [0, 0, 1, 2] := by
  decide

end Table

/-! ### What `kmp_find` returns -/

/-- The invariant of `kmp_find` after the folded text `w`: the state is the longest prefix of
the pattern ending `w`, shorter than the pattern, which does not occur in `w`. -/
structure ScanState (P w : List UInt8) (q : Nat) : Prop where
  longest : IsLongest P w q
  short : q < P.length
  absent : Absent P w

theorem ScanState.nil {P : List UInt8} (nonempty : P ≠ []) : ScanState P [] 0 :=
  ⟨IsLongest.nil, List.length_pos_of_ne_nil nonempty, Absent.nil nonempty⟩

/-- What a scan that has read `read`, from `base` on, may return: the offset after the first
occurrence, whatever follows, or a state of the invariant. -/
def ScanOutcome (P read : List UInt8) (base : Nat) : Nat ⊕ Nat → Prop
  | .inl offset => ∃ p, offset = base + p + P.length ∧
      ∀ rest, IsLeast {p | OccursAt P (read ++ rest) p} p
  | .inr q => ScanState P read q

/-- What a search of `text` from `base` on returns: the first occurrence, or `UINT_MAX` when
there is none. -/
def FindOutcome (P text : List UInt8) (base r : Nat) : Prop :=
  (∃ p, IsLeast {p | OccursAt P text p} p ∧ r = base + p) ∨ (Absent P text ∧ r = uintMax)

section Find

variable {kmp : TsKmp} {icase : Bool}

theorem kmpScanBlock_spec (spec : TableSpec kmp.pattern kmp.prefixTbl kmp.pattern.length)
    (base : Nat) : ∀ (text : List UInt8) {w : List UInt8} {q : Nat}, ScanState kmp.pattern w q →
      ScanOutcome kmp.pattern (w ++ text.map (tsFold icase)) base
        (kmpScanBlock kmp icase q (base + w.length) text)
  | [], w, q, st => by
    simpa [kmpScanBlock, ScanOutcome] using st
  | c :: text, w, q, st => by
    have next := kmpStep_isLongest spec st.longest st.short.le st.short (tsFold icase c)
    rw [kmpScanBlock]
    generalize kmpStep kmp.prefixTbl (fun j => kmp.pattern.getD j 0) q (tsFold icase c) = q' at next
    split
    · next full =>
      -- the pattern ends the text read for the first time
      have ends : kmp.pattern <:+ w ++ [tsFold icase c] := by
        simpa [full] using next.suffix
      have fits := ends.length_le
      simp only [List.length_append, List.length_singleton] at fits
      refine ⟨w.length + 1 - kmp.pattern.length, by omega, fun rest => ?_⟩
      have least := isLeast_of_suffix st.absent ends (text.map (tsFold icase) ++ rest)
      simpa using least
    · next more =>
      have short : q' < kmp.pattern.length := lt_of_le_of_ne next.le more
      have st' : ScanState kmp.pattern (w ++ [tsFold icase c]) q' :=
        ⟨next, short, st.absent.concat next short⟩
      have out := kmpScanBlock_spec spec base text st'
      simp only [List.length_append, List.length_singleton, List.append_assoc,
        List.singleton_append, ← Nat.add_assoc] at out
      simpa using out

theorem kmpFindLoop_spec (spec : TableSpec kmp.pattern kmp.prefixTbl kmp.pattern.length)
    (base : Nat) : ∀ (blocks : List (List UInt8)) {w : List UInt8} {q : Nat},
      (∀ b ∈ blocks, b ≠ []) → ScanState kmp.pattern w q →
      FindOutcome kmp.pattern (w ++ blocks.flatten.map (tsFold icase)) base
        (kmpFindLoop kmp icase q (base + w.length) blocks)
  | [], w, q, _, st => .inr ⟨by simpa using st.absent, rfl⟩
  | text :: blocks, w, q, fragments, st => by
    have nonempty : text ≠ [] := fragments text List.mem_cons_self
    have out := @kmpScanBlock_spec kmp icase spec base text w q st
    rw [kmpFindLoop, if_neg (by simpa using nonempty)]
    split
    · next offset found =>
      rw [found] at out
      obtain ⟨p, at_p, least⟩ := out
      exact .inl ⟨p, by simpa using least (blocks.flatten.map (tsFold icase)), by omega⟩
    · next q' rest =>
      rw [rest] at out
      have more := kmpFindLoop_spec spec base blocks
        (fun b mem => fragments b (List.mem_cons_of_mem _ mem)) out
      simpa [Nat.add_assoc] using more

end Find

theorem tsOccursAt_iff {icase : Bool} {pattern text : List UInt8} {p : Nat} :
    TsOccursAt icase pattern text p ↔
      OccursAt (pattern.map (tsFold icase)) (text.map (tsFold icase)) p := by
  unfold TsOccursAt OccursAt
  simp only [List.length_map]
  refine and_congr_right fun fits => ?_
  rw [List.prefix_iff_eq_take, List.ext_getElem_iff]
  simp only [List.length_map, List.length_take, List.length_drop, List.getElem_map,
    List.getElem_take, List.getElem_drop]
  constructor
  · intro agree
    refine ⟨by omega, fun i lt _ => ?_⟩
    have same := agree i lt
    rwa [List.getD_eq_getElem _ _ (by omega), List.getD_eq_getElem _ _ lt, eq_comm] at same
  · rintro ⟨-, agree⟩ j lt
    rw [List.getD_eq_getElem _ _ (by omega), List.getD_eq_getElem _ _ lt]
    exact (agree j lt (by omega)).symm

theorem kmpFind_outcome {pattern : List UInt8} (icase : Bool) (offset : Nat) {blocks : List (List UInt8)}
    (nonempty : pattern ≠ []) (fragments : ∀ b ∈ blocks, b ≠ []) :
    FindOutcome (kmpInit pattern icase).pattern (blocks.flatten.map (tsFold icase)) offset
      (kmpFind (kmpInit pattern icase) icase offset blocks) := by
  have start : ScanState (kmpInit pattern icase).pattern [] 0 :=
    ScanState.nil (by simpa [kmpInit] using nonempty)
  have out := @kmpFindLoop_spec (kmpInit pattern icase) icase (kmpInit_tableSpec nonempty) offset
    blocks [] 0 fragments start
  simpa only [kmpFind, List.nil_append, List.length_nil, Nat.add_zero] using out

/-- `kmp_find` from `state->offset` returns `offset + p` for the first position `p` at which the
pattern occurs in the text, the fragments one after the other, and `UINT_MAX` when it occurs
nowhere, for a pattern of at least one byte and fragments of at least one. -/
theorem kmpFind_first_occurrence (pattern : List UInt8) (icase : Bool) (offset : Nat)
    (blocks : List (List UInt8)) (nonempty : pattern ≠ []) (fragments : ∀ b ∈ blocks, b ≠ []) :
    (∀ p, TsOccursAt icase pattern blocks.flatten p →
        (∀ p' < p, ¬TsOccursAt icase pattern blocks.flatten p') →
        kmpFind (kmpInit pattern icase) icase offset blocks = offset + p) ∧
      ((∀ p, ¬TsOccursAt icase pattern blocks.flatten p) →
        kmpFind (kmpInit pattern icase) icase offset blocks = uintMax) := by
  rcases kmpFind_outcome icase offset nonempty fragments with ⟨p, least, found⟩ | ⟨absent, none⟩
  · refine ⟨fun p' occ first => ?_, fun never => absurd (tsOccursAt_iff.mpr least.1) (never p)⟩
    -- the least occurrence in the folded text is the one `kmp_find` found
    have first' : IsLeast {p | OccursAt (kmpInit pattern icase).pattern
        (blocks.flatten.map (tsFold icase)) p} p' :=
      ⟨tsOccursAt_iff.mp occ, fun p'' occ'' => not_lt.mp fun lt => first p'' lt (tsOccursAt_iff.mpr occ'')⟩
    rw [first'.unique least]
    exact found
  · exact ⟨fun p occ _ => absurd (tsOccursAt_iff.mp occ) (absent p), fun _ => none⟩

/-- The pattern `ab` over the fragments `a` and `b`: the occurrence that spans them is found. -/
theorem kmpFind_first_occurrence_across :
    kmpFind (kmpInit [0x61, 0x62] false) false 0 [[0x61], [0x62]] = 0 :=
  (kmpFind_first_occurrence [0x61, 0x62] false 0 [[0x61], [0x62]] (by decide) (by decide)).1 0
    (by decide) (by decide)

/-! ### At the width of `unsigned int` -/

theorem kmpScanBlock_add (kmp : TsKmp) (icase : Bool) (d : Nat) : ∀ (text : List UInt8) (q pos : Nat),
    kmpScanBlock kmp icase q (pos + d) text = (kmpScanBlock kmp icase q pos text).map (· + d) id
  | [], _, _ => rfl
  | c :: text, q, pos => by
    simp only [kmpScanBlock]
    split
    · simp only [Sum.map_inl, Sum.inl.injEq]
      omega
    · rw [show pos + d + 1 = pos + 1 + d by omega]
      exact kmpScanBlock_add kmp icase d text _ (pos + 1)

theorem kmpScanBlock_inl_le {kmp : TsKmp} {icase : Bool} {next : Nat} :
    ∀ {text : List UInt8} {q pos : Nat}, kmpScanBlock kmp icase q pos text = .inl next → next ≤ pos + text.length
  | [], _, _, scan => by cases scan
  | c :: text, q, pos, scan => by
    simp only [kmpScanBlock] at scan
    split at scan
    · cases scan
      simp
    · have := kmpScanBlock_inl_le scan
      simp only [List.length_cons]
      omega

section Width

variable {kmp : TsKmp} {icase : Bool}

/-- With blocks shorter than `2^32`, the loop at the code's width gives the loop over `Nat`
modulo `2^32`: the `Nat` offset of a match is at least the pattern's length, so the wrapped
difference is the difference wrapped. -/
theorem kmpFindLoop32_toNat (spec : TableSpec kmp.pattern kmp.prefixTbl kmp.pattern.length) (base : Nat) :
    ∀ (blocks : List (List UInt8)) {w : List UInt8} {q : Nat} (consumed : UInt32),
      consumed.toNat = (base + w.length) % 2 ^ 32 → (∀ b ∈ blocks, b ≠ [] ∧ b.length < 2 ^ 32) →
      ScanState kmp.pattern w q →
      (kmpFindLoop32 kmp icase q consumed blocks).toNat = kmpFindLoop kmp icase q (base + w.length) blocks % 2 ^ 32
  | [], _, _, _, _, _, _ => by
    simp [kmpFindLoop32, kmpFindLoop, uintMax]
  | text :: blocks, w, q, consumed, word, fragments, st => by
    obtain ⟨nonempty, short⟩ := fragments text List.mem_cons_self
    have len : text.length.toUInt32.toNat = text.length := UInt32.toNat_ofNat_of_lt' short
    have pos : 0 < text.length := List.length_pos_of_ne_nil nonempty
    have out := @kmpScanBlock_spec kmp icase spec base text w q st
    -- the code's scan counts `i` from 0; the model's from `consumed`
    have shift : kmpScanBlock kmp icase q (base + w.length) text =
        (kmpScanBlock kmp icase q 0 text).map (· + (base + w.length)) id := by
      simpa using kmpScanBlock_add kmp icase (base + w.length) text q 0
    rw [shift] at out
    rw [kmpFindLoop32, kmpFindLoop, if_neg (fun zero => by rw [← len, zero] at pos; cases pos),
      if_neg (by omega), shift]
    cases scan : kmpScanBlock kmp icase q 0 text with
    | inl next =>
      rw [scan] at out
      obtain ⟨p, at_p, -⟩ := out
      simp only [Sum.map_inl] at at_p ⊢
      have nextLe : next < 2 ^ 32 := by
        have := kmpScanBlock_inl_le scan
        omega
      -- `consumed + i + 1 - pattern_len` in `unsigned int`
      rw [UInt32.toNat_sub, UInt32.toNat_add, word, UInt32.toNat_ofNat_of_lt' nextLe, UInt32.toNat_ofNat']
      omega
    | inr q' =>
      rw [scan] at out
      simp only [Sum.map_inr, id] at out ⊢
      have more := kmpFindLoop32_toNat spec base blocks (consumed + text.length.toUInt32)
        (by rw [UInt32.toNat_add, word, len, List.length_append, List.length_map]; omega)
        (fun b mem => fragments b (List.mem_cons_of_mem _ mem)) out
      simpa [Nat.add_assoc] using more

/-- `kmp_find` at the code's width, for a pattern of at least one byte, blocks of at least one
byte and below `2^32`, and a text that ends below `2^32` from `state->offset`: the offset of the
first occurrence, or `UINT_MAX` when there is none. -/
theorem kmpFind32_spec (pattern : List UInt8) (icase : Bool) (offset : UInt32) (blocks : List (List UInt8))
    (nonempty : pattern ≠ []) (fragments : ∀ b ∈ blocks, b ≠ [] ∧ b.length < 2 ^ 32)
    (fits : offset.toNat + blocks.flatten.length < 2 ^ 32) :
    FindOutcome (kmpInit pattern icase).pattern (blocks.flatten.map (tsFold icase)) offset.toNat
      (kmpFind32 (kmpInit pattern icase) icase offset blocks).toNat := by
  have start : ScanState (kmpInit pattern icase).pattern [] 0 :=
    ScanState.nil (by simpa [kmpInit] using nonempty)
  have loop := @kmpFindLoop32_toNat (kmpInit pattern icase) icase (kmpInit_tableSpec nonempty) offset.toNat
    blocks [] 0 offset (by simp [Nat.mod_eq_of_lt offset.toNat_lt]) fragments start
  simp only [List.length_nil, Nat.add_zero] at loop
  -- the code's result is the model's modulo `2^32`, and the model's is inside the text or `UINT_MAX`
  rw [kmpFind32, loop]
  rcases kmpFind_outcome icase offset.toNat nonempty (fun b mem => (fragments b mem).1) with
    ⟨p, least, found⟩ | ⟨absent, none⟩
  · have inside := least.1.1
    simp only [List.length_map] at inside
    rw [kmpFind] at found
    rw [found, Nat.mod_eq_of_lt (by omega)]
    exact .inl ⟨p, least, rfl⟩
  · rw [kmpFind] at none
    rw [none]
    exact .inr ⟨absent, by decide⟩

/-- "bc" from offset 5 over the blocks "ab" and "c". -/
theorem kmpFind32_spec_across :
    ([0x62, 0x63] : List UInt8) ≠ [] ∧
      (∀ b ∈ ([[0x61, 0x62], [0x63]] : List (List UInt8)), b ≠ [] ∧ b.length < 2 ^ 32) ∧
      (5 : UInt32).toNat + ([[0x61, 0x62], [0x63]] : List (List UInt8)).flatten.length < 2 ^ 32 ∧
      FindOutcome (kmpInit [0x62, 0x63] false).pattern
        (([[0x61, 0x62], [0x63]] : List (List UInt8)).flatten.map (tsFold false)) (5 : UInt32).toNat
        (kmpFind32 (kmpInit [0x62, 0x63] false) false 5 [[0x61, 0x62], [0x63]]).toNat :=
  ⟨by decide, by decide, by decide, kmpFind32_spec _ _ _ _ (by decide) (by decide) (by decide)⟩

end Width

end LinuxKernel
