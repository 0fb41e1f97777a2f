import LinuxKernel.Lib.BitmapArea
import LinuxKernel.Foundation.Rank

/-!
# Remapping bitmaps (`lib/bitmap.c`)

`bitmap_pos_to_ord` and `bitmap_ord_to_pos` convert between a set bit and its ordinal;
`bitmap_remap` and `bitmap_bitremap` send the `n`-th set bit of `old` to the `(n mod w)`-th of
`new`; `bitmap_onto` relays `orig` through `relmap`. `dst` is apart from the other bitmaps, and
a `BUG_ON` gives `none`.
-/

namespace LinuxKernel.BitmapRemap

open Bitmap (firstIn forEachIn)

/-! ### Bit operations of `include/linux/bitmap.h` -/

def setBit (nr : Nat) (addr : Nat → BitVec 64) : Nat → BitVec 64 := fun k =>
  if k = nr / bitsPerLong then Bitmap.setBit (addr k) (nr % bitsPerLong) else addr k

def bitmapZero (dst : Nat → BitVec 64) (nbits : Nat) : Nat → BitVec 64 :=
  memsetLongs dst 0 (bitsToLongs nbits)

/-- `bitmap_weight(src, nbits)`: the number of set bits below `nbits`. -/
def bitmapWeight (src : Nat → BitVec 64) (nbits : Nat) : Nat :=
  Nat.count (fun i => wordsBit src i) nbits

/-! ### The model -/

/-- The `while (i < pos)` loop of `bitmap_pos_to_ord` for `fuel` rounds: the `i` and `ord` it
stops at. -/
def posToOrdLoop (buf : Nat → BitVec 64) (pos bits : Nat) : Nat → Nat → Nat → Option (Nat × Nat)
  | 0, _, _ => none
  | fuel + 1, i, ord =>
    if i < pos then posToOrdLoop buf pos bits fuel (findNextBit buf bits (i + 1)) (ord + 1)
    else some (i, ord)

def bitmapPosToOrd (buf : Nat → BitVec 64) (pos : Int) (bits : Nat) : Option Int :=
  if pos < 0 ∨ pos ≥ bits ∨ wordsBit buf pos.toNat = false then some (-1)
  else
    (posToOrdLoop buf pos.toNat bits (bits + 1) (findNextBit buf bits 0) 0).bind fun (i, ord) =>
      -- BUG_ON(i != pos)
      if i ≠ pos.toNat then none else some ord

/-- The `for` loop of `bitmap_ord_to_pos` for `fuel` rounds: the `i` and `ord` it stops at. -/
def ordToPosLoop (buf : Nat → BitVec 64) (bits : Nat) : Nat → Nat → Nat → Option (Nat × Nat)
  | 0, _, _ => none
  | fuel + 1, i, ord =>
    if i < bits ∧ 0 < ord then ordToPosLoop buf bits fuel (findNextBit buf bits (i + 1)) (ord - 1)
    else some (i, ord)

def bitmapOrdToPos (buf : Nat → BitVec 64) (ord : Int) (bits : Nat) : Option Nat :=
  if 0 ≤ ord ∧ ord < bits then
    (ordToPosLoop buf bits (bits + 1) (findNextBit buf bits 0) ord.toNat).map fun (i, ord) =>
      if i < bits ∧ ord = 0 then i else 0
  else some 0

/-- `bitmap_remap(dst, src, old, new, bits)`: the words it leaves in `dst`. -/
def bitmapRemap (dst src old new : Nat → BitVec 64) (bits : Nat) : Option (Nat → BitVec 64) :=
  let w := bitmapWeight new bits
  -- for_each_set_bit(oldbit, src, bits)
  forEachIn (wordsBit src) bits
    (fun oldbit dst => do
      let n ← bitmapPosToOrd old oldbit bits
      if n < 0 ∨ w = 0 then pure (setBit oldbit dst)  -- identity map
      else do
        let pos ← bitmapOrdToPos new (n.tmod w) bits
        pure (setBit pos dst))
    (bits + 1) (findNextBit src bits 0) (bitmapZero dst bits)

def bitmapBitremap (oldbit : Int) (old new : Nat → BitVec 64) (bits : Nat) : Option Int := do
  let w := bitmapWeight new bits
  let n ← bitmapPosToOrd old oldbit bits
  if n < 0 ∨ w = 0 then pure oldbit
  else do
    let pos ← bitmapOrdToPos new (n.tmod w) bits
    pure pos

/-- The body of the loop of `bitmap_onto` at the set bit `n` of `relmap`, with `m` and `dst`. -/
def ontoStep (orig : Nat → BitVec 64) (n : Nat) :
    Nat × (Nat → BitVec 64) → Option (Nat × (Nat → BitVec 64))
  | (m, dst) => some (m + 1, if wordsBit orig m then setBit n dst else dst)

/-- `bitmap_onto(dst, orig, relmap, bits)`: the words it leaves in `dst`. -/
def bitmapOnto (dst orig relmap : Nat → BitVec 64) (bits : Nat) : Option (Nat → BitVec 64) :=
  -- for_each_set_bit(n, relmap, bits), with `m` the ordinal of `n`
  (forEachIn (wordsBit relmap) bits (ontoStep orig) (bits + 1) (findNextBit relmap bits 0)
    (0, bitmapZero dst bits)).map Prod.snd

/-! ### The map of `old` and `new` -/

/-- Where the map of `old` and `new` sends a position: the `n`-th set bit of `old` below `bits`
to the `(n mod w)`-th set bit of `new`, `w` being the number of set bits of `new` below `bits`,
and every other position to itself. -/
noncomputable def remapPos (old new : Nat → Bool) (bits i : Nat) : Nat :=
  if i < bits ∧ old i = true ∧ 0 < Nat.count (fun j => new j) bits then
    Nat.nth (fun j => new j) (Nat.count (fun j => old j) i % Nat.count (fun j => new j) bits)
  else i

/-! ### Bits and weights -/

theorem wordsBit_setBit (nr : Nat) (addr : Nat → BitVec 64) (j : Nat) :
    wordsBit (setBit nr addr) j = (wordsBit addr j || decide (j = nr)) := by
  unfold wordsBit setBit
  by_cases word : j / bitsPerLong = nr / bitsPerLong
  · have lt : nr % bitsPerLong < 64 := Nat.mod_lt _ (by decide)
    have same : nr % bitsPerLong = j % bitsPerLong ↔ j = nr := by
      unfold bitsPerLong at word ⊢
      omega
    rw [if_pos word, Bitmap.getLsbD_setBit]
    simp [lt, same]
  · have ne : j ≠ nr := fun eq => word (by rw [eq])
    rw [if_neg word]
    simp [ne]

theorem wordsBit_bitmapZero (dst : Nat → BitVec 64) {nbits j : Nat} (lt : j < nbits) :
    wordsBit (bitmapZero dst nbits) j = false := by
  have word : j / bitsPerLong < bitsToLongs nbits := by
    unfold bitsToLongs bitsPerLong
    omega
  simp [wordsBit, bitmapZero, memsetLongs_apply, word]

section Weight

variable {buf : Nat → BitVec 64} {bits i : Nat}

theorem weight_findNextBit {lo : Nat} (le : lo ≤ bits) :
    bitmapWeight buf (findNextBit buf bits lo) = bitmapWeight buf lo :=
  Bitmap.count_firstIn le

theorem weight_first : bitmapWeight buf (findNextBit buf bits 0) = 0 := by
  rw [weight_findNextBit (Nat.zero_le _)]
  exact Nat.count_zero _

theorem weight_succ_of_set (set : wordsBit buf i = true) :
    bitmapWeight buf (i + 1) = bitmapWeight buf i + 1 :=
  Nat.count_succ_eq_succ_count_iff.mpr set

theorem weight_succ_of_clear (clear : wordsBit buf i = false) :
    bitmapWeight buf (i + 1) = bitmapWeight buf i :=
  Nat.count_succ_eq_count_iff.mpr (by simp [clear])

theorem weight_lt_of_set (set : wordsBit buf i = true) {j : Nat} (lt : i < j) :
    bitmapWeight buf i < bitmapWeight buf j :=
  Nat.count_strict_mono set lt

theorem weight_le (n : Nat) : bitmapWeight buf n ≤ n := Nat.count_le _

theorem nth_weight (set : wordsBit buf i = true) :
    Nat.nth (fun j => wordsBit buf j) (bitmapWeight buf i) = i :=
  Nat.nth_count set

end Weight

/-! ### Positions and ordinals -/

section Ordinals

variable (buf : Nat → BitVec 64)

/-- The walk of `bitmap_pos_to_ord` from a set bit `i` at or below the set bit `pos` counts the
set bits it passes: it stops at `pos` with the weight below `pos`. By induction on the fuel, the
walk moving to the next set bit each round. -/
theorem posToOrdLoop_eq {pos bits : Nat} (set : wordsBit buf pos = true) (lt : pos < bits) :
    ∀ fuel i, pos - i < fuel → i ≤ pos → wordsBit buf i = true →
      posToOrdLoop buf pos bits fuel i (bitmapWeight buf i) = some (pos, bitmapWeight buf pos) := by
  intro fuel
  induction fuel with
  | zero => intro i enough; omega
  | succ fuel ih =>
    intro i enough le atSet
    rw [posToOrdLoop]
    by_cases below : i < pos
    · -- the next set bit is at most `pos`, and one more set bit lies below it
      have next_le : findNextBit buf bits (i + 1) ≤ pos := Bitmap.firstIn_le_of_true below set
      have le_next : i + 1 ≤ findNextBit buf bits (i + 1) := le_findNextBit (by omega)
      have weight : bitmapWeight buf (findNextBit buf bits (i + 1)) = bitmapWeight buf i + 1 := by
        rw [weight_findNextBit (by omega), weight_succ_of_set atSet]
      rw [if_pos below, ← weight]
      exact ih _ (by omega) next_le (wordsBit_findNextBit (by omega))
    · rw [if_neg below, show i = pos by omega]

theorem bitmapPosToOrd_eq (pos : Int) (bits : Nat) :
    bitmapPosToOrd buf pos bits =
      some (if 0 ≤ pos ∧ pos < bits ∧ wordsBit buf pos.toNat = true
        then (bitmapWeight buf pos.toNat : Int) else -1) := by
  unfold bitmapPosToOrd
  by_cases valid : 0 ≤ pos ∧ pos < bits ∧ wordsBit buf pos.toNat = true
  · obtain ⟨nonneg, lt, set⟩ := valid
    have first_le : findNextBit buf bits 0 ≤ pos.toNat := Bitmap.firstIn_le_of_true (Nat.zero_le _) set
    have walk := posToOrdLoop_eq buf set (show pos.toNat < bits by omega) (bits + 1) _ (by omega) first_le
      (wordsBit_findNextBit (by omega))
    rw [weight_first] at walk
    have guard : ¬(pos < 0 ∨ pos ≥ bits ∨ wordsBit buf pos.toNat = false) := by
      simp only [set, Bool.true_eq_false, or_false]
      omega
    rw [if_neg guard, walk, if_pos ⟨nonneg, lt, set⟩]
    simp
  · rw [if_neg valid, if_pos]
    cases set : wordsBit buf pos.toNat
    · exact .inr (.inr rfl)
    · simp only [set, and_true] at valid
      have outside : pos < 0 ∨ pos ≥ bits := by omega
      exact outside.elim .inl fun ge => .inr (.inl ge)

/-- The walk of `bitmap_ord_to_pos` from `i`, a set bit or `bits`, with `ord` bits left to pass:
it stops at the set bit of ordinal `weight i + ord` with nothing left, or at `bits` with what it
could not pass. By induction on the fuel. -/
theorem ordToPosLoop_eq {bits : Nat} :
    ∀ fuel i ord, bits - i < fuel → i ≤ bits → (i < bits → wordsBit buf i = true) →
      ordToPosLoop buf bits fuel i ord =
        some (if bitmapWeight buf i + ord < bitmapWeight buf bits
          then (Nat.nth (fun j => wordsBit buf j) (bitmapWeight buf i + ord), 0)
          else (bits, bitmapWeight buf i + ord - bitmapWeight buf bits)) := by
  intro fuel
  induction fuel with
  | zero => intro i ord enough; omega
  | succ fuel ih =>
    intro i ord enough le atSet
    rw [ordToPosLoop]
    by_cases more : i < bits ∧ 0 < ord
    · obtain ⟨lt, pos⟩ := more
      have le_next : i + 1 ≤ findNextBit buf bits (i + 1) := le_findNextBit (by omega)
      have weight : bitmapWeight buf (findNextBit buf bits (i + 1)) + (ord - 1) =
          bitmapWeight buf i + ord := by
        rw [weight_findNextBit (by omega), weight_succ_of_set (atSet lt)]
        omega
      rw [if_pos ⟨lt, pos⟩, ih _ _ (by omega) findNextBit_le wordsBit_findNextBit, weight]
    · rw [if_neg more]
      by_cases lt : i < bits
      · -- it stops at the set bit `i`, with nothing left to pass
        have zero : ord = 0 := by omega
        subst zero
        rw [Nat.add_zero, if_pos (weight_lt_of_set (atSet lt) lt), nth_weight (atSet lt)]
      · have ended : i = bits := by omega
        subst ended
        rw [if_neg (by omega), Nat.add_sub_cancel_left]

theorem bitmapOrdToPos_eq (ord : Int) (bits : Nat) :
    bitmapOrdToPos buf ord bits =
      some (if 0 ≤ ord ∧ ord < bitmapWeight buf bits
        then Nat.nth (fun j => wordsBit buf j) ord.toNat else 0) := by
  unfold bitmapOrdToPos
  have few : bitmapWeight buf bits ≤ bits := weight_le bits
  by_cases range : 0 ≤ ord ∧ ord < bits
  · rw [if_pos range, ordToPosLoop_eq buf (bits + 1) _ _ (by omega) findNextBit_le
      wordsBit_findNextBit, weight_first, Nat.zero_add, Option.map_some]
    by_cases found : ord.toNat < bitmapWeight buf bits
    · have below := (Bitmap.nth_of_lt_count found).2.1
      have inRange : 0 ≤ ord ∧ ord < bitmapWeight buf bits := ⟨range.1, by omega⟩
      rw [if_pos found, if_pos inRange]
      dsimp only
      rw [if_pos ⟨below, rfl⟩]
    · rw [if_neg found, if_neg (by omega)]
      dsimp only
      rw [if_neg (by omega)]
  · rw [if_neg range, if_neg (by omega)]

end Ordinals

/-! ### The remaps -/

section Map

variable (old new : Nat → BitVec 64) {bits : Nat}

theorem bitmapOrdToPos_remap {i : Nat} (lt : i < bits) (set : wordsBit old i = true)
    (nonempty : bitmapWeight new bits ≠ 0) :
    bitmapOrdToPos new ((bitmapWeight old i : Int).tmod (bitmapWeight new bits)) bits =
      some (remapPos (wordsBit old) (wordsBit new) bits i) := by
  have modNat : (bitmapWeight old i : Int).tmod (bitmapWeight new bits) =
      ((bitmapWeight old i % bitmapWeight new bits : Nat) : Int) := rfl
  have below : bitmapWeight old i % bitmapWeight new bits < bitmapWeight new bits :=
    Nat.mod_lt _ (Nat.pos_of_ne_zero nonempty)
  rw [modNat, bitmapOrdToPos_eq, if_pos ⟨by omega, by omega⟩, Int.toNat_natCast]
  unfold remapPos
  rw [if_pos ⟨lt, set, Nat.pos_of_ne_zero nonempty⟩]
  rfl

theorem remapPos_of_fixed {i : Nat} (fixed : ¬(i < bits ∧ wordsBit old i = true) ∨ bitmapWeight new bits = 0) :
    remapPos (wordsBit old) (wordsBit new) bits i = i := by
  unfold remapPos
  rw [if_neg]
  rintro ⟨lt, set, nonempty⟩
  rcases fixed with outside | empty
  · exact outside ⟨lt, set⟩
  · exact absurd empty (Nat.pos_iff_ne_zero.mp nonempty)

/-- What both remaps do with a position below `bits`: `n = bitmap_pos_to_ord(old, i, bits)`, and
then the identity or `bitmap_ord_to_pos(new, n % w, bits)`, give the image of `i` under the
map. -/
theorem remap_target {α : Type} (g : Nat → α) {i : Nat} (lt : i < bits) :
    (bitmapPosToOrd old i bits >>= fun n =>
      if n < 0 ∨ bitmapWeight new bits = 0 then pure (g i)
      else bitmapOrdToPos new (n.tmod (bitmapWeight new bits)) bits >>= fun pos => pure (g pos)) =
    some (g (remapPos (wordsBit old) (wordsBit new) bits i)) := by
  simp only [bitmapPosToOrd_eq, Int.toNat_natCast, Int.natCast_nonneg, Int.ofNat_lt, lt, true_and,
    Option.pure_def, Option.bind_eq_bind, Option.bind_some]
  by_cases set : wordsBit old i = true
  · rw [if_pos set]
    by_cases empty : bitmapWeight new bits = 0
    · rw [if_pos (.inr empty), remapPos_of_fixed old new (.inr empty)]
    · rw [if_neg (by omega), bitmapOrdToPos_remap old new lt set empty, Option.bind_some]
  · -- not a set bit of `old`: `bitmap_pos_to_ord` gives `-1`, and the map the identity
    rw [if_neg set, if_pos (.inl (by decide)), remapPos_of_fixed old new (.inl fun ⟨_, s⟩ => set s)]

theorem bitmapBitremap_eq (oldbit : Int) (bits : Nat) :
    bitmapBitremap oldbit old new bits =
      some (if 0 ≤ oldbit then (remapPos (wordsBit old) (wordsBit new) bits oldbit.toNat : Int)
        else oldbit) := by
  by_cases inside : 0 ≤ oldbit ∧ oldbit < bits
  · obtain ⟨k, rfl⟩ : ∃ k : Nat, oldbit = k := ⟨oldbit.toNat, by omega⟩
    rw [if_pos inside.1, Int.toNat_natCast]
    exact remap_target old new (fun k => (k : Int)) (by omega)
  · -- outside the bitmap `bitmap_pos_to_ord` gives `-1`, and the map the identity
    unfold bitmapBitremap
    simp only [bitmapPosToOrd_eq, Option.pure_def, Option.bind_eq_bind, Option.bind_some]
    have invalid : ¬(0 ≤ oldbit ∧ oldbit < bits ∧ wordsBit old oldbit.toNat = true) :=
      fun ⟨nonneg, lt, _⟩ => inside ⟨nonneg, lt⟩
    rw [if_neg invalid, if_pos (.inl (by decide))]
    by_cases nonneg : 0 ≤ oldbit
    · have fixed : ¬(oldbit.toNat < bits ∧ wordsBit old oldbit.toNat = true) :=
        fun ⟨lt, _⟩ => inside ⟨nonneg, by omega⟩
      rw [if_pos nonneg, remapPos_of_fixed old new (.inl fixed), Int.toNat_of_nonneg nonneg]
    · rw [if_neg nonneg]

theorem bitmapRemap_spec (dst src : Nat → BitVec 64) (bits : Nat) :
    ∃ out, bitmapRemap dst src old new bits = some out ∧
      ∀ j < bits, wordsBit out j = true ↔
        ∃ i < bits, wordsBit src i = true ∧ remapPos (wordsBit old) (wordsBit new) bits i = j := by
  unfold bitmapRemap
  -- the invariant of the loop over the set bits of `src`: the bits of `dst` are the images of
  -- the set bits of `src` below the position reached
  refine Bitmap.forEachIn_inv (fun k out => ∀ j < bits, wordsBit out j = true ↔
      ∃ i < k, wordsBit src i = true ∧ remapPos (wordsBit old) (wordsBit new) bits i = j)
    ?skip ?step (Nat.zero_le bits) (Nat.lt_succ_self bits) ?start
  case start =>
    intro j lt
    simp [wordsBit_bitmapZero dst lt]
  case skip =>
    -- a clear bit of `src` adds no image
    intro i out _ clear images j lt
    rw [images j lt, Nat.exists_lt_succ_right, or_iff_left (by simp [clear])]
  case step =>
    -- a set bit of `src` adds its image, the bit the body sets
    intro i out lt set images
    refine ⟨_, remap_target old new (setBit · out) lt, fun j ltj => ?_⟩
    rw [wordsBit_setBit, Bool.or_eq_true, images j ltj, decide_eq_true_iff, Nat.exists_lt_succ_right]
    exact or_congr_right ⟨fun image => ⟨set, image.symm⟩, fun ⟨_, image⟩ => image.symm⟩

theorem bitmapOnto_spec (dst orig relmap : Nat → BitVec 64) (bits : Nat) :
    ∃ out, bitmapOnto dst orig relmap bits = some out ∧
      ∀ j < bits, wordsBit out j = true ↔
        ∃ n, wordsBit orig n = true ∧ n < bitmapWeight relmap bits ∧
          Nat.nth (fun i => wordsBit relmap i) n = j := by
  -- the invariant of the loop: `m` counts the set bits of `relmap` passed, and below the
  -- position reached the bits of `dst` are the set bits of `relmap` whose ordinal `orig` has
  let Marked : Nat → Nat × (Nat → BitVec 64) → Prop := fun k s =>
    s.1 = bitmapWeight relmap k ∧ ∀ j < bits, wordsBit s.2 j = true ↔
      j < k ∧ wordsBit relmap j = true ∧ wordsBit orig (bitmapWeight relmap j) = true
  have start : Marked 0 (0, bitmapZero dst bits) := by
    refine ⟨(Nat.count_zero _).symm, fun j lt => ?_⟩
    simp [wordsBit_bitmapZero dst lt]
  have skip : ∀ i s, i < bits → wordsBit relmap i = false → Marked i s → Marked (i + 1) s := by
    -- a clear bit of `relmap` is not counted and not set
    intro i s _ clear ⟨counted, marked⟩
    refine ⟨by rw [counted, weight_succ_of_clear clear], fun j lt => ?_⟩
    rw [marked j lt, Nat.lt_succ_iff_lt_or_eq, or_and_right]
    exact (or_iff_left fun ⟨same, set, _⟩ => by rw [same, clear] at set; cases set).symm
  have step : ∀ i s, i < bits → wordsBit relmap i = true → Marked i s →
      ∃ s', ontoStep orig i s = some s' ∧ Marked (i + 1) s' := by
    -- a set bit of `relmap` is counted, and set when `orig` has its ordinal `m`
    rintro i ⟨m, d⟩ _ set ⟨counted, marked⟩
    dsimp only at counted marked
    refine ⟨_, rfl, show m + 1 = _ by rw [weight_succ_of_set set, counted], fun j lt => ?_⟩
    by_cases has : wordsBit orig m = true
    · simp only [has, if_true, wordsBit_setBit, Bool.or_eq_true, marked j lt, decide_eq_true_iff,
        Nat.lt_succ_iff_lt_or_eq, or_and_right]
      refine or_congr_right ⟨fun same => ⟨same, ?_⟩, fun ⟨same, _⟩ => same⟩
      rw [same, ← counted]
      exact ⟨set, has⟩
    · simp only [has, Bool.false_eq_true, if_false, marked j lt, Nat.lt_succ_iff_lt_or_eq,
        or_and_right]
      refine (or_iff_left fun ⟨same, _, has'⟩ => has ?_).symm
      rw [same, ← counted] at has'
      exact has'
  obtain ⟨⟨m, out⟩, ran, -, marked⟩ :=
    Bitmap.forEachIn_inv Marked skip step (Nat.zero_le bits) (Nat.lt_succ_self bits) start
  refine ⟨out, by rw [bitmapOnto, findNextBit, ran]; rfl, fun j lt => ?_⟩
  -- the set bits of `relmap` are the selects of their ordinals
  rw [marked j lt]
  constructor
  · rintro ⟨_, set, has⟩
    exact ⟨_, has, weight_lt_of_set set lt, nth_weight set⟩
  · rintro ⟨n, has, below, rfl⟩
    obtain ⟨set, within, ordinal⟩ := Bitmap.nth_of_lt_count below
    exact ⟨within, set, by rw [show bitmapWeight relmap _ = n from ordinal]; exact has⟩

end Map

/-- The three remaps follow the map of their bitmaps: `bitmap_remap` sets the images of the set
bits of `src`, `bitmap_bitremap` gives the image of one position, and `bitmap_onto` sets the
`n`-th set bits of `relmap` for the `n` set in `orig`. -/
theorem bitmapRemap_bitremap_onto_spec (dst src old new orig relmap : Nat → BitVec 64)
    (bits : Nat) :
    (∃ out, bitmapRemap dst src old new bits = some out ∧
      ∀ j < bits, wordsBit out j = true ↔
        ∃ i < bits, wordsBit src i = true ∧ remapPos (wordsBit old) (wordsBit new) bits i = j) ∧
    (∀ oldbit : Int, bitmapBitremap oldbit old new bits =
      some (if 0 ≤ oldbit then (remapPos (wordsBit old) (wordsBit new) bits oldbit.toNat : Int)
        else oldbit)) ∧
    (∃ out, bitmapOnto dst orig relmap bits = some out ∧
      ∀ j < bits, wordsBit out j = true ↔
        ∃ n, wordsBit orig n = true ∧ n < bitmapWeight relmap bits ∧
          Nat.nth (fun i => wordsBit relmap i) n = j) :=
  ⟨bitmapRemap_spec old new dst src bits, fun oldbit => bitmapBitremap_eq old new oldbit bits,
    bitmapOnto_spec dst orig relmap bits⟩

end LinuxKernel.BitmapRemap
