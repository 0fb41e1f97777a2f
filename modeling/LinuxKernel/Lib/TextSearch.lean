import LinuxKernel.Lib.Ctype

/-!
# The text search framework

`lib/textsearch.c` runs an algorithm over the blocks `get_next_block` hands out, a block of
length 0 ending the text; the models take those blocks in order. Under `TS_IGNORECASE` bytes are
compared folded (`tsFold`, `TsOccursAt`).
-/

namespace LinuxKernel

/-- `UINT_MAX`, what a search returns when it finds nothing. -/
def uintMax : Nat := 2 ^ 32 - 1

/-- The byte a search compares: `toupper(c)` under `TS_IGNORECASE`, else `c`. -/
def tsFold (icase : Bool) (c : UInt8) : UInt8 := if icase then toupper c else c

/-- `pattern` occurs in `text` at `p`: the folded bytes from `p` on are the folded pattern. -/
def TsOccursAt (icase : Bool) (pattern text : List UInt8) (p : Nat) : Prop :=
  p + pattern.length ≤ text.length ∧
    ∀ j < pattern.length, tsFold icase (text.getD (p + j) 0) = tsFold icase (pattern.getD j 0)

instance (icase : Bool) (pattern text : List UInt8) (p : Nat) : Decidable (TsOccursAt icase pattern text p) :=
  inferInstanceAs (Decidable (_ ∧ _))

/-- The blocks `get_linear_data` gives from `consumed` on: the rest of `data`, then nothing. -/
def linearBlocks (data : List UInt8) (consumed : Nat) : List (List UInt8) :=
  if consumed < data.length then [data.drop consumed] else []

end LinuxKernel
