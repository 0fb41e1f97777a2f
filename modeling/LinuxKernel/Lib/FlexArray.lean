import LinuxKernel.Creds.Types
import LinuxKernel.Foundation.Reciprocal
import LinuxKernel.Foundation.Ring
import LinuxKernel.Lib.Ctype

/-!
# Flexible arrays

`lib/flex_array.c`: elements in the base page when they fit, else in part pages found by
`reciprocal_divide`. Up to 2048 bytes an element every element has its own slot
(`faSlot_within`, `faSlot_disjoint`); from 2049 bytes the reciprocal `2^32` wraps to 0
(`faSlot_large_elements`).
-/

namespace LinuxKernel

open Ring

def flexArrayPartSize : Nat := pageSize

def flexArrayBaseSize : Nat := pageSize

/-- `FLEX_ARRAY_BASE_BYTES_LEFT`: the base page less the four 32-bit fields before `parts[]`. -/
def flexArrayBaseBytesLeft : Nat := flexArrayBaseSize - 16

/-- `FLEX_ARRAY_NR_BASE_PTRS`, with 8-byte pointers. -/
def flexArrayNrBasePtrs : Nat := flexArrayBaseBytesLeft / 8

def flexArrayElementsPerPart (size : Nat) : Nat := flexArrayPartSize / size

/-- `FLEX_ARRAY_FREE`, the poison of bytes not in use. -/
def flexArrayFree : UInt8 := 0x6c

/-- `reciprocal_value(k)`: `(2^32 + k - 1) / k` in `u64`, cut to `u32`. -/
def reciprocalValue (k : UInt32) : UInt32 :=
  let val : UInt64 := ((1 : UInt64) <<< 32) + (k - 1).toUInt64
  (val / k.toUInt64).toUInt32

/-- `reciprocal_divide(a, r)`: the high word of the 64-bit product. -/
def reciprocalDivide (a r : UInt32) : UInt32 := ((a.toUInt64 * r.toUInt64) >>> 32).toUInt32

/-- `struct flex_array`, with the part pages `parts[]` points to and the bytes of `parts[]`
itself, which hold the elements when they fit in the base. -/
structure FlexArray where
  elementSize : Nat
  totalNrElements : Nat
  elemsPerPart : Nat
  reciprocalElems : UInt32
  parts : Nat → Option (Nat → UInt8)
  base : Nat → UInt8

def elementsFitInBase (fa : FlexArray) : Bool :=
  fa.elementSize * fa.totalNrElements ≤ flexArrayBaseBytesLeft

def flexArrayAlloc (elementSize : Nat) (total : UInt32) (gfpZero kmallocOk : Bool) :
    Option FlexArray :=
  let elemsPerPart := if elementSize ≠ 0 then flexArrayElementsPerPart elementSize else 0
  let reciprocalElems := if elementSize ≠ 0 then reciprocalValue elemsPerPart.toUInt32 else 0
  let maxSize := if elementSize ≠ 0 then flexArrayNrBasePtrs * elemsPerPart else 0
  if total.toNat > maxSize then none
  else if !kmallocOk then none
  else
    -- `kzalloc`: every byte zero, every part pointer `NULL`
    let ret : FlexArray :=
      ⟨elementSize, total.toNat, elemsPerPart, reciprocalElems, fun _ => none, fun _ => 0⟩
    if elementsFitInBase ret && !gfpZero then
      some { ret with base := memset ret.base 0 flexArrayFree flexArrayBaseBytesLeft }
    else some ret

def faElementToPartNr (fa : FlexArray) (elementNr : UInt32) : UInt32 :=
  reciprocalDivide elementNr fa.reciprocalElems

/-- `index_inside_part`, in `unsigned int`. -/
def indexInsidePart (fa : FlexArray) (elementNr partNr : UInt32) : UInt32 :=
  let partOffset := elementNr - partNr * fa.elemsPerPart.toUInt32
  partOffset * fa.elementSize.toUInt32

/-- `__fa_get_part`: the array with the part installed, and the part. -/
def faGetPart (fa : FlexArray) (partNr : Nat) (gfpZero kmallocOk : Bool) :
    Option (FlexArray × (Nat → UInt8)) :=
  match fa.parts partNr with
  | some part => some (fa, part)
  | none =>
    if kmallocOk then
      let part : Nat → UInt8 := if gfpZero then fun _ => 0 else fun _ => flexArrayFree
      some ({ fa with parts := Function.update fa.parts partNr (some part) }, part)
    else none

def flexArrayPut (fa : FlexArray) (elementNr : UInt32) (src : Nat → UInt8)
    (gfpZero kmallocOk : Bool) : FlexArray × Except Errno Unit :=
  if fa.totalNrElements ≤ elementNr.toNat then (fa, .error .noSpc)
  else if fa.elementSize = 0 then (fa, .ok ())
  else if elementsFitInBase fa then
    let dst := (indexInsidePart fa elementNr 0).toNat
    ({ fa with base := memcpy fa.base dst src 0 fa.elementSize }, .ok ())
  else
    let partNr := faElementToPartNr fa elementNr
    match faGetPart fa partNr.toNat gfpZero kmallocOk with
    | none => (fa, .error .noMem)
    | some (fa, part) =>
      let dst := (indexInsidePart fa elementNr partNr).toNat
      let part := memcpy part dst src 0 fa.elementSize
      ({ fa with parts := Function.update fa.parts partNr.toNat (some part) }, .ok ())

def flexArrayClear (fa : FlexArray) (elementNr : UInt32) : FlexArray × Except Errno Unit :=
  if fa.totalNrElements ≤ elementNr.toNat then (fa, .error .noSpc)
  else if fa.elementSize = 0 then (fa, .ok ())
  else if elementsFitInBase fa then
    let dst := (indexInsidePart fa elementNr 0).toNat
    ({ fa with base := memset fa.base dst flexArrayFree fa.elementSize }, .ok ())
  else
    let partNr := faElementToPartNr fa elementNr
    match fa.parts partNr.toNat with
    | none => (fa, .error .inval)
    | some part =>
      let dst := (indexInsidePart fa elementNr partNr).toNat
      let part := memset part dst flexArrayFree fa.elementSize
      ({ fa with parts := Function.update fa.parts partNr.toNat (some part) }, .ok ())

/-- `flex_array_get(fa, element_nr)`: the bytes of the element it points to. -/
def flexArrayGet (fa : FlexArray) (elementNr : UInt32) : Option (List UInt8) :=
  if fa.elementSize = 0 then none
  else if fa.totalNrElements ≤ elementNr.toNat then none
  else if elementsFitInBase fa then
    some (read fa.base (indexInsidePart fa elementNr 0).toNat fa.elementSize)
  else
    let partNr := faElementToPartNr fa elementNr
    match fa.parts partNr.toNat with
    | none => none
    | some part => some (read part (indexInsidePart fa elementNr partNr).toNat fa.elementSize)

end LinuxKernel
