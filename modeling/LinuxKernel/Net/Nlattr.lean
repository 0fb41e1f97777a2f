import LinuxKernel.Creds.Types

/-!
# Netlink attributes

`lib/nlattr.c` and `include/net/netlink.h`: a stream of `struct nlattr` headers and payloads,
each next one `NLA_ALIGN(nla_len)` further on. `nla_parse` files each attribute of a known type
in `tb` after `validate_nla`. Memory maps addresses to bytes.
-/

namespace LinuxKernel

/-- The host-order (little-endian) `u16` at `o`. -/
def readU16 (m : Nat → UInt8) (o : Nat) : UInt16 :=
  (m o).toUInt16 ||| (m (o + 1)).toUInt16 <<< 8

structure Nlattr where
  nlaLen : UInt16
  nlaType : UInt16

/-- The header at address `o`. -/
def nlattrAt (m : Nat → UInt8) (o : Nat) : Nlattr := ⟨readU16 m o, readU16 m (o + 2)⟩

def nlaAlignto : Nat := 4

/-- `NLA_ALIGN(len)`: `len` rounded up to a multiple of `NLA_ALIGNTO`. -/
def nlaAlign (len : Nat) : Nat := (len + nlaAlignto - 1) / nlaAlignto * nlaAlignto

/-- `NLA_HDRLEN`: the header, aligned. -/
def nlaHdrlen : Nat := nlaAlign 4

def nlaFNested : UInt16 := (1 : UInt16) <<< 15

def nlaFNetByteorder : UInt16 := (1 : UInt16) <<< 14

def nlaTypeMask : UInt16 := ~~~(nlaFNested ||| nlaFNetByteorder)

/-- `nla_type(nla)`: the type without its two flag bits. -/
def nlaType (m : Nat → UInt8) (nla : Nat) : Int :=
  ((nlattrAt m nla).nlaType &&& nlaTypeMask).toNat

def nlaData (nla : Nat) : Nat := nla + nlaHdrlen

/-- `nla_len(nla)`: the length of the payload, an `int`. -/
def nlaLen (m : Nat → UInt8) (nla : Nat) : Int := (nlattrAt m nla).nlaLen.toNat - nlaHdrlen

def nlaOk (m : Nat → UInt8) (nla : Nat) (remaining : Int) : Bool :=
  remaining ≥ 4 && 4 ≤ (nlattrAt m nla).nlaLen.toNat &&
    ((nlattrAt m nla).nlaLen.toNat : Int) ≤ remaining

/-- `NLA_ALIGN(nla->nla_len)`, the step of `nla_next`. -/
def nlaTotlen (m : Nat → UInt8) (nla : Nat) : Nat := nlaAlign (nlattrAt m nla).nlaLen.toNat

/-- `nla_for_each_attr(nla, head, len, rem)` around a body that may leave the loop with an
error, on fuel: the body's state after the loop, and the error that ended it. -/
def nlaForEachAttr {σ : Type} (m : Nat → UInt8) (body : Nat → σ → Except Errno σ) :
    Nat → Nat → Int → σ → Option (σ × Option Errno)
  | 0, _, _, _ => none
  | fuel + 1, nla, rem, st =>
    if nlaOk m nla rem then
      match body nla st with
      | .error e => some (st, some e)
      | .ok st => nlaForEachAttr m body fuel (nla + nlaTotlen m nla) (rem - nlaTotlen m nla) st
    else some (st, none)

/-- The attribute types of `enum { NLA_UNSPEC, ... }`. -/
inductive NlaType where
  | unspec | u8 | u16 | u32 | u64 | string | flag | msecs | nested | nestedCompat | nulString
  | binary
  deriving DecidableEq, Repr

structure NlaPolicy where
  type : NlaType
  len : UInt16

def nlaAttrMinlen : NlaType → Nat
  | .u8 => 1
  | .u16 => 2
  | .u32 => 4
  | .u64 => 8
  | .msecs => 8
  | .nested => nlaHdrlen
  | _ => 0

/-- `memchr(s, '\0', n) != NULL`. -/
def memchrNul (m : Nat → UInt8) (s n : Nat) : Bool := (List.range n).any fun i => m (s + i) = 0

/-- The `NLA_STRING` case of `validate_nla`, which `NLA_NUL_STRING` falls through to. -/
def validateNlaString (m : Nat → UInt8) (nla : Nat) (pt : NlaPolicy) (attrlen : Int) :
    Except Errno Unit :=
  if attrlen < 1 then .error .range
  else if pt.len ≠ 0 then
    let attrlen := if m (nlaData nla + (attrlen - 1).toNat) = 0 then attrlen - 1 else attrlen
    if attrlen > pt.len.toNat then .error .range else .ok ()
  else .ok ()

/-- The `default` case of `validate_nla`, which `NLA_NESTED` falls through to. -/
def validateNlaDefault (pt : NlaPolicy) (attrlen : Int) : Except Errno Unit :=
  let minlen := if pt.len ≠ 0 then pt.len.toNat
    else if pt.type ≠ .unspec then nlaAttrMinlen pt.type else 0
  if attrlen < minlen then .error .range else .ok ()

def validateNla (m : Nat → UInt8) (nla : Nat) (maxtype : Int) (policy : Nat → NlaPolicy) :
    Except Errno Unit :=
  let attrlen := nlaLen m nla
  let type := nlaType m nla
  if type ≤ 0 ∨ type > maxtype then .ok ()
  else
    let pt := policy type.toNat
    match pt.type with
    | .flag => if attrlen > 0 then .error .range else .ok ()
    | .nulString =>
      let minlen : Int := if pt.len ≠ 0 then min attrlen (pt.len.toNat + 1) else attrlen
      if minlen = 0 ∨ !memchrNul m (nlaData nla) minlen.toNat then .error .inval
      else validateNlaString m nla pt attrlen
    | .string => validateNlaString m nla pt attrlen
    | .binary => if pt.len ≠ 0 ∧ attrlen > pt.len.toNat then .error .range else .ok ()
    | .nestedCompat =>
      if attrlen < pt.len.toNat then .error .range
      else if attrlen < nlaAlign pt.len.toNat then .ok ()
      else if attrlen < nlaAlign pt.len.toNat + nlaHdrlen then .error .range
      else
        -- the header of the nested attributes after the structure
        let inner := nlaData nla + nlaAlign pt.len.toNat
        if attrlen < nlaAlign pt.len.toNat + nlaHdrlen + nlaLen m inner then .error .range
        else .ok ()
    | .nested => if attrlen = 0 then .ok () else validateNlaDefault pt attrlen
    | _ => validateNlaDefault pt attrlen

def nlaValidate (m : Nat → UInt8) (head : Nat) (len maxtype : Int) (policy : Nat → NlaPolicy) :
    Option (Except Errno Unit) :=
  (nlaForEachAttr m (fun nla (_ : Unit) => validateNla m nla maxtype policy)
      (len.toNat + 1) head len ()).map fun r =>
    match r.2 with
    | some e => .error e
    | none => .ok ()

/-- The body of the loop of `nla_parse`: an attribute of a type from 1 to `maxtype` is
validated, if there is a policy, and filed in `tb`. -/
def nlaParseAttr (m : Nat → UInt8) (maxtype : Int) (policy : Option (Nat → NlaPolicy))
    (nla : Nat) (tb : Nat → Option Nat) : Except Errno (Nat → Option Nat) :=
  let type := nlaType m nla
  if type > 0 ∧ type ≤ maxtype then
    match policy with
    | some policy =>
      match validateNla m nla maxtype policy with
      | .error e => .error e
      | .ok () => .ok (Function.update tb type.toNat (some nla))
    | none => .ok (Function.update tb type.toNat (some nla))
  else .ok tb

/-- `nla_parse(tb, maxtype, head, len, policy)`: `tb`, and the result. -/
def nlaParse (m : Nat → UInt8) (maxtype : Int) (head : Nat) (len : Int)
    (policy : Option (Nat → NlaPolicy)) : Option ((Nat → Option Nat) × Except Errno Unit) :=
  (nlaForEachAttr m (nlaParseAttr m maxtype policy) (len.toNat + 1) head len fun _ => none).map
    fun r =>
      match r.2 with
      | some e => (r.1, .error e)
      | none => (r.1, .ok ())

end LinuxKernel
