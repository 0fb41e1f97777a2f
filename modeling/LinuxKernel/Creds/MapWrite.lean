import Mathlib
import LinuxKernel.Creds.Capable
import LinuxKernel.Creds.IdMap
import LinuxKernel.Lib.Ctype

/-!
# Writing an id map

`map_write` of `kernel/user_namespace.c`, behind `/proc/<pid>/uid_map` and `gid_map`.
The page written is a C string, so the parser stops at its first NUL. It is read line by
line into at most five extents with `simple_strtoul`; each extent is checked against
wrapping and against the one before, and its lower range is moved through the parent's
map into kernel ids. Only then is the map installed, once.
-/

namespace LinuxKernel

/-! ### The string helpers -/

def skipSpaces : List UInt8 → List UInt8
  | c :: s => if isspace c then skipSpaces s else c :: s
  | [] => []

/-- The value `_parse_integer` gives a character in `base`, if it is a digit there. -/
def digitVal (base : UInt64) (c : UInt8) : Option UInt64 :=
  let val :=
    if 48 ≤ c ∧ c ≤ 57 then some (c - 48).toUInt64
    else if 97 ≤ tolower c ∧ tolower c ≤ 102 then some (tolower c - 97 + 10).toUInt64
    else none
  match val with
  | some v => if v ≥ base then none else some v
  | none => none

/-- `_parse_integer`: the value of the digits read, wrapping in 64 bits, and the rest. -/
def parseInteger (base : UInt64) : List UInt8 → UInt64 → UInt64 × List UInt8
  | c :: s, res =>
    match digitVal base c with
    | some v => parseInteger base s (res * base + v)
    | none => (res, c :: s)
  | [], res => (res, [])

/-- `simple_strtoul(cp, &endp, 10)`; in base 10 `_parse_integer_fixup_radix` changes
nothing. -/
def simpleStrtoul (cp : List UInt8) : UInt64 × List UInt8 := parseInteger 10 cp 0

/-! ### The parse loop -/

/-- The lines the loop visits: `strchr(pos, '\n')` ends a line, and a newline that ends
the text ends the loop, `next_line` becoming `NULL`. -/
def splitLines (cur : List UInt8) : List UInt8 → List (List UInt8)
  | [] => [cur.reverse]
  | c :: rest =>
    if c = 10 then
      if rest = [] then [cur.reverse] else cur.reverse :: splitLines [] rest
    else splitLines (c :: cur) rest

/-- One line: three numbers, each of the first two followed by white space, and nothing
but white space after the third. `*pos` past the line is its NUL. -/
def parseExtentLine (line : List UInt8) : Option UidGidExtent :=
  let (first, pos) := simpleStrtoul (skipSpaces line)
  if !isspace (pos.headD 0) then none else
  let (lowerFirst, pos) := simpleStrtoul (skipSpaces pos)
  if !isspace (pos.headD 0) then none else
  let (count, pos) := simpleStrtoul (skipSpaces pos)
  if pos.headD 0 ≠ 0 ∧ !isspace (pos.headD 0) then none else
  if (skipSpaces pos).headD 0 ≠ 0 then none else
  some ⟨first.toUInt32, lowerFirst.toUInt32, count.toUInt32⟩

/-- The extent does not start before `last` ends, on either side. -/
def outOfOrder (last : Option UidGidExtent) (extent : UidGidExtent) : Bool :=
  match last with
  | some l => l.first + l.count > extent.first || l.lowerFirst + l.count > extent.lowerFirst
  | none => false

/-- The loop over the lines, with `nr` extents read so far and `last` the latest. -/
def parseExtents (last : Option UidGidExtent) (nr : Nat) :
    List (List UInt8) → Except Errno (List UidGidExtent)
  | [] => .ok []
  | line :: rest =>
    match parseExtentLine line with
    | none => .error .inval
    | some extent =>
      if extent.first = 0xffffffff ∨ extent.lowerFirst = 0xffffffff then .error .inval
      -- a zero count or a range that wraps
      else if extent.first + extent.count ≤ extent.first then .error .inval
      else if extent.lowerFirst + extent.count ≤ extent.lowerFirst then .error .inval
      else if outOfOrder last extent then .error .inval
      else if nr + 1 = uidGidMapMaxExtents ∧ rest ≠ [] then .error .inval
      else (extent :: ·) <$> parseExtents (some extent) (nr + 1) rest

/-- The second loop: each lower range through `map_id_range_down` of the parent map. -/
def rebaseExtents (parentMap : UidGidMap) : List UidGidExtent → Except Errno (List UidGidExtent)
  | [] => .ok []
  | extent :: rest =>
    let lowerFirst := mapIdRangeDown parentMap extent.lowerFirst extent.count
    if lowerFirst = 0xffffffff then .error .perm
    else ({ extent with lowerFirst } :: ·) <$> rebaseExtents parentMap rest

/-- `map_write` of `buf` at offset `ppos` by `writer` into `map`, the map of `ns`, whose
parent `parentNs` has `parentMap`. `getPage` and `copyOk` are whether
`__get_free_page` and `copy_from_user` succeed. The result is the installed map. -/
def mapWrite (writer : Cred) (ns parentNs : UserNamespace) (capSetid : Nat)
    (map parentMap : UidGidMap) (buf : List UInt8) (ppos : Nat) (getPage copyOk : Bool) :
    Except Errno UidGidMap :=
  if map.extents ≠ [] then .error .perm
  else if capCapable writer ns capSetid ≠ .ok () then .error .perm
  else if !getPage then .error .noMem
  else if ppos ≠ 0 ∨ buf.length ≥ pageSize then .error .inval
  else if !copyOk then .error .fault
  else
    match parseExtents none 0 (splitLines [] (buf.takeWhile (· ≠ 0))) with
    | .error e => .error e
    | .ok extents =>
      if extents = [] then .error .inval
      -- `new_idmap_permitted`: the same capability over the parent namespace
      else if capCapable writer parentNs capSetid ≠ .ok () then .error .perm
      else (⟨·⟩) <$> rebaseExtents parentMap extents

def procUidMapWrite (maps : IdMaps) (writer : Cred) (ns : UserNamespace) (buf : List UInt8)
    (ppos : Nat) (getPage copyOk : Bool) : Except Errno IdMaps :=
  match ns.parent? with
  | none => .error .perm
  | some parent =>
    (fun m => { maps with uidMap := Function.update maps.uidMap ns m }) <$>
      mapWrite writer ns parent capSetuid (maps.uidMap ns) (maps.uidMap parent) buf ppos
        getPage copyOk

def procGidMapWrite (maps : IdMaps) (writer : Cred) (ns : UserNamespace) (buf : List UInt8)
    (ppos : Nat) (getPage copyOk : Bool) : Except Errno IdMaps :=
  match ns.parent? with
  | none => .error .perm
  | some parent =>
    (fun m => { maps with gidMap := Function.update maps.gidMap ns m }) <$>
      mapWrite writer ns parent capSetgid (maps.gidMap ns) (maps.gidMap parent) buf ppos
        getPage copyOk

end LinuxKernel
