import LinuxKernel.Creds.Types

/-!
# Resource trees

`kernel/resource.c`: a resource has a range `[start, end]`, flags, a first child and a next
sibling (`ResourceLink`), and the walks are recursions on the link; parent links are not kept.
`resource_size_t` sums wrap modulo `2^64`, and `__reserve_region_with_split` runs on `fuel`.
-/

namespace LinuxKernel

/-- A `struct resource *`: `NULL`, or a resource with its range, its flags, its first child and
its next sibling. -/
inductive ResourceLink
  | null
  | node (start end_ flags : Nat) (child sibling : ResourceLink)
  deriving DecidableEq, Repr

def ioresourceMuxed : Nat := 0x00400000

def ioresourceBusy : Nat := 0x80000000

/-- `(resource_size_t)(a + b)`. -/
def resAdd (a b : Nat) : Nat := (a + b) % 2 ^ 64

/-- `(resource_size_t)(a - b)`. -/
def resSub (a b : Nat) : Nat := (a + (2 ^ 64 - b % 2 ^ 64)) % 2 ^ 64

/-- `[start, end]` is empty or sticks out of `[rs, re]`: `__request_resource` answers `root`. -/
def rangeOutside (start end_ rs re : Nat) : Prop := end_ < start ∨ start < rs ∨ re < end_

instance (start end_ rs re : Nat) : Decidable (rangeOutside start end_ rs re) := by
  unfold rangeOutside
  infer_instance

/-! ## `__request_resource` -/

/-- What `__request_resource(root, new)` returns: `NULL`, with `root` after `new` is linked in,
`root` itself, or the first child of `root` in the way. -/
inductive RequestOutcome
  | linked (root : ResourceLink)
  | root
  | conflict (tmp : ResourceLink)
  deriving DecidableEq, Repr

/-- The loop of `__request_resource` from `p`, `new` being `[start, end]` with `flags` and
`child`: `.inl` the list at `p` with `new` linked in before the first resource past `end`,
`.inr` the first resource that overlaps `[start, end]`. -/
def requestChain (start end_ flags : Nat) (child : ResourceLink) : ResourceLink → ResourceLink ⊕ ResourceLink
  | .null => .inl (.node start end_ flags child .null)
  | .node s e f c sib =>
    if s > end_ then .inl (.node start end_ flags child (.node s e f c sib))
    else if e < start then (requestChain start end_ flags child sib).map (.node s e f c ·) id
    else .inr (.node s e f c sib)

def requestResource (root : ResourceLink) (start end_ flags : Nat) (child : ResourceLink) : RequestOutcome :=
  match root with
  | .null => .root
  | .node rs re rf rc rsib =>
    if rangeOutside start end_ rs re then .root
    else match requestChain start end_ flags child rc with
      | .inl rc' => .linked (.node rs re rf rc' rsib)
      | .inr tmp => .conflict tmp

/-! ## `__find_resource` and `allocate_resource` -/

/-- What `__request_region` comes to: the new resource, with the parent it was given after it,
`NULL`, or a wait on `muxed_resource_wait` for a muxed conflict to go. -/
inductive RegionOutcome
  | granted (parent : ResourceLink)
  | null
  | wait
  deriving DecidableEq, Repr

/-- The outcome with the parent rebuilt around the one it was granted in. -/
def RegionOutcome.map (f : ResourceLink → ResourceLink) : RegionOutcome → RegionOutcome
  | .granted parent => .granted (f parent)
  | .null => .null
  | .wait => .wait

/-- A conflict that `__request_region` does not descend into: wait if both it and the request
are muxed, else `NULL`. -/
def muxedOutcome (conflictFlags flags : Nat) : RegionOutcome :=
  if conflictFlags &&& flags &&& ioresourceMuxed ≠ 0 then .wait else .null

/-- The loop of `__request_region` along the children at `p` of a `parent` whose range holds
`[start, end]`, as `__request_resource` walks them: a conflict that is not busy becomes the
`parent` of the next round, which checks the range against it again. -/
def requestRegionChain (start end_ flags : Nat) : ResourceLink → RegionOutcome
  | .null => .granted (.node start end_ (ioresourceBusy ||| flags) .null .null)
  | .node s e f c sib =>
    if s > end_ then .granted (.node start end_ (ioresourceBusy ||| flags) .null (.node s e f c sib))
    else if e < start then (requestRegionChain start end_ flags sib).map (.node s e f c ·)
    else if f &&& ioresourceBusy = 0 then
      if rangeOutside start end_ s e then muxedOutcome f flags
      else (requestRegionChain start end_ flags c).map (.node s e f · sib)
    else muxedOutcome f flags

/-- `__request_region(parent, start, n, name, flags)`: the busy resource
`[start, start + n - 1]`, placed below the resources that hold it and are not busy; `NULL` with
the tree unchanged when `kzallocOk` says the `kzalloc` of the resource fails. -/
def requestRegion (parent : ResourceLink) (start n flags : Nat) (kzallocOk : Bool) : RegionOutcome :=
  if !kzallocOk then .null
  else
    let end_ := resSub (resAdd start n) 1
    match parent with
    | .null => .null
    | .node ps pe pf pc psib =>
      if rangeOutside start end_ ps pe then muxedOutcome pf flags
      else (requestRegionChain start end_ flags pc).map (.node ps pe pf · psib)

/-- The loop of `__release_region` from `p`: the list at `p` with the busy resource
`[start, end]` unlinked, descending into the resources that hold the range and are not busy;
`none` when it breaks out and only warns. -/
def releaseRegionChain (start end_ : Nat) : ResourceLink → Option ResourceLink
  | .null => none
  | .node s e f c sib =>
    if s ≤ start ∧ e ≥ end_ then
      if f &&& ioresourceBusy = 0 then (releaseRegionChain start end_ c).map (.node s e f · sib)
      else if s ≠ start ∨ e ≠ end_ then none
      else some sib
    else (releaseRegionChain start end_ sib).map (.node s e f c ·)

/-- `__release_region(parent, start, n)`: `parent` after the resource `[start, start + n - 1]` is
unlinked, or `none` for the warning that it does not exist. -/
def releaseRegion (parent : ResourceLink) (start n : Nat) : Option ResourceLink :=
  match parent with
  | .null => none
  | .node ps pe pf pc psib =>
    (releaseRegionChain start (resSub (resAdd start n) 1) pc).map (.node ps pe pf · psib)

/-! ## `__reserve_region_with_split` -/

/-- The range of a resource; `NULL` has none. -/
def ResourceLink.range : ResourceLink → Nat × Nat
  | .null => (0, 0)
  | .node s e _ _ _ => (s, e)

/-- `__reserve_region_with_split(root, start, end, name)` with `fuel` calls left: `root` after it,
or `none` when the calls run out. `kzallocOk start end` says whether the `kzalloc` of the call on
`[start, end]` succeeds; the calls of one run that returns are on distinct ranges, so this gives
every sequence of allocation outcomes such a run can meet. -/
def reserveRegionWithSplit (kzallocOk : Nat → Nat → Bool) : Nat → ResourceLink → Nat → Nat → Option ResourceLink
  | 0, _, _, _ => none
  | fuel + 1, root, start, end_ =>
    if !kzallocOk start end_ then some root else
    let conflict : ResourceLink ⊕ ResourceLink :=
      match requestResource root start end_ ioresourceBusy .null with
      | .linked root' => .inl root'
      | .root => .inr root
      | .conflict tmp => .inr tmp
    match conflict with
    | .inl root' => some root'
    | .inr conflict =>
      let cs := conflict.range.1
      let ce := conflict.range.2
      -- conflict covered whole area
      if cs ≤ start ∧ ce ≥ end_ then some root
      else
        let left := if cs > start then reserveRegionWithSplit kzallocOk fuel root start (resSub cs 1) else some root
        left.bind fun root =>
          if ce < end_ then reserveRegionWithSplit kzallocOk fuel root (resAdd ce 1) end_ else some root

end LinuxKernel
