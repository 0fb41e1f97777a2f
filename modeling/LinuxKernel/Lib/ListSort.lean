import LinuxKernel.Lib.ListHead

/-!
# `list_sort`

`lib/list_sort.c`: a bottom-up merge sort of a `list_head` ring, opened into a
`NULL`-terminated list (here a `List`) whose nodes are carried up the levels of `part[]` like a
binary counter; `merge` takes the older node on ties, and `merge_and_restore_back_links` closes
the ring again.
-/

namespace LinuxKernel

open CircularList

variable {α : Type} [DecidableEq α]

def maxListLengthBits : Nat := 20

/-- The test `(*cmp)(priv, a, b) <= 0`. -/
def cmpLe (cmp : α → α → Int) (a b : α) : Bool := cmp a b ≤ 0

/-- `merge(priv, cmp, a, b)`: the head of `a` is taken while it compares at or below the head of
`b`, so ties take `a`, and what is left of either is appended. -/
def listSortMerge (cmp : α → α → Int) (a b : List α) : List α := List.merge a b (cmpLe cmp)

/-- `for (lev = 0; part[lev]; lev++)` of `list_sort`: `cur` takes in every full level from
`lev` up, which is emptied; the levels, the level it stops at, and `cur`. -/
def listSortCarry (cmp : α → α → Int) :
    Nat → (Nat → List α) → Nat → List α → (Nat → List α) × Nat × List α
  | 0, part, lev, cur => (part, lev, cur)
  | fuel + 1, part, lev, cur =>
    if part lev ≠ [] then
      listSortCarry cmp fuel (Function.update part lev []) (lev + 1) (listSortMerge cmp (part lev) cur)
    else (part, lev, cur)

/-- The level a node carried up to `lev` is stored at, and the new `max_lev`: past `max_lev`
it is the new top, one below the sentinel `part[MAX_LIST_LENGTH_BITS]` at most. -/
def listSortLevel (lev maxLev : Nat) : Nat × Nat :=
  if lev > maxLev then
    let lev := if lev ≥ maxListLengthBits then lev - 1 else lev
    (lev, lev)
  else (lev, maxLev)

/-- The `while (list)` loop of `list_sort` over the nodes left: each is carried up from level 0
as a list of one and stored where it stops. -/
def listSortLoop (cmp : α → α → Int) : List α → (Nat → List α) → Nat → (Nat → List α) × Nat
  | [], part, maxLev => (part, maxLev)
  | x :: list, part, maxLev =>
    match listSortCarry cmp (maxListLengthBits + 1) part 0 [x] with
    | (part, lev, cur) =>
      match listSortLevel lev maxLev with
      | (lev, maxLev) => listSortLoop cmp list (Function.update part lev cur) maxLev

/-- `for (lev = 0; lev < max_lev; lev++)` of `list_sort`: the levels below the top merged into
`list` from the bottom up. -/
def listSortCollect (cmp : α → α → Int) (part : Nat → List α) (maxLev : Nat) : List α :=
  (List.range maxLev).foldl (fun list lev => if part lev ≠ [] then listSortMerge cmp (part lev) list else list) []

/-- The links `merge_and_restore_back_links` writes after `tail`: each node of `xs` is linked
after the one before it, and the last one before `head`. -/
def restoreBackLinks (head : α) : Links α → α → List α → Links α
  | l, tail, [] => ⟨Function.update l.next tail head, Function.update l.prev head tail⟩
  | l, tail, x :: xs =>
    restoreBackLinks head ⟨Function.update l.next tail x, Function.update l.prev x tail⟩ x xs

/-- `merge_and_restore_back_links(priv, cmp, head, a, b)`: `a` and `b` merged as `merge` does,
linked in that order after `head` and closed on it. -/
def mergeAndRestoreBackLinks (cmp : α → α → Int) (l : Links α) (head : α) (a b : List α) : Links α :=
  restoreBackLinks head l head (listSortMerge cmp a b)

/-- The nodes from `x` on by `next` links, up to `head`: what `list = head->next` reaches once
`head->prev->next = NULL`; at most `fuel` nodes. -/
def linksChain (l : Links α) (head : α) : Nat → α → List α
  | 0, _ => []
  | fuel + 1, x => if x = head then [] else x :: linksChain l head fuel (l.next x)

/-- `list_sort(priv, head, cmp)`, reading at most `fuel` nodes after `head`. -/
def listSort (cmp : α → α → Int) (l : Links α) (head : α) (fuel : Nat) : Links α :=
  if listEmpty l head then l
  else
    match listSortLoop cmp (linksChain l head fuel (l.next head)) (fun _ => []) 0 with
    | (part, maxLev) => mergeAndRestoreBackLinks cmp l head (part maxLev) (listSortCollect cmp part maxLev)

end LinuxKernel
