import LinuxKernel.Lib.ListHead

/-!
# plist

`lib/plist.c`: nodes sorted by priority on the head's `node_list`, the first of each priority
also on the headless ring `prio_list`. The head's `node_list` is the address `none`; the walk of
`plist_add` runs on fuel, and its `WARN_ON`s only warn.
-/

namespace LinuxKernel

open CircularList

structure Plist (ι : Type) where
  prio : ι → Int
  nodeList : Links (Option ι)
  prioList : Links ι

variable {ι : Type} [DecidableEq ι]

/-- `plist_head_init`, with every node after `plist_node_init(node, prio node)`. -/
def plistInit (prio : ι → Int) : Plist ι := ⟨prio, ⟨id, id⟩, ⟨id, id⟩⟩

def plistNodeEmpty (s : Plist ι) (node : ι) : Bool := listEmpty s.nodeList (some node)

/-- The `do … while (iter != first)` loop of `plist_add` from `iter`, with `prev` the node it
visited last: the `iter`, `prev` and `node_next` it leaves. -/
def plistAddWalk (s : Plist ι) (node first : ι) : Nat → ι → Option ι → Option (ι × Option ι × Option ι)
  | 0, _, _ => none
  | fuel + 1, iter, prev =>
    if s.prio node < s.prio iter then some (iter, prev, some iter)
    else if s.prioList.next iter = first then some (first, some iter, none)
    else plistAddWalk s node first fuel (s.prioList.next iter) (some iter)

/-- `plist_add(node, head)`. The head is empty when its `node_list.next` is itself, and
`plist_first` is the node there otherwise. -/
def plistAdd (fuel : Nat) (s : Plist ι) (node : ι) : Option (Plist ι) :=
  match s.nodeList.next none with
  | none => some { s with nodeList := listAddTail s.nodeList (some node) none }
  | some first =>
    (plistAddWalk s node first fuel first none).map fun (iter, prev, nodeNext) =>
      { s with
        prioList :=
          if prev.all fun p => s.prio p != s.prio node then listAddTail s.prioList node iter else s.prioList
        nodeList := listAddTail s.nodeList (some node) nodeNext }

def plistDel (s : Plist ι) (node : ι) : Plist ι :=
  let prioList :=
    if !listEmpty s.prioList node then
      -- the next node takes `node`'s place on `prio_list` when it has the same priority
      let prioList :=
        match s.nodeList.next (some node) with
        | some next => if listEmpty s.prioList next then listAdd s.prioList next node else s.prioList
        | none => s.prioList
      listDelInit prioList node
    else s.prioList
  { s with prioList, nodeList := listDelInit s.nodeList (some node) }

end LinuxKernel
