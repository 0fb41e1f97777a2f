import LinuxKernel.Foundation.BuddyBlock
import Mathlib.Data.Fintype.Basic

/-!
# The buddy allocator

`mm/page_alloc.c`: the free lists of one zone without holes or guard pages, `__free_one_page`,
`expand` and `__rmqueue_smallest`. `PageBuddy` and `page_private` are one `Option Nat`, and
`free_area[o].free_list[mt]` a list of frame numbers, head first.
-/

namespace LinuxKernel

def maxOrder : Nat := 11

/-- `enum migratetype`, without `MIGRATE_CMA` (`CONFIG_CMA` is off). -/
inductive MigrateType
  | unmovable
  | reclaimable
  | movable
  | reserve
  | isolate
  deriving DecidableEq, Repr

instance : Fintype MigrateType :=
  Fintype.ofList [.unmovable, .reclaimable, .movable, .reserve, .isolate] (by intro m; cases m <;> simp)

/-- What the buddy allocator keeps of `struct zone` and of its pages. -/
structure Zone where
  spanned : Nat
  pageOrder : Nat → Option Nat
  freeList : Nat → MigrateType → List Nat
  nrFree : Nat → Nat

namespace Zone

/-- A zone whose pages are all allocated. -/
def allocated (spanned : Nat) : Zone := ⟨spanned, fun _ => none, fun _ _ => [], fun _ => 0⟩

def setPageOrder (z : Zone) (page order : Nat) : Zone :=
  { z with pageOrder := Function.update z.pageOrder page (some order) }

def rmvPageOrder (z : Zone) (page : Nat) : Zone :=
  { z with pageOrder := Function.update z.pageOrder page none }

def listDel (z : Zone) (page : Nat) : Zone :=
  { z with freeList := fun o m => (z.freeList o m).erase page }

/-- An edit of `free_area[order].free_list[mt]`. -/
def modifyList (z : Zone) (order : Nat) (mt : MigrateType) (f : List Nat → List Nat) : Zone :=
  { z with freeList := fun o m => if o = order ∧ m = mt then f (z.freeList o m) else z.freeList o m }

def listAdd (z : Zone) (page order : Nat) (mt : MigrateType) : Zone := z.modifyList order mt (page :: ·)

def listAddTail (z : Zone) (page order : Nat) (mt : MigrateType) : Zone := z.modifyList order mt (· ++ [page])

/-- `free_area[order].nr_free++`. -/
def incNrFree (z : Zone) (order : Nat) : Zone :=
  { z with nrFree := Function.update z.nrFree order (z.nrFree order + 1) }

/-- `free_area[order].nr_free--`. -/
def decNrFree (z : Zone) (order : Nat) : Zone :=
  { z with nrFree := Function.update z.nrFree order (z.nrFree order - 1) }

end Zone

def findBuddyIndex (pageIdx order : Nat) : Nat := pageIdx ^^^ (1 <<< order)

/-- `page_is_buddy(page, buddy, order)`: the buddy is in the page's zone and heads a free block of
that order. -/
def pageIsBuddy (z : Zone) (page buddy order : Nat) : Bool :=
  decide (page < z.spanned) && decide (buddy < z.spanned) && z.pageOrder buddy == some order

/-- The locals of `__free_one_page`. -/
structure FreeState where
  zone : Zone
  page : Nat
  pageIdx : Nat
  order : Nat
  buddyIdx : Nat

/-- The merging loop of `__free_one_page`, given enough iterations. `page_idx` is the low part of
`page`, so `page + (idx - page_idx)` is `page - page_idx + idx`. -/
def mergeLoop : Nat → FreeState → FreeState
  | 0, s => s
  | fuel + 1, s =>
    if s.order < maxOrder - 1 then
      let buddyIdx := findBuddyIndex s.pageIdx s.order
      let buddy := s.page - s.pageIdx + buddyIdx
      if !pageIsBuddy s.zone s.page buddy s.order then { s with buddyIdx := buddyIdx }
      else
        let z := ((s.zone.listDel buddy).decNrFree s.order).rmvPageOrder buddy
        let combinedIdx := buddyIdx &&& s.pageIdx
        mergeLoop fuel ⟨z, s.page - s.pageIdx + combinedIdx, combinedIdx, s.order + 1, buddyIdx⟩
    else s

def freeOnePage (z : Zone) (page order : Nat) (mt : MigrateType) : Zone :=
  -- `buddy_idx` starts uninitialised; it is read only after the loop has set it
  let s := mergeLoop maxOrder ⟨z, page, page % 2 ^ maxOrder, order, 0⟩
  let z := s.zone.setPageOrder s.page s.order
  let toTail :=
    if s.order < maxOrder - 2 then
      let combinedIdx := s.buddyIdx &&& s.pageIdx
      let higherPage := s.page - s.pageIdx + combinedIdx
      let buddyIdx := findBuddyIndex combinedIdx (s.order + 1)
      -- `higher_buddy = page + (buddy_idx - combined_idx)`, from `page` and not `higher_page`
      let higherBuddy := s.page + buddyIdx - combinedIdx
      pageIsBuddy z higherPage higherBuddy (s.order + 1)
    else false
  let z := if toTail then z.listAddTail s.page s.order mt else z.listAdd s.page s.order mt
  z.incNrFree s.order

/-- `expand(zone, page, low, high, area, migratetype)`: the upper halves split off, from order
`high - 1` down to `low`. -/
def expand (page low : Nat) (mt : MigrateType) : Nat → Zone → Zone
  | 0, z => z
  | high + 1, z =>
    if low < high + 1 then
      let size := 2 ^ high
      expand page low mt high (((z.listAdd (page + size) high mt).incNrFree high).setPageOrder (page + size) high)
    else z

/-- The loop of `__rmqueue_smallest` from `current_order` on, given enough iterations. -/
def rmqueueLoop (z : Zone) (order : Nat) (mt : MigrateType) : Nat → Nat → Option Nat × Zone
  | 0, _ => (none, z)
  | fuel + 1, currentOrder =>
    if currentOrder < maxOrder then
      match z.freeList currentOrder mt with
      | [] => rmqueueLoop z order mt fuel (currentOrder + 1)
      | page :: _ =>
        let z := ((z.listDel page).rmvPageOrder page).decNrFree currentOrder
        (some page, expand page order mt currentOrder z)
    else (none, z)

/-- `__rmqueue_smallest(zone, order, migratetype)`: the page handed out, or `NULL`. -/
def rmqueueSmallest (z : Zone) (order : Nat) (mt : MigrateType) : Option Nat × Zone :=
  rmqueueLoop z order mt maxOrder order

end LinuxKernel
