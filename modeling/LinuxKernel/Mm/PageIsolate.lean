import LinuxKernel.Mm.PageAlloc
import LinuxKernel.Mm.BuddySystem

/-!
# Pageblock isolation

A page is freed onto the lists of its pageblock's migratetype; `set_migratetype_isolate` and
`unset_migratetype_isolate` move a pageblock's free blocks. `__free_one_page` merges across
pageblocks, so an isolated pageblock's pages can be handed out as movable
(`freeOnePage_merges_isolated_pageblock`). Whether isolation succeeds is an argument.
-/

namespace LinuxKernel

open Buddy

/-- The migratetype of each pageblock, by pageblock number. -/
abbrev PageblockTypes := Nat → MigrateType

def getPageblockMigratetype (pageblockOrder : Nat) (types : PageblockTypes) (page : Nat) : MigrateType :=
  types (page >>> pageblockOrder)

def setPageblockMigratetype (pageblockOrder : Nat) (types : PageblockTypes) (page : Nat) (mt : MigrateType) :
    PageblockTypes :=
  Function.update types (page >>> pageblockOrder) mt

/-- The loop of `move_freepages` from `page` to `endPage`, with `fuel` rounds: each free block
that starts there moves to the list of `migratetype` for its order, and the walk jumps past it. -/
def moveFreepagesLoop (endPage : Nat) (mt : MigrateType) : Nat → Nat → Zone → Zone
  | 0, _, z => z
  | fuel + 1, page, z =>
    if page ≤ endPage then
      match z.pageOrder page with
      | none => moveFreepagesLoop endPage mt fuel (page + 1) z
      | some order =>
        -- `list_move(&page->lru, &zone->free_area[order].free_list[migratetype])`
        moveFreepagesLoop endPage mt fuel (page + 2 ^ order) ((z.listDel page).listAdd page order mt)
    else z

/-- `move_freepages_block(zone, page, migratetype)`: the pageblock of `page`, when it lies in the
zone. The number of pages moved, which the callers here drop, is not kept. -/
def moveFreepagesBlock (pageblockOrder : Nat) (z : Zone) (page : Nat) (mt : MigrateType) : Zone :=
  let startPfn := page >>> pageblockOrder <<< pageblockOrder
  let endPfn := startPfn + 2 ^ pageblockOrder - 1
  if endPfn ≥ z.spanned then z
  else moveFreepagesLoop endPfn mt (2 ^ pageblockOrder) startPfn z

section Move

variable {endPage : Nat} {mt : MigrateType}

@[simp] theorem moveFreepagesLoop_spanned : ∀ (fuel page : Nat) (z : Zone),
    (moveFreepagesLoop endPage mt fuel page z).spanned = z.spanned
  | 0, _, _ => rfl
  | fuel + 1, page, z => by
    simp only [moveFreepagesLoop]
    split_ifs
    · split
      · exact moveFreepagesLoop_spanned fuel _ z
      · exact moveFreepagesLoop_spanned fuel _ _
    · rfl

theorem moveFreepagesLoop_of_allocated {z : Zone} (allocated : ∀ p, z.pageOrder p = none) :
    ∀ (fuel page : Nat), moveFreepagesLoop endPage mt fuel page z = z
  | 0, _ => rfl
  | fuel + 1, page => by
    simp only [moveFreepagesLoop, allocated page]
    split_ifs
    · exact moveFreepagesLoop_of_allocated allocated fuel (page + 1)
    · rfl

theorem moveFreepagesBlock_of_allocated {pageblockOrder page : Nat} {z : Zone}
    (allocated : ∀ p, z.pageOrder p = none) : moveFreepagesBlock pageblockOrder z page mt = z := by
  unfold moveFreepagesBlock
  dsimp only
  split_ifs
  · rfl
  · exact moveFreepagesLoop_of_allocated allocated _ _

end Move

/-- `set_migratetype_isolate(page)`, `ok` being whether the immobile-page check lets it through. -/
def setMigratetypeIsolate (pageblockOrder : Nat) (z : Zone) (types : PageblockTypes) (page : Nat) (ok : Bool) :
    Zone × PageblockTypes :=
  if ok then
    (moveFreepagesBlock pageblockOrder z page .isolate, setPageblockMigratetype pageblockOrder types page .isolate)
  else (z, types)

def unsetMigratetypeIsolate (pageblockOrder : Nat) (z : Zone) (types : PageblockTypes) (page : Nat)
    (mt : MigrateType) : Zone × PageblockTypes :=
  if getPageblockMigratetype pageblockOrder types page ≠ .isolate then (z, types)
  else (moveFreepagesBlock pageblockOrder z page mt, setPageblockMigratetype pageblockOrder types page mt)

/-- The states a run reaches from a zone whose pages are all allocated and whose pageblocks are
all `MIGRATE_MOVABLE`, as `memmap_init_zone` leaves them: a pageblock is isolated or given back
its type, an aligned block of allocated pages is freed onto its pageblock's lists, or pages are
allocated. -/
inductive IsolateReachable (pageblockOrder : Nat) : Zone → PageblockTypes → (Nat → Bool) → Prop
  | init (spanned : Nat) : IsolateReachable pageblockOrder (Zone.allocated spanned) (fun _ => .movable) fun _ => false
  | isolate {z : Zone} {types : PageblockTypes} {F : Nat → Bool} (page : Nat) (ok : Bool) :
      IsolateReachable pageblockOrder z types F →
      IsolateReachable pageblockOrder (setMigratetypeIsolate pageblockOrder z types page ok).1
        (setMigratetypeIsolate pageblockOrder z types page ok).2 F
  | unisolate {z : Zone} {types : PageblockTypes} {F : Nat → Bool} (page : Nat) (mt : MigrateType) :
      IsolateReachable pageblockOrder z types F →
      IsolateReachable pageblockOrder (unsetMigratetypeIsolate pageblockOrder z types page mt).1
        (unsetMigratetypeIsolate pageblockOrder z types page mt).2 F
  | free {z : Zone} {types : PageblockTypes} {F : Nat → Bool} {p o : Nat} :
      IsolateReachable pageblockOrder z types F → 2 ^ o ∣ p → o < maxOrder → p + 2 ^ o ≤ z.spanned →
      (∀ q, InBlock p o q → F q = false) →
      IsolateReachable pageblockOrder (freeOnePage z p o (getPageblockMigratetype pageblockOrder types p)) types
        fun q => F q || decide (InBlock p o q)
  | alloc {z z' : Zone} {types : PageblockTypes} {F : Nat → Bool} {order page : Nat} {mt : MigrateType} :
      IsolateReachable pageblockOrder z types F → rmqueueSmallest z order mt = (some page, z') →
      IsolateReachable pageblockOrder z' types fun q => F q && !decide (InBlock page order q)

/-- Isolation is respected: every free block on a list lies in pageblocks that are isolated
exactly when the list is an isolate list. -/
def IsolationRespected (pageblockOrder : Nat) (z : Zone) (types : PageblockTypes) : Prop :=
  ∀ o mt p, p ∈ z.freeList o mt → ∀ q, InBlock p o q →
    (getPageblockMigratetype pageblockOrder types q = .isolate ↔ mt = .isolate)

/-- The zone after pageblock 0 of a two-pageblock zone (`pageblock_order` 9) is isolated, the
free pages of none, and both pageblocks are freed as blocks of order 9, the isolated one first. -/
def isolatedMergeZone : Zone :=
  freeOnePage (freeOnePage (moveFreepagesBlock 9 (Zone.allocated 1024) 0 .isolate) 0 9 .isolate) 512 9 .movable

/-- With `pageblock_order = 9 < MAX_ORDER - 1`, a run isolates pageblock 0 of a zone of 1024
pages, frees pageblock 0 and then pageblock 1 as blocks of order 9: `__free_one_page` merges the
two into one block of order 10 and puts it on the `MIGRATE_MOVABLE` list. Pages of the isolated
pageblock are then on a movable list, and `__rmqueue_smallest` hands out page 0 of the isolated
pageblock for `MIGRATE_MOVABLE`. -/
theorem freeOnePage_merges_isolated_pageblock :
    IsolateReachable 9 isolatedMergeZone (setPageblockMigratetype 9 (fun _ => .movable) 0 .isolate)
      (fun q => (false || decide (InBlock 0 9 q)) || decide (InBlock 512 9 q)) ∧
    ¬IsolationRespected 9 isolatedMergeZone (setPageblockMigratetype 9 (fun _ => .movable) 0 .isolate) ∧
    (rmqueueSmallest isolatedMergeZone 0 .movable).1 = some 0 ∧
    getPageblockMigratetype 9 (setPageblockMigratetype 9 (fun _ => .movable) 0 .isolate) 0 = .isolate := by
  have set : setMigratetypeIsolate 9 (Zone.allocated 1024) (fun _ => .movable) 0 true =
      (Zone.allocated 1024, setPageblockMigratetype 9 (fun _ => .movable) 0 .isolate) := by
    simp only [setMigratetypeIsolate, if_true, moveFreepagesBlock_of_allocated (z := Zone.allocated 1024) fun _ => rfl]
  have isolated := IsolateReachable.isolate 0 true (@IsolateReachable.init 9 1024)
  rw [set] at isolated
  have merged : isolatedMergeZone =
      freeOnePage (freeOnePage (Zone.allocated 1024) 0 9 .isolate) 512 9 .movable := by
    rw [isolatedMergeZone, moveFreepagesBlock_of_allocated (z := Zone.allocated 1024) fun _ => rfl]
  -- pageblock 0 is freed onto the isolate list, pageblock 1 onto the movable one
  have type0 : getPageblockMigratetype 9 (setPageblockMigratetype 9 (fun _ => .movable) 0 .isolate) 0 = .isolate := by
    decide
  have type1 : getPageblockMigratetype 9 (setPageblockMigratetype 9 (fun _ => .movable) 0 .isolate) 512 = .movable := by
    decide
  have first := IsolateReachable.free (p := 0) (o := 9) isolated (by decide) (by decide) (by decide) fun _ _ => rfl
  rw [type0] at first
  have second := IsolateReachable.free (p := 512) (o := 9) first (by decide) (by decide) (by decide)
    fun q hq => by simp only [InBlock] at hq ⊢; simp; omega
  rw [type1, ← merged] at second
  refine ⟨second, fun respected => ?_, by rw [merged]; decide, type0⟩
  -- the merged block of order 10 at page 0 is on the movable list, and page 0 is isolated
  have listed : 0 ∈ isolatedMergeZone.freeList 10 .movable := by rw [merged]; decide
  have := (respected 10 .movable 0 listed 0 (by decide)).mp type0
  cases this

end LinuxKernel
