import Mathlib.Data.List.ReduceOption
import LinuxKernel.Creds.Types
import LinuxKernel.Foundation.BinaryHeap

/-!
# Bounded priority heaps (lib/prio_heap.c)

A `ptr_heap` is a max-heap of at most `max` elements under `gt`. `heap_insert` sifts a new
element up while there is room; when full it drops an element greater than the root, or replaces
the root, sifts down and returns the old root. Indices are `Nat`.
-/

namespace LinuxKernel

open BinaryHeap FunArray

variable {α : Type}

/-- `struct ptr_heap` without its comparison, which is passed to each operation. -/
structure PtrHeap (α : Type) where
  ptrs : Nat → α
  max : Nat
  size : Nat

/-- `heap_init`: `mem` is what `kmalloc(size)` returned, and a pointer takes 8 bytes. -/
def heapInit (mem : Option (Nat → α)) (size : Nat) : Except Errno (PtrHeap α) :=
  match mem with
  | none => .error .noMem
  | some ptrs => .ok { ptrs := ptrs, max := size / 8, size := 0 }

/-- The sift-up loop of `heap_insert`: `pos` is the free cell, and each parent that `p` is
greater than moves down into it. -/
def heapSiftUp (gt : α → α → Bool) (p : α) (ptrs : Nat → α) (pos : Nat) : Nat → α :=
  if h : 0 < pos ∧ gt p (ptrs ((pos - 1) / 2)) = true then
    heapSiftUp gt p (Function.update ptrs pos (ptrs ((pos - 1) / 2))) ((pos - 1) / 2)
  else Function.update ptrs pos p
termination_by pos
decreasing_by omega

/-- The choice of `largest` in the sift-down loop: the greater of the children that are
greater than `p`, the left one on a tie, or `pos` itself. -/
def heapLargest (gt : α → α → Bool) (p : α) (size : Nat) (ptrs : Nat → α) (pos : Nat) : Nat :=
  let left := 2 * pos + 1
  let right := 2 * pos + 2
  let largest := if left < size ∧ gt (ptrs left) p = true then left else pos
  if right < size ∧ gt (ptrs right) (ptrs largest) = true then right else largest

theorem heapLargest_cases (gt : α → α → Bool) (p : α) (size : Nat) (ptrs : Nat → α)
    (pos : Nat) :
    heapLargest gt p size ptrs pos = pos ∨
      (IsChild (heapLargest gt p size ptrs pos) pos ∧ heapLargest gt p size ptrs pos < size) := by
  unfold heapLargest
  dsimp only
  split_ifs with leftGreater rightGreater rightGreater
  · exact .inr ⟨isChild_right pos, rightGreater.1⟩
  · exact .inr ⟨isChild_left pos, leftGreater.1⟩
  · exact .inr ⟨isChild_right pos, rightGreater.1⟩
  · exact .inl rfl

/-- The sift-down loop of `heap_insert`: `p` sits at `pos` and changes places with the larger
child until no child is greater. -/
def heapSiftDown (gt : α → α → Bool) (p : α) (size : Nat) (ptrs : Nat → α) (pos : Nat) :
    Nat → α :=
  let largest := heapLargest gt p size ptrs pos
  if largest = pos then ptrs
  else
    heapSiftDown gt p size
      (Function.update (Function.update ptrs pos (ptrs largest)) largest p) largest
termination_by size - pos
decreasing_by
  have := heapLargest_cases gt p size ptrs pos
  have := (this.resolve_left ‹_›).1.lt
  omega

/-- `heap_insert`, with the element it returns (`NULL` is `none`). -/
def heapInsert (gt : α → α → Bool) (heap : PtrHeap α) (p : α) : PtrHeap α × Option α :=
  if heap.size < heap.max then
    ({ heap with ptrs := heapSiftUp gt p heap.ptrs heap.size, size := heap.size + 1 }, none)
  -- full: drop `p` if it is greater than the root
  else if gt p (heap.ptrs 0) then (heap, some p)
  else
    ({ heap with ptrs := heapSiftDown gt p heap.size (Function.update heap.ptrs 0 p) 0 },
      some (heap.ptrs 0))

/-- A caller inserting the elements of a list one by one, collecting what each call returns. -/
def heapInsertAll (gt : α → α → Bool) : PtrHeap α → List α → PtrHeap α × List (Option α)
  | heap, [] => (heap, [])
  | heap, p :: ps =>
    let step := heapInsert gt heap p
    let run := heapInsertAll gt step.1 ps
    (run.1, step.2 :: run.2)

theorem heapInsert_cases (gt : α → α → Bool) (heap : PtrHeap α) (p : α) :
    (heap.size < heap.max ∧ heapInsert gt heap p =
      ({ heap with ptrs := heapSiftUp gt p heap.ptrs heap.size, size := heap.size + 1 }, none)) ∨
    (heap.max ≤ heap.size ∧ gt p (heap.ptrs 0) = true ∧ heapInsert gt heap p = (heap, some p)) ∨
    (heap.max ≤ heap.size ∧ gt p (heap.ptrs 0) = false ∧ heapInsert gt heap p =
      ({ heap with ptrs := heapSiftDown gt p heap.size (Function.update heap.ptrs 0 p) 0 },
        some (heap.ptrs 0))) := by
  unfold heapInsert
  by_cases room : heap.size < heap.max
  · exact .inl ⟨room, if_pos room⟩
  · rw [if_neg room]
    cases drop : gt p (heap.ptrs 0)
    · exact .inr (.inr ⟨by omega, rfl, rfl⟩)
    · exact .inr (.inl ⟨by omega, rfl, rfl⟩)

/-- The heap is ordered under `gt`: no child is greater than its parent. -/
def HeapOrdered (gt : α → α → Bool) (heap : PtrHeap α) : Prop :=
  Ordered (fun a b => gt a b = true) heap.ptrs heap.size

/-- A heap `heap_insert` can be called on: ordered, not overfull, with room for one. -/
structure HeapValid (gt : α → α → Bool) (heap : PtrHeap α) : Prop where
  ordered : HeapOrdered gt heap
  fits : heap.size ≤ heap.max
  room : 0 < heap.max

/-- What one `heap_insert` of `p` into `heap` does, leaving `heap'` and returning `r`: the heap
stays ordered and grows until it is full, the call returns `NULL` exactly while there is
room, and otherwise the element it sets aside, which no element kept is greater than. -/
structure HeapCall (gt : α → α → Bool) (heap : PtrHeap α) (p : α) (heap' : PtrHeap α)
    (r : Option α) : Prop where
  ordered : HeapOrdered gt heap'
  capacity : heap'.max = heap.max
  size : heap'.size = min heap.max (heap.size + 1)
  null : r = none ↔ heap.size < heap.max
  perm : (cells heap'.ptrs heap'.size ++ r.toList).Perm (cells heap.ptrs heap.size ++ [p])
  largest : ∀ d ∈ r, ∀ x ∈ cells heap'.ptrs heap'.size, ¬ gt x d = true

/-- What a run of `heap_insert` over `ps` from an empty heap of `max` cells leaves: an ordered
heap of the first `min max n` inserted, the returns as the rest of `ps`, no element kept
greater than one returned, and `NULL` returned by exactly the first `max` calls. -/
structure HeapKeeps (gt : α → α → Bool) (max : Nat) (ps : List α) (heap : PtrHeap α)
    (rs : List (Option α)) : Prop where
  ordered : HeapOrdered gt heap
  capacity : heap.max = max
  size : heap.size = min max ps.length
  perm : (cells heap.ptrs heap.size ++ rs.reduceOption).Perm ps
  smallest : ∀ k ∈ cells heap.ptrs heap.size, ∀ d ∈ rs.reduceOption, ¬ gt k d = true
  nulls : rs.map Option.isNone = (List.range ps.length).map fun i => decide (i < max)

/-! ## The two sifts -/

section Sift

variable {gt : α → α → Bool} {p : α}

variable (gt) in
theorem heapSiftUp_perm (ptrs : Nat → α) {n pos : Nat} (lt : pos < n) :
    (cells (heapSiftUp gt p ptrs pos) n).Perm (cells (Function.update ptrs pos p) n) := by
  fun_induction heapSiftUp gt p ptrs pos with
  | case1 ptrs pos up ih =>
    -- the parent moved down is an exchange of the free cell and its parent
    exact (ih (by omega)).trans (cells_move_perm ptrs p lt (by omega) (by omega))
  | case2 ptrs pos stop => exact List.Perm.refl _

theorem heapLargest_here_perm {ptrs : Nat → α} {size pos : Nat} (here : ptrs pos = p)
    (largest : heapLargest gt p size ptrs pos ≠ pos) (lt : pos < size) :
    (cells (Function.update (Function.update ptrs pos (ptrs (heapLargest gt p size ptrs pos)))
      (heapLargest gt p size ptrs pos) p) size).Perm (cells ptrs size) := by
  have moved := ((heapLargest_cases gt p size ptrs pos).resolve_left largest).2
  have swap := cells_swap_perm ptrs lt moved
  rwa [here] at swap

variable (gt) in
theorem heapSiftDown_perm {size : Nat} (ptrs : Nat → α) {pos : Nat} (here : ptrs pos = p)
    (lt : pos < size) : (cells (heapSiftDown gt p size ptrs pos) size).Perm (cells ptrs size) := by
  fun_induction heapSiftDown gt p size ptrs pos with
  | case1 ptrs pos largest stop => exact List.Perm.refl _
  | case2 ptrs pos largest moved ih =>
    have cases := (heapLargest_cases gt p size ptrs pos).resolve_left moved
    exact (ih (Function.update_self ..) cases.2).trans (heapLargest_here_perm here moved lt)

variable [IsStrictWeakOrder α (fun a b => gt a b = true)]

theorem heapSiftUp_ordered {ptrs : Nat → α} {n pos : Nat}
    (o : UpOrder (fun a b => gt a b = true) ptrs n pos p) (lt : pos < n) :
    Ordered (fun a b => gt a b = true) (heapSiftUp gt p ptrs pos) n := by
  fun_induction heapSiftUp gt p ptrs pos with
  | case1 ptrs pos up ih =>
    exact ih (o.move (by omega) lt up.2) (by omega)
  | case2 ptrs pos stop =>
    refine o.finish fun nonroot greater => stop ⟨Nat.pos_of_ne_zero nonroot, greater⟩

variable (gt) in
theorem heapLargest_greatest {ptrs : Nat → α} (size : Nat) {pos : Nat} (here : ptrs pos = p) :
    ¬ gt p (ptrs (heapLargest gt p size ptrs pos)) = true ∧
      ∀ d, IsChild d pos → d < size → ¬ gt (ptrs d) (ptrs (heapLargest gt p size ptrs pos)) = true := by
  unfold heapLargest
  dsimp only
  generalize pick : (if 2 * pos + 1 < size ∧ gt (ptrs (2 * pos + 1)) p = true
    then 2 * pos + 1 else pos) = first
  -- after the left child: neither `p` nor the left child is greater than the pick so far
  have byFirst : ¬ gt p (ptrs first) = true ∧
      (2 * pos + 1 < size → ¬ gt (ptrs (2 * pos + 1)) (ptrs first) = true) := by
    rw [← pick]
    split_ifs with leftGreater
    · exact ⟨not_rel_of_rel (r := fun a b => gt a b = true) leftGreater.2,
        fun _ => not_rel_self (r := fun a b => gt a b = true) _⟩
    · rw [here]
      exact ⟨not_rel_self (r := fun a b => gt a b = true) p,
        fun lt greater => leftGreater ⟨lt, greater⟩⟩
  split_ifs with rightGreater
  · refine ⟨not_rel_of_rel_right (r := fun a b => gt a b = true) byFirst.1 rightGreater.2, ?_⟩
    intro d child lt
    rcases child.eq_left_or_right with rfl | rfl
    · exact not_rel_of_rel_right (r := fun a b => gt a b = true) (byFirst.2 lt) rightGreater.2
    · exact not_rel_self (r := fun a b => gt a b = true) _
  · refine ⟨byFirst.1, ?_⟩
    intro d child lt
    rcases child.eq_left_or_right with rfl | rfl
    · exact byFirst.2 lt
    · exact fun greater => rightGreater ⟨lt, greater⟩

theorem heapSiftDown_ordered {size : Nat} {ptrs : Nat → α} {pos : Nat}
    (o : DownOrder (fun a b => gt a b = true) ptrs size pos p) :
    Ordered (fun a b => gt a b = true) (heapSiftDown gt p size ptrs pos) size := by
  fun_induction heapSiftDown gt p size ptrs pos with
  | case1 ptrs pos largest stop =>
    change heapLargest gt p size ptrs pos = pos at stop
    have greatest := (heapLargest_greatest gt size o.here).2
    rw [stop, o.here] at greatest
    exact o.finish greatest
  | case2 ptrs pos largest moved ih =>
    have cases := (heapLargest_cases gt p size ptrs pos).resolve_left moved
    have greatest := heapLargest_greatest gt size o.here
    exact ih (o.move cases.1 cases.2 greatest.1 greatest.2)

theorem heapSiftUp_insert {heap : PtrHeap α} (ordered : HeapOrdered gt heap) :
    Ordered (fun a b => gt a b = true) (heapSiftUp gt p heap.ptrs heap.size) (heap.size + 1) ∧
      (cells (heapSiftUp gt p heap.ptrs heap.size) (heap.size + 1)).Perm
        (cells heap.ptrs heap.size ++ [p]) := by
  refine ⟨heapSiftUp_ordered (UpOrder.start ordered p) (by omega), ?_⟩
  rw [← cells_update_last]
  exact heapSiftUp_perm gt _ (by omega)

theorem heapSiftDown_replace {heap : PtrHeap α} (ordered : HeapOrdered gt heap)
    (full : 0 < heap.size) :
    Ordered (fun a b => gt a b = true)
        (heapSiftDown gt p heap.size (Function.update heap.ptrs 0 p) 0) heap.size ∧
      (cells (heapSiftDown gt p heap.size (Function.update heap.ptrs 0 p) 0) heap.size ++
        [heap.ptrs 0]).Perm (cells heap.ptrs heap.size ++ [p]) := by
  refine ⟨heapSiftDown_ordered (DownOrder.start ordered p), ?_⟩
  have sifted := heapSiftDown_perm gt _ (Function.update_self 0 p heap.ptrs) full
  exact (sifted.append_right _).trans (cells_replace_perm _ _ full)

end Sift

/-! ## One call -/

section Insert

variable {gt : α → α → Bool} [IsStrictWeakOrder α (fun a b => gt a b = true)]

theorem heapInsert_drop_greatest {heap : PtrHeap α} {p : α} (ordered : HeapOrdered gt heap)
    (drop : gt p (heap.ptrs 0) = true) :
    ∀ x ∈ cells heap.ptrs heap.size ++ [p], ¬ gt x p = true := by
  intro x mem
  rcases List.mem_append.mp mem with mem | mem
  · obtain ⟨i, lt, rfl⟩ := mem_cells.mp mem
    exact not_rel_of_rel_right (r := fun a b => gt a b = true) (ordered.root_greatest i lt) drop
  · rw [List.mem_singleton.mp mem]
    exact not_rel_self (r := fun a b => gt a b = true) p

theorem heapInsert_replace_greatest {heap : PtrHeap α} {p : α} (ordered : HeapOrdered gt heap)
    (keep : gt p (heap.ptrs 0) = false) :
    ∀ x ∈ cells heap.ptrs heap.size ++ [p], ¬ gt x (heap.ptrs 0) = true := by
  intro x mem
  rcases List.mem_append.mp mem with mem | mem
  · obtain ⟨i, lt, rfl⟩ := mem_cells.mp mem
    exact ordered.root_greatest i lt
  · rw [List.mem_singleton.mp mem, keep]
    exact Bool.false_ne_true

theorem heapInsert_call {heap : PtrHeap α} (valid : HeapValid gt heap) (p : α) :
    HeapCall gt heap p (heapInsert gt heap p).1 (heapInsert gt heap p).2 := by
  rcases heapInsert_cases gt heap p with ⟨room, eq⟩ | ⟨full, drop, eq⟩ | ⟨full, keep, eq⟩ <;>
    rw [eq]
  · -- room left: `p` is sifted up from the new last cell and nothing is returned
    obtain ⟨ordered, perm⟩ := heapSiftUp_insert (p := p) valid.ordered
    refine ⟨ordered, rfl, by dsimp only; omega, by simp [room], by simpa using perm, ?_⟩
    intro d none
    cases none
  · -- full and `p` greater than the root: `p` itself is returned
    refine ⟨valid.ordered, rfl, by have := valid.fits; dsimp only; omega, by simp; omega,
      List.Perm.refl _, ?_⟩
    intro d returned x kept
    cases returned
    exact heapInsert_drop_greatest valid.ordered drop x (List.mem_append_left _ kept)
  · -- full: `p` replaces the root, which is returned
    obtain ⟨ordered, perm⟩ := heapSiftDown_replace (p := p) valid.ordered (by have := valid.room; omega)
    refine ⟨ordered, rfl, by have := valid.fits; dsimp only; omega, by simp; omega, perm, ?_⟩
    intro d returned x kept
    cases returned
    exact heapInsert_replace_greatest valid.ordered keep x
      (perm.subset (List.mem_append_left _ kept))

end Insert

/-! ## Runs -/

section Run

variable {gt : α → α → Bool} {max : Nat}

theorem HeapKeeps.start {heap : PtrHeap α} (empty : heap.size = 0) :
    HeapKeeps gt heap.max [] heap [] where
  ordered i _ lt := absurd lt (by omega)
  capacity := rfl
  size := by simp [empty]
  perm := by simp [empty, cells]
  smallest k kept := by simp [empty, cells] at kept
  nulls := rfl

theorem HeapKeeps.valid {ps : List α} {heap : PtrHeap α} {rs : List (Option α)}
    (keeps : HeapKeeps gt max ps heap rs) (room : 0 < max) : HeapValid gt heap where
  ordered := keeps.ordered
  fits := by rw [keeps.size, keeps.capacity]; exact Nat.min_le_left _ _
  room := keeps.capacity ▸ room

theorem HeapKeeps.nothing_returned {ps : List α} {heap : PtrHeap α} {rs : List (Option α)}
    (keeps : HeapKeeps gt max ps heap rs) (room : heap.size < heap.max) : rs.reduceOption = [] := by
  have lengths := keeps.perm.length_eq
  rw [List.length_append, length_cells] at lengths
  have size := keeps.size
  have capacity := keeps.capacity
  apply List.eq_nil_of_length_eq_zero
  omega

variable [IsStrictWeakOrder α (fun a b => gt a b = true)]

theorem HeapKeeps.insert {ps : List α} {heap : PtrHeap α} {rs : List (Option α)}
    (keeps : HeapKeeps gt max ps heap rs) (room : 0 < max) (p : α) :
    HeapKeeps gt max (ps ++ [p]) (heapInsert gt heap p).1 (rs ++ [(heapInsert gt heap p).2]) := by
  have call := heapInsert_call (keeps.valid room) p
  have capacity := keeps.capacity
  have size := keeps.size
  constructor
  · exact call.ordered
  · rw [call.capacity, capacity]
  · rw [call.size, size, capacity, List.length_append, List.length_singleton]
    omega
  · rw [List.reduceOption_append, List.reduceOption_singleton]
    -- the new return joins the old ones; the rest is the call's own permutation
    calc List.Perm _ ((cells (heapInsert gt heap p).1.ptrs (heapInsert gt heap p).1.size ++
            (heapInsert gt heap p).2.toList) ++ rs.reduceOption) := by
          rw [List.append_assoc]
          exact List.perm_append_comm.append_left _
      List.Perm _ ((cells heap.ptrs heap.size ++ [p]) ++ rs.reduceOption) :=
          call.perm.append_right _
      List.Perm _ ((cells heap.ptrs heap.size ++ rs.reduceOption) ++ [p]) := by
          rw [List.append_assoc, List.append_assoc]
          exact List.perm_append_comm.append_left _
      List.Perm _ (ps ++ [p]) := keeps.perm.append_right _
  · intro k kept d returned
    rw [List.reduceOption_append, List.reduceOption_singleton, List.mem_append] at returned
    have before : k ∈ cells heap.ptrs heap.size ++ [p] :=
      call.perm.subset (List.mem_append_left _ kept)
    rcases returned with old | new
    · rcases List.mem_append.mp before with held | single
      · exact keeps.smallest k held d old
      · -- `p` is kept while an earlier call returned `d`: the heap was full
        rw [List.mem_singleton.mp single] at kept ⊢
        rcases heapInsert_cases gt heap p with ⟨room', -⟩ | ⟨-, -, eq⟩ | ⟨full, keep, -⟩
        · rw [keeps.nothing_returned room'] at old
          cases old
        · rw [eq] at kept
          exact keeps.smallest p kept d old
        · -- `p` is not greater than the root returned now, which is not greater than `d`
          have root : heap.ptrs 0 ∈ cells heap.ptrs heap.size :=
            mem_cells.mpr ⟨0, by omega, rfl⟩
          have notGreater : ¬ gt p (heap.ptrs 0) = true := by
            rw [keep]
            exact Bool.false_ne_true
          exact not_rel_trans (r := fun a b => gt a b = true) notGreater
            (keeps.smallest _ root d old)
    · exact call.largest d (Option.mem_toList.mp new) k kept
  · rw [List.map_append, keeps.nulls, List.length_append, List.length_singleton,
      List.range_succ, List.map_append]
    simp only [List.map_singleton, List.append_cancel_left_eq, List.cons.injEq, and_true]
    -- this call returns `NULL` exactly when fewer than `max` came before it
    have returned := call.null
    rw [size, capacity] at returned
    cases r : (heapInsert gt heap p).2 <;> simp [r] at returned ⊢ <;> omega

theorem heapInsertAll_keeps {pre : List α} {heap : PtrHeap α} {rs : List (Option α)}
    (keeps : HeapKeeps gt max pre heap rs) (room : 0 < max) (ps : List α) :
    HeapKeeps gt max (pre ++ ps) (heapInsertAll gt heap ps).1 (rs ++ (heapInsertAll gt heap ps).2) := by
  induction ps generalizing pre heap rs with
  | nil => simpa [heapInsertAll] using keeps
  | cons p ps ih => simpa [heapInsertAll] using ih (keeps.insert room p)

end Run

theorem heapInsert_keeps_smallest {gt : α → α → Bool} [IsStrictWeakOrder α fun a b => gt a b = true]
    (heap : PtrHeap α) (empty : heap.size = 0) (room : 0 < heap.max) (ps : List α) :
    HeapKeeps gt heap.max ps (heapInsertAll gt heap ps).1 (heapInsertAll gt heap ps).2 ∧
      ∀ p, HeapCall gt (heapInsertAll gt heap ps).1 p (heapInsert gt (heapInsertAll gt heap ps).1 p).1
        (heapInsert gt (heapInsertAll gt heap ps).1 p).2 := by
  have start : HeapKeeps gt heap.max [] heap [] := HeapKeeps.start empty
  have run := heapInsertAll_keeps start room ps
  rw [List.nil_append, List.nil_append] at run
  exact ⟨run, fun p => heapInsert_call (run.valid room) p⟩

theorem natGreater_strictWeakOrder : IsStrictWeakOrder ℕ (fun a b => decide (b < a) = true) where
  irrefl a := by simp
  trans a b c ab bc := by simp only [decide_eq_true_eq] at *; omega
  incomp_trans a b c ab bc := by simp only [decide_eq_true_eq] at *; omega

theorem heapInsert_keeps_smallest_two :
    (⟨fun _ => 0, 2, 0⟩ : PtrHeap ℕ).size = 0 ∧ 0 < (⟨fun _ => 0, 2, 0⟩ : PtrHeap ℕ).max ∧
      HeapKeeps (fun a b => decide (b < a)) 2 [3, 1, 2]
        (heapInsertAll (fun a b => decide (b < a)) ⟨fun _ => 0, 2, 0⟩ [3, 1, 2]).1
        (heapInsertAll (fun a b => decide (b < a)) ⟨fun _ => 0, 2, 0⟩ [3, 1, 2]).2 := by
  have := natGreater_strictWeakOrder
  exact ⟨rfl, by decide, (heapInsert_keeps_smallest ⟨fun _ => 0, 2, 0⟩ rfl (by decide) [3, 1, 2]).1⟩

end LinuxKernel
