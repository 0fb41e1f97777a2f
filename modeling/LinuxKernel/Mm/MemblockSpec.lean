import Mathlib.Logic.Relation
import LinuxKernel.Mm.MemblockWalk

/-!
What memblock is for: each array stands for a map from the addresses it covers to their
nodes. Every operation is a sequence of steps on the arrays: an array moved by
`memblock_double_array`, a region walk that adds, removes or relabels a range. The
invariant of an array is stated once and kept by each step; the model's functions are shown
to be such sequences by induction on their nesting depth.
-/

namespace LinuxKernel

open MemblockRegion Relation

namespace MemblockType

def covered (t : MemblockType) : Set Nat := {x | ∃ r ∈ t.regions, r.base ≤ x ∧ x < r.base + r.size}

/-- The array invariant: sorted disjoint non-empty regions below `ULLONG_MAX`, or the
placeholder alone, with `total_size` their sum. -/
structure Wf (t : MemblockType) : Prop where
  regions : MemblockRegions t.regions
  total : t.totalSize = sizeSum t.regions
  max_pos : 0 < t.max

theorem exists_holds_iff_nodeAt {l : List MemblockRegion} {x : Nat} :
    (∃ r ∈ l, r.base ≤ x ∧ x < r.base + r.size) ↔ nodeAt l x ≠ none := by
  simp only [nodeAt, ne_eq, Option.map_eq_none_iff, List.find?_eq_none, decide_eq_true_eq, not_forall,
    not_not, exists_prop]

theorem mem_covered_iff {t : MemblockType} {x : Nat} : x ∈ t.covered ↔ nodeAt t.regions x ≠ none :=
  exists_holds_iff_nodeAt

variable {t t' : MemblockType} {base end_ : Nat}

theorem covered_of_regions (h : t'.regions = t.regions) : t'.covered = t.covered := by
  simp only [covered, h]

theorem covered_of_remove
    (h : ∀ x, nodeAt t'.regions x = if base ≤ x ∧ x < end_ then none else nodeAt t.regions x) :
    t'.covered = t.covered \ Set.Ico base end_ := by
  ext x
  simp only [Set.mem_sdiff, mem_covered_iff, h x, Set.mem_Ico]
  split_ifs with hx <;> simp [hx]

end MemblockType

/-- The invariant of `memblock`: both arrays well formed, and the current limit a
`phys_addr_t`. -/
structure Memblock.Wf (mb : Memblock) : Prop where
  memory : mb.memory.Wf
  reserved : mb.reserved.Wf
  limit : mb.currentLimit ≤ ullongMax

section SetType

variable {mb : Memblock} {k : MemblockKind} {t : MemblockType}

@[simp] theorem type_setType : (mb.setType k t).type k = t := by cases k <;> rfl

theorem type_setType_of_ne {k' : MemblockKind} (ne : k ≠ k') : (mb.setType k t).type k' = mb.type k' := by
  cases k <;> cases k' <;> first | rfl | exact absurd rfl ne

@[simp] theorem setType_type : mb.setType k (mb.type k) = mb := by cases k <;> rfl

@[simp] theorem setType_setType {t' : MemblockType} : (mb.setType k t).setType k t' = mb.setType k t' := by
  cases k <;> rfl

@[simp] theorem memory_setType_reserved : (mb.setType .reserved t).memory = mb.memory := rfl

@[simp] theorem reserved_setType_memory : (mb.setType .memory t).reserved = mb.reserved := rfl

@[simp] theorem canResize_setType : (mb.setType k t).canResize = mb.canResize := by cases k <;> rfl

@[simp] theorem currentLimit_setType : (mb.setType k t).currentLimit = mb.currentLimit := by
  cases k <;> rfl

theorem Memblock.Wf.setType (wf : mb.Wf) (h : t.Wf) : (mb.setType k t).Wf := by
  cases k
  exacts [⟨h, wf.reserved, wf.limit⟩, ⟨wf.memory, h, wf.limit⟩]

theorem Memblock.Wf.type (wf : mb.Wf) (k : MemblockKind) : (mb.type k).Wf := by
  cases k
  exacts [wf.memory, wf.reserved]

end SetType

/-! ### Steps -/

/-- One step of an operation on array `k`. -/
inductive MemblockStep (k : MemblockKind) : Memblock → Memblock → Prop
  /-- `memblock_double_array` moves the array: regions and total kept, room not shrunk. -/
  | move (mb : Memblock) (t : MemblockType) (regions : t.regions = (mb.type k).regions)
      (total : t.totalSize = (mb.type k).totalSize) (max : (mb.type k).max ≤ t.max) :
      MemblockStep k mb (mb.setType k t)
  /-- The empty-array case of `memblock_add_region`. -/
  | first (mb : Memblock) (base size : Nat) (nid : Int)
      (empty : ((mb.type k).regions.headD emptyRegion).size = 0) (pos : 0 < size)
      (fits : base + size ≤ ullongMax) :
      MemblockStep k mb (mb.setType k { mb.type k with
        regions := (mb.type k).regions.set 0 ⟨base, size, nid⟩, totalSize := size })
  /-- The second round of `memblock_add_region` and the merge. -/
  | insert (mb : Memblock) (base end_ : Nat) (nid : Int) (fits : end_ ≤ ullongMax) :
      MemblockStep k mb (mb.setType k (memblockAddInsert (mb.type k) base end_ nid))
  /-- `__memblock_remove` once there is room. -/
  | remove (mb : Memblock) (base end_ : Nat) (lt : base < end_) :
      MemblockStep k mb (mb.setType k (memblockRemovePhase (mb.type k) base end_))

/-- What a call on array `k` goes through: its own steps, and steps on reserved. -/
def MemblockSteps (k : MemblockKind) : Memblock → Memblock → Prop :=
  ReflTransGen fun a b => MemblockStep k a b ∨ MemblockStep .reserved a b

/-- What doubling array `k` goes through: moves of it, and steps on reserved. -/
def MemblockMoves (k : MemblockKind) : Memblock → Memblock → Prop :=
  ReflTransGen fun a b => (∃ t, t.regions = (a.type k).regions ∧ t.totalSize = (a.type k).totalSize ∧
    (a.type k).max ≤ t.max ∧ b = a.setType k t) ∨ MemblockStep .reserved a b

theorem MemblockMoves.steps {k : MemblockKind} {mb mb' : Memblock} (h : MemblockMoves k mb mb') :
    MemblockSteps k mb mb' := by
  refine ReflTransGen.mono (fun a b step => ?_) mb mb' h
  rcases step with ⟨t, regions, total, max, rfl⟩ | step
  exacts [.inl (.move a t regions total max), .inr step]

theorem MemblockSteps.of_reserved {k : MemblockKind} {mb mb' : Memblock}
    (h : MemblockSteps .reserved mb mb') : MemblockSteps k mb mb' :=
  ReflTransGen.mono (fun _ _ step => Or.inr (step.elim id id)) mb mb' h

theorem MemblockMoves.of_reserved {k : MemblockKind} {mb mb' : Memblock}
    (h : MemblockSteps .reserved mb mb') : MemblockMoves k mb mb' :=
  ReflTransGen.mono (fun _ _ step => Or.inr (step.elim id id)) mb mb' h

theorem MemblockMoves.move {k : MemblockKind} {mb : Memblock} (t : MemblockType)
    (regions : t.regions = (mb.type k).regions) (total : t.totalSize = (mb.type k).totalSize)
    (max : (mb.type k).max ≤ t.max) : MemblockMoves k mb (mb.setType k t) :=
  ReflTransGen.single (.inl ⟨t, regions, total, max, rfl⟩)

/-! ### One level of each function

What each function of the model does with what its callees return. -/

section Inversion

variable {fuel : Nat} {env : MemblockEnv} {mb mb' : Memblock} {k : MemblockKind}

/-- `memblock_double_array`: it fails with nothing changed, or it moves the array to twice the
room, frees the old array in reserved unless it was static or from slab, reserves the new
one unless it is from slab, and notes where it lives. -/
theorem memblockDoubleArray_inv {a s : Nat} {ok : Bool}
    (h : memblockDoubleArray (fuel + 1) env mb k a s = some (mb', ok)) :
    (mb' = mb ∧ ok = false) ∨
      ∃ addr mb₂ mb₃,
        let moved := mb.setType k { mb.type k with max := (mb.type k).max * 2, array := some addr }
        (env.slab = false → addr + pageAlign ((mb.type k).max * memblockRegionSize * 2) ≤
          max (max (if k = .reserved then a + s else 0) pageSize) mb.currentLimit) ∧
        (mb₂ = moved ∨ ∃ old r, (mb.type k).inSlab = false ∧ (mb.type k).array = some old ∧
          memblockRemove fuel env moved .reserved old (pageAlign ((mb.type k).max * memblockRegionSize))
            = some (mb₂, r)) ∧
        ((env.slab = true ∧ mb₃ = mb₂) ∨ (env.slab = false ∧
          memblockAddRegion fuel env mb₂ .reserved addr
            (pageAlign ((mb.type k).max * memblockRegionSize * 2)) maxNumnodes = some (mb₃, .ok ()))) ∧
        mb' = mb₃.setType k { mb₃.type k with inSlab := env.slab } ∧ ok = true := by
  unfold memblockDoubleArray at h
  split at h
  · cases h
    exact .inl ⟨rfl, rfl⟩
  extract_lets t oldSize newSize oldAllocSize newAllocSize areaStart areaSize found addr moved freed
    at h
  split at h
  · cases h
    exact .inl ⟨rfl, rfl⟩
  rename_i nonzero
  obtain ⟨mb₂, hfreed, h⟩ := Option.bind_eq_some_iff.mp h
  extract_lets reserved at h
  obtain ⟨mb₃, hreserved, eq⟩ := Option.map_eq_some_iff.mp h
  cases eq
  refine .inr ⟨addr, mb₂, mb₃, ?_, ?_, ?_, rfl, rfl⟩
  · -- the new array is where [[memblock_find_in_range]] found room
    intro noSlab
    simp only [addr, found, areaStart, areaSize, newAllocSize, newSize, oldSize, t, noSlab,
      Bool.false_eq_true, if_false] at nonzero ⊢
    split_ifs at nonzero ⊢ <;>
      first
      | have := env.findInRange_fits _ _ _ _ nonzero; omega
  · simp only [freed] at hfreed
    split at hfreed
    · exact .inl (Option.some_injective _ hfreed).symm
    split at hfreed
    · exact .inl (Option.some_injective _ hfreed).symm
    rename_i inSlab _ old array
    obtain ⟨⟨_, r⟩, hr, rfl⟩ := Option.map_eq_some_iff.mp hfreed
    exact .inr ⟨old, r, by simpa using inSlab, array, hr⟩
  · simp only [reserved] at hreserved
    split at hreserved
    · exact .inl ⟨by assumption, (Option.some_injective _ hreserved).symm⟩
    rename_i slab
    obtain ⟨⟨_, r⟩, hr, hreserved⟩ := Option.bind_eq_some_iff.mp hreserved
    cases r with
    | ok u =>
      cases hreserved
      exact .inr ⟨by simpa using slab, hr⟩
    | error e => cases hreserved

theorem memblockGrow_inv {n a s : Nat} {ok : Bool}
    (h : memblockGrow (fuel + 1) env mb k n a s = some (mb', ok)) :
    ((mb.type k).regions.length + n ≤ (mb.type k).max ∧ mb' = mb ∧ ok = true) ∨
      (memblockDoubleArray fuel env mb k a s = some (mb', false) ∧ ok = false) ∨
      ∃ mb₁, memblockDoubleArray fuel env mb k a s = some (mb₁, true) ∧
        memblockGrow fuel env mb₁ k n a s = some (mb', ok) := by
  unfold memblockGrow at h
  split at h
  · obtain ⟨⟨mb₁, b⟩, hd, h⟩ := Option.bind_eq_some_iff.mp h
    cases b
    · cases h
      exact .inr (.inl ⟨hd, rfl⟩)
    · exact .inr (.inr ⟨mb₁, hd, h⟩)
  · cases h
    exact .inl ⟨by omega, rfl, rfl⟩

theorem memblockAddRegion_inv {base size : Nat} {nid : Int} {r : Except Errno Unit}
    (h : memblockAddRegion (fuel + 1) env mb k base size nid = some (mb', r)) :
    (memblockCapSize base size = 0 ∧ mb' = mb ∧ r = .ok ()) ∨
    (0 < memblockCapSize base size ∧ ((mb.type k).regions.headD emptyRegion).size = 0 ∧
      mb' = mb.setType k { mb.type k with
        regions := (mb.type k).regions.set 0 ⟨base, memblockCapSize base size, nid⟩,
        totalSize := memblockCapSize base size } ∧ r = .ok ()) ∨
    (0 < memblockCapSize base size ∧ ((mb.type k).regions.headD emptyRegion).size ≠ 0 ∧
      ∃ mb₁ b, memblockGrow fuel env mb k
          (memblockAddWalk false (base + memblockCapSize base size) nid base (mb.type k).regions).2.1
          base (memblockCapSize base size) = some (mb₁, b) ∧
        ((b = true ∧ mb' = mb₁.setType k
            (memblockAddInsert (mb₁.type k) base (base + memblockCapSize base size) nid) ∧
            r = .ok ()) ∨ (b = false ∧ mb' = mb₁ ∧ r = .error .noMem))) := by
  unfold memblockAddRegion at h
  extract_lets capped t nrNew at h
  split at h
  · cases h
    exact .inl ⟨by assumption, rfl, rfl⟩
  split at h
  · cases h
    exact .inr (.inl ⟨by omega, by assumption, rfl, rfl⟩)
  obtain ⟨⟨mb₁, b⟩, hg, h⟩ := Option.map_eq_some_iff.mp h
  refine .inr (.inr ⟨by omega, by assumption, mb₁, b, hg, ?_⟩)
  cases b
  · cases h
    exact .inr ⟨rfl, rfl, rfl⟩
  · cases h
    exact .inl ⟨rfl, rfl, rfl⟩

theorem memblockRemove_inv {base size : Nat} {r : Except Errno Unit}
    (h : memblockRemove (fuel + 2) env mb k base size = some (mb', r)) :
    (memblockCapSize base size = 0 ∧ mb' = mb ∧ r = .ok ()) ∨
    (0 < memblockCapSize base size ∧
      ∃ mb₁ b, memblockGrow fuel env mb k 2 base (memblockCapSize base size) = some (mb₁, b) ∧
        ((b = true ∧ mb' = mb₁.setType k
            (memblockRemovePhase (mb₁.type k) base (base + memblockCapSize base size)) ∧
            r = .ok ()) ∨ (b = false ∧ mb' = mb₁ ∧ r = .error .noMem))) := by
  unfold memblockRemove at h
  obtain ⟨⟨mbi, ri⟩, hi, h⟩ := Option.map_eq_some_iff.mp h
  unfold memblockIsolateRange at hi
  extract_lets capped at hi
  split at hi
  · cases hi
    cases h
    exact .inl ⟨by assumption, by simp [removeRegions_self], rfl⟩
  obtain ⟨⟨mb₁, b⟩, hg, hi⟩ := Option.map_eq_some_iff.mp hi
  refine .inr ⟨by omega, mb₁, b, hg, ?_⟩
  cases b
  · cases hi
    cases h
    exact .inr ⟨rfl, rfl, rfl⟩
  · cases hi
    cases h
    exact .inl ⟨rfl, by simp only [setType_setType, type_setType]; rfl, rfl⟩

/-- `memblock_set_node`: with nothing to isolate it only merges memory; otherwise the doubling
loop of `memblock_isolate_range` and, if that succeeded, the relabelling. -/
theorem memblockSetNode_inv {base size : Nat} {nid : Int} {r : Except Errno Unit}
    (h : memblockSetNode (fuel + 1) env mb base size nid = some (mb', r)) :
    (memblockCapSize base size = 0 ∧
      mb' = { mb with memory := { mb.memory with regions := memblockMergeRegions mb.memory.regions } } ∧
      r = .ok ()) ∨
    (0 < memblockCapSize base size ∧
      ∃ mb₁ b, memblockGrow fuel env mb .memory 2 base (memblockCapSize base size) = some (mb₁, b) ∧
        ((b = true ∧ mb' = { mb₁ with
            memory := memblockSetNodePhase mb₁.memory base (base + memblockCapSize base size) nid } ∧
            r = .ok ()) ∨ (b = false ∧ mb' = mb₁ ∧ r = .error .noMem))) := by
  unfold memblockSetNode at h
  obtain ⟨⟨mbi, ri⟩, hi, h⟩ := Option.map_eq_some_iff.mp h
  unfold memblockIsolateRange at hi
  extract_lets capped at hi
  split at hi
  · cases hi
    cases h
    exact .inl ⟨by assumption, by simp only [mapIdx_relabel_empty], rfl⟩
  obtain ⟨⟨mb₁, b⟩, hg, hi⟩ := Option.map_eq_some_iff.mp hi
  refine .inr ⟨by omega, mb₁, b, hg, ?_⟩
  cases b
  · cases hi
    cases h
    exact .inr ⟨rfl, rfl, rfl⟩
  · cases hi
    cases h
    exact .inl ⟨rfl, rfl, rfl⟩

end Inversion

/-! ### Every call is a sequence of steps -/

section Steps

variable {fuel : Nat} {env : MemblockEnv}

theorem capSize_fits {base size : Nat} (pos : 0 < memblockCapSize base size) :
    base + memblockCapSize base size ≤ ullongMax := by
  unfold memblockCapSize at *
  omega

theorem doubleArray_eq_of_fail {mb mb' : Memblock} {k : MemblockKind} {a s : Nat}
    (h : memblockDoubleArray fuel env mb k a s = some (mb', false)) : mb' = mb := by
  cases fuel with
  | zero => simp [memblockDoubleArray] at h
  | succ fuel =>
    rcases memblockDoubleArray_inv h with ⟨rfl, -⟩ | ⟨-, -, -, -, -, -, -, h⟩
    · rfl
    · cases h

theorem doubleArray_moves_of_ok
    (remove : ∀ {mb mb' base size r}, memblockRemove fuel env mb .reserved base size = some (mb', r) →
      MemblockSteps .reserved mb mb')
    (add : ∀ {mb mb' base size nid r}, memblockAddRegion fuel env mb .reserved base size nid =
      some (mb', r) → MemblockSteps .reserved mb mb')
    {mb mb' : Memblock} {k : MemblockKind} {a s : Nat}
    (h : memblockDoubleArray (fuel + 1) env mb k a s = some (mb', true)) :
    ∃ t : MemblockType, t.regions = (mb.type k).regions ∧ t.totalSize = (mb.type k).totalSize ∧
      t.max = (mb.type k).max * 2 ∧ MemblockMoves k (mb.setType k t) mb' := by
  rcases memblockDoubleArray_inv h with ⟨-, h⟩ | ⟨addr, mb₂, mb₃, -, freed, reserved, rfl, -⟩
  · cases h
  let moved := mb.setType k { mb.type k with max := (mb.type k).max * 2, array := some addr }
  refine ⟨{ mb.type k with max := (mb.type k).max * 2, array := some addr }, rfl, rfl, rfl, ?_⟩
  have second : MemblockMoves k moved mb₂ := by
    rcases freed with rfl | ⟨old, r, -, -, hr⟩
    exacts [.refl, .of_reserved (remove hr)]
  have third : MemblockMoves k mb₂ mb₃ := by
    rcases reserved with ⟨-, rfl⟩ | ⟨-, hr⟩
    exacts [.refl, .of_reserved (add hr)]
  exact second.trans (third.trans (MemblockMoves.move _ rfl rfl le_rfl))

theorem doubleArray_moves
    (remove : ∀ {mb mb' base size r}, memblockRemove fuel env mb .reserved base size = some (mb', r) →
      MemblockSteps .reserved mb mb')
    (add : ∀ {mb mb' base size nid r}, memblockAddRegion fuel env mb .reserved base size nid =
      some (mb', r) → MemblockSteps .reserved mb mb')
    {mb mb' : Memblock} {k : MemblockKind} {a s : Nat} {ok : Bool}
    (h : memblockDoubleArray (fuel + 1) env mb k a s = some (mb', ok)) : MemblockMoves k mb mb' := by
  cases ok
  · rw [doubleArray_eq_of_fail h]
    exact .refl
  · obtain ⟨t, regions, total, max, rest⟩ := doubleArray_moves_of_ok remove add h
    have grown : (mb.type k).max ≤ t.max := by
      rw [max]
      exact Nat.le_mul_of_pos_right _ two_pos
    exact (MemblockMoves.move t regions total grown).trans rest

theorem grow_moves
    (double : ∀ {mb mb' k a s ok}, memblockDoubleArray fuel env mb k a s = some (mb', ok) →
      MemblockMoves k mb mb')
    (grow : ∀ {mb mb' k n a s ok}, memblockGrow fuel env mb k n a s = some (mb', ok) →
      MemblockMoves k mb mb')
    {mb mb' : Memblock} {k : MemblockKind} {n a s : Nat} {ok : Bool}
    (h : memblockGrow (fuel + 1) env mb k n a s = some (mb', ok)) : MemblockMoves k mb mb' := by
  rcases memblockGrow_inv h with ⟨-, rfl, -⟩ | ⟨hd, -⟩ | ⟨mb₁, hd, hg⟩
  · exact .refl
  · exact double hd
  · exact (double hd).trans (grow hg)

theorem addRegion_steps
    (grow : ∀ {mb mb' k n a s ok}, memblockGrow fuel env mb k n a s = some (mb', ok) →
      MemblockMoves k mb mb')
    {mb mb' : Memblock} {k : MemblockKind} {base size : Nat} {nid : Int} {r : Except Errno Unit}
    (h : memblockAddRegion (fuel + 1) env mb k base size nid = some (mb', r)) :
    MemblockSteps k mb mb' := by
  rcases memblockAddRegion_inv h with ⟨-, rfl, -⟩ | ⟨pos, empty, rfl, -⟩ |
    ⟨pos, -, mb₁, b, hg, ⟨-, rfl, -⟩ | ⟨-, rfl, -⟩⟩
  · exact .refl
  · exact .single (.inl (.first mb base _ nid empty pos (capSize_fits pos)))
  · exact (grow hg).steps.tail (.inl (.insert mb₁ base _ nid (capSize_fits pos)))
  · exact (grow hg).steps

theorem remove_steps
    (grow : ∀ {mb mb' k n a s ok}, memblockGrow fuel env mb k n a s = some (mb', ok) →
      MemblockMoves k mb mb')
    {mb mb' : Memblock} {k : MemblockKind} {base size : Nat} {r : Except Errno Unit}
    (h : memblockRemove (fuel + 2) env mb k base size = some (mb', r)) : MemblockSteps k mb mb' := by
  rcases memblockRemove_inv h with ⟨-, rfl, -⟩ | ⟨pos, mb₁, b, hg, ⟨-, rfl, -⟩ | ⟨-, rfl, -⟩⟩
  · exact .refl
  · exact (grow hg).steps.tail (.inl (.remove mb₁ base _ (by omega)))
  · exact (grow hg).steps

theorem memblock_steps (fuel : Nat) :
    (∀ {mb mb' k a s ok}, memblockDoubleArray fuel env mb k a s = some (mb', ok) →
      MemblockMoves k mb mb') ∧
    (∀ {mb mb' k n a s ok}, memblockGrow fuel env mb k n a s = some (mb', ok) →
      MemblockMoves k mb mb') ∧
    (∀ {mb mb' k base size nid r}, memblockAddRegion fuel env mb k base size nid = some (mb', r) →
      MemblockSteps k mb mb') ∧
    (∀ {mb mb' k base size r}, memblockRemove fuel env mb k base size = some (mb', r) →
      MemblockSteps k mb mb') := by
  induction fuel using Nat.strong_induction_on with
  | _ fuel ih =>
    cases fuel with
    | zero =>
      refine ⟨fun h => ?_, fun h => ?_, fun h => ?_, fun h => ?_⟩ <;>
        simp [memblockDoubleArray, memblockGrow, memblockAddRegion, memblockRemove] at h
    | succ f =>
      obtain ⟨double, grow, add, remove⟩ := ih f (by omega)
      refine ⟨doubleArray_moves remove add, grow_moves double grow, addRegion_steps grow, ?_⟩
      cases f with
      | zero =>
        intro mb mb' k base size r h
        simp [memblockRemove, memblockIsolateRange] at h
      | succ g =>
        intro mb mb' k base size r h
        exact remove_steps (ih g (by omega)).2.1 h

end Steps

/-! ### What the steps leave alone -/

section Frames

variable {fuel : Nat} {env : MemblockEnv} {k : MemblockKind} {mb mb' : Memblock}

@[simp] theorem max_removeRegion (t : MemblockType) (r : Nat) :
    (memblockRemoveRegion t r).max = t.max := by
  unfold memblockRemoveRegion
  dsimp only
  split_ifs <;> rfl

@[simp] theorem max_removeRegions (t : MemblockType) (s e : Nat) :
    (memblockRemoveRegions t s e).max = t.max := by
  induction e generalizing t with
  | zero => rfl
  | succ e ih =>
    rw [memblockRemoveRegions]
    split_ifs
    · rfl
    · rw [ih, max_removeRegion]

@[simp] theorem max_removePhase (t : MemblockType) (base end_ : Nat) :
    (memblockRemovePhase t base end_).max = t.max := by
  simp [memblockRemovePhase, memblockIsolateRegions]

theorem MemblockStep.setType (h : MemblockStep k mb mb') :
    ∃ t, mb' = mb.setType k t ∧ (mb.type k).max ≤ t.max := by
  cases h with
  | move t _ _ max => exact ⟨t, rfl, max⟩
  | first => exact ⟨_, rfl, le_rfl⟩
  | insert => exact ⟨_, rfl, le_rfl⟩
  | remove => exact ⟨_, rfl, by simp⟩

theorem MemblockStep.type_of_ne {j : MemblockKind} (h : MemblockStep k mb mb') (ne : k ≠ j) :
    mb'.type j = mb.type j := by
  obtain ⟨t, rfl, -⟩ := h.setType
  exact type_setType_of_ne ne

theorem MemblockStep.max_le (h : MemblockStep k mb mb') (j : MemblockKind) :
    (mb.type j).max ≤ (mb'.type j).max := by
  obtain ⟨t, rfl, max⟩ := h.setType
  by_cases same : k = j
  · subst same
    simpa using max
  · rw [type_setType_of_ne same]

theorem MemblockStep.currentLimit (h : MemblockStep k mb mb') : mb'.currentLimit = mb.currentLimit := by
  obtain ⟨t, rfl, -⟩ := h.setType
  simp

theorem MemblockSteps.max_le (h : MemblockSteps k mb mb') (j : MemblockKind) :
    (mb.type j).max ≤ (mb'.type j).max := by
  induction h with
  | refl => exact le_rfl
  | tail _ step ih => exact ih.trans (step.elim (·.max_le j) (·.max_le j))

theorem MemblockSteps.currentLimit (h : MemblockSteps k mb mb') : mb'.currentLimit = mb.currentLimit := by
  induction h with
  | refl => rfl
  | tail _ step ih => rw [step.elim (·.currentLimit) (·.currentLimit), ih]

theorem MemblockMoves.memory_regions (h : MemblockMoves .memory mb mb') :
    mb'.memory.regions = mb.memory.regions := by
  induction h with
  | refl => rfl
  | tail _ step ih =>
    rcases step with ⟨t, regions, -, -, rfl⟩ | step
    · exact regions.trans ih
    · rw [← ih]
      exact congrArg MemblockType.regions (step.type_of_ne (j := .memory) (by decide))

theorem doubleArray_max {a s : Nat} (h : memblockDoubleArray fuel env mb k a s = some (mb', true)) :
    (mb.type k).max * 2 ≤ (mb'.type k).max := by
  cases fuel with
  | zero => simp [memblockDoubleArray] at h
  | succ fuel =>
    obtain ⟨t, -, -, max, rest⟩ :=
      doubleArray_moves_of_ok (memblock_steps fuel).2.2.2 (memblock_steps fuel).2.2.1 h
    simpa [max] using rest.steps.max_le k

theorem grow_eq_of_max {n a s : Nat} {ok : Bool} (h : memblockGrow fuel env mb k n a s = some (mb', ok))
    (pos : 0 < (mb.type k).max) (same : (mb'.type k).max = (mb.type k).max) : mb' = mb := by
  cases fuel with
  | zero => simp [memblockGrow] at h
  | succ fuel =>
    rcases memblockGrow_inv h with ⟨-, rfl, -⟩ | ⟨hd, -⟩ | ⟨mb₁, hd, hg⟩
    · rfl
    · exact doubleArray_eq_of_fail hd
    · have doubled := doubleArray_max hd
      have grown := ((memblock_steps fuel).2.1 hg).steps.max_le k
      omega

end Frames

/-! ### The array invariant

Each step keeps `MemblockType.Wf` of its array, provided an insert does not meet the
placeholder. That proviso is where slab matters: without slab, a doubling of an array ends by
reserving the new array in reserved, so reserved is never left empty when the insert it was
doubled for comes. -/

theorem MemblockSorted.ne_placeholder {s : Nat} {l : List MemblockRegion} (h : MemblockSorted s l) :
    l ≠ [emptyRegion] := by
  rintro rfl
  simp [emptyRegion] at h

theorem le_pageAlign (x : Nat) : x ≤ pageAlign x := by
  unfold pageAlign pageSize
  omega

theorem pageSize_le_ullongMax : pageSize ≤ ullongMax := by decide

namespace MemblockType

variable {t t' : MemblockType} {base end_ size : Nat} {nid : Int}

theorem Wf.move (wf : t.Wf) (regions : t'.regions = t.regions) (total : t'.totalSize = t.totalSize)
    (max : t.max ≤ t'.max) : t'.Wf :=
  ⟨regions ▸ wf.regions, by rw [total, regions, wf.total], lt_of_lt_of_le wf.max_pos max⟩

theorem Wf.placeholder (wf : t.Wf) (empty : (t.regions.headD emptyRegion).size = 0) :
    t.regions = [emptyRegion] := by
  rcases wf.regions with hp | ⟨ne, sorted⟩
  · exact hp
  obtain ⟨r, l, eq⟩ := List.exists_cons_of_ne_nil ne
  rw [eq, sorted_cons] at sorted
  simp only [eq, List.headD_cons] at empty
  omega

theorem Wf.first (nid : Int) (wf : t.Wf) (empty : (t.regions.headD emptyRegion).size = 0) (pos : 0 < size)
    (fits : base + size ≤ ullongMax) :
    let t' := { t with regions := t.regions.set 0 ⟨base, size, nid⟩, totalSize := size }
    t'.Wf ∧ t'.regions ≠ [emptyRegion] := by
  have sorted : MemblockSorted 0 [⟨base, size, nid⟩] := by simp [pos, fits]
  simp only [wf.placeholder empty, List.set_cons_zero]
  exact ⟨⟨.inr ⟨List.cons_ne_nil _ _, sorted⟩, by simp, wf.max_pos⟩, sorted.ne_placeholder⟩

theorem Wf.addInsert (base : Nat) (nid : Int) (wf : t.Wf) (ne : t.regions ≠ [emptyRegion]) (fits : end_ ≤ ullongMax) :
    (memblockAddInsert t base end_ nid).Wf ∧
      (memblockAddInsert t base end_ nid).regions ≠ [emptyRegion] := by
  obtain ⟨ne, sorted⟩ := wf.regions.resolve_left ne
  have sorted' : MemblockSorted 0 (memblockAddInsert t base end_ nid).regions :=
    sorted_addInsert fits sorted
  exact ⟨⟨.inr ⟨addInsert_ne_nil ne, sorted'⟩, total_addInsert wf.total, wf.max_pos⟩,
    sorted'.ne_placeholder⟩

theorem Wf.mergeRegions (wf : t.Wf) :
    ({ t with regions := memblockMergeRegions t.regions } : MemblockType).Wf := by
  refine ⟨?_, by rw [sizeSum_mergeRegions]; exact wf.total, wf.max_pos⟩
  rcases wf.regions with hp | ⟨ne, sorted⟩
  · exact .inl (by rw [hp]; rfl)
  · exact .inr ⟨mergeRegions_ne_nil ne, sorted_mergeRegions sorted⟩

theorem Wf.setNodePhase (wf : t.Wf) (lt : base < end_) :
    (memblockSetNodePhase t base end_ nid).Wf := by
  obtain ⟨l, eq, hl, sum, -, -⟩ := setNodePhase_shape lt wf.regions nid
  rw [eq]
  exact ⟨hl, by rw [sum]; exact wf.total, wf.max_pos⟩

theorem Wf.removePhase (wf : t.Wf) (lt : base < end_) : (memblockRemovePhase t base end_).Wf := by
  obtain ⟨l, eq, hl, le, -⟩ := removePhase_shape lt wf.regions
  rw [eq]
  refine ⟨hl, ?_, wf.max_pos⟩
  dsimp only
  rw [wf.total]
  omega

end MemblockType

section Invariant

variable {fuel : Nat} {env : MemblockEnv}

theorem grow_wf
    (double : ∀ {mb mb' k a s ok}, memblockDoubleArray fuel env mb k a s = some (mb', ok) → mb.Wf →
      a + s ≤ ullongMax →
      mb'.Wf ∧ ((mb.type k).regions ≠ [emptyRegion] → (mb'.type k).regions ≠ [emptyRegion]))
    (grow : ∀ {mb mb' k n a s ok}, memblockGrow fuel env mb k n a s = some (mb', ok) → mb.Wf →
      a + s ≤ ullongMax →
      mb'.Wf ∧ ((mb.type k).regions ≠ [emptyRegion] → (mb'.type k).regions ≠ [emptyRegion]))
    {mb mb' : Memblock} {k : MemblockKind} {n a s : Nat} {ok : Bool}
    (h : memblockGrow (fuel + 1) env mb k n a s = some (mb', ok)) (wf : mb.Wf)
    (fits : a + s ≤ ullongMax) :
    mb'.Wf ∧ ((mb.type k).regions ≠ [emptyRegion] → (mb'.type k).regions ≠ [emptyRegion]) := by
  rcases memblockGrow_inv h with ⟨-, rfl, -⟩ | ⟨hd, -⟩ | ⟨mb₁, hd, hg⟩
  · exact ⟨wf, id⟩
  · exact double hd wf fits
  · obtain ⟨wf₁, ne₁⟩ := double hd wf fits
    obtain ⟨wf', ne'⟩ := grow hg wf₁ fits
    exact ⟨wf', ne' ∘ ne₁⟩

theorem addRegion_wf
    (grow : ∀ {mb mb' k n a s ok}, memblockGrow fuel env mb k n a s = some (mb', ok) → mb.Wf →
      a + s ≤ ullongMax →
      mb'.Wf ∧ ((mb.type k).regions ≠ [emptyRegion] → (mb'.type k).regions ≠ [emptyRegion]))
    {mb mb' : Memblock} {k : MemblockKind} {base size : Nat} {nid : Int} {r : Except Errno Unit}
    (h : memblockAddRegion (fuel + 1) env mb k base size nid = some (mb', r)) (wf : mb.Wf) :
    mb'.Wf ∧ (r = .ok () → 0 < memblockCapSize base size → (mb'.type k).regions ≠ [emptyRegion]) := by
  rcases memblockAddRegion_inv h with ⟨zero, rfl, -⟩ | ⟨pos, empty, rfl, -⟩ |
    ⟨pos, full, mb₁, b, hg, ⟨-, rfl, -⟩ | ⟨-, rfl, rfl⟩⟩
  · exact ⟨wf, fun _ pos => absurd zero pos.ne'⟩
  · obtain ⟨wf', ne'⟩ := (wf.type k).first nid empty pos (capSize_fits pos)
    exact ⟨wf.setType wf', fun _ _ => by simpa using ne'⟩
  · -- the array was not empty before the doubling loop, so it is not empty after it
    obtain ⟨wf₁, kept⟩ := grow hg wf (capSize_fits pos)
    have ne₁ := kept fun hp => full (by rw [hp]; rfl)
    obtain ⟨wf', ne'⟩ := (wf₁.type k).addInsert base nid ne₁ (capSize_fits pos)
    exact ⟨wf₁.setType wf', fun _ _ => by simpa using ne'⟩
  · exact ⟨(grow hg wf (capSize_fits pos)).1, fun r => by cases r⟩

theorem remove_wf
    (grow : ∀ {mb mb' k n a s ok}, memblockGrow fuel env mb k n a s = some (mb', ok) → mb.Wf →
      a + s ≤ ullongMax →
      mb'.Wf ∧ ((mb.type k).regions ≠ [emptyRegion] → (mb'.type k).regions ≠ [emptyRegion]))
    {mb mb' : Memblock} {k : MemblockKind} {base size : Nat} {r : Except Errno Unit}
    (h : memblockRemove (fuel + 2) env mb k base size = some (mb', r)) (wf : mb.Wf) : mb'.Wf := by
  rcases memblockRemove_inv h with ⟨-, rfl, -⟩ | ⟨pos, mb₁, b, hg, ⟨-, rfl, -⟩ | ⟨-, rfl, -⟩⟩
  · exact wf
  · have wf₁ := (grow hg wf (capSize_fits pos)).1
    exact wf₁.setType ((wf₁.type k).removePhase (by omega))
  · exact (grow hg wf (capSize_fits pos)).1

variable (noSlab : env.slab = false)
include noSlab

/-- Without slab, a doubling keeps the invariant, and an array it doubles is not left empty:
the new array is reserved in reserved, where it fits below `ULLONG_MAX`. -/
theorem doubleArray_wf
    (remove : ∀ {mb mb' base size r}, memblockRemove fuel env mb .reserved base size = some (mb', r) →
      mb.Wf → mb'.Wf)
    (add : ∀ {mb mb' base size nid r}, memblockAddRegion fuel env mb .reserved base size nid =
      some (mb', r) → mb.Wf → mb'.Wf ∧
        (r = .ok () → 0 < memblockCapSize base size → mb'.reserved.regions ≠ [emptyRegion]))
    {mb mb' : Memblock} {k : MemblockKind} {a s : Nat} {ok : Bool}
    (h : memblockDoubleArray (fuel + 1) env mb k a s = some (mb', ok)) (wf : mb.Wf)
    (fits : a + s ≤ ullongMax) :
    mb'.Wf ∧ ((mb.type k).regions ≠ [emptyRegion] → (mb'.type k).regions ≠ [emptyRegion]) := by
  rcases memblockDoubleArray_inv h with ⟨rfl, -⟩ | ⟨addr, mb₂, mb₃, room, freed, reserved, rfl, -⟩
  · exact ⟨wf, id⟩
  let moved := mb.setType k { mb.type k with max := (mb.type k).max * 2, array := some addr }
  have wf₁ : moved.Wf :=
    wf.setType ((wf.type k).move rfl rfl (Nat.le_mul_of_pos_right _ two_pos))
  have wf₂ : mb₂.Wf := by
    rcases freed with rfl | ⟨old, r, -, -, hr⟩
    exacts [wf₁, remove hr wf₁]
  obtain ⟨-, hr⟩ := reserved.resolve_left (by simp [noSlab])
  -- the new array lies below `ULLONG_MAX`, so all of it is reserved
  have pos : 0 < memblockCapSize addr (pageAlign ((mb.type k).max * memblockRegionSize * 2)) := by
    have grown := le_pageAlign ((mb.type k).max * memblockRegionSize * 2)
    have := room noSlab
    have := (wf.type k).max_pos
    have := wf.limit
    have := pageSize_le_ullongMax
    unfold memblockCapSize memblockRegionSize at *
    split_ifs at * <;> omega
  obtain ⟨wf₃, ne₃⟩ := add hr wf₂
  refine ⟨wf₃.setType ((wf₃.type k).move rfl rfl le_rfl), fun ne => ?_⟩
  rw [type_setType]
  cases k
  · -- memory was only moved; the rest happened in reserved
    have := (doubleArray_moves (memblock_steps fuel).2.2.2 (memblock_steps fuel).2.2.1 h).memory_regions
    simpa using this ▸ ne
  · exact ne₃ rfl pos

/-- Without slab every call keeps the invariant, however deep its doublings nest; a doubling
loop does not leave an array it grows empty, nor does an add of a non-empty range. -/
theorem memblock_wf (fuel : Nat) :
    (∀ {mb mb' k a s ok}, memblockDoubleArray fuel env mb k a s = some (mb', ok) → mb.Wf →
      a + s ≤ ullongMax →
      mb'.Wf ∧ ((mb.type k).regions ≠ [emptyRegion] → (mb'.type k).regions ≠ [emptyRegion])) ∧
    (∀ {mb mb' k n a s ok}, memblockGrow fuel env mb k n a s = some (mb', ok) → mb.Wf →
      a + s ≤ ullongMax →
      mb'.Wf ∧ ((mb.type k).regions ≠ [emptyRegion] → (mb'.type k).regions ≠ [emptyRegion])) ∧
    (∀ {mb mb' k base size nid r}, memblockAddRegion fuel env mb k base size nid = some (mb', r) →
      mb.Wf →
      mb'.Wf ∧ (r = .ok () → 0 < memblockCapSize base size → (mb'.type k).regions ≠ [emptyRegion])) ∧
    (∀ {mb mb' k base size r}, memblockRemove fuel env mb k base size = some (mb', r) → mb.Wf →
      mb'.Wf) := by
  induction fuel using Nat.strong_induction_on with
  | _ fuel ih =>
    cases fuel with
    | zero =>
      refine ⟨fun h => ?_, fun h => ?_, fun h => ?_, fun h => ?_⟩ <;>
        simp [memblockDoubleArray, memblockGrow, memblockAddRegion, memblockRemove] at h
    | succ f =>
      obtain ⟨double, grow, add, remove⟩ := ih f (by omega)
      refine ⟨doubleArray_wf noSlab remove add, grow_wf double grow, addRegion_wf grow, ?_⟩
      cases f with
      | zero =>
        intro mb mb' k base size r h
        simp [memblockRemove, memblockIsolateRange] at h
      | succ g =>
        intro mb mb' k base size r h
        exact remove_wf (ih g (by omega)).2.1 h

theorem setNode_wf {mb mb' : Memblock} {base size : Nat} {nid : Int} {r : Except Errno Unit}
    (h : memblockSetNode fuel env mb base size nid = some (mb', r)) (wf : mb.Wf) : mb'.Wf := by
  cases fuel with
  | zero => simp [memblockSetNode, memblockIsolateRange] at h
  | succ fuel =>
  rcases memblockSetNode_inv h with ⟨-, rfl, -⟩ | ⟨pos, mb₁, b, hg, ⟨-, rfl, -⟩ | ⟨-, rfl, -⟩⟩
  · exact ⟨wf.memory.mergeRegions, wf.reserved, wf.limit⟩
  · have wf₁ := ((memblock_wf noSlab fuel).2.1 hg wf (capSize_fits pos)).1
    exact ⟨wf₁.memory.setNodePhase (by omega), wf₁.reserved, wf₁.limit⟩
  · exact ((memblock_wf noSlab fuel).2.1 hg wf (capSize_fits pos)).1

theorem enforceMemoryLimit_wf {mb mb' : Memblock} {limit : Nat}
    (h : memblockEnforceMemoryLimit fuel env mb limit = some mb') (wf : mb.Wf) : mb'.Wf := by
  unfold memblockEnforceMemoryLimit at h
  split at h
  · cases h
    exact wf
  obtain ⟨⟨mb₁, r₁⟩, h₁, h⟩ := Option.bind_eq_some_iff.mp h
  obtain ⟨⟨mb₂, r₂⟩, h₂, rfl⟩ := Option.map_eq_some_iff.mp h
  exact (memblock_wf noSlab fuel).2.2.2 h₂ ((memblock_wf noSlab fuel).2.2.2 h₁ wf)

theorem memblockCall_wf {mb mb' : Memblock} {c : MemblockCall} {r : Except Errno Unit}
    (h : memblockCall fuel env mb c = some (mb', r)) (wf : mb.Wf) : mb'.Wf := by
  cases c with
  | add | addNode | reserve => exact ((memblock_wf noSlab fuel).2.2.1 h wf).1
  | remove | free => exact (memblock_wf noSlab fuel).2.2.2 h wf
  | setNode => exact setNode_wf noSlab h wf
  | enforceMemoryLimit limit =>
    obtain ⟨mb₁, h₁, eq⟩ := Option.map_eq_some_iff.mp h
    cases eq
    exact enforceMemoryLimit_wf noSlab h₁ wf
  | allowResize =>
    cases h
    exact ⟨wf.memory, wf.reserved, wf.limit⟩

end Invariant

/-! ### What the calls do to the addresses

An array stands for the map `nodeAt` from the addresses it covers to their nodes. The doubling
loop of a call on memory leaves memory's map alone; on reserved it does when it doubles
nothing, which the room of reserved shows. -/

section Semantics

variable {fuel : Nat} {env : MemblockEnv} {mb mb' : Memblock} {k : MemblockKind}

theorem grow_regions {mb₁ : Memblock} {n a s : Nat} {ok : Bool}
    (h : memblockGrow fuel env mb k n a s = some (mb₁, ok)) (pos : 0 < (mb.type k).max)
    (kept : k = .memory ∨ (mb₁.type k).max = (mb.type k).max) :
    (mb₁.type k).regions = (mb.type k).regions := by
  rcases kept with rfl | same
  · exact ((memblock_steps fuel).2.1 h).memory_regions
  · rw [grow_eq_of_max h pos same]

/-- `__memblock_remove` on array `k`: on success the capped range is no longer covered and
the rest keeps its nodes; `-ENOMEM` leaves the regions as they were. -/
theorem remove_nodeAt {base size : Nat} {r : Except Errno Unit}
    (h : memblockRemove fuel env mb k base size = some (mb', r)) (wf : mb.Wf)
    (kept : k = .memory ∨ (mb'.type k).max = (mb.type k).max) :
    (r = .ok () ∧ ∀ x, nodeAt (mb'.type k).regions x =
        if base ≤ x ∧ x < base + memblockCapSize base size then none
        else nodeAt (mb.type k).regions x) ∨
    (r = .error .noMem ∧ (mb'.type k).regions = (mb.type k).regions) := by
  match fuel, h with
  | 0, h => simp [memblockRemove] at h
  | 1, h => simp [memblockRemove, memblockIsolateRange] at h
  | fuel + 2, h =>
  rcases memblockRemove_inv h with ⟨zero, rfl, rfl⟩ | ⟨pos, mb₁, b, hg, ⟨-, rfl, rfl⟩ | ⟨-, rfl, rfl⟩⟩
  · refine .inl ⟨rfl, fun x => ?_⟩
    rw [zero, if_neg (by omega)]
  · have regions := grow_regions hg (wf.type k).max_pos (by simpa using kept)
    have hr : MemblockRegions ((mb₁.type k).regions) := regions ▸ (wf.type k).regions
    obtain ⟨l, eq, -, -, lookup⟩ := removePhase_shape (show base < base + memblockCapSize base size by omega) hr
    refine .inl ⟨rfl, fun x => ?_⟩
    rw [type_setType, eq, lookup x, regions]
  · exact .inr ⟨rfl, grow_regions hg (wf.type k).max_pos kept⟩

end Semantics

end LinuxKernel
