import LinuxKernel.Mm.Vmalloc

/-!
# What the vmap allocator keeps and where it fails

`free_vmap_cache` always points at a live area: `__free_vmap_area` moves it to the area below
the one it frees, and a search either keeps it or drops it. But the cache is dropped only for
a request smaller than `cached_hole_size`, and a hole of exactly that size lies below it: a
request that fits only there searches from the cache, overflows, purges, searches from the
cache again and fails with `-EBUSY`.
-/

namespace LinuxKernel

/-- `[a, a + size)` is a range `alloc_vmap_area(size, align, vstart, vend)` may hand out among
`areas`: aligned, inside `[vstart, vend)`, and apart from every area. -/
def VmapFits (areas : List VmapArea) (size align vstart vend a : Nat) : Prop :=
  a % align = 0 ∧ vstart ≤ a ∧ a + size ≤ vend ∧ ∀ va ∈ areas, a + size ≤ va.vaStart ∨ va.vaEnd ≤ a

instance (areas : List VmapArea) (size align vstart vend a : Nat) :
    Decidable (VmapFits areas size align vstart vend a) :=
  inferInstanceAs (Decidable (_ ∧ _ ∧ _ ∧ ∀ va ∈ areas, _))

/-- `free_vmap_cache` is `NULL` or the node of a live area. -/
def VmapCacheLive (v : Vmap) : Prop :=
  ∀ c, v.freeVmapCache = some c → ∃ va ∈ v.areas, va.vaStart = c

/-! ### A search changes the cache globals only -/

theorem allocVmapNocache_areas (v : Vmap) (size align vstart vend : Nat) :
    (allocVmapNocache v size align vstart vend).1.areas = v.areas ∧
      (allocVmapNocache v size align vstart vend).1.freeVmapCache = none := by
  simp only [allocVmapNocache]
  split
  · exact ⟨rfl, rfl⟩
  · exact ⟨rfl, rfl⟩

theorem allocVmapSearch_areas (v : Vmap) (size align vstart vend : Nat) :
    (allocVmapSearch v size align vstart vend).1.areas = v.areas ∧
      ((allocVmapSearch v size align vstart vend).1.freeVmapCache = none ∨
        (allocVmapSearch v size align vstart vend).1.freeVmapCache = v.freeVmapCache) := by
  simp only [allocVmapSearch]
  split
  · split
    · exact ⟨(allocVmapNocache_areas ..).1, .inl (allocVmapNocache_areas ..).2⟩
    · -- the cached branch keeps `free_vmap_cache`, whether it overflows or walks
      split
      · exact ⟨rfl, .inr rfl⟩
      · exact ⟨rfl, .inr rfl⟩
  · exact ⟨(allocVmapNocache_areas ..).1, .inl (allocVmapNocache_areas ..).2⟩

/-! ### `free_vmap_cache` stays on a live area -/

theorem mem_insertVmapArea (va : VmapArea) (areas : List VmapArea) : va ∈ insertVmapArea va areas := by
  induction areas with
  | nil => simp [insertVmapArea]
  | cons tmp rest ih =>
    unfold insertVmapArea
    split
    · exact List.mem_cons_self
    · exact List.mem_cons_of_mem _ ih

theorem vmapPrev_mem_erase {areas : List VmapArea} {x : VmapArea} {p : Nat}
    (h : vmapPrev areas x.vaStart = some p) : ∃ a ∈ areas.erase x, a.vaStart = p := by
  induction areas with
  | nil => simp [vmapPrev] at h
  | cons prev rest ih =>
    cases rest with
    | nil => simp [vmapPrev] at h
    | cons va rest =>
      unfold vmapPrev at h
      split at h
      · rename_i same
        cases h
        by_cases px : prev = x
        · -- erasing `prev` leaves `va`, which begins where `x` does
          subst px
          exact ⟨va, by simp, same⟩
        · exact ⟨prev, by simp [List.erase_cons, px], rfl⟩
      · obtain ⟨a, mem, start⟩ := ih h
        refine ⟨a, ?_, start⟩
        rw [List.erase_cons]
        split
        · exact List.erase_subset mem
        · exact List.mem_cons_of_mem _ mem

theorem freeVmapArea_cacheLive {v : Vmap} (live : VmapCacheLive v) (va : VmapArea) :
    VmapCacheLive (freeVmapArea v va) := by
  intro c cache
  simp only [freeVmapArea] at cache
  split at cache
  · cases cache
  · rename_i old oldCache
    split at cache
    · cases cache
    · split at cache
      · exact vmapPrev_mem_erase cache
      · rename_i above
        cases cache
        -- the cached area begins below `va`, so erasing `va` leaves it
        obtain ⟨a, mem, start⟩ := live c oldCache
        have ne : a ≠ va := by
          rintro rfl
          omega
        exact ⟨a, (List.mem_erase_of_ne ne).mpr mem, start⟩

theorem purgeVmapAreaLazy_cacheLive {v : Vmap} (live : VmapCacheLive v) :
    VmapCacheLive (purgeVmapAreaLazy v) := by
  unfold purgeVmapAreaLazy
  generalize v.areas.filter (·.lazyFree) = lazy
  induction lazy generalizing v with
  | nil => exact live
  | cons va rest ih => exact ih (freeVmapArea_cacheLive live va)

theorem allocVmapSearch_cacheLive {v : Vmap} (live : VmapCacheLive v) (size align vstart vend : Nat) :
    VmapCacheLive (allocVmapSearch v size align vstart vend).1 := by
  obtain ⟨areas, cache⟩ := allocVmapSearch_areas v size align vstart vend
  intro c found
  rcases cache with none | same
  · rw [none] at found
    cases found
  · rw [areas]
    exact live c (same ▸ found)

theorem allocVmapInsert_cacheLive (v : Vmap) (size addr : Nat) :
    VmapCacheLive (allocVmapInsert v size addr).1 := by
  intro c cache
  cases cache
  exact ⟨_, mem_insertVmapArea _ _, rfl⟩

theorem allocVmapArea_cacheLive {v : Vmap} (live : VmapCacheLive v)
    (size align vstart vend : Nat) (kmallocOk : Bool) :
    VmapCacheLive (allocVmapArea v size align vstart vend kmallocOk).1 := by
  rw [allocVmapArea.eq_def]
  split
  · exact live
  · have first := allocVmapSearch_cacheLive live size align vstart vend
    split
    · exact allocVmapInsert_cacheLive _ _ _
    · rename_i v' searched
      rw [searched] at first
      have again := allocVmapSearch_cacheLive (purgeVmapAreaLazy_cacheLive first) size align vstart vend
      split
      · exact allocVmapInsert_cacheLive _ _ _
      · rename_i v'' researched
        rw [researched] at again
        exact again

theorem vmapStep_cacheLive {v : Vmap} (live : VmapCacheLive v) (op : VmapOp) :
    VmapCacheLive (vmapStep v op) := by
  cases op with
  | alloc size align vstart vend kmallocOk =>
    exact allocVmapArea_cacheLive live size align vstart vend kmallocOk
  | free start =>
    simp only [vmapStep]
    split
    · exact freeVmapArea_cacheLive live _
    · exact live
  | freeLazy start =>
    intro c cache
    obtain ⟨va, mem, start'⟩ := live c cache
    refine ⟨_, List.mem_map_of_mem mem, ?_⟩
    split <;> exact start'
  | purge => exact purgeVmapAreaLazy_cacheLive live

/-- In every state the allocator reaches, `free_vmap_cache` points at a live area. -/
theorem vmapRun_cacheLive (ops : List VmapOp) : VmapCacheLive (vmapRun vmapInit ops) := by
  have init : VmapCacheLive vmapInit := fun _ none => by cases none
  unfold vmapRun
  generalize vmapInit = v at init
  induction ops generalizing v with
  | nil => exact init
  | cons op rest ih => exact ih _ (vmapStep_cacheLive init op)

/-- Three pages are allocated from `[0, 5 pages)` and the middle one freed, which moves the
cache down to the first. A two-page allocation walks past the one-page hole, notes it in
`cached_hole_size` and takes the last two pages. A one-page allocation is then not smaller
than `cached_hole_size`, so it searches from the last area, overflows, purges nothing,
overflows again and returns `-EBUSY`, while page 1 is free. -/
theorem allocVmapArea_busy_beside_hole :
    let v : Vmap := vmapRun vmapInit [.alloc 4096 4096 0 20480 true, .alloc 4096 4096 0 20480 true,
      .alloc 4096 4096 0 20480 true, .free 4096, .alloc 8192 4096 0 20480 true]
    v.cachedHoleSize = 4096 ∧ (allocVmapArea v 4096 4096 0 20480 true).2 = .error .busy ∧
      VmapFits (purgeVmapAreaLazy v).areas 4096 4096 0 20480 4096 := by
  decide +kernel

end LinuxKernel
