import LinuxKernel.Pid.Pidmap

/-!
# Pid allocation is first fit

`PidNamespace.Wf`: `nr_free` counts the clear bits of its page, kept by `alloc_pidmap` and
`free_pidmap` (`pidReachable_wf`). The loop of `alloc_pidmap` takes the first clear pid of
`allocPidmapVisits` (`allocPidmapLoop_spec`), which is `allocOrder` up to repeats
(`allocPidmapVisits_eq`).
-/

namespace LinuxKernel

theorem bitsPerPage_eq : bitsPerPage = 32768 := rfl

theorem pidMaxLimit_eq : pidMaxLimit = pidmapEntries * bitsPerPage := by decide

theorem and_bitsPerPageMask (n : Nat) : n &&& bitsPerPageMask = n % bitsPerPage :=
  Nat.and_two_pow_sub_one_eq_mod n 15

/-! ### Pids in use -/

/-- The bits of a page; a page not yet allocated reads as clear. -/
def Pidmap.bits (m : Pidmap) : BitVec bitsPerPage := m.page.getD 0

theorem Pidmap.bits_of_none {m : Pidmap} (h : m.page = none) : m.bits = 0 := by
  unfold Pidmap.bits
  rw [h]
  exact Option.getD_none

theorem Pidmap.bits_of_some {m : Pidmap} {page : BitVec bitsPerPage} (h : m.page = some page) :
    m.bits = page := by
  unfold Pidmap.bits
  rw [h]
  exact Option.getD_some

@[simp] theorem Pidmap.bits_mk_none (n : Nat) : Pidmap.bits ⟨n, none⟩ = 0 :=
  Pidmap.bits_of_none rfl

@[simp] theorem Pidmap.bits_mk_some (n : Nat) (page : BitVec bitsPerPage) :
    Pidmap.bits ⟨n, some page⟩ = page :=
  Pidmap.bits_of_some rfl

/-- Whether `pid` is in use. -/
def pidBit (ns : PidNamespace) (pid : Nat) : Bool :=
  (ns.pidmap (pid / bitsPerPage)).bits.getLsbD (pid % bitsPerPage)

theorem mkPid_div (map : Nat) {off : Nat} (lt : off < bitsPerPage) :
    mkPid map off / bitsPerPage = map := by
  unfold mkPid
  rw [bitsPerPage_eq] at lt ⊢
  omega

theorem mkPid_mod (map : Nat) {off : Nat} (lt : off < bitsPerPage) :
    mkPid map off % bitsPerPage = off := by
  unfold mkPid
  rw [bitsPerPage_eq] at lt ⊢
  omega

theorem offset_lt_pageLimit {pidMax map offset : Nat} (lt : offset < bitsPerPage)
    (below : mkPid map offset < pidMax) :
    offset < min bitsPerPage (pidMax - map * bitsPerPage) := by
  unfold mkPid at below
  omega

theorem pidBit_mkPid (ns : PidNamespace) (map : Nat) {off : Nat} (lt : off < bitsPerPage) :
    pidBit ns (mkPid map off) = (ns.pidmap map).bits.getLsbD off := by
  unfold pidBit
  rw [mkPid_div map lt, mkPid_mod map lt]

/-- `nr_free` counts the clear bits of the page. -/
def Pidmap.Wf (m : Pidmap) : Prop := m.nrFree + Bitmap.weight m.bits = bitsPerPage

def PidNamespace.Wf (ns : PidNamespace) : Prop := ∀ map, (ns.pidmap map).Wf

theorem Pidmap.Wf.full {m : Pidmap} (wf : m.Wf) (none_free : m.nrFree = 0) {off : Nat}
    (lt : off < bitsPerPage) : m.bits.getLsbD off = true := by
  have all : Bitmap.weight m.bits = bitsPerPage := by
    unfold Pidmap.Wf at wf
    omega
  exact Bitmap.count_eq_iff.mp all ⟨off, lt⟩

/-- Two states that differ at most in pages allocated, and still clear. -/
structure SameBits (ns ns' : PidNamespace) : Prop where
  bits : ∀ map, (ns'.pidmap map).bits = (ns.pidmap map).bits
  nrFree : ∀ map, (ns'.pidmap map).nrFree = (ns.pidmap map).nrFree
  lastPid : ns'.lastPid = ns.lastPid

theorem SameBits.refl (ns : PidNamespace) : SameBits ns ns := ⟨fun _ => rfl, fun _ => rfl, rfl⟩

theorem SameBits.trans {ns₁ ns₂ ns₃ : PidNamespace} (h₁ : SameBits ns₁ ns₂) (h₂ : SameBits ns₂ ns₃) :
    SameBits ns₁ ns₃ :=
  ⟨fun map => (h₂.bits map).trans (h₁.bits map), fun map => (h₂.nrFree map).trans (h₁.nrFree map),
    h₂.lastPid.trans h₁.lastPid⟩

theorem SameBits.pidBit_eq {ns ns' : PidNamespace} (same : SameBits ns ns') :
    pidBit ns' = pidBit ns := by
  funext pid
  unfold pidBit
  rw [same.bits]

theorem SameBits.wf {ns ns' : PidNamespace} (same : SameBits ns ns') (wf : ns.Wf) : ns'.Wf := by
  intro map
  unfold Pidmap.Wf
  rw [same.bits, same.nrFree]
  exact wf map

/-! ### One round of the loop -/

theorem pidmapPage_spec (ns : PidNamespace) (map : Nat) :
    ∃ ns', pidmapPage ns map true = some (ns', (ns.pidmap map).bits) ∧ SameBits ns ns' := by
  unfold pidmapPage
  rcases hpage : (ns.pidmap map).page with _ | page
  · refine ⟨{ ns with pidmap := Function.update ns.pidmap map { ns.pidmap map with page := some 0 } },
      by rw [Pidmap.bits_of_none hpage]; rfl, fun map' => ?_, fun map' => ?_, rfl⟩
    all_goals
      by_cases same : map' = map
      · subst same
        simp [Pidmap.bits_of_none hpage]
      · simp [same]
  · exact ⟨ns, by rw [Pidmap.bits_of_some hpage], SameBits.refl ns⟩

theorem pidmapPage_wf {ns ns' : PidNamespace} {map : Nat} {ok : Bool}
    {page : BitVec bitsPerPage} (wf : ns.Wf) (h : pidmapPage ns map ok = some (ns', page)) :
    ns'.Wf ∧ page = (ns'.pidmap map).bits := by
  cases ok with
  | false =>
    unfold pidmapPage at h
    split at h
    · rename_i hpage
      obtain ⟨rfl, rfl⟩ := Prod.mk.inj (Option.some.inj h)
      exact ⟨wf, (Pidmap.bits_of_some hpage).symm⟩
    · cases h
  | true =>
    obtain ⟨ns₀, h₀, same⟩ := pidmapPage_spec ns map
    obtain ⟨rfl, rfl⟩ := Prod.mk.inj (Option.some.inj (h.symm.trans h₀))
    exact ⟨same.wf wf, (same.bits map).symm⟩

theorem allocPidmapPage_clear {pidMax map fuel offset o : Nat} {page : BitVec bitsPerPage}
    (lt : offset < bitsPerPage) (h : allocPidmapPage pidMax map page fuel offset = some o) :
    o < bitsPerPage ∧ page.getLsbD o = false := by
  induction fuel generalizing offset with
  | zero => cases h
  | succ fuel ih =>
    unfold allocPidmapPage at h
    split at h
    · rename_i clear
      obtain rfl := Option.some.inj h
      exact ⟨lt, by simpa using clear⟩
    · dsimp only at h
      split at h
      · rename_i inside
        exact ih inside.1 h
      · cases h

/-- The scan of a page stops at the first clear offset from `offset` on, before the end of the
page and `pid_max`: after one set bit `find_next_offset` lands on a clear one. -/
theorem allocPidmapPage_eq {pidMax map fuel offset : Nat} (page : BitVec bitsPerPage)
    (lt : offset < bitsPerPage) (below : mkPid map offset < pidMax) (twice : 2 ≤ fuel) :
    allocPidmapPage pidMax map page fuel offset =
      if findNextOffset page offset < min bitsPerPage (pidMax - map * bitsPerPage) then
        some (findNextOffset page offset)
      else none := by
  obtain ⟨fuel, rfl⟩ : ∃ f, fuel = f + 1 + 1 := ⟨fuel - 2, by omega⟩
  have inside := offset_lt_pageLimit lt below
  unfold allocPidmapPage
  by_cases clear : page.getLsbD offset = false
  · have first : findNextOffset page offset = offset :=
      Bitmap.findNextZero_eq_of_clear le_rfl lt clear fun j lo hi => absurd hi (by omega)
    simp [clear, first, inside]
  · have set : page.getLsbD offset = true := by simpa using clear
    simp only [set, Bool.not_true, Bool.false_eq_true, if_false]
    by_cases next : findNextOffset page offset < bitsPerPage ∧
        mkPid map (findNextOffset page offset) < pidMax
    · -- the next round tests the bit `find_next_offset` found, which is clear
      rw [if_pos next, if_pos (offset_lt_pageLimit next.1 next.2)]
      have found := (Bitmap.findNextZero_clear next.1).2
      unfold allocPidmapPage
      simp [findNextOffset, found]
    · have beyond : ¬findNextOffset page offset < min bitsPerPage (pidMax - map * bitsPerPage) := by
        unfold mkPid at next
        omega
      rw [if_neg next, if_neg beyond]

/-- The pids a round of the loop looks at on page `map` from `offset`: up to the end of the page
or `pid_max`, whichever comes first. -/
def pageRange (pidMax map offset : Nat) : List Nat :=
  List.range' (mkPid map offset) (min (mkPid (map + 1) 0) pidMax - mkPid map offset)

theorem allocPidmapRound_eq {ns : PidNamespace} (wf : ns.Wf) {pidMax map offset : Nat}
    (lt : offset < bitsPerPage) (below : mkPid map offset < pidMax) :
    (if (ns.pidmap map).nrFree ≠ 0 then
        allocPidmapPage pidMax map (ns.pidmap map).bits bitsPerPage offset
      else none).map (mkPid map) =
      (pageRange pidMax map offset).find? (fun p => !pidBit ns p) := by
  have layout : ∀ o < bitsPerPage, pidBit ns (map * bitsPerPage + o) = (ns.pidmap map).bits.getLsbD o :=
    fun o lt => pidBit_mkPid ns map lt
  have range : pageRange pidMax map offset = List.range' (map * bitsPerPage + offset)
      (min bitsPerPage (pidMax - map * bitsPerPage) - offset) := by
    unfold pageRange mkPid
    rw [bitsPerPage_eq]
    congr 1
    omega
  rw [range, Bitmap.find?_range'_eq_findNextZero layout (offset_lt_pageLimit lt below).le
    (min_le_left _ _)]
  split
  · rw [allocPidmapPage_eq _ lt below (by rw [bitsPerPage_eq]; omega)]
    unfold findNextOffset
    split <;> rfl
  · -- no clear bit at all: the page is full, and the search finds nothing either
    rename_i full
    have none_free : (ns.pidmap map).nrFree = 0 := by simpa using full
    have past : bitsPerPage ≤ Bitmap.findNextZero (ns.pidmap map).bits offset := by
      by_contra before
      have := (Bitmap.findNextZero_clear (b := (ns.pidmap map).bits) (n := offset) (by omega)).2
      rw [(wf map).full none_free (by omega)] at this
      cases this
    have beyond : ¬Bitmap.findNextZero (ns.pidmap map).bits offset <
        min bitsPerPage (pidMax - map * bitsPerPage) := by
      omega
    rw [if_neg beyond]
    rfl

/-! ### Taking a pid -/

/-- What `alloc_pidmap` leaves when it took the pid `taken`, or none: that pid's bit set, one
less `nr_free` on its page, `last_pid` at it, and the invariant kept. -/
structure AllocatedPid (ns ns' : PidNamespace) (taken : Option Nat) : Prop where
  bits : ∀ q, pidBit ns' q = (pidBit ns q || taken == some q)
  nrFree : ∀ map, (ns'.pidmap map).nrFree +
    (if taken.map (· / bitsPerPage) = some map then 1 else 0) = (ns.pidmap map).nrFree
  lastPid : ns'.lastPid = taken.getD ns.lastPid
  wf : ns'.Wf

theorem SameBits.allocated_none {ns ns' : PidNamespace} (same : SameBits ns ns') (wf : ns.Wf) :
    AllocatedPid ns ns' none where
  bits q := by rw [same.pidBit_eq]; simp
  nrFree map := by simp [same.nrFree]
  lastPid := same.lastPid
  wf := same.wf wf

theorem AllocatedPid.of_same {ns₀ ns ns' : PidNamespace} {taken : Option Nat}
    (same : SameBits ns₀ ns) (allocated : AllocatedPid ns ns' taken) : AllocatedPid ns₀ ns' taken where
  bits q := by rw [allocated.bits, same.pidBit_eq]
  nrFree map := by rw [allocated.nrFree, same.nrFree]
  lastPid := by rw [allocated.lastPid, same.lastPid]
  wf := allocated.wf

@[simp] theorem setLastPid_pidmap (ns : PidNamespace) (base pid : Nat) :
    (setLastPid ns base pid).pidmap = ns.pidmap := by
  unfold setLastPid
  split <;> rfl

theorem setLastPid_self (ns : PidNamespace) (pid : Nat) :
    (setLastPid ns ns.lastPid pid).lastPid = pid := by
  simp [setLastPid]

section Take

variable {ns : PidNamespace} {last map offset : Nat}

theorem allocPidmapTake_wf (wf : ns.Wf) (lt : offset < bitsPerPage)
    (clear : (ns.pidmap map).bits.getLsbD offset = false) :
    (allocPidmapTake ns last map offset (ns.pidmap map).bits).Wf := by
  have more := Bitmap.weight_setBit (n := ⟨offset, lt⟩) clear
  have bound : Bitmap.weight (Bitmap.setBit (ns.pidmap map).bits offset) ≤ bitsPerPage :=
    Bitmap.count_le
  intro map'
  unfold allocPidmapTake
  rw [setLastPid_pidmap]
  dsimp only
  by_cases same : map' = map
  · subst same
    have := wf map'
    unfold Pidmap.Wf at this ⊢
    simp only [Function.update_self, Pidmap.bits_mk_some] at this more bound ⊢
    omega
  · rw [Function.update_of_ne same]
    exact wf map'

theorem allocPidmapTake_pidBit (lt : offset < bitsPerPage) (q : Nat) :
    pidBit (allocPidmapTake ns last map offset (ns.pidmap map).bits) q =
      (pidBit ns q || q == mkPid map offset) := by
  unfold allocPidmapTake
  unfold pidBit
  rw [setLastPid_pidmap]
  dsimp only
  by_cases page : q / bitsPerPage = map
  · -- on the page, the one bit set is `offset`, which is where `q` is exactly when `q` is the pid
    have at_pid : (q == mkPid map offset) = decide (offset = q % bitsPerPage) := by
      have := Nat.div_add_mod q bitsPerPage
      rw [page] at this
      unfold mkPid
      by_cases off : offset = q % bitsPerPage
      · simp [off]
        rw [Nat.mul_comm]
        omega
      · have : q ≠ map * bitsPerPage + offset := by
          intro eq
          apply off
          rw [eq, ← mkPid, mkPid_mod map lt]
        simp [this, off]
    subst page
    simp [at_pid, lt]
  · have not_pid : (q == mkPid map offset) = false := by
      have : q ≠ mkPid map offset := fun eq => page (eq ▸ mkPid_div map lt)
      simpa using this
    rw [Function.update_of_ne page, not_pid, Bool.or_false]

theorem allocPidmapTake_nrFree (wf : ns.Wf) (lt : offset < bitsPerPage)
    (clear : (ns.pidmap map).bits.getLsbD offset = false) (map' : Nat) :
    ((allocPidmapTake ns last map offset (ns.pidmap map).bits).pidmap map').nrFree +
      (if map = map' then 1 else 0) = (ns.pidmap map').nrFree := by
  unfold allocPidmapTake
  rw [setLastPid_pidmap]
  dsimp only
  by_cases same : map' = map
  · subst same
    -- a clear bit means `nr_free` is not 0
    have free : (ns.pidmap map').nrFree ≠ 0 := fun none_free =>
      absurd ((wf map').full none_free lt) (by rw [clear]; decide)
    simp only [Function.update_self, if_true]
    omega
  · rw [Function.update_of_ne same, if_neg (Ne.symm same), Nat.add_zero]

theorem allocPidmapTake_allocated (wf : ns.Wf) (lt : offset < bitsPerPage)
    (clear : (ns.pidmap map).bits.getLsbD offset = false) :
    AllocatedPid ns (allocPidmapTake ns ns.lastPid map offset (ns.pidmap map).bits)
      (some (mkPid map offset)) where
  bits q := by
    rw [allocPidmapTake_pidBit lt]
    by_cases eq : q = mkPid map offset
    · subst eq
      simp
    · have ne : (q == mkPid map offset) = false := beq_false_of_ne eq
      have ne' : (some (mkPid map offset) == some q) = false :=
        beq_false_of_ne fun same => eq (Option.some.inj same).symm
      rw [ne, ne']
  nrFree map' := by
    simp only [Option.map_some, mkPid_div map lt, Option.some.injEq]
    exact allocPidmapTake_nrFree wf lt clear map'
  lastPid := setLastPid_self _ _
  wf := allocPidmapTake_wf wf lt clear

end Take

/-! ### The loop -/

/-- The pids the rounds of the loop of `alloc_pidmap` look at, round after round, as the loop
goes from page to page. -/
def allocPidmapVisits (pidMax last : Nat) : Nat → Nat → Nat → List Nat
  | 0, _, _ => []
  | fuel + 1, map, offset =>
    pageRange pidMax map offset ++
      if map < (pidMax - 1) / bitsPerPage then allocPidmapVisits pidMax last fuel (map + 1) 0
      else if last = reservedPids then [] else allocPidmapVisits pidMax last fuel 0 reservedPids

theorem mkPid_succ_lt {pidMax map : Nat} (next : map < (pidMax - 1) / bitsPerPage) :
    mkPid (map + 1) 0 < pidMax := by
  unfold mkPid
  rw [bitsPerPage_eq] at next ⊢
  omega

theorem allocPidmapLoop_spec {pidMax last : Nat} (lo : reservedPids < pidMax) {fuel : Nat} :
    ∀ {ns : PidNamespace} {map offset : Nat}, ns.Wf → ns.lastPid = last →
      offset < bitsPerPage → mkPid map offset < pidMax →
      let taken := (allocPidmapVisits pidMax last fuel map offset).find? (fun p => !pidBit ns p)
      (allocPidmapLoop pidMax last true fuel ns map offset).2 = taken.elim (-1) (fun p => (p : Int)) ∧
        AllocatedPid ns (allocPidmapLoop pidMax last true fuel ns map offset).1 taken := by
  induction fuel with
  | zero =>
    intro ns map offset wf _ _ _
    exact ⟨rfl, (SameBits.refl ns).allocated_none wf⟩
  | succ fuel ih =>
    intro ns map offset wf hlast lt below
    obtain ⟨ns₁, page, same⟩ := pidmapPage_spec ns map
    have wf₁ := same.wf wf
    have round := allocPidmapRound_eq wf₁ lt below
    rw [same.pidBit_eq, same.bits] at round
    unfold allocPidmapLoop allocPidmapVisits
    rw [page, List.find?_append, ← round]
    dsimp only
    rcases found : (if (ns₁.pidmap map).nrFree ≠ 0 then
        allocPidmapPage pidMax map (ns.pidmap map).bits bitsPerPage offset else none) with _ | o
    · -- nothing on this page: on to the next one, or round to page 0
      simp only [Option.map_none, Option.none_or]
      split
      · rename_i next
        obtain ⟨result, allocated⟩ := ih wf₁ (same.lastPid.trans hlast) (by unfold bitsPerPage; decide)
          (mkPid_succ_lt next)
        rw [same.pidBit_eq] at result allocated
        exact ⟨result, allocated.of_same same⟩
      · split
        · exact ⟨by simp, same.allocated_none wf⟩
        · obtain ⟨result, allocated⟩ := ih wf₁ (same.lastPid.trans hlast) (by decide)
            (show mkPid 0 reservedPids < pidMax from lo)
          rw [same.pidBit_eq] at result allocated
          exact ⟨result, allocated.of_same same⟩
    · -- the page has a clear bit: it is taken
      have taken : o < bitsPerPage ∧ (ns.pidmap map).bits.getLsbD o = false := by
        split at found
        · exact allocPidmapPage_clear lt found
        · cases found
      simp only [Option.map_some, Option.some_or, Option.elim_some]
      rw [← same.bits map, ← hlast, ← same.lastPid]
      refine ⟨trivial, (allocPidmapTake_allocated wf₁ taken.1 ?_).of_same same⟩
      rw [same.bits]
      exact taken.2

/-! ### The order of the scan -/

theorem range'_append_sub {a b c : Nat} (ab : a ≤ b) (bc : b ≤ c) :
    List.range' a (b - a) ++ List.range' b (c - b) = List.range' a (c - a) := by
  have := @List.range'_append_1 a (b - a) (c - b)
  rwa [show a + (b - a) = b by omega, show b - a + (c - b) = c - a by omega] at this

theorem allocPidmapVisits_tail_nil (pidMax last map : Nat) :
    (if map < (pidMax - 1) / bitsPerPage then allocPidmapVisits pidMax last 0 (map + 1) 0
      else if last = reservedPids then [] else allocPidmapVisits pidMax last 0 0 reservedPids) =
      [] := by
  split_ifs <;> rfl

/-- Rounds over the pages `map` to `map + k`, none past the last page, look at the pids from
`mkPid map offset` up to the end of page `map + k` or `pid_max`. -/
theorem allocPidmapVisits_sweep {pidMax last : Nat} (f : Nat) {k : Nat} :
    ∀ {map offset : Nat}, map + k ≤ (pidMax - 1) / bitsPerPage → offset < bitsPerPage →
      allocPidmapVisits pidMax last (k + 1 + f) map offset =
        List.range' (mkPid map offset) (min (mkPid (map + k + 1) 0) pidMax - mkPid map offset) ++
          if map + k < (pidMax - 1) / bitsPerPage then
            allocPidmapVisits pidMax last f (map + k + 1) 0
          else if last = reservedPids then [] else allocPidmapVisits pidMax last f 0 reservedPids := by
  induction k with
  | zero =>
    intro map offset _ _
    rw [show 0 + 1 + f = f + 1 by omega]
    rfl
  | succ k ih =>
    intro map offset within lt
    have next : map < (pidMax - 1) / bitsPerPage := by omega
    have first_end := mkPid_succ_lt next
    rw [show k + 1 + 1 + f = (k + 1 + f) + 1 by omega, allocPidmapVisits.eq_2]
    rw [if_pos next, ih (by omega) (by decide), show map + 1 + k = map + (k + 1) by omega]
    -- the first page runs to its end, where the rest begins
    unfold pageRange
    rw [min_eq_left first_end.le, ← List.append_assoc, range'_append_sub]
    · unfold mkPid
      rw [bitsPerPage_eq] at lt ⊢
      omega
    · have : mkPid (map + 1) 0 ≤ mkPid (map + (k + 1) + 1) 0 := by
        unfold mkPid
        rw [bitsPerPage_eq]
        omega
      omega

/-- The order in which `alloc_pidmap` tries the pids: `last_pid + 1` up to `pid_max - 1`, then
`RESERVED_PIDS` up to `last_pid`, but not `RESERVED_PIDS` itself when it is `last_pid`; and
`RESERVED_PIDS` up to `pid_max - 1` when `last_pid + 1` is not below `pid_max`. -/
def allocOrder (pidMax last : Nat) : List Nat :=
  if last + 1 < pidMax then
    List.range' (last + 1) (pidMax - (last + 1)) ++
      if last = reservedPids then [] else List.range' reservedPids (last + 1 - reservedPids)
  else List.range' reservedPids (pidMax - reservedPids)

theorem pages_eq {pidMax : Nat} (pos : 0 < pidMax) :
    (pidMax + bitsPerPage - 1) / bitsPerPage = (pidMax - 1) / bitsPerPage + 1 := by
  rw [bitsPerPage_eq]
  omega

theorem lastPage_end {pidMax : Nat} :
    min (mkPid ((pidMax - 1) / bitsPerPage + 1) 0) pidMax = pidMax := by
  unfold mkPid
  rw [bitsPerPage_eq]
  omega

theorem mkPid_div_mod (n : Nat) : mkPid (n / bitsPerPage) (n % bitsPerPage) = n := by
  unfold mkPid
  rw [Nat.mul_comm]
  exact Nat.div_add_mod n bitsPerPage

theorem div_le_lastPage {n pidMax : Nat} (lt : n < pidMax) :
    n / bitsPerPage ≤ (pidMax - 1) / bitsPerPage :=
  Nat.div_le_div_right (by omega)

/-- `visits` runs through `order`, and after it only through pids already in it. -/
def VisitsOrder (visits order : List Nat) : Prop :=
  ∃ extra, visits = order ++ extra ∧ ∀ p ∈ extra, p ∈ order

theorem VisitsOrder.find?_eq {visits order : List Nat} (h : VisitsOrder visits order)
    (test : Nat → Bool) : visits.find? test = order.find? test := by
  obtain ⟨extra, rfl, sub⟩ := h
  rw [List.find?_append]
  rcases found : order.find? test with _ | p
  · rw [Option.none_or, List.find?_eq_none]
    intro p mem
    exact List.find?_eq_none.mp found p (sub p mem)
  · rfl

theorem allocPidmapVisits_from_reserved {pidMax last k f : Nat}
    (within : k ≤ (pidMax - 1) / bitsPerPage) :
    allocPidmapVisits pidMax last (k + 1 + f) 0 reservedPids =
      List.range' reservedPids (min (mkPid (k + 1) 0) pidMax - reservedPids) ++
        if k < (pidMax - 1) / bitsPerPage then allocPidmapVisits pidMax last f (k + 1) 0
        else if last = reservedPids then [] else allocPidmapVisits pidMax last f 0 reservedPids := by
  rw [allocPidmapVisits_sweep f (by omega) (by decide), Nat.zero_add]
  rfl

theorem allocPidmapVisits_last_reserved {pidMax last p : Nat}
    (mem : p ∈ allocPidmapVisits pidMax last 1 0 reservedPids) : reservedPids ≤ p ∧ p < pidMax := by
  have one := @allocPidmapVisits_from_reserved pidMax last 0 0 (Nat.zero_le _)
  rw [allocPidmapVisits_tail_nil, List.append_nil] at one
  rw [one, List.mem_range'_1] at mem
  have : min (mkPid (0 + 1) 0) pidMax ≤ pidMax := min_le_right _ _
  omega

/-- From `last_pid + 1` at or past `pid_max`: a sweep of every page from `RESERVED_PIDS`, then
page 0 from `RESERVED_PIDS` once more unless `last_pid` is `RESERVED_PIDS`. -/
theorem visitsOrder_wraps {pidMax last : Nat} (wraps : pidMax ≤ last + 1) :
    VisitsOrder (allocPidmapVisits pidMax last ((pidMax - 1) / bitsPerPage + 1 + 1) 0 reservedPids)
      (allocOrder pidMax last) := by
  unfold allocOrder
  rw [if_neg (by omega), allocPidmapVisits_from_reserved le_rfl, if_neg (Nat.lt_irrefl _),
    lastPage_end]
  refine ⟨_, rfl, fun p mem => ?_⟩
  split at mem
  · cases mem
  · rw [List.mem_range'_1]
    have := allocPidmapVisits_last_reserved mem
    omega

/-- From inside a page: a sweep to the last page, then, unless `last_pid` is `RESERVED_PIDS`,
page 0 from `RESERVED_PIDS` up to the end of the first page again. -/
theorem visitsOrder_inside {pidMax last : Nat} (lo : reservedPids < pidMax)
    (lt : last + 1 < pidMax) :
    VisitsOrder (allocPidmapVisits pidMax last ((pidMax - 1) / bitsPerPage + 1 + 1)
      ((last + 1) / bitsPerPage) ((last + 1) % bitsPerPage)) (allocOrder pidMax last) := by
  have first_page := div_le_lastPage lt
  have sweep := @allocPidmapVisits_sweep pidMax last ((last + 1) / bitsPerPage + 1)
    ((pidMax - 1) / bitsPerPage - (last + 1) / bitsPerPage) ((last + 1) / bitsPerPage)
    ((last + 1) % bitsPerPage) (by omega) (Nat.mod_lt _ (by decide))
  rw [show (last + 1) / bitsPerPage + ((pidMax - 1) / bitsPerPage - (last + 1) / bitsPerPage) =
    (pidMax - 1) / bitsPerPage by omega, if_neg (Nat.lt_irrefl _), lastPage_end, mkPid_div_mod,
    show (pidMax - 1) / bitsPerPage - (last + 1) / bitsPerPage + 1 + ((last + 1) / bitsPerPage + 1) =
      (pidMax - 1) / bitsPerPage + 1 + 1 by omega] at sweep
  unfold allocOrder
  rw [sweep, if_pos lt]
  by_cases reserved : last = reservedPids
  · rw [if_pos reserved, if_pos reserved]
    exact ⟨[], (List.append_nil _).symm, fun p mem => by cases mem⟩
  · have again := @allocPidmapVisits_from_reserved pidMax last ((last + 1) / bitsPerPage) 0
      first_page
    rw [allocPidmapVisits_tail_nil, List.append_nil] at again
    rw [if_neg reserved, if_neg reserved, again]
    -- page 0 from `RESERVED_PIDS` up to the end of the first page: the pids up to `last_pid`,
    -- then some from `last_pid + 1` on
    obtain ⟨stop, hstop⟩ : ∃ stop, min (mkPid ((last + 1) / bitsPerPage + 1) 0) pidMax = stop :=
      ⟨_, rfl⟩
    have past : last + 1 ≤ stop := by
      rw [← hstop]
      have := mkPid_div_mod (last + 1)
      unfold mkPid at this ⊢
      rw [bitsPerPage_eq] at this ⊢
      omega
    have below : stop ≤ pidMax := hstop ▸ min_le_right _ _
    have reserved_le : reservedPids ≤ stop := by
      rw [← hstop]
      have : bitsPerPage ≤ mkPid ((last + 1) / bitsPerPage + 1) 0 := by
        unfold mkPid
        rw [bitsPerPage_eq]
        omega
      have : reservedPids < bitsPerPage := by decide
      omega
    rw [hstop, show stop - reservedPids = (last + 1 - reservedPids) +
      (stop - reservedPids - (last + 1 - reservedPids)) by omega, ← List.range'_append_1,
      ← List.append_assoc]
    refine ⟨_, rfl, fun p mem => ?_⟩
    rw [List.mem_range'_1] at mem
    apply List.mem_append_left
    rw [List.mem_range'_1]
    omega

theorem visitsOrder_boundary {pidMax last : Nat} (lt : last + 1 < pidMax)
    (boundary : (last + 1) % bitsPerPage = 0) :
    VisitsOrder (allocPidmapVisits pidMax last ((pidMax - 1) / bitsPerPage + 1)
      ((last + 1) / bitsPerPage) 0) (allocOrder pidMax last) := by
  have first_page := div_le_lastPage lt
  have later : 0 < (last + 1) / bitsPerPage := by
    rw [bitsPerPage_eq] at boundary ⊢
    omega
  have not_reserved : last ≠ reservedPids := by
    intro eq
    rw [eq] at boundary
    exact absurd boundary (by decide)
  have start : mkPid ((last + 1) / bitsPerPage) 0 = last + 1 := by
    rw [← boundary, mkPid_div_mod]
  have sweep := @allocPidmapVisits_sweep pidMax last ((last + 1) / bitsPerPage)
    ((pidMax - 1) / bitsPerPage - (last + 1) / bitsPerPage) ((last + 1) / bitsPerPage) 0
    (by omega) (by decide)
  rw [show (last + 1) / bitsPerPage + ((pidMax - 1) / bitsPerPage - (last + 1) / bitsPerPage) =
    (pidMax - 1) / bitsPerPage by omega, if_neg (Nat.lt_irrefl _), lastPage_end, start,
    if_neg not_reserved,
    show (pidMax - 1) / bitsPerPage - (last + 1) / bitsPerPage + 1 + (last + 1) / bitsPerPage =
      (pidMax - 1) / bitsPerPage + 1 by omega] at sweep
  have again := @allocPidmapVisits_from_reserved pidMax last ((last + 1) / bitsPerPage - 1) 0
    (by omega)
  rw [allocPidmapVisits_tail_nil, List.append_nil,
    show (last + 1) / bitsPerPage - 1 + 1 = (last + 1) / bitsPerPage by omega, start,
    min_eq_left lt.le, Nat.add_zero] at again
  unfold allocOrder
  rw [sweep, again, if_pos lt, if_neg not_reserved]
  exact ⟨[], (List.append_nil _).symm, fun p mem => by cases mem⟩

theorem allocPidmap_eq (ns : PidNamespace) (pidMax : Nat) (ok : Bool) :
    let pid := if ns.lastPid + 1 ≥ pidMax then reservedPids else ns.lastPid + 1
    allocPidmap ns pidMax ok = allocPidmapLoop pidMax ns.lastPid ok
      ((pidMax + bitsPerPage - 1) / bitsPerPage - (if pid % bitsPerPage = 0 then 1 else 0) + 1) ns
      (pid / bitsPerPage) (pid % bitsPerPage) := by
  simp only [allocPidmap, and_bitsPerPageMask]

theorem allocPidmap_takes_first_free {ns : PidNamespace} (wf : ns.Wf) {pidMax : Nat}
    (lo : reservedPids < pidMax) :
    let taken := (allocOrder pidMax ns.lastPid).find? (fun p => !pidBit ns p)
    (allocPidmap ns pidMax true).2 = taken.elim (-1) (fun p => (p : Int)) ∧
      AllocatedPid ns (allocPidmap ns pidMax true).1 taken := by
  have pos : 0 < pidMax := by unfold reservedPids at lo; omega
  rw [allocPidmap_eq]
  by_cases wraps : ns.lastPid + 1 ≥ pidMax
  · have offset : reservedPids % bitsPerPage = reservedPids := Nat.mod_eq_of_lt (by decide)
    rw [if_pos wraps, offset, if_neg (show reservedPids ≠ 0 by decide), Nat.sub_zero, pages_eq pos,
      show reservedPids / bitsPerPage = 0 from Nat.div_eq_of_lt (by decide)]
    have loop := @allocPidmapLoop_spec pidMax ns.lastPid lo ((pidMax - 1) / bitsPerPage + 1 + 1)
      ns 0 reservedPids wf rfl (by decide) lo
    rwa [(visitsOrder_wraps wraps).find?_eq] at loop
  · have lt : ns.lastPid + 1 < pidMax := by omega
    rw [if_neg wraps, pages_eq pos]
    by_cases boundary : (ns.lastPid + 1) % bitsPerPage = 0
    · rw [if_pos boundary, Nat.add_sub_cancel, boundary]
      have loop := @allocPidmapLoop_spec pidMax ns.lastPid lo ((pidMax - 1) / bitsPerPage + 1)
        ns ((ns.lastPid + 1) / bitsPerPage) 0 wf rfl (by decide)
        (by rw [← boundary, mkPid_div_mod]; exact lt)
      rwa [(visitsOrder_boundary lt boundary).find?_eq] at loop
    · rw [if_neg boundary, Nat.sub_zero]
      have loop := @allocPidmapLoop_spec pidMax ns.lastPid lo ((pidMax - 1) / bitsPerPage + 1 + 1)
        ns ((ns.lastPid + 1) / bitsPerPage) ((ns.lastPid + 1) % bitsPerPage) wf rfl
        (Nat.mod_lt _ (by decide)) (by rw [mkPid_div_mod]; exact lt)
      rwa [(visitsOrder_inside lo lt).find?_eq] at loop

/-! ### `next_pidmap` -/

theorem pidMaxLimit_le_mkPid {map : Nat} (past : pidmapEntries ≤ map) (offset : Nat) :
    pidMaxLimit ≤ mkPid map offset := by
  rw [pidMaxLimit_eq]
  unfold mkPid
  exact le_add_right (Nat.mul_le_mul_right _ past)

theorem nextPidmapLoop_eq (ns : PidNamespace) {fuel : Nat} :
    ∀ {map offset : Nat}, offset < bitsPerPage → pidmapEntries ≤ map + fuel →
      nextPidmapLoop ns fuel map offset =
        ((List.range' (mkPid map offset) (pidMaxLimit - mkPid map offset)).find? (pidBit ns)).elim
          (-1) (fun p => (p : Int)) := by
  induction fuel with
  | zero =>
    intro map offset _ enough
    rw [Nat.sub_eq_zero_of_le (pidMaxLimit_le_mkPid (show pidmapEntries ≤ map by omega) offset)]
    rfl
  | succ fuel ih =>
    intro map offset lt enough
    unfold nextPidmapLoop
    split
    · rename_i inside
      -- the pids of page `map` from `offset` on, then those of the pages after it
      have split_range : List.range' (mkPid map offset) (pidMaxLimit - mkPid map offset) =
          List.range' (map * bitsPerPage + offset) (bitsPerPage - offset) ++
            List.range' (mkPid (map + 1) 0) (pidMaxLimit - mkPid (map + 1) 0) := by
        have page_end : mkPid (map + 1) 0 - mkPid map offset = bitsPerPage - offset := by
          unfold mkPid
          rw [bitsPerPage_eq] at lt ⊢
          omega
        have within : mkPid map offset ≤ mkPid (map + 1) 0 := by
          unfold mkPid
          rw [bitsPerPage_eq] at lt ⊢
          omega
        have below_limit : mkPid (map + 1) 0 ≤ pidMaxLimit := by
          rw [pidMaxLimit_eq]
          unfold mkPid
          rw [Nat.add_zero]
          exact Nat.mul_le_mul_right _ inside
        have := range'_append_sub within below_limit
        rw [page_end] at this
        exact this.symm
      have page := Bitmap.find?_range'_eq_findNextBit (b := (ns.pidmap map).bits) (n := offset)
        (fun o lt => pidBit_mkPid ns map lt) lt.le le_rfl
      have rest := @ih (map + 1) 0 (by decide) (by omega)
      rw [split_range, List.find?_append, page]
      rcases hpage : (ns.pidmap map).page with _ | pg
      · -- a page not allocated has no pid in use
        have none_set : ¬Bitmap.findNextBit (ns.pidmap map).bits offset < bitsPerPage := by
          intro found
          have := (Bitmap.findNextBit_set found).2
          rw [Pidmap.bits_of_none hpage] at this
          simp at this
        rw [if_neg none_set, Option.none_or, rest]
      · have bits : (ns.pidmap map).bits = pg := Pidmap.bits_of_some hpage
        rw [bits]
        dsimp only
        split
        · rfl
        · rw [Option.none_or, rest]
    · rename_i past
      rw [Nat.sub_eq_zero_of_le (pidMaxLimit_le_mkPid (by omega) offset)]
      rfl

theorem nextPidmap_eq (ns : PidNamespace) (last : Nat) :
    nextPidmap ns last =
      ((List.range' (last + 1) (pidMaxLimit - (last + 1))).find? (pidBit ns)).elim (-1)
        (fun p => (p : Int)) := by
  unfold nextPidmap
  split
  · rename_i past
    rw [Nat.sub_eq_zero_of_le (by omega)]
    rfl
  · rw [and_bitsPerPageMask, nextPidmapLoop_eq ns (Nat.mod_lt _ (by decide)) (Nat.le_add_left _ _),
      mkPid_div_mod]

/-! ### The invariant over every run -/

theorem Pidmap.wf_none : Pidmap.Wf { nrFree := bitsPerPage, page := none } := by
  unfold Pidmap.Wf
  rw [Pidmap.bits_mk_none, Bitmap.weight_zero]
  rfl

theorem Pidmap.wf_one {n : Nat} (lt : n < bitsPerPage) :
    Pidmap.Wf { nrFree := bitsPerPage - 1, page := some (Bitmap.setBit 0 n) } := by
  have one := Bitmap.weight_setBit (b := (0 : BitVec bitsPerPage)) (n := ⟨n, lt⟩)
    BitVec.getLsbD_zero
  unfold Pidmap.Wf
  rw [Pidmap.bits_mk_some, one, Bitmap.weight_zero]
  show bitsPerPage - 1 + (0 + 1) = bitsPerPage
  decide

theorem initPidNs_wf : initPidNs.Wf := by
  intro map
  unfold initPidNs
  dsimp only
  split
  · exact Pidmap.wf_one (by decide)
  · exact Pidmap.wf_none

theorem allocPidmapLoop_wf {pidMax last : Nat} {ok : Bool} {fuel : Nat} :
    ∀ {ns : PidNamespace} {map offset : Nat}, ns.Wf → offset < bitsPerPage →
      (allocPidmapLoop pidMax last ok fuel ns map offset).1.Wf := by
  induction fuel with
  | zero => exact fun wf _ => wf
  | succ fuel ih =>
    intro ns map offset wf lt
    unfold allocPidmapLoop
    rcases hpage : pidmapPage ns map ok with _ | ⟨ns₁, page⟩
    · exact wf
    · obtain ⟨wf₁, rfl⟩ := pidmapPage_wf wf hpage
      dsimp only
      rcases found : (if (ns₁.pidmap map).nrFree ≠ 0 then
          allocPidmapPage pidMax map (ns₁.pidmap map).bits bitsPerPage offset else none) with _ | o
      · dsimp only
        split
        · exact ih wf₁ (by decide)
        · split
          · exact wf₁
          · exact ih wf₁ (by decide)
      · have taken : o < bitsPerPage ∧ (ns₁.pidmap map).bits.getLsbD o = false := by
          split at found
          · exact allocPidmapPage_clear lt found
          · cases found
        exact allocPidmapTake_wf wf₁ taken.1 taken.2

theorem allocPidmap_wf {ns : PidNamespace} (wf : ns.Wf) (pidMax : Nat) (ok : Bool) :
    (allocPidmap ns pidMax ok).1.Wf := by
  rw [allocPidmap_eq]
  exact allocPidmapLoop_wf wf (Nat.mod_lt _ (by decide))

theorem freePidmap_wf {ns : PidNamespace} (wf : ns.Wf) {nr : Nat} (used : pidBit ns nr = true) :
    (freePidmap ns nr).Wf := by
  intro map
  unfold freePidmap
  dsimp only
  rw [and_bitsPerPageMask]
  by_cases same : map = nr / bitsPerPage
  · subst same
    unfold pidBit at used
    rcases hpage : (ns.pidmap (nr / bitsPerPage)).page with _ | page
    · -- a page not allocated has no pid in use
      rw [Pidmap.bits_of_none hpage] at used
      simp at used
    · rw [Pidmap.bits_of_some hpage] at used
      have less := Bitmap.weight_clearBit (n := ⟨nr % bitsPerPage, Nat.mod_lt _ (by decide)⟩) used
      have before := wf (nr / bitsPerPage)
      unfold Pidmap.Wf at before ⊢
      rw [Pidmap.bits_of_some hpage] at before
      simp only [Function.update_self, Option.map_some, Pidmap.bits_mk_some] at less ⊢
      omega
  · rw [Function.update_of_ne same]
    exact wf map

/-- The states the pidmap of a namespace goes through from `init_pid_ns`: `alloc_pidmap` under
any `pid_max`, with `kzalloc` succeeding or not, `free_pidmap` of a pid in use, and a write of
`last_pid` through the `ns_last_pid` sysctl. -/
inductive PidReachable : PidNamespace → Prop
  | init : PidReachable initPidNs
  | alloc {ns : PidNamespace} (pidMax : Nat) (ok : Bool) :
      PidReachable ns → PidReachable (allocPidmap ns pidMax ok).1
  | free {ns : PidNamespace} (nr : Nat) :
      PidReachable ns → pidBit ns nr = true → PidReachable (freePidmap ns nr)
  | writeLastPid {ns : PidNamespace} (last : Nat) :
      PidReachable ns → PidReachable { ns with lastPid := last }

/-- In every state reached, `nr_free` counts the clear bits of its page. -/
theorem pidReachable_wf {ns : PidNamespace} (reach : PidReachable ns) : ns.Wf := by
  induction reach with
  | init => exact initPidNs_wf
  | alloc pidMax ok _ wf => exact allocPidmap_wf wf pidMax ok
  | free nr _ used wf => exact freePidmap_wf wf used
  | writeLastPid last _ wf => exact wf

theorem pidReachable_wf_alloc_after : (allocPidmap { initPidNs with lastPid := 299 } 32768 true).1.Wf :=
  pidReachable_wf (.alloc 32768 true (.writeLastPid 299 .init))

/-! ### Cyclic first fit -/

theorem allocPidmap_first_fit_next_pidmap_least {ns : PidNamespace} (wf : ns.Wf) {pidMax : Nat}
    (lo : reservedPids < pidMax) :
    (let taken := (allocOrder pidMax ns.lastPid).find? (fun p => !pidBit ns p)
     (allocPidmap ns pidMax true).2 = taken.elim (-1) (fun p => (p : Int)) ∧
       AllocatedPid ns (allocPidmap ns pidMax true).1 taken) ∧
      ∀ last, nextPidmap ns last =
        ((List.range' (last + 1) (pidMaxLimit - (last + 1))).find? (pidBit ns)).elim (-1)
          (fun p => (p : Int)) :=
  ⟨allocPidmap_takes_first_free wf lo, nextPidmap_eq ns⟩

/-- The second pid `alloc_pidmap` hands out in `init_pid_ns`: the first free one after the first. -/
theorem allocPidmap_first_fit_second :
    (allocPidmap initPidNs 32768 true).1.Wf ∧ reservedPids < 32768 ∧
      (allocPidmap (allocPidmap initPidNs 32768 true).1 32768 true).2 =
        ((allocOrder 32768 (allocPidmap initPidNs 32768 true).1.lastPid).find?
          (fun p => !pidBit (allocPidmap initPidNs 32768 true).1 p)).elim (-1) (fun p => (p : Int)) :=
  have wf := allocPidmap_wf initPidNs_wf 32768 true
  ⟨wf, by decide, (allocPidmap_first_fit_next_pidmap_least wf (by decide)).1.1⟩

/-- The order from `last_pid + 1` round to `last_pid` itself. -/
def cyclicPidOrder (pidMax last : Nat) : List Nat :=
  if last + 1 < pidMax then
    List.range' (last + 1) (pidMax - (last + 1)) ++ List.range' reservedPids (last + 1 - reservedPids)
  else List.range' reservedPids (pidMax - reservedPids)

/-- With `last_pid` at `RESERVED_PIDS`, that pid given back, and pid 301 the other one in use
below `pid_max = 302`, `alloc_pidmap` breaks when it comes round to page 0 and returns -1
though `RESERVED_PIDS` is free. -/
theorem allocPidmap_misses_free_reserved_pid :
    let ns : PidNamespace :=
      { pidmap := fun map =>
          if map = 0 then { nrFree := bitsPerPage - 1, page := some (Bitmap.setBit 0 301) }
          else { nrFree := bitsPerPage, page := none }
        lastPid := reservedPids }
    ns.Wf ∧ (cyclicPidOrder 302 ns.lastPid).find? (fun p => !pidBit ns p) = some reservedPids ∧
      (allocPidmap ns 302 true).2 = -1 := by
  dsimp only
  refine ⟨fun map => ?_, by decide +kernel, by decide +kernel⟩
  dsimp only
  split
  · exact Pidmap.wf_one (by decide)
  · exact Pidmap.wf_none

end LinuxKernel
