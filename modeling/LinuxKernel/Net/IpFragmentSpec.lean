import Mathlib
import LinuxKernel.Net.IpFragment

/-!
# What a fragment queue keeps

A live queue's chain is a `RangeChain.Within 0 _ q.len` chain of its fragments' ranges, its
meat counts their bytes, `fragments_tail` names the last of them, no sk_buff is queued
twice, and a fragment at offset 0 has set `INET_FRAG_FIRST_IN`. Every call of
`ip_frag_queue` keeps this, and, the chain being within `[0, q.len]`, `meat == len` is
exactly the test that it tiles `[0, q.len)`.
-/

namespace LinuxKernel.IpFragment

open RangeChain

/-! ### The flags of `last_in` -/

theorem flag_or_self (x b : UInt8) : (x ||| b) &&& b = b := by
  apply UInt8.toBitVec_inj.mp
  ext i
  simp only [UInt8.toBitVec_and, UInt8.toBitVec_or, BitVec.getElem_and, BitVec.getElem_or]
  cases x.toBitVec[i] <;> cases b.toBitVec[i] <;> rfl

theorem flag_or_distrib (x b c : UInt8) : (x ||| b) &&& c = (x &&& c) ||| (b &&& c) := by
  apply UInt8.toBitVec_inj.mp
  simp [BitVec.and_or_distrib_right]

theorem flag_or_keep {x b c : UInt8} (h : x &&& c ≠ 0) : (x ||| b) &&& c ≠ 0 := by
  rw [flag_or_distrib]
  intro hor
  apply h
  apply UInt8.toBitVec_inj.mp
  have := congrArg UInt8.toBitVec hor
  simp only [UInt8.toBitVec_or, UInt8.toBitVec_zero] at this ⊢
  exact (BitVec.or_eq_zero_iff.mp this).1

theorem flag_or_other {x b c : UInt8} (h : b &&& c = 0) : (x ||| b) &&& c = x &&& c := by
  rw [flag_or_distrib, h, UInt8.or_zero]

theorem lt_eight_or {x b : UInt8} (hx : x < 8) (hb : b < 8) : x ||| b < 8 := by
  rw [UInt8.lt_iff_toNat_lt] at *
  rw [UInt8.toNat_or]
  exact Nat.or_lt_two_pow (n := 3) hx hb

/-! ### The invariant -/

/-- What holds of a queue between two calls. The meat is a count of the chain only while the
queue is live: a reassembled queue keeps its meat and has given its fragments away. -/
structure Ipq.Wf (qp : Ipq) : Prop where
  within : Within 0 (qp.fragments.map Frag.range) qp.len
  meat : qp.lastIn &&& inetFragComplete = 0 → qp.meat = total (qp.fragments.map Frag.range)
  tail : qp.fragmentsTail = qp.fragments.getLast?.map Frag.id
  ids : (qp.fragments.map Frag.id).Nodup
  first : ∀ f ∈ qp.fragments, f.offset = 0 → qp.lastIn &&& inetFragFirstIn ≠ 0
  flags : qp.lastIn < 8

/-- A live queue that has seen its first and last fragments and holds every byte between. -/
def Complete (qp : Ipq) : Prop :=
  qp.lastIn = inetFragFirstIn ||| inetFragLastIn ∧
    covered (qp.fragments.map Frag.range) = Set.Ico 0 qp.len

/-- Every sk_buff a call leaves queued was queued before it or is the one that arrived. -/
def IdsFrom (qp qp' : Ipq) (id : Nat) : Prop :=
  ∀ i ∈ qp'.fragments.map Frag.id, i ∈ qp.fragments.map Frag.id ∨ i = id

/-- What an exit of `ip_frag_queue` says of the queue: a fragment that was only queued leaves
the queue incomplete, and the queue handed to `ip_frag_reasm` was complete. -/
def ExitSound (env : FragEnv) (qp' : Ipq) : Exit → Prop
  | .err _ => True
  | .queued => ¬ Complete qp'
  | .reasm r => ∃ qp prev, qp.Wf ∧ Complete qp ∧ qp.fragments ≠ [] ∧
      ipFragReasm qp prev env = some (qp', r)

theorem fresh_wf : Ipq.fresh.Wf :=
  ⟨le_refl 0, fun _ => rfl, rfl, List.nodup_nil, fun _ h => absurd h List.not_mem_nil,
    by decide⟩

theorem Ipq.Wf.kill {qp : Ipq} (wf : qp.Wf) : (ipqKill qp).Wf where
  within := wf.within
  meat := fun live => absurd live (by simp only [ipqKill, flag_or_self]; decide)
  tail := wf.tail
  ids := wf.ids
  first := fun f mem zero => flag_or_keep (wf.first f mem zero)
  flags := lt_eight_or wf.flags (by decide)

theorem ipFragReinit_ok {qp qp' : Ipq} {pending : Bool} (h : ipFragReinit qp pending = .ok qp') :
    qp'.Wf ∧ qp'.fragments = [] ∧ qp'.lastIn = 0 := by
  unfold ipFragReinit at h
  split at h
  · cases h
  · cases h
    exact ⟨fresh_wf, rfl, rfl⟩

theorem Ipq.Wf.len_nonneg {qp : Ipq} (wf : qp.Wf) : 0 ≤ qp.len := wf.within.le

theorem Ipq.Wf.meat_eq_len_iff {qp : Ipq} (wf : qp.Wf) (live : qp.lastIn &&& inetFragComplete = 0) :
    qp.meat = qp.len ↔ covered (qp.fragments.map Frag.range) = Set.Ico 0 qp.len := by
  rw [wf.within.covered_eq_iff, wf.within.tiles_iff, wf.meat live, zero_add]

theorem Ipq.Wf.done_iff_complete {qp : Ipq} (wf : qp.Wf) :
    (qp.lastIn = inetFragFirstIn ||| inetFragLastIn ∧ qp.meat = qp.len) ↔ Complete qp := by
  unfold Complete
  constructor
  · rintro ⟨flags, meat⟩
    exact ⟨flags, (wf.meat_eq_len_iff (by rw [flags]; decide)).mp meat⟩
  · rintro ⟨flags, cover⟩
    exact ⟨flags, (wf.meat_eq_len_iff (by rw [flags]; decide)).mpr cover⟩

/-! ### One lemma for each stage of `ip_frag_queue` -/

theorem ipFragEnd_shape {qp qp' : Ipq} {flags : UInt16} {e e' : Int}
    (h : ipFragEnd qp flags e = some (qp', e')) :
    ∃ lastIn len, qp' = { qp with lastIn := lastIn, len := len } ∧ qp.len ≤ len ∧ e' ≤ len ∧
      (e' = e ∨ e' = e - e % 8) ∧
      (lastIn = qp.lastIn ∨ lastIn = qp.lastIn ||| inetFragLastIn) ∧
      (qp.lastIn &&& inetFragLastIn ≠ 0 → len = qp.len) := by
  unfold ipFragEnd at h
  split at h
  · -- the final fragment sets `LAST_IN` and the length, unless it contradicts them
    split at h
    · cases h
    · next conflict =>
      cases h
      refine ⟨_, _, rfl, by omega, le_refl _, .inl rfl, .inr rfl, fun last => ?_⟩
      by_contra ne
      exact conflict (.inr ⟨last, ne⟩)
  · -- an MF fragment, rounded down, may only lengthen a queue without `LAST_IN`
    dsimp only at h
    generalize hr : (if e % 8 ≠ 0 then e - e % 8 else e) = r at h
    have rounded : r = e ∨ r = e - e % 8 := by
      rw [← hr]
      split <;> omega
    split at h
    · split at h
      · cases h
      · next grows notLast =>
        cases h
        exact ⟨_, _, rfl, le_of_lt grows, le_refl _, rounded, .inl rfl, fun last => absurd last notLast⟩
    · next within =>
      cases h
      exact ⟨qp.lastIn, qp.len, rfl, le_refl _, not_lt.mp within, rounded, .inl rfl, fun _ => rfl⟩

theorem Ipq.Wf.place {qp : Ipq} {lastIn : UInt8} {len : Int} (wf : qp.Wf) (longer : qp.len ≤ len)
    (flag : lastIn = qp.lastIn ∨ lastIn = qp.lastIn ||| inetFragLastIn) :
    ({ qp with lastIn := lastIn, len := len } : Ipq).Wf := by
  have keep : ∀ b, b &&& inetFragLastIn = 0 → lastIn &&& b = qp.lastIn &&& b := by
    intro b apart
    rcases flag with rfl | rfl
    · rfl
    · exact flag_or_other (by rw [UInt8.and_comm]; exact apart)
  exact {
    within := wf.within.mono_right longer
    meat := fun live => wf.meat (by rwa [← keep _ (by decide)])
    tail := wf.tail
    ids := wf.ids
    first := fun f mem zero => by rw [keep _ (by decide)]; exact wf.first f mem zero
    flags := by rcases flag with rfl | rfl; exacts [wf.flags, lt_eight_or wf.flags (by decide)] }

theorem find_last_id {init : List Frag} {last : Frag}
    (ids : ((init ++ [last]).map Frag.id).Nodup) :
    (init ++ [last]).find? (·.id = last.id) = some last ∧
      (init ++ [last]).takeWhile (·.id ≠ last.id) = init := by
  have others : ∀ f ∈ init, f.id ≠ last.id := by
    intro f mem same
    rw [List.map_append, List.nodup_append] at ids
    exact ids.2.2 f.id (List.mem_map_of_mem mem) last.id (by simp) same
  constructor
  · rw [List.find?_append, List.find?_eq_none.mpr (by simpa using others)]
    simp
  · rw [List.takeWhile_append_of_pos (by simpa using others)]
    simp

/-- The search for `prev` and `next` splits the chain: `prev` starts before the new
fragment and `next` at or after it. With `fragments_tail` on the last fragment the fast path
is the end of the chain, so the search never reads a freed sk_buff. -/
theorem ipFragFind_spec {qp : Ipq} (wf : qp.Wf) (offset : Int) :
    ∃ before after, ipFragFind qp offset = some (before, after) ∧
      qp.fragments = before ++ after ∧
      (∀ prev ∈ before.getLast?, prev.offset < offset) ∧
      (∀ next ∈ after.head?, offset ≤ next.offset) := by
  unfold ipFragFind
  rw [wf.tail]
  cases hlast : qp.fragments.getLast? with
  | none =>
    rw [List.getLast?_eq_none_iff.mp hlast]
    exact ⟨[], [], rfl, rfl, by simp, by simp⟩
  | some last =>
    obtain ⟨init, split⟩ := List.getLast?_eq_some_iff.mp hlast
    have ids := wf.ids
    rw [split] at ids ⊢
    obtain ⟨found, leading⟩ := find_last_id ids
    simp only [Option.map_some, found]
    split
    · next behind =>
      rw [leading]
      exact ⟨_, _, rfl, by simp, by simpa using behind, by simp⟩
    · refine ⟨_, _, rfl, List.takeWhile_append_dropWhile.symm, fun prev mem => ?_, fun next mem => ?_⟩
      · simpa using List.mem_takeWhile_imp (List.mem_of_getLast? mem)
      · have := List.head?_dropWhile_not (fun f : Frag => decide (f.offset < offset))
          (init ++ [last])
        rw [Option.mem_def] at mem
        rw [mem] at this
        simpa using this

theorem ipFragTrimFront_spec {prev : Option Frag} {offset end_ offset' : Int} {pull : Bool}
    (h : ipFragTrimFront prev offset end_ pull = .ok offset') (nonempty : offset < end_) :
    offset ≤ offset' ∧ offset' < end_ ∧ ∀ p ∈ prev, p.offset + p.len ≤ offset' := by
  unfold ipFragTrimFront at h
  split at h
  · cases h
    exact ⟨le_refl _, nonempty, by simp⟩
  · next p =>
    dsimp only at h
    split at h
    · split at h
      · cases h
      · split at h
        · cases h
        · next overlap _ clear _ =>
          cases h
          refine ⟨by omega, by omega, fun q mem => ?_⟩
          cases mem
          omega
    · next clear =>
      cases h
      refine ⟨le_refl _, nonempty, fun q mem => ?_⟩
      cases mem
      omega

/-- What the loop over the following fragments does: it frees a run of fragments the new one
covers, and then stops at one that starts at or after the new end, or at the end of the
chain, or eats the head of one it overlaps, where `pskb_pull` may fail. -/
theorem ipFragEatNext_shape (end_ : Int) (pull : Bool) (after : List Frag) (meat : Int) :
    ∃ freed rest, after = freed ++ rest ∧ (∀ f ∈ freed, f.offset + f.len ≤ end_) ∧
      ((ipFragEatNext end_ pull after meat =
          (rest, meat - total (freed.map Frag.range), true) ∧
          ∀ n ∈ rest.head?, end_ ≤ n.offset) ∨
        ∃ n r, rest = n :: r ∧ n.offset < end_ ∧ end_ < n.offset + n.len ∧
          ipFragEatNext end_ pull after meat =
            if pull then
              ({ n with offset := n.offset + (end_ - n.offset), len := n.len - (end_ - n.offset) }
                  :: r, meat - total (freed.map Frag.range) - (end_ - n.offset), true)
            else (rest, meat - total (freed.map Frag.range), false)) := by
  induction after generalizing meat with
  | nil => exact ⟨[], [], rfl, by simp, .inl ⟨by simp [ipFragEatNext], by simp⟩⟩
  | cons next rest ih =>
    by_cases before : next.offset < end_
    · by_cases overlap : end_ - next.offset < next.len
      · -- the head of `next` is eaten, or its pull fails
        refine ⟨[], next :: rest, rfl, by simp, .inr ⟨next, rest, rfl, before, by omega, ?_⟩⟩
        simp only [ipFragEatNext, if_pos before, if_pos overlap, List.map_nil, total_nil, sub_zero]
      · -- `next` is covered and freed; the loop goes on
        obtain ⟨freed, rest', split, covered, outcome⟩ := ih (meat - next.len)
        have step : ipFragEatNext end_ pull (next :: rest) meat =
            ipFragEatNext end_ pull rest (meat - next.len) := by
          simp only [ipFragEatNext, if_pos before, if_neg overlap]
        have freedTotal : meat - next.len - total (freed.map Frag.range) =
            meat - total ((next :: freed).map Frag.range) := by
          simp only [List.map_cons, total_cons, Frag.range]
          ring
        refine ⟨next :: freed, rest', by rw [split]; rfl, ?_, ?_⟩
        · intro f mem
          rcases List.mem_cons.mp mem with rfl | mem
          · omega
          · exact covered f mem
        · rw [step, ← freedTotal]
          rcases outcome with ⟨eq, head⟩ | ⟨n, r, eq₁, lt, gt, eq⟩
          · exact .inl ⟨eq, head⟩
          · refine .inr ⟨n, r, eq₁, lt, gt, ?_⟩
            rw [eq]
    · -- the loop ends at a fragment that starts past the new end
      refine ⟨[], next :: rest, rfl, by simp, .inl ⟨?_, fun n mem => ?_⟩⟩
      · simp only [ipFragEatNext, if_neg before, List.map_nil, total_nil, sub_zero]
      · cases mem
        omega

theorem eaten_range (n : Frag) (e : Int) :
    Frag.range { n with offset := n.offset + (e - n.offset), len := n.len - (e - n.offset) } =
      (e, n.offset + n.len - e) := by
  simp only [Frag.range, Prod.mk.injEq]
  omega

section EatNext

variable {end_ : Int} {pull : Bool} {after : List Frag} {meat : Int}

theorem ipFragEatNext_meat (end_ : Int) (pull : Bool) (after : List Frag) (meat : Int) :
    (ipFragEatNext end_ pull after meat).2.1 =
    meat - total (after.map Frag.range) +
      total ((ipFragEatNext end_ pull after meat).1.map Frag.range) := by
  obtain ⟨freed, rest, rfl, -, ⟨eq, -⟩ | ⟨n, r, rfl, -, -, eq⟩⟩ :=
    ipFragEatNext_shape end_ pull after meat
  · rw [eq]
    simp only [List.map_append, total_append]
    ring
  · rw [eq]
    split <;> simp only [List.map_append, List.map_cons, total_append, total_cons, Frag.range] <;>
      ring

theorem ipFragEatNext_within {s L : Int} (chain : Within s (after.map Frag.range) L) :
    Within s ((ipFragEatNext end_ pull after meat).1.map Frag.range) L := by
  obtain ⟨freed, rest, rfl, -, ⟨eq, -⟩ | ⟨n, r, rfl, lt, gt, eq⟩⟩ :=
    ipFragEatNext_shape end_ pull after meat
  all_goals
    rw [List.map_append, within_append] at chain
    obtain ⟨front, back⟩ := chain
    have start := front.le
  · rw [eq]
    exact back.mono_left start
  · rw [eq]
    obtain ⟨atN, -, tail⟩ := back
    simp only [Frag.range] at atN
    split
    · rw [List.map_cons, eaten_range]
      refine ⟨by omega, by omega, ?_⟩
      simpa only [hi, add_sub_cancel, Frag.range_fst, Frag.range_snd] using tail
    · exact ⟨le_trans start atN, by simp only [Frag.range]; omega, tail⟩

theorem ipFragEatNext_within_ok {s L : Int} (chain : Within s (after.map Frag.range) L)
    (inside : end_ ≤ L) (ok : (ipFragEatNext end_ pull after meat).2.2 = true) :
    Within end_ ((ipFragEatNext end_ pull after meat).1.map Frag.range) L := by
  obtain ⟨freed, rest, rfl, -, ⟨eq, head⟩ | ⟨n, r, rfl, lt, gt, eq⟩⟩ :=
    ipFragEatNext_shape end_ pull after meat
  all_goals
    rw [List.map_append, within_append] at chain
    obtain ⟨-, back⟩ := chain
  · rw [eq]
    refine back.restart (fun n mem => ?_) inside
    rw [List.head?_map, Option.mem_def, Option.map_eq_some_iff] at mem
    obtain ⟨f, mem, rfl⟩ := mem
    exact head f mem
  · rw [eq] at ok ⊢
    split at ok
    · next pulled =>
      rw [if_pos pulled, List.map_cons, eaten_range]
      obtain ⟨-, -, tail⟩ := back
      refine ⟨le_refl _, by omega, ?_⟩
      simpa only [hi, add_sub_cancel, Frag.range_fst, Frag.range_snd] using tail
    · cases ok

theorem ipFragEatNext_ids (end_ : Int) (pull : Bool) (after : List Frag) (meat : Int) :
    ((ipFragEatNext end_ pull after meat).1.map Frag.id) <:+ (after.map Frag.id) := by
  obtain ⟨freed, rest, rfl, -, ⟨eq, -⟩ | ⟨n, r, rfl, -, -, eq⟩⟩ :=
    ipFragEatNext_shape end_ pull after meat
  · rw [eq, List.map_append]
    exact List.suffix_append _ _
  · rw [eq, List.map_append]
    split
    · exact List.suffix_append _ _
    · exact List.suffix_append _ _

theorem ipFragEatNext_mem {f : Frag} (mem : f ∈ (ipFragEatNext end_ pull after meat).1) :
    f ∈ after ∨ f.offset = end_ := by
  obtain ⟨freed, rest, rfl, -, ⟨eq, -⟩ | ⟨n, r, rfl, -, -, eq⟩⟩ :=
    ipFragEatNext_shape end_ pull after meat
  · rw [eq] at mem
    exact .inl (List.mem_append_right _ mem)
  · rw [eq] at mem
    split at mem
    · rcases List.mem_cons.mp mem with rfl | mem
      · exact .inr (by dsimp only; omega)
      · exact .inl (List.mem_append_right _ (List.mem_cons_of_mem _ mem))
    · exact .inl (List.mem_append_right _ mem)

theorem ipFragEatNext_failed (failed : (ipFragEatNext end_ pull after meat).2.2 = false) :
    (ipFragEatNext end_ pull after meat).1 ≠ [] ∧ (ipFragEatNext end_ pull after meat).1 <:+ after := by
  obtain ⟨freed, rest, rfl, -, ⟨eq, -⟩ | ⟨n, r, rfl, -, -, eq⟩⟩ :=
    ipFragEatNext_shape end_ pull after meat
  · rw [eq] at failed
    cases failed
  · rw [eq] at failed ⊢
    split at failed
    · cases failed
    · next notPulled =>
      rw [if_neg notPulled]
      exact ⟨List.cons_ne_nil _ _, List.suffix_append _ _⟩

end EatNext

/-! ### Filing the fragment -/

theorem getLast?_of_suffix {α : Type} {s l : List α} (suffix : s <:+ l) (nonempty : s ≠ []) :
    s.getLast? = l.getLast? := by
  obtain ⟨p, rfl⟩ := suffix
  obtain ⟨x, hx⟩ := Option.ne_none_iff_exists'.mp (mt List.getLast?_eq_none_iff.mp nonempty)
  rw [List.getLast?_append, hx]
  rfl

section Insert

variable {qp : Ipq} {before after : List Frag} {skbId : Nat} {offset end_ : Int} {pull : Bool}

theorem tail_kept (wf : qp.Wf) (split : qp.fragments = before ++ after) {l : List Frag}
    (left : (ipFragEatNext end_ pull after qp.meat).1 ≠ [])
    (ending : ((ipFragEatNext end_ pull after qp.meat).1.map Frag.id) <:+ l.map Frag.id) :
    qp.fragmentsTail = l.getLast?.map Frag.id := by
  have suffix := ipFragEatNext_ids end_ pull after qp.meat
  have leftIds : ((ipFragEatNext end_ pull after qp.meat).1.map Frag.id) ≠ [] := by simpa
  have afterIds : after.map Frag.id ≠ [] := by
    intro gone
    rw [gone] at suffix
    exact leftIds (List.suffix_nil.mp suffix)
  rw [wf.tail, split, ← List.getLast?_map, ← List.getLast?_map, List.map_append,
    ← getLast?_of_suffix (List.suffix_append (before.map Frag.id) _) afterIds,
    ← getLast?_of_suffix suffix leftIds, getLast?_of_suffix ending leftIds]

theorem insert_tail (wf : qp.Wf) (split : qp.fragments = before ++ after) (frag : Frag) :
    (if (ipFragEatNext end_ pull after qp.meat).1 = [] then some frag.id else qp.fragmentsTail) =
      (before ++ frag :: (ipFragEatNext end_ pull after qp.meat).1).getLast?.map Frag.id := by
  split
  · next gone => rw [gone]; simp
  · next left =>
    exact tail_kept wf split left ⟨before.map Frag.id ++ [frag.id], by simp⟩

theorem insert_ids (wf : qp.Wf) (split : qp.fragments = before ++ after) (frag : Frag)
    (fresh : frag.id ∉ qp.fragments.map Frag.id) :
    ((before ++ frag :: (ipFragEatNext end_ pull after qp.meat).1).map Frag.id).Nodup := by
  have kept : ((before ++ (ipFragEatNext end_ pull after qp.meat).1).map Frag.id).Sublist
      (qp.fragments.map Frag.id) := by
    rw [split, List.map_append, List.map_append]
    exact (ipFragEatNext_ids end_ pull after qp.meat).sublist.append_left _
  rw [List.map_append, List.map_cons, List.perm_middle.nodup_iff, ← List.map_append,
    List.nodup_cons]
  exact ⟨fun mem => fresh (kept.subset mem), wf.ids.sublist kept⟩

theorem Ipq.Wf.insert (wf : qp.Wf) (ihl : Nat) (tos ecn : UInt8)
    (live : qp.lastIn &&& inetFragComplete = 0)
    (split : qp.fragments = before ++ after)
    (past : reach 0 (before.map Frag.range) ≤ offset) (nonempty : offset < end_)
    (inside : end_ ≤ qp.len) (fresh : skbId ∉ qp.fragments.map Frag.id)
    (ok : (ipFragEatNext end_ pull after qp.meat).2.2 = true) :
    (ipFragInsert { qp with meat := (ipFragEatNext end_ pull after qp.meat).2.1 } before
      ⟨skbId, offset, end_ - offset, ihl, tos⟩ (ipFragEatNext end_ pull after qp.meat).1
      ecn).Wf := by
  have chain := wf.within
  rw [split, List.map_append, within_append] at chain
  obtain ⟨front, back⟩ := chain
  have start : 0 ≤ offset := le_trans front.le past
  have left := ipFragEatNext_within_ok back inside ok
  have flagsKept : ∀ b, qp.lastIn &&& b ≠ 0 →
      (if offset = 0 then qp.lastIn ||| inetFragFirstIn else qp.lastIn) &&& b ≠ 0 := by
    intro b set
    split
    · exact flag_or_keep set
    · exact set
  refine {
    within := ?_
    meat := ?_
    tail := insert_tail wf split _
    ids := insert_ids wf split _ fresh
    first := ?_
    flags := ?_ }
  · simp only [ipFragInsert, List.map_append, List.map_cons]
    rw [within_append]
    refine ⟨front, past, by simp only [Frag.range_snd]; omega, ?_⟩
    simpa only [hi, Frag.range_fst, Frag.range_snd, add_sub_cancel] using left
  · intro _
    have eaten := ipFragEatNext_meat end_ pull after qp.meat
    have counted := wf.meat live
    rw [split, List.map_append, total_append] at counted
    simp only [ipFragInsert, List.map_append, List.map_cons, total_append, total_cons,
      Frag.range_snd]
    omega
  · -- a fragment at 0 was queued before, or is the new one, which sets `FIRST_IN`
    intro f mem zero
    simp only [ipFragInsert, List.mem_append, List.mem_cons] at mem ⊢
    rcases mem with old | rfl | left
    · exact flagsKept _ (wf.first f (split ▸ List.mem_append_left _ old) zero)
    · rw [if_pos zero, flag_or_self]
      decide
    · rcases ipFragEatNext_mem left with old | atEnd
      · exact flagsKept _ (wf.first f (split ▸ List.mem_append_right _ old) zero)
      · omega
  · simp only [ipFragInsert]
    split
    · exact lt_eight_or wf.flags (by decide)
    · exact wf.flags

/-- Where a `pskb_pull` in the loop fails, the chain is left without the sk_buffs freed so
far and without the new fragment, and the invariant still holds. -/
theorem Ipq.Wf.eat_failed (wf : qp.Wf) (live : qp.lastIn &&& inetFragComplete = 0)
    (split : qp.fragments = before ++ after)
    (failed : (ipFragEatNext end_ pull after qp.meat).2.2 = false) :
    ({ qp with
        fragments := before ++ (ipFragEatNext end_ pull after qp.meat).1
        meat := (ipFragEatNext end_ pull after qp.meat).2.1 } : Ipq).Wf := by
  have chain := wf.within
  rw [split, List.map_append, within_append] at chain
  obtain ⟨front, back⟩ := chain
  have suffix := ipFragEatNext_ids end_ pull after qp.meat
  have kept : ((before ++ (ipFragEatNext end_ pull after qp.meat).1).map Frag.id).Sublist
      (qp.fragments.map Frag.id) := by
    rw [split, List.map_append, List.map_append]
    exact suffix.sublist.append_left _
  refine {
    within := ?_
    meat := ?_
    tail := ?_
    ids := wf.ids.sublist kept
    first := ?_
    flags := wf.flags }
  · rw [List.map_append, within_append]
    exact ⟨front, ipFragEatNext_within back⟩
  · intro _
    have eaten := ipFragEatNext_meat end_ pull after qp.meat
    have counted := wf.meat live
    rw [split, List.map_append, total_append] at counted
    simp only [List.map_append, total_append]
    omega
  · exact tail_kept wf split (ipFragEatNext_failed failed).1 ⟨before.map Frag.id, by simp⟩
  · intro f mem zero
    rcases List.mem_append.mp mem with old | left
    · exact wf.first f (split ▸ List.mem_append_left _ old) zero
    · exact wf.first f (split ▸ List.mem_append_right _
        ((ipFragEatNext_failed failed).2.subset left)) zero

end Insert

/-! ### Reassembly -/

/-- `ip_frag_reasm` kills the queue, and a queue it glues gives its fragments away; it keeps
`q.len` and every flag. On a chain with a fragment it always returns. -/
theorem ipFragReasm_wf {qp : Ipq} (prev : Option Frag) (env : FragEnv) (wf : qp.Wf)
    (nonempty : qp.fragments ≠ []) :
    ∃ r, ipFragReasm qp prev env = some r ∧ r.1.Wf ∧
      (r.1.fragments = qp.fragments ∨ r.1.fragments = []) ∧
      r.1.len = qp.len ∧ ∀ b, qp.lastIn &&& b ≠ 0 → r.1.lastIn &&& b ≠ 0 := by
  have killed := wf.kill
  have flags : ∀ b, qp.lastIn &&& b ≠ 0 → (ipqKill qp).lastIn &&& b ≠ 0 :=
    fun _ set => flag_or_keep set
  unfold ipFragReasm
  dsimp only
  split
  · exact ⟨_, rfl, killed, .inl rfl, rfl, flags⟩
  · split
    · exact ⟨_, rfl, killed, .inl rfl, rfl, flags⟩
    · split
      · next empty => exact absurd empty nonempty
      · split
        · exact ⟨_, rfl, killed, .inl rfl, rfl, flags⟩
        · split
          · exact ⟨_, rfl, killed, .inl rfl, rfl, flags⟩
          · refine ⟨_, rfl, ⟨killed.within.le, fun live => ?_, rfl, List.nodup_nil,
              fun _ mem => absurd mem List.not_mem_nil, killed.flags⟩, .inr rfl, rfl, flags⟩
            exact absurd live (by simp only [ipqKill, flag_or_self]; decide)

/-- What `ip_frag_reasm` makes of a complete queue: the first fragment starts at 0 and gives
the datagram its header; `tot_len` is that header and `q.len`, and the datagram holds
exactly that many bytes. It answers `-E2BIG` exactly when the ECN mix is valid, the clone
went through and the sum passes 65535. -/
theorem ipFragReasm_complete {qp qp' : Ipq} {prev : Option Frag} {env : FragEnv}
    {r : Except Errno Datagram} (wf : qp.Wf) (complete : Complete qp)
    (nonempty : qp.fragments ≠ []) (h : ipFragReasm qp prev env = some (qp', r)) :
    ∃ head rest, qp.fragments = head :: rest ∧ head.offset = 0 ∧
      (r = .error .tooBig ↔ ip4FragEcnTable.getD qp.ecn.toNat 0 ≠ 0xff ∧
        (prev.isSome = true → env.clone = true) ∧ 65535 < head.ihl + qp.len) ∧
      ∀ d, r = .ok d → d.ihl = head.ihl ∧ (d.totLen.toNat : Int) = head.ihl + qp.len ∧
        d.len = head.ihl + qp.len := by
  obtain ⟨head, rest, chain⟩ := List.exists_cons_of_ne_nil nonempty
  have tiles := (wf.within.covered_eq_iff).mp complete.2
  have live : qp.lastIn &&& inetFragComplete = 0 := by rw [complete.1]; decide
  -- the lengths add up to `q.len`
  have counted : total (qp.fragments.map Frag.range) = qp.len := by
    have := (wf.within.tiles_iff).mp tiles
    omega
  have summed : (qp.fragments.map (·.len)).sum = qp.len := by
    rw [← counted, total, List.map_map]
    rfl
  rw [chain] at tiles
  refine ⟨head, rest, chain, tiles.1, ?_⟩
  have nonneg := wf.len_nonneg
  unfold ipFragReasm at h
  simp only [ipqKill, chain] at h
  -- the exits of `ip_frag_reasm`, in the order the source takes them
  by_cases ecnBad : ip4FragEcnTable.getD qp.ecn.toNat 0 = 0xff
  · rw [if_pos ecnBad] at h
    cases h
    exact ⟨⟨fun eq => by simp at eq, fun bad => absurd ecnBad bad.1⟩,
      fun d eq => by simp at eq⟩
  rw [if_neg ecnBad] at h
  by_cases noClone : (prev.isSome && !env.clone) = true
  · rw [if_pos noClone] at h
    cases h
    have : prev.isSome = true ∧ env.clone = false := by simpa using noClone
    simp [this]
  rw [if_neg noClone] at h
  have clone : prev.isSome = true → env.clone = true := by simpa using noClone
  by_cases big : (head.ihl : Int) + qp.len > 65535
  · rw [if_pos big] at h
    cases h
    exact ⟨⟨fun _ => ⟨ecnBad, clone, big⟩, fun _ => rfl⟩, fun d eq => by simp at eq⟩
  rw [if_neg big] at h
  by_cases noGlue : env.glue = false
  · rw [if_pos (by simpa using noGlue)] at h
    cases h
    simp [big]
  rw [if_neg (by simpa using noGlue)] at h
  cases h
  refine ⟨by simp [big], fun d made => ?_⟩
  cases made
  refine ⟨rfl, ?_, ?_⟩
  · simp only [Nat.toUInt16_eq, UInt16.toNat_ofNat', Nat.reducePow, Int.natCast_emod,
      Int.ofNat_toNat]
    omega
  · rw [← chain, summed]

/-- One fragment of 24 bytes behind a 20-byte header, first and last in: the datagram
`ip_frag_reasm` glues has `tot_len` 44. -/
theorem ipFragReasm_complete_one_fragment :
    let qp : Ipq := ⟨3, 24, 24, [⟨1, 0, 24, 20, 0⟩], some 1, 0⟩
    let env : FragEnv := ⟨false, false, true, true, true, true, true, true⟩
    qp.Wf ∧ Complete qp ∧ ∃ qp' r, ipFragReasm qp none env = some (qp', r) ∧
      ∀ d, r = .ok d → (d.totLen.toNat : Int) = 20 + 24 := by
  intro qp env
  have wf : qp.Wf := ⟨by decide, by decide, by decide, by decide, by decide, by decide⟩
  have complete : Complete qp := ⟨by decide, Tiles.covered_eq (by decide)⟩
  obtain ⟨qp', r, reasm⟩ : ∃ qp' r, ipFragReasm qp none env = some (qp', r) := ⟨_, _, rfl⟩
  obtain ⟨head, rest, chain, -, -, made⟩ := ipFragReasm_complete wf complete (by simp [qp]) reasm
  obtain ⟨rfl, -⟩ : ⟨1, 0, 24, 20, 0⟩ = head ∧ [] = rest := List.cons.inj chain
  exact ⟨wf, complete, qp', r, reasm, fun d ok => (made d ok).2.1⟩

/-! ### A call of `ip_frag_queue` -/

theorem reach_le_of_last {before : List Frag} {offset : Int} (nonneg : 0 ≤ offset)
    (last : ∀ p ∈ before.getLast?, p.offset + p.len ≤ offset) :
    reach 0 (before.map Frag.range) ≤ offset := by
  rw [reach_eq_getLast?, List.getLast?_map]
  cases h : before.getLast? with
  | none => exact nonneg
  | some p => simpa [hi] using last p h

theorem fragOffset_spec (fragOff : UInt16) :
    let offset : Int := ((fragOff &&& ipOffset).toNat <<< 3 : Nat)
    0 ≤ offset ∧ offset % 8 = 0 := by
  dsimp only
  rw [Nat.shiftLeft_eq]
  omega

/-- What a call leaves, from a well-formed queue and a new sk_buff: a well-formed queue, no
sk_buff but the old ones and the new, an exit that tells the truth about completeness, and
`q.len` fixed once `LAST_IN` is set. -/
structure Settled (qp : Ipq) (id : Nat) (env : FragEnv) (r : Ipq × Exit) : Prop where
  wf : r.1.Wf
  ids : IdsFrom qp r.1 id
  exit : ExitSound env r.1 r.2
  last : qp.lastIn &&& inetFragLastIn ≠ 0 → r.1.lastIn &&& inetFragLastIn ≠ 0 ∧ r.1.len = qp.len

theorem ipFragQueueAt_settled {qp : Ipq} (skb : Skb) (env : FragEnv) (wf : qp.Wf)
    (live : qp.lastIn &&& inetFragComplete = 0) (fresh : skb.id ∉ qp.fragments.map Frag.id) :
    ∃ r, ipFragQueueAt qp skb env = some r ∧ Settled qp skb.id env r := by
  have same : ∀ qp' : Ipq, qp'.fragments = qp.fragments → IdsFrom qp qp' skb.id :=
    fun qp' eq i mem => .inl (eq ▸ mem)
  unfold ipFragQueueAt
  dsimp only
  split
  · exact ⟨_, rfl, wf, same _ rfl, trivial, fun set => ⟨set, rfl⟩⟩
  · next qp₁ end_ placed =>
    obtain ⟨lastIn, len, rfl, longer, inside, rounded, flag, fixed⟩ := ipFragEnd_shape placed
    have wf₁ := wf.place longer flag
    have live₁ : lastIn &&& inetFragComplete = 0 := by
      rcases flag with rfl | rfl
      · exact live
      · rw [flag_or_other (by decide)]; exact live
    have last₁ : qp.lastIn &&& inetFragLastIn ≠ 0 →
        lastIn &&& inetFragLastIn ≠ 0 ∧ len = qp.len := by
      intro set
      refine ⟨?_, fixed set⟩
      rcases flag with rfl | rfl
      · exact set
      · exact flag_or_keep set
    split
    · exact ⟨_, rfl, wf₁, same _ rfl, trivial, last₁⟩
    split
    · exact ⟨_, rfl, wf₁, same _ rfl, trivial, last₁⟩
    · next checks =>
      obtain ⟨nonneg, aligned⟩ := fragOffset_spec skb.fragOff
      generalize ((skb.fragOff &&& ipOffset).toNat <<< 3 : Nat) = chunks at *
      set qp₁ : Ipq := { qp with lastIn := lastIn, len := len } with hq₁
      -- past the checks the fragment is not empty: it ends after it starts
      have nonempty : (chunks : Int) < end_ := by omega
      obtain ⟨before, after, found, split, -, -⟩ := ipFragFind_spec wf₁ chunks
      rw [found]
      dsimp only
      split
      · exact ⟨_, rfl, wf₁, same _ rfl, trivial, last₁⟩
      · next offset trimmed =>
        obtain ⟨moved, nonempty', past⟩ := ipFragTrimFront_spec trimmed nonempty
        have reached := reach_le_of_last (le_trans nonneg moved) past
        -- what the loop leaves after `prev` was queued before
        have kept : IdsFrom qp { qp₁ with fragments := before ++
            (ipFragEatNext end_ env.pullNext after qp.meat).1 } skb.id := by
          intro i mem
          refine .inl ?_
          rw [List.map_append] at mem
          rw [show qp.fragments = before ++ after from split, List.map_append]
          exact ((ipFragEatNext_ids end_ env.pullNext after qp.meat).sublist.append_left _).subset mem
        split
        · next failed =>
          exact ⟨_, rfl, wf₁.eat_failed live₁ split (by simpa using failed), kept, trivial, last₁⟩
        · next ok =>
          have wf₂ := wf₁.insert skb.ihl skb.tos (ip4FragEcn skb.tos) live₁ split reached
            nonempty' inside fresh (by simpa using ok)
          have filed : IdsFrom qp (ipFragInsert { qp₁ with meat :=
              (ipFragEatNext end_ env.pullNext after qp.meat).2.1 } before
              ⟨skb.id, offset, end_ - offset, skb.ihl, skb.tos⟩
              (ipFragEatNext end_ env.pullNext after qp.meat).1 (ip4FragEcn skb.tos)) skb.id := by
            intro i mem
            simp only [ipFragInsert, List.map_append, List.map_cons, List.mem_append,
              List.mem_cons] at mem
            rcases mem with old | new | left
            · exact kept i (by simp only [List.map_append, List.mem_append]; exact .inl old)
            · exact .inr new
            · exact kept i (by simp only [List.map_append, List.mem_append]; exact .inr left)
          -- filing the fragment may add `FIRST_IN`, and keeps `LAST_IN` and the length
          have last₂ : qp.lastIn &&& inetFragLastIn ≠ 0 →
              (if offset = 0 then lastIn ||| inetFragFirstIn else lastIn) &&& inetFragLastIn ≠ 0 ∧
                len = qp.len := by
            intro set
            refine ⟨?_, (last₁ set).2⟩
            split
            · exact flag_or_keep (last₁ set).1
            · exact (last₁ set).1
          split
          · next done =>
            obtain ⟨r, reassembled, wf₃, given, sameLen, flags⟩ :=
              ipFragReasm_wf before.getLast? env wf₂ (by simp [ipFragInsert])
            refine ⟨(r.1, .reasm r.2), by rw [reassembled]; rfl, wf₃, fun i mem => ?_,
              ⟨_, _, wf₂, wf₂.done_iff_complete.mp done, by simp [ipFragInsert], reassembled⟩,
              fun set => ⟨flags _ (last₂ set).1, sameLen.trans (last₂ set).2⟩⟩
            rcases given with same | gone
            · exact filed i (same ▸ mem)
            · simp [gone] at mem
          · next notDone =>
            exact ⟨_, rfl, wf₂, filed,
              fun complete => notDone (wf₂.done_iff_complete.mpr complete), last₂⟩

/-- From a well-formed queue, every call of `ip_frag_queue` returns, without reading a freed
sk_buff, and leaves a well-formed queue that holds no sk_buff but the old ones and the new;
it only reassembles a complete queue, and leaves incomplete a queue it files a fragment in.
Once `LAST_IN` is set, `q.len` stays, unless the queue is found too far behind its peer and
`ip_frag_reinit` empties it. -/
theorem ipFragQueue_settled {qp : Ipq} (skb : Skb) (env : FragEnv) (wf : qp.Wf)
    (fresh : skb.id ∉ qp.fragments.map Frag.id) :
    ∃ r, ipFragQueue qp skb env = some r ∧ r.1.Wf ∧ IdsFrom qp r.1 skb.id ∧
      ExitSound env r.1 r.2 ∧
      (skb.fragCompleteFlag = true ∨ ipFragTooFar qp env.peerFar = false →
        qp.lastIn &&& inetFragLastIn ≠ 0 →
          r.1.lastIn &&& inetFragLastIn ≠ 0 ∧ r.1.len = qp.len) := by
  unfold ipFragQueue
  split
  · exact ⟨_, rfl, wf, fun i mem => .inl mem, trivial, fun _ set => ⟨set, rfl⟩⟩
  · next notDead =>
    have live : qp.lastIn &&& inetFragComplete = 0 := by simpa using notDead
    split
    · next far =>
      have far : skb.fragCompleteFlag = false ∧ ipFragTooFar qp env.peerFar = true := by
        simpa using far
      have near : ¬ (skb.fragCompleteFlag = true ∨ ipFragTooFar qp env.peerFar = false) := by
        rw [far.1, far.2]
        decide
      split
      · exact ⟨_, rfl, wf.kill, fun i mem => .inl mem, trivial, fun n => absurd n near⟩
      · next qp₀ reinit =>
        obtain ⟨wf₀, empty, zero⟩ := ipFragReinit_ok reinit
        obtain ⟨r, eq, settled⟩ :=
          ipFragQueueAt_settled skb env wf₀ (by rw [zero]; decide) (by simp [empty])
        refine ⟨r, eq, settled.wf, fun i mem => ?_, settled.exit, fun n => absurd n near⟩
        rcases settled.ids i mem with old | new
        · simp [empty] at old
        · exact .inr new
    · obtain ⟨r, eq, settled⟩ := ipFragQueueAt_settled skb env wf live fresh
      exact ⟨r, eq, settled.wf, settled.ids, settled.exit, fun _ => settled.last⟩

/-- `ExitSound` says nothing of an error exit, and rightly so: a final fragment that lies
inside the data already queued sets `LAST_IN` and `q.len` before it is rejected with
`-EINVAL`. The queue it leaves is complete, and `ip_frag_reasm` is not called; the datagram
waits for another fragment or for the timer. -/
theorem ipFragQueue_complete_unassembled :
    let env : FragEnv := ⟨false, true, true, true, true, true, true, true⟩
    let queued : Ipq := ⟨2, 24, 24, [⟨1, 0, 24, 20, 0⟩], some 1, 1⟩
    let rejected : Ipq := ⟨3, 24, 24, [⟨1, 0, 24, 20, 0⟩], some 1, 1⟩
    ipFragQueue Ipq.fresh ⟨1, 0x2000, 44, 20, 0, false⟩ env = some (queued, .queued) ∧
      ipFragQueue queued ⟨2, 1, 36, 20, 0, false⟩ env = some (rejected, .err .inval) ∧
      Complete rejected := by
  refine ⟨by decide, by decide, by decide, ?_⟩
  exact Tiles.covered_eq (by decide)

/-- Every run of fragments whose sk_buffs are new to the queue keeps it well formed, and no
call of it reads a freed sk_buff. -/
theorem fragRun_wf (inputs : List (Skb × FragEnv)) {qp : Ipq} (wf : qp.Wf)
    (fresh : ∀ x ∈ inputs, x.1.id ∉ qp.fragments.map Frag.id)
    (distinct : (inputs.map (·.1.id)).Nodup) :
    ∃ q, fragRun qp inputs = some q ∧ q.Wf := by
  induction inputs generalizing qp with
  | nil => exact ⟨qp, rfl, wf⟩
  | cons x rest ih =>
    obtain ⟨skb, env⟩ := x
    obtain ⟨r, step, wf', ids, -, -⟩ := ipFragQueue_settled skb env wf (fresh _ List.mem_cons_self)
    rw [List.map_cons, List.nodup_cons] at distinct
    -- the sk_buffs still to come are new to the queue the call leaves
    have fresh' : ∀ y ∈ rest, y.1.id ∉ r.1.fragments.map Frag.id := by
      intro y mem queued
      rcases ids _ queued with old | new
      · exact fresh y (List.mem_cons_of_mem _ mem) old
      · exact distinct.1 (new ▸ List.mem_map_of_mem mem)
    obtain ⟨q, run, wfq⟩ := ih wf' fresh' distinct.2
    exact ⟨q, by simp only [fragRun, step, Option.bind_some, run], wfq⟩

theorem fragRun_wf_two_fragments :
    ∃ q, fragRun Ipq.fresh
      [(⟨1, 0x2000, 28, 20, 0, false⟩, ⟨false, false, true, true, true, true, true, true⟩),
        (⟨2, 1, 28, 20, 0, false⟩, ⟨false, false, true, true, true, true, true, true⟩)] = some q ∧ q.Wf :=
  fragRun_wf _ fresh_wf (by simp [Ipq.fresh]) (by decide)

end LinuxKernel.IpFragment
