import Mathlib.Data.List.Nodup
import Mathlib.Logic.Function.Basic

/-!
# Circular doubly-linked lists

`Path l a xs z` follows `next` from `a` through `xs` to `z` with every `prev` pointing back;
a ring is such a path back to its head over distinct addresses. `splice`, `unsplice` and
`detach` keep the rings they do not touch (`Ring.splice_after`, `Ring.remove`).
-/

namespace CircularList

structure Links (α : Type) where
  next : α → α
  prev : α → α

variable {α : Type} [DecidableEq α]

namespace Links

/-- Link `new` between `a` and `b`: `b`'s `prev`, then `new`'s two links, then `a`'s `next`. -/
def splice (l : Links α) (new a b : α) : Links α :=
  ⟨Function.update (Function.update l.next new b) a new, Function.update (Function.update l.prev b new) new a⟩

/-- Link `a` and `b` to each other, past whatever stood between them. -/
def unsplice (l : Links α) (a b : α) : Links α :=
  ⟨Function.update l.next a b, Function.update l.prev b a⟩

/-- Link `x` to itself. -/
def detach (l : Links α) (x : α) : Links α :=
  ⟨Function.update l.next x x, Function.update l.prev x x⟩

section Frame

variable (l : Links α) {x : α}

@[simp] theorem splice_next_of_ne {new a b : α} (ha : x ≠ a) (hn : x ≠ new) : (l.splice new a b).next x = l.next x := by
  simp [splice, ha, hn]

@[simp] theorem splice_prev_of_ne {new a b : α} (hb : x ≠ b) (hn : x ≠ new) : (l.splice new a b).prev x = l.prev x := by
  simp [splice, hb, hn]

@[simp] theorem unsplice_next_of_ne {a b : α} (ha : x ≠ a) : (l.unsplice a b).next x = l.next x := by
  simp [unsplice, ha]

@[simp] theorem unsplice_prev_of_ne {a b : α} (hb : x ≠ b) : (l.unsplice a b).prev x = l.prev x := by
  simp [unsplice, hb]

@[simp] theorem detach_next_of_ne {y : α} (hy : x ≠ y) : (l.detach y).next x = l.next x := by
  simp [detach, hy]

@[simp] theorem detach_prev_of_ne {y : α} (hy : x ≠ y) : (l.detach y).prev x = l.prev x := by
  simp [detach, hy]

@[simp] theorem detach_next_self : (l.detach x).next x = x := by
  simp [detach]

@[simp] theorem detach_prev_self : (l.detach x).prev x = x := by
  simp [detach]

end Frame

end Links

open Links

/-- From `a` through `xs` to `z`, by `next` links and back by `prev` links. -/
def Path (l : Links α) : α → List α → α → Prop
  | a, [], z => l.next a = z ∧ l.prev z = a
  | a, b :: bs, z => l.next a = b ∧ l.prev b = a ∧ Path l b bs z

/-- The ring of `h` holds `qs`, in `next` order from `h`. -/
def Ring (l : Links α) (h : α) (qs : List α) : Prop := Path l h qs h ∧ (h :: qs).Nodup

def Detached (l : Links α) (x : α) : Prop := l.next x = x ∧ l.prev x = x

variable {l l' : Links α}

omit [DecidableEq α] in
theorem path_append {m z : α} {ys : List α} : ∀ {a : α} {xs : List α},
    Path l a (xs ++ m :: ys) z ↔ Path l a xs m ∧ Path l m ys z
  | a, [] => by simp only [List.nil_append, Path, and_assoc]
  | a, b :: xs => by simp only [List.cons_append, Path, path_append, and_assoc]

omit [DecidableEq α] in
theorem Path.congr {z : α} : ∀ {a : α} {xs : List α}, Path l a xs z →
    (∀ x ∈ a :: xs, l'.next x = l.next x) → (∀ y ∈ z :: xs, l'.prev y = l.prev y) → Path l' a xs z
  | a, [], ⟨next, prev⟩, sameNext, samePrev => by
    refine ⟨?_, ?_⟩
    · rw [sameNext a List.mem_cons_self, next]
    · rw [samePrev z List.mem_cons_self, prev]
  | a, b :: bs, ⟨next, prev, rest⟩, sameNext, samePrev => by
    refine ⟨?_, ?_, rest.congr (fun x hx => sameNext x ?_) fun y hy => samePrev y ?_⟩
    · rw [sameNext a List.mem_cons_self, next]
    · rw [samePrev b (by simp), prev]
    · exact List.mem_cons_of_mem a hx
    · simp only [List.mem_cons] at hy ⊢
      tauto

omit [DecidableEq α] in
theorem Ring.congr {h : α} {qs : List α} (w : Ring l h qs) (sameNext : ∀ x ∈ h :: qs, l'.next x = l.next x)
    (samePrev : ∀ x ∈ h :: qs, l'.prev x = l.prev x) : Ring l' h qs :=
  ⟨w.1.congr sameNext samePrev, w.2⟩

omit [DecidableEq α] in
theorem ring_nil {h : α} : Ring l h [] ↔ Detached l h := by
  simp [Ring, Path, Detached]

omit [DecidableEq α] in
theorem ring_rotate {h c : α} {xs ys : List α} : Ring l h (xs ++ c :: ys) ↔ Ring l c (ys ++ h :: xs) := by
  have perm : (h :: (xs ++ c :: ys)).Perm (c :: (ys ++ h :: xs)) := by
    simpa only [List.cons_append] using (List.perm_append_comm : ((h :: xs) ++ c :: ys).Perm _)
  rw [Ring, Ring, path_append, path_append, perm.nodup_iff, and_comm (a := Path l h xs c)]

omit [DecidableEq α] in
theorem Ring.prev_head {h p : α} {xs : List α} (w : Ring l h (xs ++ [p])) : l.prev h = p := by
  have path := (path_append.mp w.1).2
  exact path.2

omit [DecidableEq α] in
theorem Ring.rotate_to {h c : α} {qs : List α} (w : Ring l h qs) (hc : c ∈ h :: qs) : ∃ zs, Ring l c zs := by
  rcases List.mem_cons.mp hc with rfl | hc
  · exact ⟨qs, w⟩
  · obtain ⟨xs, ys, rfl⟩ := List.append_of_mem hc
    exact ⟨_, ring_rotate.mp w⟩

omit [DecidableEq α] in
theorem Ring.next_prev {h c : α} {qs : List α} (w : Ring l h qs) (hc : c ∈ h :: qs) :
    l.next (l.prev c) = c ∧ l.prev (l.next c) = c := by
  obtain ⟨zs, atC⟩ := w.rotate_to hc
  refine ⟨?_, ?_⟩
  · rcases List.eq_nil_or_concat' zs with rfl | ⟨zs, p, rfl⟩
    · obtain ⟨next, prev⟩ := ring_nil.mp atC
      rw [prev, next]
    · rw [atC.prev_head]
      exact (path_append.mp atC.1).2.1
  · cases zs with
    | nil =>
      obtain ⟨next, prev⟩ := ring_nil.mp atC
      rw [next, prev]
    | cons z zs => rw [atC.1.1, atC.1.2.1]

omit [DecidableEq α] in
theorem Ring.not_mem {h x : α} {qs : List α} (w : Ring l h qs) (hx : x ∈ qs) : x ≠ h := by
  rintro rfl
  exact (List.nodup_cons.mp w.2).1 hx

omit [DecidableEq α] in
theorem Ring.next_head {h : α} {qs : List α} (w : Ring l h qs) : l.next h = qs.headD h := by
  cases qs with
  | nil => exact w.1.1
  | cons q qs => exact w.1.1

omit [DecidableEq α] in
theorem Ring.next_eq {h c : α} {xs ys : List α} (w : Ring l h (xs ++ c :: ys)) : l.next c = ys.headD h := by
  have path : Path l c ys h := (path_append.mp w.1).2
  cases ys with
  | nil => exact path.1
  | cons y ys => exact path.1

omit [DecidableEq α] in
theorem Ring.next_ne_self {h c : α} {qs : List α} (w : Ring l h qs) (hc : c ∈ h :: qs) (more : qs ≠ []) :
    l.next c ≠ c := by
  rcases List.mem_cons.mp hc with rfl | hc
  · obtain ⟨q, qs, rfl⟩ := List.exists_cons_of_ne_nil more
    rw [w.next_head]
    exact w.not_mem List.mem_cons_self
  · obtain ⟨xs, ys, rfl⟩ := List.append_of_mem hc
    have atC := ring_rotate.mp w
    obtain ⟨m, ms, e⟩ := List.exists_cons_of_ne_nil (show ys ++ h :: xs ≠ [] by simp)
    rw [atC.next_head, e, List.headD_cons]
    exact atC.not_mem (by rw [e]; exact List.mem_cons_self)

theorem Ring.splice_after {h new : α} {qs : List α} (w : Ring l h qs) (fresh : new ∉ h :: qs) :
    Ring (l.splice new h (l.next h)) h (new :: qs) := by
  obtain ⟨path, nodup⟩ := w
  have newNe : new ≠ h := fun e => fresh (e ▸ List.mem_cons_self)
  refine ⟨?_, (List.Perm.swap new h qs).nodup_iff.mpr (List.nodup_cons.mpr ⟨fresh, nodup⟩)⟩
  cases qs with
  | nil =>
    obtain ⟨next, prev⟩ := path
    simp [Path, splice, newNe, next, Ne.symm newNe]
  | cons b bs =>
    obtain ⟨next, prev, rest⟩ := path
    have bNe : b ≠ h := fun e => (List.nodup_cons.mp nodup).1 (e ▸ List.mem_cons_self)
    have newB : new ≠ b := fun e => fresh (e ▸ List.mem_cons_of_mem h List.mem_cons_self)
    refine ⟨by simp [splice], by simp [splice], ?_, ?_, ?_⟩
    · simp [splice, newNe, next]
    · simp [splice, Ne.symm newB, next]
    · refine rest.congr (fun x hx => splice_next_of_ne l ?_ ?_) fun y hy => splice_prev_of_ne l ?_ ?_
      · rintro rfl
        exact (List.nodup_cons.mp nodup).1 hx
      · rintro rfl
        exact fresh (List.mem_cons_of_mem h hx)
      · rw [next]
        rintro rfl
        rcases List.mem_cons.mp hy with e | hy
        · exact bNe e
        · exact (List.nodup_cons.mp (List.nodup_cons.mp nodup).2).1 hy
      · rintro rfl
        rcases List.mem_cons.mp hy with e | hy
        · exact newNe e
        · exact fresh (List.mem_cons_of_mem h (List.mem_cons_of_mem b hy))

theorem Ring.splice_before {h new : α} {qs : List α} (w : Ring l h qs) (fresh : new ∉ h :: qs) :
    Ring (l.splice new (l.prev h) h) h (qs ++ [new]) := by
  rcases List.eq_nil_or_concat' qs with rfl | ⟨xs, p, rfl⟩
  · have detached := ring_nil.mp w
    have after := w.splice_after fresh
    rw [detached.1] at after
    rw [detached.2]
    simpa using after
  · rw [w.prev_head]
    have atP : Ring l p (h :: xs) := by simpa using ring_rotate.mp (show Ring l h (xs ++ p :: []) by simpa using w)
    have after := atP.splice_after (by simp only [List.mem_cons, List.mem_append] at fresh ⊢; tauto)
    rw [atP.1.1] at after
    simpa using ring_rotate.mp (show Ring _ p ([new] ++ h :: xs) by simpa using after)

theorem Ring.remove_after {h x : α} {ys : List α} (w : Ring l h (x :: ys)) :
    Ring ((l.unsplice h (l.next x)).detach x) h ys ∧ Detached ((l.unsplice h (l.next x)).detach x) x := by
  obtain ⟨⟨-, -, path⟩, nodup⟩ := w
  simp only [List.nodup_cons, List.mem_cons, not_or] at nodup
  obtain ⟨⟨hNeX, hOut⟩, xOut, ysNodup⟩ := nodup
  refine ⟨⟨?_, List.nodup_cons.mpr ⟨hOut, ysNodup⟩⟩, by simp [Detached]⟩
  cases ys with
  | nil =>
    obtain ⟨nextX, -⟩ := path
    simp [Path, detach, unsplice, nextX, hNeX]
  | cons y ys =>
    obtain ⟨nextX, -, rest⟩ := path
    simp only [List.mem_cons, not_or] at hOut xOut
    have yOut := (List.nodup_cons.mp ysNodup).1
    refine ⟨by simp [detach, unsplice, hNeX, nextX], by simp [detach, unsplice, Ne.symm xOut.1, nextX], ?_⟩
    refine rest.congr (fun z hz => ?_) fun z hz => ?_
    · have zNeX : z ≠ x := by rintro rfl; simp_all
      have zNeH : z ≠ h := by rintro rfl; simp_all
      simp [zNeX, zNeH]
    · have zNeX : z ≠ x := by rintro rfl; simp_all
      have zNeY : z ≠ y := by rintro rfl; simp_all
      rw [detach_prev_of_ne _ zNeX, nextX, unsplice_prev_of_ne _ zNeY]

theorem Ring.remove {h x : α} {xs ys : List α} (w : Ring l h (xs ++ x :: ys)) :
    Ring ((l.unsplice (l.prev x) (l.next x)).detach x) h (xs ++ ys) ∧
      Detached ((l.unsplice (l.prev x) (l.next x)).detach x) x := by
  rcases List.eq_nil_or_concat' xs with rfl | ⟨xs, p, rfl⟩
  · have atH : Ring l h (x :: ys) := w
    rw [atH.1.2.1]
    exact atH.remove_after
  · have atP : Ring l p (x :: (ys ++ h :: xs)) := by
      simpa using ring_rotate.mp (show Ring l h (xs ++ p :: x :: ys) by simpa using w)
    rw [atP.1.2.1]
    obtain ⟨ring, detached⟩ := atP.remove_after
    exact ⟨by simpa using ring_rotate.mpr ring, detached⟩

theorem Ring.remove_head {x y : α} {ys : List α} (w : Ring l x (y :: ys)) :
    Ring ((l.unsplice (l.prev x) (l.next x)).detach x) y ys ∧
      Detached ((l.unsplice (l.prev x) (l.next x)).detach x) x := by
  have atY : Ring l y (ys ++ x :: []) := ring_rotate.mp (by simpa using w)
  simpa using atY.remove

theorem Ring.splice_after_mem {h c new : α} {xs ys : List α} (w : Ring l h (xs ++ c :: ys))
    (fresh : new ∉ h :: (xs ++ c :: ys)) : Ring (l.splice new c (l.next c)) h (xs ++ c :: new :: ys) := by
  have after := (ring_rotate.mp w).splice_after (by simp only [List.mem_cons, List.mem_append] at fresh ⊢; tauto)
  exact ring_rotate.mpr (show Ring _ c ((new :: ys) ++ h :: xs) from after)

theorem Ring.splice_before_mem {h c new : α} {xs ys : List α} (w : Ring l h (xs ++ c :: ys))
    (fresh : new ∉ h :: (xs ++ c :: ys)) : Ring (l.splice new (l.prev c) c) h (xs ++ new :: c :: ys) := by
  have before := (ring_rotate.mp w).splice_before (by simp only [List.mem_cons, List.mem_append] at fresh ⊢; tauto)
  have back := ring_rotate.mpr (show Ring _ c (ys ++ h :: (xs ++ [new])) by simpa using before)
  simpa using back

omit [DecidableEq α] in
theorem Detached.ne_neighbours {x h c : α} {qs : List α} (d : Detached l x) (w : Ring l h qs) (hc : c ∈ h :: qs)
    (hxc : x ≠ c) : x ≠ l.prev c ∧ x ≠ l.next c := by
  obtain ⟨nextPrev, prevNext⟩ := w.next_prev hc
  refine ⟨fun e => hxc ?_, fun e => hxc ?_⟩
  · rw [← nextPrev, ← e, d.1]
  · rw [← prevNext, ← e, d.2]

omit [DecidableEq α] in
theorem Detached.congr {x : α} (d : Detached l x) (sameNext : l'.next x = l.next x) (samePrev : l'.prev x = l.prev x) :
    Detached l' x :=
  ⟨sameNext.trans d.1, samePrev.trans d.2⟩

end CircularList
