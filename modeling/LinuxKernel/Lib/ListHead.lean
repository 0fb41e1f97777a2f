import LinuxKernel.Foundation.CircularList

/-!
# `include/linux/list.h`

The `struct list_head`s of one kind are one `Links`. Without `CONFIG_DEBUG_LIST`, `list_add` and
`list_add_tail` are `Links.splice`, `list_del_init` is `Links.unsplice` then `Links.detach`.
-/

namespace LinuxKernel

open CircularList

variable {α : Type} [DecidableEq α]

/-- `list_add(new, head)`: `__list_add(new, head, head->next)`. -/
def listAdd (l : Links α) (new head : α) : Links α := l.splice new head (l.next head)

/-- `list_add_tail(new, head)`: `__list_add(new, head->prev, head)`. -/
def listAddTail (l : Links α) (new head : α) : Links α := l.splice new (l.prev head) head

def listDelInit (l : Links α) (entry : α) : Links α := (l.unsplice (l.prev entry) (l.next entry)).detach entry

def listEmpty (l : Links α) (head : α) : Bool := l.next head == head

variable {l : Links α} {h c x new : α} {qs xs ys : List α}

theorem listEmpty_ring (w : Ring l h qs) : listEmpty l h = true ↔ qs = [] := by
  cases qs with
  | nil => simp [listEmpty, (ring_nil.mp w).1]
  | cons q qs =>
    have qNe := w.not_mem List.mem_cons_self
    simp [listEmpty, w.1.1, qNe]

theorem listEmpty_detached (d : Detached l x) : listEmpty l x = true := by
  simp [listEmpty, d.1]

theorem listAdd_ring_head (w : Ring l h qs) (fresh : new ∉ h :: qs) : Ring (listAdd l new h) h (new :: qs) :=
  w.splice_after fresh

theorem listAdd_ring (w : Ring l h (xs ++ c :: ys)) (fresh : new ∉ h :: (xs ++ c :: ys)) :
    Ring (listAdd l new c) h (xs ++ c :: new :: ys) :=
  w.splice_after_mem fresh

theorem listAddTail_ring_head (w : Ring l h qs) (fresh : new ∉ h :: qs) :
    Ring (listAddTail l new h) h (qs ++ [new]) :=
  w.splice_before fresh

theorem listAddTail_ring (w : Ring l h (xs ++ c :: ys)) (fresh : new ∉ h :: (xs ++ c :: ys)) :
    Ring (listAddTail l new c) h (xs ++ new :: c :: ys) :=
  w.splice_before_mem fresh

theorem listDelInit_ring (w : Ring l h (xs ++ x :: ys)) :
    Ring (listDelInit l x) h (xs ++ ys) ∧ Detached (listDelInit l x) x :=
  w.remove

theorem listDelInit_ring_head (w : Ring l x (c :: ys)) :
    Ring (listDelInit l x) c ys ∧ Detached (listDelInit l x) x :=
  w.remove_head

theorem listAddTail_ring_split {P Q : List α} (w : Ring l h qs) (split : h :: qs = P ++ Q) (fresh : new ∉ h :: qs) :
    ∀ f fs, P ++ new :: Q = f :: fs → Ring (listAddTail l new (Q.headD h)) f fs := by
  intro f fs shape
  cases P with
  | nil =>
    obtain ⟨rfl, rfl⟩ := List.cons_eq_cons.mp shape
    subst split
    have atEnd : Ring (listAddTail l new h) h (qs ++ new :: []) := listAddTail_ring_head w fresh
    exact ring_rotate.mp atEnd
  | cons p P =>
    obtain ⟨rfl, rfl⟩ := List.cons_eq_cons.mp shape
    obtain ⟨rfl, rfl⟩ := List.cons_eq_cons.mp split
    cases Q with
    | nil => simpa using listAddTail_ring_head w fresh
    | cons q Q => exact listAddTail_ring w fresh

theorem listDelInit_self : Detached (listDelInit l x) x := by
  simp [listDelInit, Detached]

theorem listDelInit_ring_split (w : Ring l h qs) (split : h :: qs = xs ++ x :: ys) :
    ∀ f fs, xs ++ ys = f :: fs → Ring (listDelInit l x) f fs := by
  intro f fs shape
  cases xs with
  | nil =>
    obtain ⟨rfl, rfl⟩ := List.cons_eq_cons.mp split
    subst shape
    exact (listDelInit_ring_head w).1
  | cons p xs =>
    obtain ⟨rfl, rfl⟩ := List.cons_eq_cons.mp split
    obtain ⟨rfl, rfl⟩ := List.cons_eq_cons.mp shape
    exact (listDelInit_ring w).1

theorem listAdd_listDelInit_ring_split (w : Ring l h qs) (split : h :: qs = xs ++ x :: ys) (fresh : new ∉ h :: qs) :
    ∀ f fs, xs ++ new :: ys = f :: fs → Ring (listDelInit (listAdd l new x) x) f fs := by
  intro f fs shape
  cases xs with
  | nil =>
    obtain ⟨rfl, rfl⟩ := List.cons_eq_cons.mp split
    obtain ⟨rfl, rfl⟩ := List.cons_eq_cons.mp shape
    exact (listDelInit_ring_head (listAdd_ring_head w fresh)).1
  | cons p xs =>
    obtain ⟨rfl, rfl⟩ := List.cons_eq_cons.mp split
    obtain ⟨rfl, rfl⟩ := List.cons_eq_cons.mp shape
    exact (listDelInit_ring (listAdd_ring w fresh)).1

section Frame

variable {y : α} (d : Detached l y) (w : Ring l h qs)
include d w

theorem listAdd_detached (hc : c ∈ h :: qs) (hyc : y ≠ c) (hyn : y ≠ new) : Detached (listAdd l new c) y :=
  d.congr (Links.splice_next_of_ne l hyc hyn) (Links.splice_prev_of_ne l (d.ne_neighbours w hc hyc).2 hyn)

theorem listAddTail_detached (hc : c ∈ h :: qs) (hyc : y ≠ c) (hyn : y ≠ new) : Detached (listAddTail l new c) y :=
  d.congr (Links.splice_next_of_ne l (d.ne_neighbours w hc hyc).1 hyn) (Links.splice_prev_of_ne l hyc hyn)

theorem listDelInit_detached (hx : x ∈ h :: qs) (hyx : y ≠ x) : Detached (listDelInit l x) y := by
  obtain ⟨nePrev, neNext⟩ := d.ne_neighbours w hx hyx
  refine d.congr ?_ ?_
  · rw [LinuxKernel.listDelInit, Links.detach_next_of_ne _ hyx, Links.unsplice_next_of_ne _ nePrev]
  · rw [LinuxKernel.listDelInit, Links.detach_prev_of_ne _ hyx, Links.unsplice_prev_of_ne _ neNext]

theorem listAdd_listDelInit_detached (hx : x ∈ h :: qs) (hyx : y ≠ x) (hyn : y ≠ new) (fresh : new ∉ h :: qs) :
    Detached (listDelInit (listAdd l new x) x) y := by
  have added := listAdd_detached d w hx hyx hyn
  rcases List.mem_cons.mp hx with rfl | hx
  · exact listDelInit_detached added (listAdd_ring_head w fresh) List.mem_cons_self hyx
  · obtain ⟨xs, ys, rfl⟩ := List.append_of_mem hx
    exact listDelInit_detached added (listAdd_ring w fresh) (by simp) hyx

end Frame

end LinuxKernel
