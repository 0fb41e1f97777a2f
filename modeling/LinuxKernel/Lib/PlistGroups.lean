import Mathlib.Data.List.Nodup
import Mathlib.Data.List.Pairwise
import Mathlib.Algebra.Order.Ring.Int

/-!
# What a plist stands for

Its nodes in groups of one priority, in increasing priority, each group in arrival order: a
priority queue first in, first out among equals. `groupsInsert` and `groupsErase` are its
operations (`GroupsWf.sorted`, `filter_groupsInsert`).
-/

namespace LinuxKernel

variable {ι : Type}

def groupNodes (G : List (ι × List ι)) : List ι := G.flatMap fun g => g.1 :: g.2

def groupFirsts (G : List (ι × List ι)) : List ι := G.map Prod.fst

structure GroupsWf (prio : ι → Int) (G : List (ι × List ι)) : Prop where
  same : ∀ g ∈ G, ∀ i ∈ g.2, prio i = prio g.1
  increasing : (groupFirsts G).Pairwise fun a b => prio a < prio b
  nodup : (groupNodes G).Nodup

def groupsInsert (prio : ι → Int) (node : ι) : List (ι × List ι) → List (ι × List ι)
  | [] => [(node, [])]
  | (f, t) :: G =>
    if prio node < prio f then (node, []) :: (f, t) :: G
    else if prio node = prio f then (f, t ++ [node]) :: G
    else (f, t) :: groupsInsert prio node G

def groupsErase [DecidableEq ι] (node : ι) : List (ι × List ι) → List (ι × List ι)
  | [] => []
  | (f, t) :: G =>
    if node = f then
      match t with
      | [] => G
      | x :: t => (x, t) :: G
    else if node ∈ t then (f, t.erase node) :: G
    else (f, t) :: groupsErase node G

section Equations

variable (prio : ι → Int) (node f : ι) (t : List ι) (G : List (ι × List ι))

theorem groupsInsert_nil : groupsInsert prio node [] = [(node, [])] := rfl

theorem groupsInsert_cons : groupsInsert prio node ((f, t) :: G) =
    if prio node < prio f then (node, []) :: (f, t) :: G
    else if prio node = prio f then (f, t ++ [node]) :: G
    else (f, t) :: groupsInsert prio node G := rfl

theorem groupsErase_nil [DecidableEq ι] : groupsErase node ([] : List (ι × List ι)) = [] := rfl

theorem groupsErase_cons [DecidableEq ι] : groupsErase node ((f, t) :: G) =
    if node = f then
      match t with
      | [] => G
      | x :: t => (x, t) :: G
    else if node ∈ t then (f, t.erase node) :: G
    else (f, t) :: groupsErase node G := rfl

end Equations

/-- The first node of each priority not in `seen`, in the order of the list. -/
def prioFirstsFrom (prio : ι → Int) (seen : List Int) : List ι → List ι
  | [] => []
  | a :: l => if prio a ∈ seen then prioFirstsFrom prio seen l else a :: prioFirstsFrom prio (prio a :: seen) l

/-- The first node of each priority, in the order of the list. -/
def prioFirsts (prio : ι → Int) (l : List ι) : List ι := prioFirstsFrom prio [] l

section Shape

variable (g : ι × List ι) (G G' : List (ι × List ι))

@[simp] theorem groupNodes_nil : groupNodes ([] : List (ι × List ι)) = [] := rfl
@[simp] theorem groupNodes_cons : groupNodes (g :: G) = g.1 :: (g.2 ++ groupNodes G) := rfl
@[simp] theorem groupNodes_append : groupNodes (G ++ G') = groupNodes G ++ groupNodes G' := List.flatMap_append
@[simp] theorem groupFirsts_nil : groupFirsts ([] : List (ι × List ι)) = [] := rfl
@[simp] theorem groupFirsts_cons : groupFirsts (g :: G) = g.1 :: groupFirsts G := rfl
@[simp] theorem groupFirsts_append : groupFirsts (G ++ G') = groupFirsts G ++ groupFirsts G' := List.map_append

end Shape

theorem mem_groupNodes {i : ι} {G : List (ι × List ι)} : i ∈ groupNodes G ↔ ∃ g ∈ G, i = g.1 ∨ i ∈ g.2 := by
  simp [groupNodes, List.mem_flatMap]

theorem mem_groupNodes_of_first {i : ι} {G : List (ι × List ι)} (hi : i ∈ groupFirsts G) : i ∈ groupNodes G := by
  obtain ⟨g, hg, rfl⟩ := List.mem_map.mp hi
  exact mem_groupNodes.mpr ⟨g, hg, .inl rfl⟩

section Wf

variable {prio : ι → Int} {f : ι} {t : List ι} {G : List (ι × List ι)}

theorem GroupsWf.tail (w : GroupsWf prio ((f, t) :: G)) : GroupsWf prio G where
  same g hg := w.same g (List.mem_cons_of_mem _ hg)
  increasing := (List.pairwise_cons.mp w.increasing).2
  nodup := by
    have nodup := w.nodup
    simp only [groupNodes_cons, List.nodup_cons, List.nodup_append] at nodup
    exact nodup.2.2.1

theorem GroupsWf.prio_eq (w : GroupsWf prio G) {g : ι × List ι} (hg : g ∈ G) {i : ι} (hi : i = g.1 ∨ i ∈ g.2) :
    prio i = prio g.1 := by
  rcases hi with rfl | hi
  · rfl
  · exact w.same g hg i hi

theorem GroupsWf.lt_of_cons (w : GroupsWf prio ((f, t) :: G)) {i : ι} (hi : i ∈ groupNodes G) : prio f < prio i := by
  obtain ⟨g, hg, hig⟩ := mem_groupNodes.mp hi
  rw [w.tail.prio_eq hg hig]
  exact (List.pairwise_cons.mp w.increasing).1 g.1 (List.mem_map_of_mem hg)

theorem GroupsWf.le_of_cons (w : GroupsWf prio ((f, t) :: G)) {i : ι} (hi : i ∈ groupNodes ((f, t) :: G)) :
    prio f ≤ prio i := by
  simp only [groupNodes_cons, List.mem_cons, List.mem_append] at hi
  rcases hi with rfl | hi | hi
  · exact le_refl _
  · exact (w.same _ List.mem_cons_self i hi).ge
  · exact (w.lt_of_cons hi).le

theorem GroupsWf.lt_of_append {A B : List (ι × List ι)} (w : GroupsWf prio (A ++ (f, t) :: B)) :
    ∀ a ∈ A, prio a.1 < prio f := by
  have increasing := w.increasing
  simp only [groupFirsts_append, groupFirsts_cons] at increasing
  exact fun a ha => (List.pairwise_append.mp increasing).2.2 a.1 (List.mem_map_of_mem ha) f List.mem_cons_self

theorem GroupsWf.sorted (w : GroupsWf prio G) : (groupNodes G).Pairwise fun a b => prio a ≤ prio b := by
  induction G with
  | nil => exact List.Pairwise.nil
  | cons g G ih =>
    obtain ⟨f, t⟩ := g
    have sameT : ∀ i ∈ t, prio i = prio f := w.same _ List.mem_cons_self
    refine List.Pairwise.cons (fun b hb => w.le_of_cons (List.mem_cons_of_mem f hb)) ?_
    refine List.pairwise_append.mpr ⟨?_, ih w.tail, fun a ha b hb => ?_⟩
    · exact List.Pairwise.imp_of_mem (fun ha hb _ => by rw [sameT _ ha, sameT _ hb]) (List.pairwise_of_forall fun _ _ => trivial)
    · rw [sameT a ha]
      exact (w.lt_of_cons hb).le

theorem prioFirstsFrom_skip {seen : List Int} {l : List ι} : ∀ {t : List ι}, (∀ i ∈ t, prio i ∈ seen) →
    prioFirstsFrom prio seen (t ++ l) = prioFirstsFrom prio seen l
  | [], _ => rfl
  | a :: t, seenT => by
    rw [List.cons_append, prioFirstsFrom, if_pos (seenT a List.mem_cons_self)]
    exact prioFirstsFrom_skip fun i hi => seenT i (List.mem_cons_of_mem a hi)

theorem prioFirstsFrom_groupNodes : ∀ {G : List (ι × List ι)} {seen : List Int}, GroupsWf prio G →
    (∀ g ∈ G, prio g.1 ∉ seen) → prioFirstsFrom prio seen (groupNodes G) = groupFirsts G
  | [], _, _, _ => rfl
  | (f, t) :: G, seen, w, fresh => by
    rw [groupNodes_cons, prioFirstsFrom, if_neg (fresh _ List.mem_cons_self), prioFirstsFrom_skip, groupFirsts_cons,
      prioFirstsFrom_groupNodes w.tail]
    · intro g hg
      rw [List.mem_cons, not_or]
      have lt := (List.pairwise_cons.mp w.increasing).1 g.1 (List.mem_map_of_mem hg)
      exact ⟨lt.ne', fresh g (List.mem_cons_of_mem _ hg)⟩
    · intro i hi
      rw [w.same _ List.mem_cons_self i hi]
      exact List.mem_cons_self

theorem GroupsWf.prioFirsts (w : GroupsWf prio G) : prioFirsts prio (groupNodes G) = groupFirsts G :=
  prioFirstsFrom_groupNodes w fun _ _ => List.not_mem_nil

end Wf

section Insert

variable {prio : ι → Int} {node : ι}

theorem groupNodes_groupsInsert_perm : ∀ G : List (ι × List ι),
    (groupNodes (groupsInsert prio node G)).Perm (node :: groupNodes G)
  | [] => by simp [groupsInsert_nil]
  | (f, t) :: G => by
    rw [groupsInsert_cons]
    split_ifs
    · simp
    · simp only [groupNodes_cons, List.append_assoc, List.singleton_append]
      exact (List.perm_middle.cons f).trans (List.Perm.swap node f _)
    · simp only [groupNodes_cons]
      refine ((List.Perm.append_left t (groupNodes_groupsInsert_perm G)).cons f).trans ?_
      exact (List.Perm.cons f List.perm_middle).trans (List.Perm.swap node f _)

theorem groupFirsts_groupsInsert : ∀ {G : List (ι × List ι)} {i : ι}, i ∈ groupFirsts (groupsInsert prio node G) →
    i = node ∨ i ∈ groupFirsts G
  | [], i, hi => by simpa [groupsInsert_nil] using hi
  | (f, t) :: G, i, hi => by
    rw [groupsInsert_cons] at hi
    split_ifs at hi
    · simpa using hi
    · exact .inr hi
    · rcases List.mem_cons.mp hi with rfl | hi
      · exact .inr List.mem_cons_self
      · rcases groupFirsts_groupsInsert hi with rfl | hi
        · exact .inl rfl
        · exact .inr (List.mem_cons_of_mem f hi)

theorem GroupsWf.insert : ∀ {G : List (ι × List ι)}, GroupsWf prio G → node ∉ groupNodes G →
    GroupsWf prio (groupsInsert prio node G)
  | [], _, _ => ⟨by simp [groupsInsert_nil], by simp [groupsInsert_nil], by simp [groupsInsert_nil]⟩
  | (f, t) :: G, w, fresh => by
    have nodup := (@groupNodes_groupsInsert_perm _ prio node ((f, t) :: G)).nodup_iff.mpr
      (List.nodup_cons.mpr ⟨fresh, w.nodup⟩)
    rw [groupsInsert_cons] at nodup ⊢
    split_ifs at nodup ⊢ with lt eq
    · refine ⟨?_, ?_, nodup⟩
      · intro g hg i hi
        rcases List.mem_cons.mp hg with rfl | hg
        · simp at hi
        · exact w.same g hg i hi
      · refine List.Pairwise.cons (fun b hb => ?_) w.increasing
        rcases List.mem_cons.mp hb with rfl | hb
        · exact lt
        · exact lt.trans ((List.pairwise_cons.mp w.increasing).1 b hb)
    · refine ⟨?_, w.increasing, nodup⟩
      intro g hg i hi
      rcases List.mem_cons.mp hg with rfl | hg
      · rcases List.mem_append.mp hi with hi | hi
        · exact w.same _ List.mem_cons_self i hi
        · rw [List.mem_singleton.mp hi]
          exact eq
      · exact w.same g (List.mem_cons_of_mem _ hg) i hi
    · have rest := w.tail.insert (fun h => fresh (by simp [h]))
      refine ⟨?_, List.Pairwise.cons (fun b hb => ?_) rest.increasing, nodup⟩
      · intro g hg i hi
        rcases List.mem_cons.mp hg with rfl | hg
        · exact w.same _ List.mem_cons_self i hi
        · exact rest.same g hg i hi
      · rcases groupFirsts_groupsInsert hb with rfl | hb
        · show prio f < prio b
          omega
        · exact (List.pairwise_cons.mp w.increasing).1 b hb

theorem filter_groupsInsert (q : Int) : ∀ {G : List (ι × List ι)}, GroupsWf prio G →
    (groupNodes (groupsInsert prio node G)).filter (fun i => prio i == q) =
      (groupNodes G ++ [node]).filter fun i => prio i == q
  | [], _ => by simp [groupsInsert_nil]
  | (f, t) :: G, w => by
    have above : ∀ i ∈ groupNodes ((f, t) :: G), prio f ≤ prio i := fun i hi => w.le_of_cons hi
    rw [groupsInsert_cons]
    split_ifs with lt eq
    · -- a group of its own, before every other
      show (node :: groupNodes ((f, t) :: G)).filter _ = _
      by_cases hq : prio node = q
      · have drop : (groupNodes ((f, t) :: G)).filter (fun i => prio i == q) = [] := by
          refine List.filter_eq_nil_iff.mpr fun i hi => ?_
          have := above i hi
          simp only [beq_iff_eq]
          omega
        rw [List.filter_cons, List.filter_append, drop]
        simp [hq]
      · simp [List.filter_cons, hq]
    · -- at the end of its priority's group
      have later : (groupNodes G).filter (fun i => prio i == q) = [] ∨ prio f ≠ q := by
        by_cases hq : prio f = q
        · refine .inl (List.filter_eq_nil_iff.mpr fun i hi => ?_)
          have := w.lt_of_cons hi
          simp only [beq_iff_eq]
          omega
        · exact .inr hq
      have sameT := w.same _ List.mem_cons_self
      rcases later with later | hq
      · simp only [groupNodes_cons, List.cons_append, List.append_assoc, List.filter_cons, List.filter_append, later,
          List.filter_nil, List.nil_append]
      · have dropT : t.filter (fun i => prio i == q) = [] :=
          List.filter_eq_nil_iff.mpr fun i hi => by simp [sameT i hi, hq]
        simp [List.filter_append, dropT, hq, eq]
    · simp only [groupNodes_cons, List.cons_append, List.append_assoc, List.filter_cons, List.filter_append,
        filter_groupsInsert q w.tail]

theorem groupsInsert_of_lt {G : List (ι × List ι)} (above : ∀ g ∈ G.head?, prio node < prio g.1) :
    groupsInsert prio node G = (node, []) :: G := by
  cases G with
  | nil => rfl
  | cons g G =>
    obtain ⟨f, t⟩ := g
    rw [groupsInsert_cons, if_pos (above _ rfl)]

theorem groupsInsert_append {G : List (ι × List ι)} : ∀ {A : List (ι × List ι)}, (∀ g ∈ A, prio g.1 < prio node) →
    groupsInsert prio node (A ++ G) = A ++ groupsInsert prio node G
  | [], _ => rfl
  | (f, t) :: A, below => by
    have lt : prio f < prio node := below _ List.mem_cons_self
    rw [List.cons_append, groupsInsert_cons, if_neg (by omega), if_neg (by omega),
      groupsInsert_append fun g hg => below g (List.mem_cons_of_mem _ hg), List.cons_append]

theorem GroupsWf.exists_split (p : Int) : ∀ {G : List (ι × List ι)}, GroupsWf prio G →
    ∃ A B, G = A ++ B ∧ (∀ a ∈ A, prio a.1 ≤ p) ∧ ∀ b ∈ B, p < prio b.1
  | [], _ => ⟨[], [], rfl, by simp, by simp⟩
  | (f, t) :: G, w => by
    by_cases le : prio f ≤ p
    · obtain ⟨A, B, rfl, below, above⟩ := w.tail.exists_split p
      refine ⟨(f, t) :: A, B, rfl, fun a ha => ?_, above⟩
      rcases List.mem_cons.mp ha with rfl | ha
      · exact le
      · exact below a ha
    · refine ⟨[], (f, t) :: G, rfl, by simp, fun b hb => ?_⟩
      rcases List.mem_cons.mp hb with rfl | hb
      · exact lt_of_not_ge le
      · exact (lt_of_not_ge le).trans ((List.pairwise_cons.mp w.increasing).1 b.1 (List.mem_map_of_mem hb))

theorem groupsInsert_split_new {A B : List (ι × List ι)} (below : ∀ a ∈ A, prio a.1 < prio node)
    (above : ∀ b ∈ B, prio node < prio b.1) : groupsInsert prio node (A ++ B) = A ++ (node, []) :: B := by
  rw [groupsInsert_append below, groupsInsert_of_lt fun b hb => above b (List.mem_of_mem_head? hb)]

theorem groupsInsert_split_join {A B : List (ι × List ι)} {f : ι} {t : List ι} (below : ∀ a ∈ A, prio a.1 < prio node)
    (eq : prio f = prio node) : groupsInsert prio node (A ++ (f, t) :: B) = A ++ (f, t ++ [node]) :: B := by
  rw [groupsInsert_append below, groupsInsert_cons, if_neg (by omega), if_pos eq.symm]

end Insert

section Erase

variable [DecidableEq ι] {prio : ι → Int} {node : ι}

theorem groupNodes_groupsErase : ∀ G : List (ι × List ι), groupNodes (groupsErase node G) = (groupNodes G).erase node
  | [] => rfl
  | (f, t) :: G => by
    rw [groupsErase_cons]
    split_ifs with first inT
    · subst first
      cases t <;> simp
    · rw [groupNodes_cons, groupNodes_cons, List.erase_cons_tail (by simpa using Ne.symm first),
        List.erase_append_left _ inT]
    · rw [groupNodes_cons, groupNodes_cons, List.erase_cons_tail (by simpa using Ne.symm first),
        List.erase_append_right _ inT, groupNodes_groupsErase G]

theorem groupFirsts_groupsErase : ∀ {G : List (ι × List ι)} {i : ι}, i ∈ groupFirsts (groupsErase node G) →
    i ∈ groupFirsts G ∨ ∃ g ∈ G, i ∈ g.2
  | [], i, hi => by simp [groupsErase_nil] at hi
  | (f, t) :: G, i, hi => by
    rw [groupsErase_cons] at hi
    split_ifs at hi with first inT
    · cases t with
      | nil => exact .inl (List.mem_cons_of_mem f hi)
      | cons x t =>
        rcases List.mem_cons.mp hi with rfl | hi
        · exact .inr ⟨(f, i :: t), List.mem_cons_self, List.mem_cons_self⟩
        · exact .inl (List.mem_cons_of_mem f hi)
    · exact .inl hi
    · rcases List.mem_cons.mp hi with rfl | hi
      · exact .inl List.mem_cons_self
      · rcases groupFirsts_groupsErase hi with hi | ⟨g, hg, hi⟩
        · exact .inl (List.mem_cons_of_mem f hi)
        · exact .inr ⟨g, List.mem_cons_of_mem _ hg, hi⟩

theorem GroupsWf.erase : ∀ {G : List (ι × List ι)}, GroupsWf prio G → GroupsWf prio (groupsErase node G)
  | [], w => w
  | (f, t) :: G, w => by
    have nodup : (groupNodes (groupsErase node ((f, t) :: G))).Nodup := by
      rw [groupNodes_groupsErase]
      exact w.nodup.erase node
    have sameT := w.same _ List.mem_cons_self
    have above : ∀ b ∈ groupFirsts G, prio f < prio b := (List.pairwise_cons.mp w.increasing).1
    rw [groupsErase_cons] at nodup ⊢
    split_ifs at nodup ⊢ with first inT
    · cases t with
      | nil => exact w.tail
      | cons x t =>
        refine ⟨?_, List.Pairwise.cons (fun b hb => ?_) w.tail.increasing, nodup⟩
        · intro g hg i hi
          rcases List.mem_cons.mp hg with rfl | hg
          · rw [sameT i (List.mem_cons_of_mem x hi), sameT x List.mem_cons_self]
          · exact w.same g (List.mem_cons_of_mem _ hg) i hi
        · rw [sameT x List.mem_cons_self]
          exact above b hb
    · refine ⟨?_, w.increasing, nodup⟩
      intro g hg i hi
      rcases List.mem_cons.mp hg with rfl | hg
      · exact sameT i (List.mem_of_mem_erase hi)
      · exact w.same g (List.mem_cons_of_mem _ hg) i hi
    · have rest : GroupsWf prio (groupsErase node G) := GroupsWf.erase w.tail
      refine ⟨?_, List.Pairwise.cons (fun b hb => ?_) rest.increasing, nodup⟩
      · intro g hg i hi
        rcases List.mem_cons.mp hg with rfl | hg
        · exact sameT i hi
        · exact rest.same g hg i hi
      · rcases groupFirsts_groupsErase hb with hb | ⟨g, hg, hb⟩
        · exact above b hb
        · rw [w.tail.same g hg b hb]
          exact above g.1 (List.mem_map_of_mem hg)

theorem filter_groupsErase (q : Int) (G : List (ι × List ι)) :
    (groupNodes (groupsErase node G)).filter (fun i => prio i == q) =
      ((groupNodes G).filter fun i => prio i == q).erase node := by
  rw [groupNodes_groupsErase, List.erase_filter]

theorem groupsErase_append {G : List (ι × List ι)} : ∀ {A : List (ι × List ι)}, node ∉ groupNodes A →
    groupsErase node (A ++ G) = A ++ groupsErase node G
  | [], _ => rfl
  | (f, t) :: A, fresh => by
    simp only [groupNodes_cons, List.mem_cons, List.mem_append, not_or] at fresh
    simp only [List.cons_append, groupsErase_cons, if_neg fresh.1, if_neg fresh.2.1, groupsErase_append fresh.2.2]

omit [DecidableEq ι] in
theorem exists_group_of_mem {i : ι} {G : List (ι × List ι)} (hi : i ∈ groupNodes G) :
    ∃ A f t B, G = A ++ (f, t) :: B ∧ (i = f ∨ i ∈ t) := by
  obtain ⟨⟨f, t⟩, hg, hit⟩ := mem_groupNodes.mp hi
  obtain ⟨A, B, rfl⟩ := List.append_of_mem hg
  exact ⟨A, f, t, B, rfl, hit⟩

section Position

variable {A B : List (ι × List ι)} {f : ι} {t : List ι}

omit [DecidableEq ι] in
theorem GroupsWf.not_mem_before (w : GroupsWf prio (A ++ (f, t) :: B)) {i : ι} (hi : i = f ∨ i ∈ t) :
    i ∉ groupNodes A := by
  have nodup := w.nodup
  simp only [groupNodes_append, groupNodes_cons, List.nodup_append] at nodup
  intro hA
  rcases hi with rfl | hi
  · exact nodup.2.2 i hA i List.mem_cons_self rfl
  · exact nodup.2.2 i hA i (List.mem_cons_of_mem f (List.mem_append_left _ hi)) rfl

theorem groupsErase_first_nil (w : GroupsWf prio (A ++ (f, []) :: B)) : groupsErase f (A ++ (f, []) :: B) = A ++ B := by
  rw [groupsErase_append (w.not_mem_before (.inl rfl)), groupsErase_cons, if_pos rfl]

theorem groupsErase_first_cons {x : ι} (w : GroupsWf prio (A ++ (f, x :: t) :: B)) :
    groupsErase f (A ++ (f, x :: t) :: B) = A ++ (x, t) :: B := by
  rw [groupsErase_append (w.not_mem_before (.inl rfl)), groupsErase_cons, if_pos rfl]

theorem groupsErase_inner (w : GroupsWf prio (A ++ (f, t) :: B)) (hi : node ∈ t) :
    groupsErase node (A ++ (f, t) :: B) = A ++ (f, t.erase node) :: B := by
  have nodup := w.nodup
  simp only [groupNodes_append, groupNodes_cons, List.nodup_append, List.nodup_cons] at nodup
  have ne : node ≠ f := by
    rintro rfl
    exact nodup.2.1.1 (List.mem_append_left _ hi)
  rw [groupsErase_append (w.not_mem_before (.inr hi))]
  simp only [groupsErase_cons, if_neg ne, if_pos hi]

omit [DecidableEq ι] in
theorem GroupsWf.not_first (w : GroupsWf prio (A ++ (f, t) :: B)) {i : ι} (hi : i ∈ t) :
    i ∉ groupFirsts (A ++ (f, t) :: B) := by
  have nodup := w.nodup
  simp only [groupNodes_append, groupNodes_cons, List.nodup_append, List.nodup_cons] at nodup
  obtain ⟨-, ⟨fOut, -, -, apart⟩, before⟩ := nodup
  simp only [groupFirsts_append, groupFirsts_cons, List.mem_append, List.mem_cons, not_or]
  refine ⟨fun hA => ?_, ?_, fun hB => ?_⟩
  · exact before i (mem_groupNodes_of_first hA) i (List.mem_cons_of_mem f (List.mem_append_left _ hi)) rfl
  · rintro rfl
    exact fOut (List.mem_append_left _ hi)
  · exact apart i hi i (mem_groupNodes_of_first hB) rfl

end Position

end Erase

end LinuxKernel
