import LinuxKernel.Lib.Plist
import LinuxKernel.Lib.PlistGroups

/-!
# plist refines its groups

`PlistInv s H G`: the links of `s` stand for the groups `G`, whose nodes of each priority are
those of `H` in arrival order. `plist_add` refines `groupsInsert` and `plist_del` refines
`groupsErase`, so every run keeps the invariant.
-/

namespace LinuxKernel

open CircularList

variable {ι : Type} [DecidableEq ι]

structure PlistInv (s : Plist ι) (H : List ι) (G : List (ι × List ι)) : Prop where
  wf : GroupsWf s.prio G
  nodes : Ring s.nodeList none ((groupNodes G).map some)
  outside : ∀ i, i ∉ groupNodes G → Detached s.nodeList (some i)
  ring : ∀ f fs, groupFirsts G = f :: fs → Ring s.prioList f fs
  detached : ∀ i, i ∉ groupFirsts G → Detached s.prioList i
  fifo : ∀ q, (groupNodes G).filter (fun i => s.prio i == q) = H.filter fun i => s.prio i == q

variable {s : Plist ι} {H : List ι} {G : List (ι × List ι)} {node : ι}

omit [DecidableEq ι] in
theorem plistInit_inv (prio : ι → Int) : PlistInv (plistInit prio) [] [] where
  wf := ⟨by simp, by simp, by simp⟩
  nodes := ring_nil.mpr ⟨rfl, rfl⟩
  outside _ _ := ⟨rfl, rfl⟩
  ring f fs h := by simp at h
  detached _ _ := ⟨rfl, rfl⟩
  fifo _ := rfl

theorem PlistInv.nodeEmpty_iff (inv : PlistInv s H G) : plistNodeEmpty s node = true ↔ node ∉ groupNodes G := by
  constructor
  · intro empty mem
    obtain ⟨xs, ys, split⟩ := List.append_of_mem (show some node ∈ (groupNodes G).map some from List.mem_map_of_mem mem)
    have atNode : Ring s.nodeList (some node) (ys ++ none :: xs) := ring_rotate.mp (split ▸ inv.nodes)
    have := (listEmpty_ring atNode).mp empty
    simp at this
  · intro out
    exact listEmpty_detached (inv.outside node out)

omit [DecidableEq ι] in
theorem PlistInv.head_next (inv : PlistInv s H G) : s.nodeList.next none = (groupFirsts G).head? := by
  rw [inv.nodes.next_head]
  cases G with
  | nil => rfl
  | cons g G => rfl

/-! ### `plist_add` -/

omit [DecidableEq ι] in
theorem getLast?_or_cons (x : ι) (xs : List ι) (prev : Option ι) :
    xs.getLast?.or (some x) = (x :: xs).getLast?.or prev := by
  rw [List.getLast?_cons]
  cases xs.getLast? <;> rfl

theorem plistAddWalk_eq {node first : ι} {ys : List ι} : ∀ {xs zs : List ι} {iter : ι} {prev : Option ι} {fuel : Nat},
    Path s.prioList iter zs first → first ∉ zs → iter :: zs = xs ++ ys → (∀ x ∈ xs, s.prio x ≤ s.prio node) →
    (∀ y ∈ ys.head?, s.prio node < s.prio y) → zs.length < fuel →
    plistAddWalk s node first fuel iter prev = some (ys.headD first, xs.getLast?.or prev, ys.head?)
  | [], zs, iter, prev, fuel, _, _, split, _, above, enough => by
    obtain ⟨fuel, rfl⟩ : ∃ n, fuel = n + 1 := ⟨fuel - 1, by omega⟩
    rw [List.nil_append] at split
    subst split
    rw [plistAddWalk, if_pos (above iter rfl)]
    rfl
  | x :: xs, zs, iter, prev, fuel, path, notFirst, split, below, above, enough => by
    obtain ⟨fuel, rfl⟩ : ∃ n, fuel = n + 1 := ⟨fuel - 1, by omega⟩
    obtain ⟨rfl, rest⟩ := List.cons_eq_cons.mp split
    rw [plistAddWalk, if_neg (not_lt.mpr (below iter List.mem_cons_self))]
    cases zs with
    | nil =>
      -- back at `first`: the loop ends
      obtain ⟨rfl, rfl⟩ := List.append_eq_nil_iff.mp rest.symm
      rw [if_pos path.1]
      rfl
    | cons z zs =>
      obtain ⟨next, -, path⟩ := path
      have zNe : z ≠ first := fun e => notFirst (e ▸ List.mem_cons_self)
      rw [next, if_neg zNe, plistAddWalk_eq path (fun h => notFirst (List.mem_cons_of_mem z h)) rest
        (fun y hy => below y (List.mem_cons_of_mem iter hy)) above (by simp only [List.length_cons] at enough; omega),
        getLast?_or_cons]

theorem PlistInv.nodeList_add (A B : List (ι × List ι)) (inv : PlistInv s H G) (split : G = A ++ B)
    (fresh : node ∉ groupNodes G) :
    Ring (listAddTail s.nodeList (some node) (groupFirsts B).head?) none
        ((groupNodes A ++ node :: groupNodes B).map some) ∧
      ∀ i, i ∉ groupNodes A ++ node :: groupNodes B →
        Detached (listAddTail s.nodeList (some node) (groupFirsts B).head?) (some i) := by
  subst split
  have w : Ring s.nodeList none ((groupNodes A).map some ++ (groupNodes B).map some) := by
    simpa using inv.nodes
  have freshSome : some node ∉ none :: ((groupNodes A).map some ++ (groupNodes B).map some) := by
    simpa using fresh
  have before : (groupFirsts B).head? ∈ none :: ((groupNodes A).map some ++ (groupNodes B).map some) := by
    cases B with
    | nil => exact List.mem_cons_self
    | cons b B => simp
  refine ⟨?_, fun i out => ?_⟩
  · cases B with
    | nil => simpa using listAddTail_ring_head w freshSome
    | cons b B => simpa using listAddTail_ring (show Ring _ none (_ ++ some b.1 :: _) by simpa using w) (by simpa using fresh)
  · have off := inv.outside i (by simp only [groupNodes_append, List.mem_append, List.mem_cons, not_or] at out ⊢; tauto)
    refine listAddTail_detached off w before ?_ ?_
    · cases B with
      | nil => simp
      | cons b B =>
        simp only [groupNodes_cons, List.mem_cons, List.mem_append, not_or] at out
        simpa using out.2.2.1
    · simp only [List.mem_append, List.mem_cons, not_or] at out
      simp [out.2.1]

/-- What `plist_add` writes, for a head that is not empty: the node goes on `node_list` before the
first group above its priority, and on `prio_list` before that group's first node unless the
last group below has its priority. -/
theorem PlistInv.plistAdd_eq {g : ι × List ι} {A B : List (ι × List ι)} (inv : PlistInv s H (g :: G))
    (split : g :: G = A ++ B) (below : ∀ a ∈ A, s.prio a.1 ≤ s.prio node) (above : ∀ b ∈ B, s.prio node < s.prio b.1)
    {fuel : Nat} (enough : (groupFirsts (g :: G)).length ≤ fuel) :
    plistAdd fuel s node = some { s with
      prioList := if (groupFirsts A).getLast?.all fun p => s.prio p != s.prio node
        then listAddTail s.prioList node ((groupFirsts B).headD g.1) else s.prioList
      nodeList := listAddTail s.nodeList (some node) (groupFirsts B).head? } := by
  have ring := inv.ring g.1 (groupFirsts G) rfl
  have headNext : s.nodeList.next none = some g.1 := inv.head_next
  have firstsSplit : g.1 :: groupFirsts G = groupFirsts A ++ groupFirsts B := by
    rw [← groupFirsts_append, ← split]
    rfl
  have belowFirsts : ∀ x ∈ groupFirsts A, s.prio x ≤ s.prio node := by
    intro x hx
    obtain ⟨a, ha, rfl⟩ := List.mem_map.mp hx
    exact below a ha
  have aboveFirst : ∀ y ∈ (groupFirsts B).head?, s.prio node < s.prio y := by
    intro y hy
    cases B with
    | nil => simp at hy
    | cons b B =>
      obtain rfl := Option.some.inj hy
      exact above b List.mem_cons_self
  have shortWalk : (groupFirsts G).length < fuel := by
    simp only [groupFirsts_cons, List.length_cons] at enough
    omega
  simp only [plistAdd, headNext, plistAddWalk_eq ring.1 (List.nodup_cons.mp ring.2).1 firstsSplit belowFirsts aboveFirst
    shortWalk, Option.map_some, Option.or_none]

theorem PlistInv.add_new {g : ι × List ι} {A B : List (ι × List ι)} (inv : PlistInv s H (g :: G))
    (split : g :: G = A ++ B) (fresh : node ∉ groupNodes (g :: G)) (below : ∀ a ∈ A, s.prio a.1 < s.prio node)
    (above : ∀ b ∈ B, s.prio node < s.prio b.1) :
    PlistInv { s with
        prioList := listAddTail s.prioList node ((groupFirsts B).headD g.1)
        nodeList := listAddTail s.nodeList (some node) (groupFirsts B).head? }
      (H ++ [node]) (A ++ (node, []) :: B) := by
  have ring := inv.ring g.1 (groupFirsts G) rfl
  have firstsSplit : g.1 :: groupFirsts G = groupFirsts A ++ groupFirsts B := by
    rw [← groupFirsts_append, ← split]
    rfl
  have freshFirst : node ∉ g.1 :: groupFirsts G := fun h => fresh (mem_groupNodes_of_first h)
  have inserted : groupsInsert s.prio node (g :: G) = A ++ (node, []) :: B := by
    rw [split, groupsInsert_split_new below above]
  have before : (groupFirsts B).headD g.1 ∈ g.1 :: groupFirsts G := by
    cases B with
    | nil => exact List.mem_cons_self
    | cons b B => simp [firstsSplit]
  obtain ⟨nodes, outside⟩ := inv.nodeList_add A B split fresh
  refine ⟨inserted ▸ inv.wf.insert fresh, by simpa using nodes, fun i out => outside i (by simpa using out), ?_,
    fun i out => ?_, fun q => ?_⟩
  · intro f fs shape
    exact listAddTail_ring_split ring firstsSplit freshFirst f fs (by simpa using shape)
  · simp only [groupFirsts_append, groupFirsts_cons, List.mem_append, List.mem_cons, not_or] at out
    have off := inv.detached i (by rw [split]; simp [out.1, out.2.2])
    refine listAddTail_detached off ring before ?_ out.2.1
    cases B with
    | nil =>
      have gA : g.1 ∈ groupFirsts A ++ groupFirsts [] := firstsSplit ▸ List.mem_cons_self
      exact fun e => out.1 (by rw [e]; simpa using gA)
    | cons b B => exact fun e => out.2.2 (by rw [e]; exact List.mem_cons_self)
  · rw [← inserted, filter_groupsInsert q inv.wf, List.filter_append, List.filter_append, inv.fifo q]

theorem PlistInv.add_join {g : ι × List ι} {A B : List (ι × List ι)} {f : ι} {t : List ι} (inv : PlistInv s H (g :: G))
    (split : g :: G = A ++ (f, t) :: B) (fresh : node ∉ groupNodes (g :: G)) (below : ∀ a ∈ A, s.prio a.1 < s.prio node)
    (eq : s.prio f = s.prio node) :
    PlistInv { s with nodeList := listAddTail s.nodeList (some node) (groupFirsts B).head? } (H ++ [node])
      (A ++ (f, t ++ [node]) :: B) := by
  have inserted : groupsInsert s.prio node (g :: G) = A ++ (f, t ++ [node]) :: B := by
    rw [split, groupsInsert_split_join below eq]
  have sameFirsts : groupFirsts (A ++ (f, t ++ [node]) :: B) = groupFirsts (g :: G) := by
    rw [split]
    simp
  obtain ⟨nodes, outside⟩ := inv.nodeList_add (A ++ [(f, t)]) B (by simpa using split) fresh
  refine ⟨inserted ▸ inv.wf.insert fresh, by simpa using nodes, fun i out => outside i (by simpa using out),
    fun f' fs shape => inv.ring f' fs (by rw [← sameFirsts]; exact shape),
    fun i out => inv.detached i (by rw [← sameFirsts]; exact out), fun q => ?_⟩
  rw [← inserted, filter_groupsInsert q inv.wf, List.filter_append, List.filter_append, inv.fifo q]

theorem PlistInv.add (inv : PlistInv s H G) (empty : plistNodeEmpty s node = true) {fuel : Nat}
    (enough : (groupFirsts G).length ≤ fuel) :
    ∃ s', plistAdd fuel s node = some s' ∧ PlistInv s' (H ++ [node]) (groupsInsert s.prio node G) := by
  have fresh := inv.nodeEmpty_iff.mp empty
  have prioOff : Detached s.prioList node := inv.detached node fun h => fresh (mem_groupNodes_of_first h)
  cases G with
  | nil =>
    -- an empty head: straight to `ins_node`
    have headEmpty : s.nodeList.next none = none := inv.head_next
    obtain ⟨nodes, outside⟩ := inv.nodeList_add [] [] rfl fresh
    refine ⟨{ s with nodeList := listAddTail s.nodeList (some node) none }, by simp only [plistAdd, headEmpty],
      inv.wf.insert fresh, nodes, outside, fun f fs first => ?_, fun i _ => inv.detached i List.not_mem_nil, fun q => ?_⟩
    · obtain ⟨rfl, rfl⟩ := List.cons_eq_cons.mp first
      exact ring_nil.mpr prioOff
    · rw [filter_groupsInsert q inv.wf, List.filter_append, List.filter_append, inv.fifo q]
  | cons g G =>
    obtain ⟨A, B, split, below, above⟩ := inv.wf.exists_split (s.prio node)
    refine ⟨_, inv.plistAdd_eq split below above enough, ?_⟩
    rcases List.eq_nil_or_concat' A with rfl | ⟨A, ⟨f, t⟩, rfl⟩
    · -- below every group: a group of its own, in front
      have inserted : groupsInsert s.prio node (g :: G) = [] ++ (node, []) :: B := by
        rw [split]
        exact groupsInsert_split_new (by simp) above
      simp only [groupFirsts_nil, List.getLast?_nil, Option.all_none, ↓reduceIte]
      rw [inserted]
      exact inv.add_new split fresh (by simp) above
    · have last : (groupFirsts (A ++ [(f, t)])).getLast? = some f := by simp
      have wf : GroupsWf s.prio (A ++ (f, t) :: B) := by
        have w := inv.wf
        rw [split, List.append_assoc, List.singleton_append] at w
        exact w
      have lower : ∀ a ∈ A, s.prio a.1 < s.prio f := wf.lt_of_append
      have le : s.prio f ≤ s.prio node := below (f, t) (by simp)
      by_cases eq : s.prio f = s.prio node
      · rw [last, if_neg (by simp [eq]), split, List.append_assoc, List.singleton_append,
          groupsInsert_split_join (fun a ha => (lower a ha).trans_le le) eq]
        exact inv.add_join (by simpa using split) fresh (fun a ha => (lower a ha).trans_le le) eq
      · have lt : s.prio f < s.prio node := lt_of_le_of_ne le eq
        have allBelow : ∀ a ∈ A ++ [(f, t)], s.prio a.1 < s.prio node := by
          intro a ha
          rcases List.mem_append.mp ha with ha | ha
          · exact (lower a ha).trans lt
          · rw [List.mem_singleton.mp ha]
            exact lt
        rw [last, if_pos (by simp [eq]), split, groupsInsert_split_new allBelow above]
        exact inv.add_new split fresh allBelow above

/-! ### `plist_del` -/

theorem plistDel_prioList_of_unlinked (unlinked : listEmpty s.prioList node = true) :
    (plistDel s node).prioList = s.prioList := by
  simp [plistDel, unlinked]

theorem plistDel_prioList_replace {next : ι} (linked : listEmpty s.prioList node = false)
    (hn : s.nodeList.next (some node) = some next) (unlinked : listEmpty s.prioList next = true) :
    (plistDel s node).prioList = listDelInit (listAdd s.prioList next node) node := by
  simp [plistDel, linked, hn, unlinked]

theorem plistDel_prioList_remove (linked : listEmpty s.prioList node = false)
    (keep : ∀ next, s.nodeList.next (some node) = some next → listEmpty s.prioList next = false) :
    (plistDel s node).prioList = listDelInit s.prioList node := by
  cases hn : s.nodeList.next (some node) with
  | none => simp [plistDel, linked, hn]
  | some next => simp [plistDel, linked, hn, keep next hn]

theorem PlistInv.del_nodeList (inv : PlistInv s H G) (mem : node ∈ groupNodes G) :
    Ring (listDelInit s.nodeList (some node)) none ((groupNodes (groupsErase node G)).map some) ∧
      ∀ i, i ∉ groupNodes (groupsErase node G) → Detached (listDelInit s.nodeList (some node)) (some i) := by
  have nodup := inv.wf.nodup
  obtain ⟨P, Q, split⟩ := List.append_of_mem mem
  have notInP : node ∉ P := fun hP => by
    rw [split] at nodup
    exact (List.nodup_append.mp nodup).2.2 node hP node List.mem_cons_self rfl
  have erased : groupNodes (groupsErase node G) = P ++ Q := by
    rw [groupNodes_groupsErase, split, List.erase_append_right _ notInP, List.erase_cons_head]
  have w : Ring s.nodeList none (P.map some ++ some node :: Q.map some) := by
    simpa [split] using inv.nodes
  refine ⟨by simpa [erased] using (listDelInit_ring w).1, fun i out => ?_⟩
  by_cases hi : i = node
  · subst hi
    exact listDelInit_self
  · rw [erased] at out
    have off := inv.outside i (by rw [split]; simp only [List.mem_append, List.mem_cons, not_or] at out ⊢; tauto)
    exact listDelInit_detached off inv.nodes (by simp [split]) (by simpa using hi)

theorem PlistInv.del_first {A B : List (ι × List ι)} {f : ι} {t : List ι} (inv : PlistInv s H (A ++ (f, t) :: B)) :
    (∀ f' fs, groupFirsts (groupsErase f (A ++ (f, t) :: B)) = f' :: fs → Ring (plistDel s f).prioList f' fs) ∧
      ∀ i, i ∉ groupFirsts (groupsErase f (A ++ (f, t) :: B)) → Detached (plistDel s f).prioList i := by
  obtain ⟨first, fs, hF⟩ : ∃ first fs, groupFirsts A ++ f :: groupFirsts B = first :: fs :=
    List.exists_cons_of_ne_nil (by simp)
  have ring : Ring s.prioList first fs := inv.ring first fs (by simpa using hF)
  have fIn : f ∈ first :: fs := by
    rw [← hF]
    simp
  have inT : ∀ x ∈ t, x ∉ first :: fs := fun x hx => by
    rw [← hF]
    simpa using inv.wf.not_first hx
  by_cases alone : fs = []
  · -- the only group: the ring is its first node alone, linked to itself
    subst alone
    have hA : A = [] := by
      cases A with
      | nil => rfl
      | cons a A => simp at hF
    subst hA
    simp only [groupFirsts_nil, List.nil_append, List.cons.injEq] at hF
    obtain ⟨rfl, hB⟩ := hF
    obtain rfl : B = [] := List.map_eq_nil_iff.mp hB
    have fOff : Detached s.prioList f := ring_nil.mp ring
    rw [plistDel_prioList_of_unlinked (listEmpty_detached fOff)]
    cases t with
    | nil =>
      rw [groupsErase_first_nil inv.wf]
      refine ⟨fun _ _ h => by simp at h, fun i _ => ?_⟩
      by_cases hi : i = f
      · exact hi ▸ fOff
      · exact inv.detached i (by simpa using hi)
    | cons x t =>
      rw [groupsErase_first_cons inv.wf]
      refine ⟨fun f' fs' shape => ?_, fun i out => ?_⟩
      · simp only [List.nil_append, groupFirsts_cons, groupFirsts_nil, List.cons.injEq] at shape
        obtain ⟨rfl, rfl⟩ := shape
        exact ring_nil.mpr (inv.detached x (by simpa using inT x List.mem_cons_self))
      · by_cases hi : i = f
        · exact hi ▸ fOff
        · exact inv.detached i (by simpa using hi)
  · -- two groups or more: `f`'s `prio_list` is not empty
    have linked : listEmpty s.prioList f = false := by
      simpa [listEmpty] using ring.next_ne_self fIn alone
    have nextF : s.nodeList.next (some f) = ((t ++ groupNodes B).map some).headD none := by
      have w : Ring s.nodeList none ((groupNodes A).map some ++ some f :: (t ++ groupNodes B).map some) := by
        simpa using inv.nodes
      exact w.next_eq
    cases t with
    | cons x t =>
      -- the next node has `f`'s priority and takes its place
      have xOff : Detached s.prioList x := inv.detached x fun h => inT x List.mem_cons_self (by rw [← hF]; simpa using h)
      rw [plistDel_prioList_replace linked (by simpa using nextF) (listEmpty_detached xOff), groupsErase_first_cons inv.wf]
      refine ⟨fun f' fs' shape => listAdd_listDelInit_ring_split ring hF.symm (inT x List.mem_cons_self) f' fs'
        (by simpa using shape), fun i out => ?_⟩
      by_cases hi : i = f
      · subst hi
        exact listDelInit_self
      · simp only [groupFirsts_append, groupFirsts_cons, List.mem_append, List.mem_cons, not_or] at out
        have off := inv.detached i (by simp [out.1, out.2.2, hi])
        exact listAdd_listDelInit_detached off ring fIn hi out.2.1 (inT x List.mem_cons_self)
    | nil =>
      -- the next node, if any, heads a group of its own: `f` only leaves the ring
      have keep : ∀ next, s.nodeList.next (some f) = some next → listEmpty s.prioList next = false := by
        intro next hn
        rw [nextF] at hn
        cases B with
        | nil => simp at hn
        | cons b B =>
          simp only [List.nil_append, groupNodes_cons, List.map_cons, List.headD_cons, Option.some.injEq] at hn
          subst hn
          have bIn : b.1 ∈ first :: fs := by
            rw [← hF]
            simp
          simpa [listEmpty] using ring.next_ne_self bIn alone
      rw [plistDel_prioList_remove linked keep, groupsErase_first_nil inv.wf]
      refine ⟨fun f' fs' shape => listDelInit_ring_split ring hF.symm f' fs' (by simpa using shape), fun i out => ?_⟩
      by_cases hi : i = f
      · subst hi
        exact listDelInit_self
      · simp only [groupFirsts_append, List.mem_append, not_or] at out
        have off := inv.detached i (by simp [out.1, out.2, hi])
        exact listDelInit_detached off ring fIn hi

theorem PlistInv.del (inv : PlistInv s H G) (mem : node ∈ groupNodes G) :
    PlistInv (plistDel s node) (H.erase node) (groupsErase node G) ∧
      Detached (plistDel s node).nodeList (some node) ∧ Detached (plistDel s node).prioList node := by
  obtain ⟨nodes, outside⟩ := inv.del_nodeList mem
  obtain ⟨A, f, t, B, rfl, which⟩ := exists_group_of_mem mem
  have prio : (∀ f' fs, groupFirsts (groupsErase node (A ++ (f, t) :: B)) = f' :: fs →
      Ring (plistDel s node).prioList f' fs) ∧
      ∀ i, i ∉ groupFirsts (groupsErase node (A ++ (f, t) :: B)) → Detached (plistDel s node).prioList i := by
    rcases which with rfl | inner
    · exact inv.del_first
    · -- a node inside its group is on no `prio_list`
      have notFirst := inv.wf.not_first inner
      rw [plistDel_prioList_of_unlinked (listEmpty_detached (inv.detached node notFirst)),
        groupsErase_inner inv.wf inner]
      have same : groupFirsts (A ++ (f, t.erase node) :: B) = groupFirsts (A ++ (f, t) :: B) := by simp
      rw [same]
      exact ⟨inv.ring, inv.detached⟩
  have gone : node ∉ groupNodes (groupsErase node (A ++ (f, t) :: B)) := by
    rw [groupNodes_groupsErase]
    exact inv.wf.nodup.not_mem_erase
  refine ⟨⟨inv.wf.erase, nodes, outside, prio.1, prio.2, fun q => ?_⟩, outside node gone,
    prio.2 node fun h => gone (mem_groupNodes_of_first h)⟩
  show (groupNodes (groupsErase node _)).filter (fun i => s.prio i == q) = (H.erase node).filter fun i => s.prio i == q
  rw [filter_groupsErase, inv.fifo q, List.erase_filter]

/-! ### Runs -/

theorem plistAddWalk_mono {node first : ι} {r : ι × Option ι × Option ι} : ∀ {fuel fuel' : Nat} {iter : ι}
    {prev : Option ι}, plistAddWalk s node first fuel iter prev = some r → fuel ≤ fuel' →
    plistAddWalk s node first fuel' iter prev = some r
  | 0, _, _, _, h, _ => by simp [plistAddWalk] at h
  | fuel + 1, fuel', iter, prev, h, le => by
    obtain ⟨fuel', rfl⟩ : ∃ n, fuel' = n + 1 := ⟨fuel' - 1, by omega⟩
    rw [plistAddWalk] at h ⊢
    split_ifs at h ⊢
    · exact h
    · exact h
    · exact plistAddWalk_mono h (by omega)

theorem plistAdd_mono {s' : Plist ι} {fuel fuel' : Nat} (h : plistAdd fuel s node = some s') (le : fuel ≤ fuel') :
    plistAdd fuel' s node = some s' := by
  unfold plistAdd at h ⊢
  split at h
  · exact h
  · obtain ⟨r, walk, rfl⟩ := Option.map_eq_some_iff.mp h
    rw [plistAddWalk_mono walk le, Option.map_some]

/-- The plists a run of `plist_add` and `plist_del` reaches from an empty head, with the nodes on
the list in the order they were added. A node is added when its `node_list` is linked to itself,
as the `WARN_ON` of `plist_add` asks, and deleted when it is on the list. -/
inductive PlistReachable : Plist ι → List ι → Prop
  | init (prio : ι → Int) : PlistReachable (plistInit prio) []
  | add {s s' : Plist ι} {H : List ι} {node : ι} {fuel : Nat} : PlistReachable s H → plistNodeEmpty s node = true →
      plistAdd fuel s node = some s' → PlistReachable s' (H ++ [node])
  | del {s : Plist ι} {H : List ι} {node : ι} : PlistReachable s H → node ∈ H →
      PlistReachable (plistDel s node) (H.erase node)

omit [DecidableEq ι] in
theorem groupFirsts_length_le (G : List (ι × List ι)) : (groupFirsts G).length ≤ (groupNodes G).length := by
  induction G with
  | nil => exact le_refl 0
  | cons g G ih =>
    simp only [groupFirsts_cons, groupNodes_cons, List.length_cons, List.length_append]
    omega

omit [DecidableEq ι] in
theorem PlistInv.mem_of_added (inv : PlistInv s H G) (added : node ∈ H) : node ∈ groupNodes G := by
  have kept : node ∈ H.filter fun i => s.prio i == s.prio node := List.mem_filter.mpr ⟨added, by simp⟩
  rw [← inv.fifo] at kept
  exact (List.mem_filter.mp kept).1

theorem PlistReachable.inv (h : PlistReachable s H) : ∃ G, PlistInv s H G := by
  induction h with
  | init prio => exact ⟨[], plistInit_inv prio⟩
  | @add s s' H node fuel _ empty step ih =>
    obtain ⟨G, inv⟩ := ih
    obtain ⟨s'', step', inv'⟩ := inv.add empty (le_max_right fuel (groupFirsts G).length)
    rw [plistAdd_mono step (le_max_left fuel (groupFirsts G).length)] at step'
    obtain rfl := Option.some.inj step'
    exact ⟨_, inv'⟩
  | del _ added ih =>
    obtain ⟨G, inv⟩ := ih
    exact ⟨_, (inv.del (inv.mem_of_added added)).1⟩

/-- A plist with the nodes `L` on `node_list`, added in the order `H`: `node_list` links `L` from
the head and every other node's `node_list` is linked to itself; `L` is sorted by priority and
holds each priority's nodes in the order they were added; `prio_list` rings the first node of each
priority in increasing order of priority, and every other node's `prio_list` is linked to itself. -/
structure PlistShape (s : Plist ι) (H L : List ι) : Prop where
  nodes : Ring s.nodeList none (L.map some)
  outside : ∀ i, i ∉ L → Detached s.nodeList (some i)
  sorted : L.Pairwise fun a b => s.prio a ≤ s.prio b
  fifo : ∀ q, L.filter (fun i => s.prio i == q) = H.filter fun i => s.prio i == q
  increasing : (prioFirsts s.prio L).Pairwise fun a b => s.prio a < s.prio b
  ring : ∀ f fs, prioFirsts s.prio L = f :: fs → Ring s.prioList f fs
  detached : ∀ i, i ∉ prioFirsts s.prio L → Detached s.prioList i

omit [DecidableEq ι] in
theorem PlistInv.shape (inv : PlistInv s H G) : PlistShape s H (groupNodes G) := by
  have firsts := inv.wf.prioFirsts
  refine ⟨inv.nodes, inv.outside, inv.wf.sorted, inv.fifo, ?_, ?_, ?_⟩
  · rw [firsts]
    exact inv.wf.increasing
  · rw [firsts]
    exact inv.ring
  · rw [firsts]
    exact inv.detached

theorem plist_run_invariant (h : PlistReachable s H) :
    ∃ L, PlistShape s H L ∧
      (∀ node, plistNodeEmpty s node = true → ∀ fuel, L.length ≤ fuel →
        ∃ s', plistAdd fuel s node = some s' ∧ ∃ L', PlistShape s' (H ++ [node]) L') ∧
      ∀ node ∈ L, PlistShape (plistDel s node) (H.erase node) (L.erase node) ∧
        Detached (plistDel s node).nodeList (some node) ∧ Detached (plistDel s node).prioList node := by
  obtain ⟨G, inv⟩ := h.inv
  refine ⟨groupNodes G, inv.shape, fun node empty fuel enough => ?_, fun node mem => ?_⟩
  · obtain ⟨s', step, inv'⟩ := inv.add empty ((groupFirsts_length_le G).trans enough)
    exact ⟨s', step, _, inv'.shape⟩
  · obtain ⟨inv', nodeOff, prioOff⟩ := inv.del mem
    rw [← groupNodes_groupsErase]
    exact ⟨inv'.shape, nodeOff, prioOff⟩

/-- Nodes 0 and 2 of priority 2 and node 1 of priority 1, added in that order, then node 0
deleted: node 2 takes its place on `prio_list`. -/
theorem plist_run_three_nodes :
    let prio : Nat → Int := fun i => if i = 1 then 1 else 2
    let step (s : Plist Nat) (node : Nat) : Plist Nat := (plistAdd 3 s node).getD s
    let s := plistDel (step (step (step (plistInit prio) 0) 1) 2) 0
    PlistReachable s [1, 2] ∧ ∃ L, PlistShape s [1, 2] L ∧
      (∀ node, plistNodeEmpty s node = true → ∀ fuel, L.length ≤ fuel →
        ∃ s', plistAdd fuel s node = some s' ∧ ∃ L', PlistShape s' ([1, 2] ++ [node]) L') ∧
      ∀ node ∈ L, PlistShape (plistDel s node) ([1, 2].erase node) (L.erase node) ∧
        Detached (plistDel s node).nodeList (some node) ∧ Detached (plistDel s node).prioList node := by
  intro prio step s
  have run : PlistReachable s [1, 2] :=
    .del (.add (.add (.add (.init prio) rfl (show plistAdd 3 _ 0 = _ from rfl)) rfl (show plistAdd 3 _ 1 = _ from rfl)) rfl
      (show plistAdd 3 _ 2 = _ from rfl)) (by decide)
  exact ⟨run, plist_run_invariant run⟩

end LinuxKernel
