import LinuxKernel.Mm.PageAlloc
import Mathlib.Algebra.BigOperators.Group.Finset.Basic

/-!
# The buddy invariant

`FreeLists`: each page marked `PageBuddy` of order `o` is listed once on `free_area[o]` and
`nr_free` counts them. `Blocks`: the marked pages head disjoint aligned blocks covering exactly
the free pages, with no two free buddies unmerged. The edit lemmas carry both through each change.
-/

namespace LinuxKernel

open Buddy

attribute [simp] Zone.setPageOrder Zone.rmvPageOrder Zone.listDel Zone.modifyList Zone.listAdd
  Zone.listAddTail Zone.incNrFree Zone.decNrFree

structure FreeLists (z : Zone) : Prop where
  listed : ∀ p o, z.pageOrder p = some o → ∃ mt, p ∈ z.freeList o mt
  marked : ∀ o mt p, p ∈ z.freeList o mt → z.pageOrder p = some o
  oneList : ∀ o mt mt' p, p ∈ z.freeList o mt → p ∈ z.freeList o mt' → mt = mt'
  nodup : ∀ o mt, (z.freeList o mt).Nodup
  count : ∀ o, z.nrFree o = ∑ mt, (z.freeList o mt).length

structure Blocks (z : Zone) (F : Nat → Bool) : Prop where
  aligned : ∀ p o, z.pageOrder p = some o → 2 ^ o ∣ p ∧ o < maxOrder ∧ p + 2 ^ o ≤ z.spanned
  disjoint : ∀ p p' o o' q, z.pageOrder p = some o → z.pageOrder p' = some o' → InBlock p o q →
    InBlock p' o' q → p = p'
  cover : ∀ q, F q = true ↔ ∃ p o, z.pageOrder p = some o ∧ InBlock p o q
  unmerged : ∀ p o, z.pageOrder p = some o → o < maxOrder - 1 → z.pageOrder (p ^^^ 2 ^ o) ≠ some o

structure BuddyInv (z : Zone) (F : Nat → Bool) : Prop extends FreeLists z, Blocks z F

theorem inBlock_self (p o : Nat) : InBlock p o p := ⟨le_rfl, Nat.lt_add_of_pos_right (Nat.two_pow_pos o)⟩

theorem BuddyInv.congr {z : Zone} {F F' : Nat → Bool} (w : BuddyInv z F) (h : ∀ q, F q = F' q) : BuddyInv z F' := by
  rwa [← funext h]

theorem pageIsBuddy_iff {z : Zone} {page buddy o : Nat} :
    pageIsBuddy z page buddy o = true ↔ page < z.spanned ∧ buddy < z.spanned ∧ z.pageOrder buddy = some o := by
  simp [pageIsBuddy, and_assoc]

theorem allocated_inv (spanned : Nat) : BuddyInv (Zone.allocated spanned) fun _ => false where
  listed _ _ h := by cases h
  marked _ _ _ h := by cases h
  oneList _ _ _ _ h := by cases h
  nodup _ _ := List.nodup_nil
  count _ := by simp [Zone.allocated]
  aligned _ _ h := by cases h
  disjoint _ _ _ _ _ h := by cases h
  cover _ := by simp [Zone.allocated]
  unmerged _ _ h := by cases h

/-! ### Counting the lists of one order -/

theorem sum_length_erase {l : MigrateType → List Nat} {b : Nat} {m₀ : MigrateType} (hm : b ∈ l m₀)
    (hu : ∀ m, b ∈ l m → m = m₀) : ∑ m, ((l m).erase b).length + 1 = ∑ m, (l m).length := by
  rw [← Finset.add_sum_erase _ _ (Finset.mem_univ m₀), ← Finset.add_sum_erase _ _ (Finset.mem_univ m₀)]
  have rest : ∑ m ∈ Finset.univ.erase m₀, ((l m).erase b).length =
      ∑ m ∈ Finset.univ.erase m₀, (l m).length :=
    Finset.sum_congr rfl fun m hm' => by
      rw [List.erase_of_not_mem fun h => Finset.ne_of_mem_erase hm' (hu m h)]
  rw [rest, List.length_erase_of_mem hm]
  have := List.length_pos_of_mem hm
  omega

theorem sum_length_modify (l : MigrateType → List Nat) (mt : MigrateType) (f : List Nat → List Nat) :
    ∑ m, (if m = mt then f (l m) else l m).length + (l mt).length = ∑ m, (l m).length + (f (l mt)).length := by
  rw [← Finset.add_sum_erase _ _ (Finset.mem_univ mt),
    ← Finset.add_sum_erase _ (fun m => (l m).length) (Finset.mem_univ mt)]
  have rest : ∑ m ∈ Finset.univ.erase mt, (if m = mt then f (l m) else l m).length =
      ∑ m ∈ Finset.univ.erase mt, (l m).length :=
    Finset.sum_congr rfl fun m hm => by rw [if_neg (Finset.ne_of_mem_erase hm)]
  rw [rest, if_pos rfl]
  omega

/-! ### Taking a head off, putting a head on -/

section Edits

variable {z z' : Zone} {G : Nat → Bool} {p o : Nat}

theorem FreeLists.remove (w : FreeLists z) (hp : z.pageOrder p = some o)
    (hpo : z'.pageOrder = Function.update z.pageOrder p none)
    (hfl : ∀ o m, z'.freeList o m = (z.freeList o m).erase p)
    (hnr : z'.nrFree = Function.update z.nrFree o (z.nrFree o - 1)) : FreeLists z' where
  listed q o' hq := by
    rw [hpo] at hq
    have ne : q ≠ p := by
      rintro rfl
      simp at hq
    rw [Function.update_of_ne ne] at hq
    obtain ⟨mt, hm⟩ := w.listed q o' hq
    exact ⟨mt, by rw [hfl]; exact (List.mem_erase_of_ne ne).mpr hm⟩
  marked o' mt q hq := by
    rw [hfl] at hq
    obtain ⟨ne, hm⟩ := (w.nodup o' mt).mem_erase_iff.mp hq
    rw [hpo, Function.update_of_ne ne]
    exact w.marked o' mt q hm
  oneList o' mt mt' q h h' := by
    rw [hfl o' mt] at h
    rw [hfl o' mt'] at h'
    exact w.oneList o' mt mt' q (List.mem_of_mem_erase h) (List.mem_of_mem_erase h')
  nodup o' mt := by
    rw [hfl]
    exact (w.nodup o' mt).erase p
  count o' := by
    simp only [hnr, hfl]
    by_cases ho : o' = o
    · subst ho
      obtain ⟨m₀, hm⟩ := w.listed p o' hp
      have := sum_length_erase hm fun m h => w.oneList o' m m₀ p h hm
      rw [Function.update_self, w.count]
      omega
    · rw [Function.update_of_ne ho, w.count]
      refine Finset.sum_congr rfl fun mt _ => ?_
      rw [List.erase_of_not_mem fun h => ho (Option.some.inj ((w.marked o' mt p h).symm.trans hp))]

theorem FreeLists.add {mt : MigrateType} {f : List Nat → List Nat} (w : FreeLists z) (hp : z.pageOrder p = none)
    (hf : ∀ l, (f l).Perm (p :: l)) (hpo : z'.pageOrder = Function.update z.pageOrder p (some o))
    (hfl : ∀ o' m, z'.freeList o' m = if o' = o ∧ m = mt then f (z.freeList o' m) else z.freeList o' m)
    (hnr : z'.nrFree = Function.update z.nrFree o (z.nrFree o + 1)) : FreeLists z' where
  listed q o' hq := by
    rw [hpo] at hq
    by_cases ne : q = p
    · subst ne
      rw [Function.update_self, Option.some.injEq] at hq
      subst hq
      exact ⟨mt, by rw [hfl, if_pos ⟨rfl, rfl⟩]; exact (hf _).mem_iff.mpr List.mem_cons_self⟩
    · rw [Function.update_of_ne ne] at hq
      obtain ⟨m, hm⟩ := w.listed q o' hq
      refine ⟨m, ?_⟩
      rw [hfl]
      split_ifs
      · exact (hf _).mem_iff.mpr (List.mem_cons_of_mem _ hm)
      · exact hm
  marked o' m q hq := by
    rw [hfl] at hq
    rw [hpo]
    split_ifs at hq with hom
    · rcases List.mem_cons.mp ((hf _).mem_iff.mp hq) with rfl | hm
      · rw [Function.update_self, hom.1]
      · have ne : q ≠ p := by
          rintro rfl
          rw [w.marked o' m q hm] at hp
          cases hp
        rw [Function.update_of_ne ne]
        exact w.marked o' m q hm
    · have ne : q ≠ p := by
        rintro rfl
        rw [w.marked o' m q hq] at hp
        cases hp
      rw [Function.update_of_ne ne]
      exact w.marked o' m q hq
  oneList o' m m' q h h' := by
    rw [hfl o' m] at h
    rw [hfl o' m'] at h'
    -- the page put on is on no list before, so it is on the one list that gained it
    have old : ∀ m₀, q ∈ z.freeList o' m₀ → q ≠ p := by
      rintro m₀ hm rfl
      rw [w.marked o' m₀ q hm] at hp
      cases hp
    have place : ∀ m₀, q ∈ (if o' = o ∧ m₀ = mt then f (z.freeList o' m₀) else z.freeList o' m₀) →
        (q = p ∧ m₀ = mt) ∨ q ∈ z.freeList o' m₀ := fun m₀ hm => by
      split_ifs at hm with hom
      · rcases List.mem_cons.mp ((hf _).mem_iff.mp hm) with rfl | hm
        · exact .inl ⟨rfl, hom.2⟩
        · exact .inr hm
      · exact .inr hm
    rcases place m h with ⟨rfl, rfl⟩ | hm <;> rcases place m' h' with ⟨e, rfl⟩ | hm'
    · rfl
    · exact absurd rfl (old m' hm')
    · exact absurd e (old m hm)
    · exact w.oneList o' m m' q hm hm'
  nodup o' m := by
    rw [hfl]
    split_ifs
    · refine (hf _).nodup_iff.mpr (List.nodup_cons.mpr ⟨fun hm => ?_, w.nodup o' m⟩)
      rw [w.marked o' m p hm] at hp
      cases hp
    · exact w.nodup o' m
  count o' := by
    simp only [hnr, hfl]
    by_cases ho : o' = o
    · subst ho
      have := sum_length_modify (z.freeList o') mt f
      simp only [true_and, Function.update_self, w.count o', (hf _).length_eq, List.length_cons] at this ⊢
      omega
    · rw [Function.update_of_ne ho, w.count]
      refine Finset.sum_congr rfl fun m _ => ?_
      rw [if_neg fun h => ho h.1]

theorem Blocks.remove (w : Blocks z G) (hp : z.pageOrder p = some o) (hs : z'.spanned = z.spanned)
    (hpo : z'.pageOrder = Function.update z.pageOrder p none) :
    Blocks z' fun q => G q && !decide (InBlock p o q) where
  aligned q o' hq := by
    rw [hpo] at hq
    have ne : q ≠ p := by
      rintro rfl
      simp at hq
    rw [Function.update_of_ne ne] at hq
    rw [hs]
    exact w.aligned q o' hq
  disjoint q q' o₁ o₂ r h h' := by
    rw [hpo] at h h'
    have ne : q ≠ p := by
      rintro rfl
      simp at h
    have ne' : q' ≠ p := by
      rintro rfl
      simp at h'
    rw [Function.update_of_ne ne] at h
    rw [Function.update_of_ne ne'] at h'
    exact w.disjoint q q' o₁ o₂ r h h'
  cover r := by
    simp only [Bool.and_eq_true, Bool.not_eq_eq_eq_not, Bool.not_true, decide_eq_false_iff_not, hpo]
    rw [w.cover]
    constructor
    · rintro ⟨⟨q, o', hq, hr⟩, out⟩
      have ne : q ≠ p := by
        rintro rfl
        rw [hp, Option.some.injEq] at hq
        exact out (hq ▸ hr)
      exact ⟨q, o', by rw [Function.update_of_ne ne]; exact hq, hr⟩
    · rintro ⟨q, o', hq, hr⟩
      have ne : q ≠ p := by
        rintro rfl
        simp at hq
      rw [Function.update_of_ne ne] at hq
      exact ⟨⟨q, o', hq, hr⟩, fun hin => ne (w.disjoint q p o' o r hq hp hr hin)⟩
  unmerged q o' hq lt := by
    rw [hpo] at hq ⊢
    have ne : q ≠ p := by
      rintro rfl
      simp at hq
    rw [Function.update_of_ne ne] at hq
    by_cases hb : q ^^^ 2 ^ o' = p
    · rw [hb, Function.update_self]
      simp
    · rw [Function.update_of_ne hb]
      exact w.unmerged q o' hq lt

/-- Marking `p` as the head of a block of order `o`, when the block is aligned, in the zone, holds
no free page, and its buddy is no free block of its order. -/
theorem Blocks.add (w : Blocks z G) (hp : 2 ^ o ∣ p) (ho : o < maxOrder) (hfit : p + 2 ^ o ≤ z.spanned)
    (fresh : ∀ q, InBlock p o q → G q = false) (alone : o < maxOrder - 1 → z.pageOrder (p ^^^ 2 ^ o) ≠ some o)
    (hs : z'.spanned = z.spanned) (hpo : z'.pageOrder = Function.update z.pageOrder p (some o)) :
    Blocks z' fun q => G q || decide (InBlock p o q) := by
  -- no head covers a page of `p`'s block, `p` included
  have uncovered : ∀ q o' r, z.pageOrder q = some o' → InBlock q o' r → ¬InBlock p o r := fun q o' r hq hr hin => by
    have := fresh r hin
    rw [(w.cover r).mpr ⟨q, o', hq, hr⟩] at this
    cases this
  have unmarked : ∀ o', z.pageOrder p ≠ some o' := fun o' hq => uncovered p o' p hq (inBlock_self p o') (inBlock_self p o)
  have mark : ∀ q o', z'.pageOrder q = some o' → (q = p ∧ o' = o) ∨ (q ≠ p ∧ z.pageOrder q = some o') := by
    intro q o' hq
    rw [hpo] at hq
    by_cases ne : q = p
    · subst ne
      rw [Function.update_self, Option.some.injEq] at hq
      exact .inl ⟨rfl, hq.symm⟩
    · rw [Function.update_of_ne ne] at hq
      exact .inr ⟨ne, hq⟩
  refine ⟨fun q o' hq => ?_, fun q q' o₁ o₂ r h h' hr hr' => ?_, fun r => ?_, fun q o' hq lt => ?_⟩
  · rw [hs]
    rcases mark q o' hq with ⟨rfl, rfl⟩ | ⟨-, hq⟩
    · exact ⟨hp, ho, hfit⟩
    · exact w.aligned q o' hq
  · rcases mark q o₁ h with ⟨rfl, rfl⟩ | ⟨-, h⟩ <;> rcases mark q' o₂ h' with ⟨rfl, rfl⟩ | ⟨-, h'⟩
    · rfl
    · exact absurd hr (uncovered q' o₂ r h' hr')
    · exact absurd hr' (uncovered q o₁ r h hr)
    · exact w.disjoint q q' o₁ o₂ r h h' hr hr'
  · rw [Bool.or_eq_true, w.cover, decide_eq_true_iff]
    constructor
    · rintro (⟨q, o', hq, hr⟩ | hr)
      · have ne : q ≠ p := fun e => unmarked o' (e ▸ hq)
        exact ⟨q, o', by rw [hpo, Function.update_of_ne ne]; exact hq, hr⟩
      · exact ⟨p, o, by rw [hpo, Function.update_self], hr⟩
    · rintro ⟨q, o', hq, hr⟩
      rcases mark q o' hq with ⟨rfl, rfl⟩ | ⟨-, hq⟩
      · exact .inr hr
      · exact .inl ⟨q, o', hq, hr⟩
  · rw [hpo]
    rcases mark q o' hq with ⟨rfl, rfl⟩ | ⟨ne, hq⟩
    · rw [Function.update_of_ne (xor_two_pow_ne q o')]
      exact alone lt
    · by_cases hb : q ^^^ 2 ^ o' = p
      · -- `q` would be the buddy of `p` at `p`'s order
        rw [hb, Function.update_self]
        intro h
        obtain rfl := Option.some.inj h
        have : p ^^^ 2 ^ o = q := by rw [← hb, Nat.xor_assoc, Nat.xor_self, Nat.xor_zero]
        exact alone lt (this ▸ hq)
      · rw [Function.update_of_ne hb]
        exact w.unmerged q o' hq lt

end Edits

end LinuxKernel
