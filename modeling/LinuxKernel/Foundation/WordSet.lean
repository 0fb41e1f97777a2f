import Mathlib

/-!
# Words as bit sets

An array of `n` 32-bit words read as a set of bit positions: position `i` is bit
`i % 32` of word `i / 32`. Word-wise `&`, `|` and `& ~` are intersection, union and
difference, and an array whose words are all zero holds no position.
-/

namespace WordSet

variable {n : Nat}

/-- Bit `i % 32` of word `i / 32`, and `false` past the last word. -/
def testBit (v : Vector UInt32 n) (i : Nat) : Bool :=
  if h : i / 32 < n then v[i / 32].toBitVec.getLsbD (i % 32) else false

/-- Every position of `a` is a position of `b`. -/
def Subset (a b : Vector UInt32 n) : Prop := ∀ i, testBit a i = true → testBit b i = true

def empty (n : Nat) : Vector UInt32 n := Vector.replicate n 0

def full (n : Nat) : Vector UInt32 n := Vector.replicate n (~~~0)

@[simp] theorem testBit_and (a b : Vector UInt32 n) (i : Nat) :
    testBit (Vector.zipWith (· &&& ·) a b) i = (testBit a i && testBit b i) := by
  unfold testBit
  split <;> simp

@[simp] theorem testBit_or (a b : Vector UInt32 n) (i : Nat) :
    testBit (Vector.zipWith (· ||| ·) a b) i = (testBit a i || testBit b i) := by
  unfold testBit
  split <;> simp

@[simp] theorem testBit_andNot (a b : Vector UInt32 n) (i : Nat) :
    testBit (Vector.zipWith (fun x y => x &&& ~~~y) a b) i = (testBit a i && !testBit b i) := by
  unfold testBit
  split
  · have hi : i % 32 < 32 := Nat.mod_lt _ (by decide)
    simp [hi]
  · simp

@[simp] theorem testBit_empty (i : Nat) : testBit (empty n) i = false := by
  unfold testBit empty
  split <;> simp

theorem ext {a b : Vector UInt32 n} (h : ∀ i, testBit a i = testBit b i) : a = b := by
  apply Vector.ext
  intro j hj
  apply UInt32.toBitVec_inj.mp
  apply BitVec.eq_of_getLsbD_eq
  intro k hk
  have hdiv : (32 * j + k) / 32 = j := by omega
  have hmod : (32 * j + k) % 32 = k := by omega
  have hjk := h (32 * j + k)
  simp only [testBit, hdiv, hmod, hj, dite_true] at hjk
  exact hjk

theorem all_zero_iff (v : Vector UInt32 n) :
    (∀ j : Fin n, v[j] = 0) ↔ ∀ i, testBit v i = false := by
  constructor
  · intro h i
    unfold testBit
    split
    · rename_i hi
      have hword := h ⟨i / 32, hi⟩
      simp only [Fin.getElem_fin] at hword
      simp [hword]
    · rfl
  · intro h j
    have hv : v = empty n := ext (by simpa using h)
    subst hv
    simp [empty, Fin.getElem_fin]

theorem Subset.refl (a : Vector UInt32 n) : Subset a a := fun _ h => h

theorem Subset.trans {a b c : Vector UInt32 n} (hab : Subset a b) (hbc : Subset b c) :
    Subset a c := fun i h => hbc i (hab i h)

theorem empty_subset (a : Vector UInt32 n) : Subset (empty n) a := by
  intro i h
  simp at h

theorem and_subset_left (a b : Vector UInt32 n) : Subset (Vector.zipWith (· &&& ·) a b) a := by
  intro i h
  simp only [testBit_and, Bool.and_eq_true] at h
  exact h.1

theorem and_subset_right (a b : Vector UInt32 n) : Subset (Vector.zipWith (· &&& ·) a b) b := by
  intro i h
  simp only [testBit_and, Bool.and_eq_true] at h
  exact h.2

theorem andNot_subset (a b : Vector UInt32 n) :
    Subset (Vector.zipWith (fun x y => x &&& ~~~y) a b) a := by
  intro i h
  simp only [testBit_andNot, Bool.and_eq_true] at h
  exact h.1

theorem or_subset {a b c : Vector UInt32 n} (ha : Subset a c) (hb : Subset b c) :
    Subset (Vector.zipWith (· ||| ·) a b) c := by
  intro i h
  simp only [testBit_or, Bool.or_eq_true] at h
  rcases h with h | h
  · exact ha i h
  · exact hb i h

theorem and_eq_left_of_subset {a b : Vector UInt32 n} (h : Subset a b) :
    Vector.zipWith (· &&& ·) a b = a := by
  apply ext
  intro i
  rw [testBit_and]
  cases ha : testBit a i
  · rfl
  · simp [h i ha]

end WordSet
