import Mathlib
import LinuxKernel.Foundation.WordSet

/-!
# Kernel ids, capability sets, user namespaces and credentials

The data of `include/linux/uidgid.h`, `include/linux/capability.h`,
`include/linux/securebits.h`, `include/linux/user_namespace.h` and `struct cred`
(`include/linux/cred.h`) that the credential code reads and writes. A capability set
is read through `WordSet`: capability `n` is bit `n % 32` of word `n / 32`.
-/

namespace LinuxKernel

/-- The error numbers the modelled functions return, negated, as `-E...`. -/
inductive Errno where
  | perm | noEnt | tooBig | again | noMem | fault | busy | inval | range
  | noData | opNotSupp | timedOut | inProgress | noSpc | exist | overflow
  deriving DecidableEq, Repr

/-- `kuid_t`, an id in the kernel-global uid space. -/
structure Kuid where
  val : UInt32
  deriving DecidableEq, Repr

/-- `kgid_t`, an id in the kernel-global gid space. -/
structure Kgid where
  val : UInt32
  deriving DecidableEq, Repr

def globalRootUid : Kuid := ⟨0⟩
def globalRootGid : Kgid := ⟨0⟩
def invalidUid : Kuid := ⟨0xffffffff⟩
def invalidGid : Kgid := ⟨0xffffffff⟩

def uidValid (uid : Kuid) : Bool := uid != invalidUid
def gidValid (gid : Kgid) : Bool := gid != invalidGid

/-! ### Capability sets -/

/-- `kernel_cap_t`: `_KERNEL_CAPABILITY_U32S` words of capability bits. -/
structure KernelCap where
  cap : Vector UInt32 2
  deriving DecidableEq, Repr

def capChown : Nat := 0
def capDacOverride : Nat := 1
def capDacReadSearch : Nat := 2
def capFowner : Nat := 3
def capFsetid : Nat := 4
def capSetgid : Nat := 6
def capSetuid : Nat := 7
def capSetpcap : Nat := 8
def capLinuxImmutable : Nat := 9
def capMknod : Nat := 27
def capMacOverride : Nat := 32

def capToIndex (x : Nat) : Nat := x >>> 5
def capToMask (x : Nat) : UInt32 := 1 <<< (x &&& 31).toUInt32

def capEmptySet : KernelCap := ⟨WordSet.empty 2⟩
def capFullSet : KernelCap := ⟨WordSet.full 2⟩

def capFsMaskB0 : UInt32 :=
  capToMask capChown ||| capToMask capMknod ||| capToMask capDacOverride |||
    capToMask capDacReadSearch ||| capToMask capFowner ||| capToMask capFsetid
def capFsMaskB1 : UInt32 := capToMask capMacOverride

def capFsSet : KernelCap := ⟨#v[capFsMaskB0 ||| capToMask capLinuxImmutable, capFsMaskB1]⟩

/-- `cap_raised(c, flag)`. The kernel only asks it of valid capabilities; a flag past
the second word is read as not raised. -/
def capRaised (c : KernelCap) (flag : Nat) : Bool :=
  if h : capToIndex flag < 2 then c.cap[capToIndex flag] &&& capToMask flag != 0 else false

def capCombine (a b : KernelCap) : KernelCap := ⟨Vector.zipWith (· ||| ·) a.cap b.cap⟩
def capIntersect (a b : KernelCap) : KernelCap := ⟨Vector.zipWith (· &&& ·) a.cap b.cap⟩
def capDrop (a drop : KernelCap) : KernelCap := ⟨Vector.zipWith (fun x y => x &&& ~~~y) a.cap drop.cap⟩

def capIsclear (a : KernelCap) : Bool := a.cap.toList.all (· == 0)

def capIssubset (a set : KernelCap) : Bool := capIsclear (capDrop a set)

def capDropFsSet (a : KernelCap) : KernelCap := capDrop a capFsSet

def capRaiseFsSet (a permitted : KernelCap) : KernelCap :=
  capCombine a (capIntersect permitted capFsSet)

@[simp] theorem testBit_capCombine (a b : KernelCap) (i : Nat) :
    WordSet.testBit (capCombine a b).cap i = (WordSet.testBit a.cap i || WordSet.testBit b.cap i) :=
  WordSet.testBit_or _ _ _

@[simp] theorem testBit_capIntersect (a b : KernelCap) (i : Nat) :
    WordSet.testBit (capIntersect a b).cap i = (WordSet.testBit a.cap i && WordSet.testBit b.cap i) :=
  WordSet.testBit_and _ _ _

@[simp] theorem testBit_capDrop (a b : KernelCap) (i : Nat) :
    WordSet.testBit (capDrop a b).cap i = (WordSet.testBit a.cap i && !WordSet.testBit b.cap i) :=
  WordSet.testBit_andNot _ _ _

@[simp] theorem testBit_capEmptySet (i : Nat) : WordSet.testBit capEmptySet.cap i = false :=
  WordSet.testBit_empty i

theorem capIsclear_iff (a : KernelCap) :
    capIsclear a = true ↔ ∀ i, WordSet.testBit a.cap i = false := by
  rw [← WordSet.all_zero_iff]
  simp only [capIsclear, Vector.all_toList, Vector.all_eq_true, beq_iff_eq]
  constructor
  · intro h j
    exact h j j.isLt
  · intro h j hj
    exact h ⟨j, hj⟩

theorem capIssubset_iff (a set : KernelCap) :
    capIssubset a set = true ↔ WordSet.Subset a.cap set.cap := by
  rw [capIssubset, capIsclear_iff]
  constructor
  · intro h i hi
    have hdrop := h i
    simp only [testBit_capDrop, hi, Bool.true_and, Bool.not_eq_false'] at hdrop
    exact hdrop
  · intro h i
    simp only [testBit_capDrop]
    cases hi : WordSet.testBit a.cap i
    · rfl
    · simp [h i hi]

theorem capIssubset_refl (a : KernelCap) : capIssubset a a = true :=
  (capIssubset_iff a a).mpr (WordSet.Subset.refl _)

theorem capIssubset_trans {a b c : KernelCap} (hab : capIssubset a b = true)
    (hbc : capIssubset b c = true) : capIssubset a c = true :=
  (capIssubset_iff a c).mpr (((capIssubset_iff a b).mp hab).trans ((capIssubset_iff b c).mp hbc))

theorem capEmptySet_subset (a : KernelCap) : capIssubset capEmptySet a = true :=
  (capIssubset_iff _ _).mpr (WordSet.empty_subset _)

theorem capDropFsSet_subset (a : KernelCap) : capIssubset (capDropFsSet a) a = true :=
  (capIssubset_iff _ _).mpr (WordSet.andNot_subset _ _)

theorem capIntersect_subset_left (a b : KernelCap) : capIssubset (capIntersect a b) a = true :=
  (capIssubset_iff _ _).mpr (WordSet.and_subset_left _ _)

theorem capIntersect_subset_right (a b : KernelCap) : capIssubset (capIntersect a b) b = true :=
  (capIssubset_iff _ _).mpr (WordSet.and_subset_right _ _)

theorem capIntersect_eq_left {a b : KernelCap} (h : capIssubset a b = true) :
    capIntersect a b = a := by
  rw [capIntersect, WordSet.and_eq_left_of_subset ((capIssubset_iff a b).mp h)]

theorem capCombine_subset {a b c : KernelCap} (ha : capIssubset a c = true)
    (hb : capIssubset b c = true) : capIssubset (capCombine a b) c = true :=
  (capIssubset_iff _ _).mpr (WordSet.or_subset ((capIssubset_iff _ _).mp ha) ((capIssubset_iff _ _).mp hb))

theorem capRaiseFsSet_subset {a permitted : KernelCap} (ha : capIssubset a permitted = true) :
    capIssubset (capRaiseFsSet a permitted) permitted = true :=
  capCombine_subset ha (capIntersect_subset_left _ _)

/-! ### Secure bits -/

def secureNoroot : Nat := 0
def secureNoSetuidFixup : Nat := 2
def secureKeepCaps : Nat := 4

def issecureMask (x : Nat) : UInt32 := 1 <<< x.toUInt32

/-- `issecure(X)` on the `securebits` of the current credentials. -/
def issecure (securebits : UInt32) (x : Nat) : Bool := issecureMask x &&& securebits != 0

/-! ### User namespaces and credentials -/

/-- A user namespace as `create_user_ns` fixed it: its parent, the owner and group
of its creator, and which allocation it is. `init_user_ns` has no parent. The id
maps are written after creation and are kept apart, in `IdMaps`. -/
inductive UserNamespace where
  | init
  | child (parent : UserNamespace) (owner : Kuid) (group : Kgid) (id : Nat)
  deriving DecidableEq, Repr

namespace UserNamespace

def owner : UserNamespace → Kuid
  | init => globalRootUid
  | child _ owner _ _ => owner

def parent? : UserNamespace → Option UserNamespace
  | init => none
  | child parent _ _ _ => some parent

end UserNamespace

/-- `struct cred`, less its reference counts, keys, LSM blob, `user_struct` and
supplementary groups. -/
structure Cred where
  uid : Kuid
  gid : Kgid
  suid : Kuid
  sgid : Kgid
  euid : Kuid
  egid : Kgid
  fsuid : Kuid
  fsgid : Kgid
  securebits : UInt32
  capInheritable : KernelCap
  capPermitted : KernelCap
  capEffective : KernelCap
  capBset : KernelCap
  userNs : UserNamespace
  deriving DecidableEq, Repr

def securebitsDefault : UInt32 := 0

/-- `init_cred`, the credentials of the first task. -/
def initCred : Cred where
  uid := globalRootUid
  gid := globalRootGid
  suid := globalRootUid
  sgid := globalRootGid
  euid := globalRootUid
  egid := globalRootGid
  fsuid := globalRootUid
  fsgid := globalRootGid
  securebits := securebitsDefault
  capInheritable := capEmptySet
  capPermitted := capFullSet
  capEffective := capFullSet
  capBset := capFullSet
  userNs := .init

end LinuxKernel
