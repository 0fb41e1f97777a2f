import LinuxKernel.Lib.KfifoSpec

/-!
# Copies between a fifo and user memory

`__kfifo_from_user` and `__kfifo_to_user` of `kernel/kfifo.c`. A user buffer can be reached up
to a fault: `copy_from_user` and `copy_to_user` copy the bytes before it and return how many
they did not copy. The fifo moves by the elements copied whole and `-EFAULT` reports the fault,
but `*copied` is the bytes asked for less the elements not copied (`kfifoFromUser_spec`): the
bytes of the whole elements only for one-byte elements or a copy that met no fault.
-/

namespace LinuxKernel

open Ring

/-- A user buffer: its bytes, and how many of them from its start can be reached. -/
structure UserBuf where
  mem : Nat → UInt8
  valid : Nat

/-- `copy_from_user(dst + d, src + s, n)`: the bytes before the fault, and the count not
copied. -/
def copyFromUser (dst : Nat → UInt8) (d : Nat) (src : UserBuf) (s n : Nat) : (Nat → UInt8) × Nat :=
  let k := min n (src.valid - s)
  (memcpy dst d src.mem s k, n - k)

def copyToUser (dst : UserBuf) (d : Nat) (src : Nat → UInt8) (s n : Nat) : UserBuf × Nat :=
  let k := min n (dst.valid - d)
  ({ dst with mem := memcpy dst.mem d src s k }, n - k)

/-- `DIV_ROUND_UP(n, d)` in `unsigned long`. -/
def divRoundUp (n d : UInt64) : UInt64 := (n + d - 1) / d

/-- The body shared by `kfifo_copy_from_user` and `kfifo_copy_to_user`, with `copy st a b n`
the copy of `n` bytes between the fifo's buffer at `a` and the user's at `b`: what the copies
leave, the elements not copied, rounded up, and `*copied`. -/
def kfifoCopyUser {σ : Type} (fifo : Kfifo) (copy : σ → Nat → Nat → Nat → σ × Nat) (st : σ)
    (len off : UInt32) : σ × UInt64 × UInt32 :=
  let size := kfifoScale fifo (fifo.mask + 1)
  let off := kfifoScale fifo (off &&& fifo.mask)
  let len := kfifoScale fifo len
  let l := min len (size - off)
  let first := copy st off.toNat 0 l.toNat
  if first.2 ≠ 0 then
    let ret := divRoundUp (first.2.toUInt64 + len.toUInt64 - l.toUInt64) fifo.esize.toUInt64
    (first.1, ret, len - ret.toUInt32)
  else
    let second := copy first.1 0 l.toNat (len - l).toNat
    let ret := if second.2 ≠ 0 then divRoundUp second.2.toUInt64 fifo.esize.toUInt64 else 0
    (second.1, ret, len - ret.toUInt32)

def kfifoCopyFromUser (fifo : Kfifo) (src : UserBuf) (len off : UInt32) :
    (Nat → UInt8) × UInt64 × UInt32 :=
  kfifoCopyUser fifo (fun data a b n => copyFromUser data a src b n) fifo.data len off

def kfifoCopyToUser (fifo : Kfifo) (dst : UserBuf) (len off : UInt32) :
    UserBuf × UInt64 × UInt32 :=
  kfifoCopyUser fifo (fun user a b n => copyToUser user b fifo.data a n) dst len off

/-- `__kfifo_from_user(fifo, from, len, &copied)`: the fifo, the return code and `*copied`. -/
def kfifoFromUser (fifo : Kfifo) (src : UserBuf) (len : UInt64) :
    Kfifo × Except Errno Unit × UInt32 :=
  let len := if fifo.esize ≠ 1 then len / fifo.esize.toUInt64 else len
  let l := kfifoUnused fifo
  let len := if len > l.toUInt64 then l.toUInt64 else len
  let r := kfifoCopyFromUser fifo src len.toUInt32 fifo.in_
  if r.2.1 ≠ 0 then ({ fifo with data := r.1, in_ := fifo.in_ + (len - r.2.1).toUInt32 }, .error .fault, r.2.2)
  else ({ fifo with data := r.1, in_ := fifo.in_ + len.toUInt32 }, .ok (), r.2.2)

/-- `__kfifo_to_user(fifo, to, len, &copied)`: the fifo, the user buffer, the return code and
`*copied`. -/
def kfifoToUser (fifo : Kfifo) (dst : UserBuf) (len : UInt64) :
    Kfifo × UserBuf × Except Errno Unit × UInt32 :=
  let len := if fifo.esize ≠ 1 then len / fifo.esize.toUInt64 else len
  let l := fifo.in_ - fifo.out
  let len := if len > l.toUInt64 then l.toUInt64 else len
  let r := kfifoCopyToUser fifo dst len.toUInt32 fifo.out
  if r.2.1 ≠ 0 then ({ fifo with out := fifo.out + (len - r.2.1).toUInt32 }, r.1, .error .fault, r.2.2)
  else ({ fifo with out := fifo.out + len.toUInt32 }, r.1, .ok (), r.2.2)

/-! ### What the copies return -/

theorem sum_sub_toNat (a : Nat) (b c : UInt32) (ha : a < 2 ^ 32) (hc : c.toNat ≤ a + b.toNat) :
    (a.toUInt64 + b.toUInt64 - c.toUInt64).toNat = a + b.toNat - c.toNat := by
  have hb := b.toNat_lt
  have sum : (a.toUInt64 + b.toUInt64).toNat = a + b.toNat := by
    rw [UInt64.toNat_add, UInt32.toNat_toUInt64, UInt64.toNat_ofNat',
      Nat.mod_eq_of_lt (by omega : a < 2 ^ 64), Nat.mod_eq_of_lt (by omega)]
  rw [UInt64.toNat_sub_of_le _ _ (by rw [UInt64.le_iff_toNat_le, sum, UInt32.toNat_toUInt64]; exact hc),
    sum, UInt32.toNat_toUInt64]

theorem divRoundUp_sub {e n v : Nat} (he : 0 < e) (hv : v ≤ n * e) :
    (n * e - v + e - 1) / e = n - v / e := by
  have split := Nat.div_add_mod v e
  have r_lt := Nat.mod_lt v he
  have q_le : v / e ≤ n := Nat.div_le_of_le_mul (by rwa [Nat.mul_comm])
  have sub_mul : (n - v / e) * e = n * e - v / e * e := Nat.sub_mul _ _ _
  have q_mul : e * (v / e) = v / e * e := Nat.mul_comm _ _
  have le_mul : v / e * e ≤ n * e := Nat.mul_le_mul_right _ q_le
  apply Nat.div_eq_of_lt_le
  · rw [sub_mul]
    omega
  · rw [Nat.add_mul, sub_mul, Nat.one_mul]
    omega

theorem divRoundUp_toNat {n d : UInt64} (hd : 0 < d.toNat) (h : n.toNat + d.toNat < 2 ^ 64) :
    (divRoundUp n d).toNat = (n.toNat + d.toNat - 1) / d.toNat := by
  have le : (1 : UInt64) ≤ n + d := by
    rw [UInt64.le_iff_toNat_le, UInt64.toNat_add, Nat.mod_eq_of_lt h]
    simp
    omega
  unfold divRoundUp
  rw [UInt64.toNat_div, UInt64.toNat_sub_of_le _ _ le, UInt64.toNat_add, Nat.mod_eq_of_lt h]
  rfl

section

variable {f : Kfifo} (wf : f.Wf)
include wf

/-- Copies that stop `reach st` bytes into the user buffer: `kfifo_copy_from_user` and
`kfifo_copy_to_user` return `len` less the whole elements before the fault, and `*copied` is the
bytes of `len` less that count. -/
theorem kfifoCopyUser_ret {σ : Type} (copy : σ → Nat → Nat → Nat → σ × Nat) (reach : σ → Nat)
    (esize_pos : 0 < f.esize.toNat)
    (fault : ∀ st a b n, (copy st a b n).2 = n - min n (reach st - b))
    (keeps : ∀ st a b n, reach (copy st a b n).1 = reach st) (st : σ) (len off : UInt32)
    (hlen : len.toNat ≤ f.size) :
    (kfifoCopyUser f copy st len off).2.1.toNat =
        len.toNat - min (len.toNat * f.esize.toNat) (reach st) / f.esize.toNat ∧
      (kfifoCopyUser f copy st len off).2.2.toNat =
        len.toNat * f.esize.toNat - (kfifoCopyUser f copy st len off).2.1.toNat := by
  generalize hV : reach st = V
  have bytes := wf.bytes
  have len_bytes : (kfifoScale f len).toNat = len.toNat * f.esize.toNat := wf.scale _ hlen
  have below : len.toNat * f.esize.toNat ≤ f.size * f.esize.toNat := Nat.mul_le_mul_right _ hlen
  unfold kfifoCopyUser
  dsimp only
  generalize kfifoScale f (off &&& f.mask) = o
  generalize hl : min (kfifoScale f len) (kfifoScale f (f.mask + 1) - o) = l
  have l_le : l.toNat ≤ len.toNat * f.esize.toNat := by
    rw [← hl, toNat_min, len_bytes]
    exact Nat.min_le_left _ _
  simp only [fault, keeps, hV, Nat.sub_zero]
  -- the count, in elements, is at most `len`, so `*copied` is a subtraction without wrap
  have copied : ∀ ret : UInt64, ret.toNat ≤ len.toNat →
      (kfifoScale f len - ret.toUInt32).toNat = len.toNat * f.esize.toNat - ret.toNat := by
    intro ret le
    have le_bytes : len.toNat ≤ len.toNat * f.esize.toNat := Nat.le_mul_of_pos_right _ esize_pos
    have small : ret.toUInt32.toNat = ret.toNat := by
      rw [UInt64.toNat_toUInt32]
      exact Nat.mod_eq_of_lt (by omega)
    rw [UInt32.toNat_sub_of_le _ _ (by rw [UInt32.le_iff_toNat_le, small, len_bytes]; omega),
      small, len_bytes]
  -- `DIV_ROUND_UP` of what a copy left, when the fault lies below the end of the copies
  have round : ∀ x : UInt64, x.toNat = len.toNat * f.esize.toNat - V → V ≤ len.toNat * f.esize.toNat →
      (divRoundUp x f.esize.toUInt64).toNat = len.toNat - V / f.esize.toNat := by
    intro x hx hV
    have e_fits : f.esize.toUInt64.toNat = f.esize.toNat := UInt32.toNat_toUInt64 _
    have e_lt := f.esize.toNat_lt
    rw [divRoundUp_toNat (by omega) (by omega), hx, e_fits, divRoundUp_sub esize_pos hV]
  have ret_le : len.toNat - V / f.esize.toNat ≤ len.toNat := Nat.sub_le _ _
  have len_lt := (kfifoScale f len).toNat_lt
  split_ifs with first second
  · -- the first copy met the fault: `V` lies below `l`, and all of `len - l` is left too
    have fault_lt : V < l.toNat := by omega
    rw [Nat.min_eq_right fault_lt.le]
    have arg := sum_sub_toNat (l.toNat - V) (kfifoScale f len) l (by omega) (by omega)
    rw [len_bytes] at arg
    have ret := round _ (by rw [arg]; omega) (by omega)
    rw [Nat.min_eq_right (by omega)]
    exact ⟨ret, by rw [copied _ (by rw [ret]; exact ret_le)]⟩
  · -- the second copy met the fault, between `l` and `len`
    have rest : (kfifoScale f len - l).toNat = len.toNat * f.esize.toNat - l.toNat := by
      rw [UInt32.toNat_sub_of_le _ _ (by rw [UInt32.le_iff_toNat_le, len_bytes]; exact l_le),
        len_bytes]
    rw [rest] at second ⊢
    have fault_lt : V < len.toNat * f.esize.toNat := by omega
    have ret := round ((len.toNat * f.esize.toNat - l.toNat -
      min (len.toNat * f.esize.toNat - l.toNat) (V - l.toNat)).toUInt64)
      (by rw [UInt64.toNat_ofNat', Nat.mod_eq_of_lt (by omega)]; omega) fault_lt.le
    rw [Nat.min_eq_right fault_lt.le]
    exact ⟨ret, by rw [copied _ (by rw [ret]; exact ret_le)]⟩
  · -- no fault: every element was copied
    have rest : (kfifoScale f len - l).toNat = len.toNat * f.esize.toNat - l.toNat := by
      rw [UInt32.toNat_sub_of_le _ _ (by rw [UInt32.le_iff_toNat_le, len_bytes]; exact l_le),
        len_bytes]
    rw [rest] at second
    have all : len.toNat * f.esize.toNat ≤ V := by omega
    rw [Nat.min_eq_left all, Nat.mul_div_cancel _ esize_pos, Nat.sub_self]
    exact ⟨rfl, by rw [copied 0 (Nat.zero_le _)]⟩

omit wf in
theorem clampLen_toNat (len : UInt64) (l : UInt32) :
    (if (if f.esize ≠ 1 then len / f.esize.toUInt64 else len) > l.toUInt64 then l.toUInt64
        else if f.esize ≠ 1 then len / f.esize.toUInt64 else len).toNat =
      min (len.toNat / f.esize.toNat) l.toNat := by
  have asked : (if f.esize ≠ 1 then len / f.esize.toUInt64 else len).toNat =
      len.toNat / f.esize.toNat := by
    split
    · rw [UInt64.toNat_div, UInt32.toNat_toUInt64]
    · rename_i one
      rw [not_not.mp one, UInt32.toNat_one, Nat.div_one]
  generalize (if f.esize ≠ 1 then len / f.esize.toUInt64 else len) = a at asked ⊢
  split
  · rename_i gt
    rw [gt_iff_lt, UInt64.lt_iff_toNat_lt, asked, UInt32.toNat_toUInt64] at gt
    rw [UInt32.toNat_toUInt64, Nat.min_eq_right gt.le]
  · rename_i le
    rw [gt_iff_lt, UInt64.lt_iff_toNat_lt, asked, UInt32.toNat_toUInt64] at le
    rw [asked, Nat.min_eq_left (by omega)]

omit wf in
/-- What both functions do with the count `ret` not copied of the `n` elements asked for, when
the copies stopped `V` bytes into the user buffer: the counter moves by the elements before the
fault, and `ret` is not zero exactly when the fault lies within the `n` elements. -/
theorem accounting (esize_pos : 0 < f.esize.toNat) (c : UInt32) {n ret : UInt64} {V : Nat}
    (hn : n.toNat < 2 ^ 32)
    (hret : ret.toNat = n.toNat - min (n.toNat * f.esize.toNat) V / f.esize.toNat) :
    (c + (if ret ≠ 0 then n - ret else n).toUInt32).toNat =
        (c.toNat + min (n.toNat * f.esize.toNat) V / f.esize.toNat) % 2 ^ 32 ∧
      (ret ≠ 0 ↔ V < n.toNat * f.esize.toNat) := by
  have whole_le : min (n.toNat * f.esize.toNat) V / f.esize.toNat ≤ n.toNat :=
    Nat.div_le_of_le_mul (by rw [Nat.mul_comm]; exact Nat.min_le_left _ _)
  have moved : (if ret ≠ 0 then n - ret else n).toNat =
      min (n.toNat * f.esize.toNat) V / f.esize.toNat := by
    split
    · rw [UInt64.toNat_sub_of_le _ _ (UInt64.le_iff_toNat_le.mpr (by rw [hret]; exact Nat.sub_le _ _)),
        hret, Nat.sub_sub_self whole_le]
    · rename_i zero
      rw [not_not.mp zero, UInt64.toNat_zero] at hret
      omega
  refine ⟨?_, ?_⟩
  · rw [UInt32.toNat_add, UInt64.toNat_toUInt32, moved,
      Nat.mod_eq_of_lt (show min (n.toNat * f.esize.toNat) V / f.esize.toNat < 2 ^ 32 by omega)]
  · rw [ne_eq, ← UInt64.toNat_inj, UInt64.toNat_zero, hret]
    constructor
    · intro pos
      by_contra ge
      rw [Nat.min_eq_left (by omega), Nat.mul_div_cancel _ esize_pos, Nat.sub_self] at pos
      exact pos rfl
    · intro lt
      rw [Nat.min_eq_right lt.le]
      have : V / f.esize.toNat < n.toNat := Nat.div_lt_of_lt_mul (by rwa [Nat.mul_comm])
      omega

/-- `__kfifo_from_user` with a user buffer that faults `valid` bytes in: `in` moves by the
elements copied whole, `-EFAULT` says that the copy met the fault, and `*copied` is the bytes
asked for less the elements not copied. -/
theorem kfifoFromUser_spec (esize_pos : 0 < f.esize.toNat) (src : UserBuf) (len : UInt64) :
    (kfifoFromUser f src len).1.in_.toNat =
        (f.in_.toNat + min (min (len.toNat / f.esize.toNat) (f.size - f.count) * f.esize.toNat)
          src.valid / f.esize.toNat) % 2 ^ 32 ∧
      ((kfifoFromUser f src len).2.1 = .error .fault ↔
        src.valid < min (len.toNat / f.esize.toNat) (f.size - f.count) * f.esize.toNat) ∧
      (kfifoFromUser f src len).2.2.toNat =
        min (len.toNat / f.esize.toNat) (f.size - f.count) * f.esize.toNat -
          (min (len.toNat / f.esize.toNat) (f.size - f.count) -
            min (min (len.toNat / f.esize.toNat) (f.size - f.count) * f.esize.toNat)
              src.valid / f.esize.toNat) := by
  have size_le := wf.size_le
  have count := wf.count
  unfold kfifoFromUser
  dsimp only
  generalize hn : (if (if f.esize ≠ 1 then len / f.esize.toUInt64 else len) > (kfifoUnused f).toUInt64
    then (kfifoUnused f).toUInt64 else if f.esize ≠ 1 then len / f.esize.toUInt64 else len) = n
  have n_eq : n.toNat = min (len.toNat / f.esize.toNat) (f.size - f.count) := by
    rw [← hn, clampLen_toNat, wf.unused]
  have n32 : n.toUInt32.toNat = n.toNat := by
    rw [UInt64.toNat_toUInt32, Nat.mod_eq_of_lt (by omega)]
  have key := kfifoCopyUser_ret wf (fun data a b n => copyFromUser data a src b n)
    (fun _ => src.valid) esize_pos (fun _ _ _ _ => rfl) (fun _ _ _ _ => rfl) f.data n.toUInt32
    f.in_ (by omega)
  rw [n32] at key
  obtain ⟨ret, copied⟩ : (kfifoCopyFromUser f src n.toUInt32 f.in_).2.1.toNat =
        n.toNat - min (n.toNat * f.esize.toNat) src.valid / f.esize.toNat ∧
      (kfifoCopyFromUser f src n.toUInt32 f.in_).2.2.toNat =
        n.toNat * f.esize.toNat - (kfifoCopyFromUser f src n.toUInt32 f.in_).2.1.toNat := key
  rw [← n_eq]
  generalize kfifoCopyFromUser f src n.toUInt32 f.in_ = r at ret copied
  obtain ⟨advance, fault_iff⟩ := accounting esize_pos f.in_ (by omega) ret
  refine ⟨?_, ?_, ?_⟩
  · split
    · rename_i fault
      rw [if_pos fault] at advance
      exact advance
    · rename_i none
      rw [if_neg none] at advance
      exact advance
  · rw [← fault_iff]
    split <;> simp_all
  · split <;> exact copied.trans (by rw [ret])

omit wf in
/-- A fifo of sixteen 4-byte elements, and a user buffer that faults 10 bytes in. -/
theorem kfifoFromUser_spec_fault :
    let f : Kfifo := ⟨0, 0, 16 - 1, 4, fun _ => 0⟩
    0 < f.esize.toNat ∧
      ((kfifoFromUser f ⟨fun _ => 7, 10⟩ 12).2.1 = .error .fault ↔
        10 < min (12 / f.esize.toNat) (f.size - f.count) * f.esize.toNat) :=
  ⟨by decide, (kfifoFromUser_spec (fresh_wf ⟨4, by decide, by decide, by decide⟩ (by decide)).1
    (by decide) ⟨fun _ => 7, 10⟩ 12).2.1⟩

omit wf in
/-- Two four-byte elements asked for from a user buffer that faults after the first: `in` moves
by one element and `-EFAULT` is returned, but `*copied` is 7, the 8 bytes asked for less the
one element not copied, where the element copied has 4 bytes. -/
theorem kfifoFromUser_copied_mixes_units :
    (kfifoFromUser ⟨0, 0, 3, 4, fun _ => 0⟩ ⟨fun _ => 0, 4⟩ 8).1.in_ = 1 ∧
      (kfifoFromUser ⟨0, 0, 3, 4, fun _ => 0⟩ ⟨fun _ => 0, 4⟩ 8).2.1 = .error .fault ∧
      (kfifoFromUser ⟨0, 0, 3, 4, fun _ => 0⟩ ⟨fun _ => 0, 4⟩ 8).2.2 = 7 := by
  decide

/-- `__kfifo_to_user` with a user buffer that faults `valid` bytes in: `out` moves by the
elements copied whole, `-EFAULT` says that the copy met the fault, and `*copied` is the bytes
asked for less the elements not copied. -/
theorem kfifoToUser_spec (esize_pos : 0 < f.esize.toNat) (dst : UserBuf) (len : UInt64) :
    (kfifoToUser f dst len).1.out.toNat =
        (f.out.toNat + min (min (len.toNat / f.esize.toNat) f.count * f.esize.toNat)
          dst.valid / f.esize.toNat) % 2 ^ 32 ∧
      ((kfifoToUser f dst len).2.2.1 = .error .fault ↔
        dst.valid < min (len.toNat / f.esize.toNat) f.count * f.esize.toNat) ∧
      (kfifoToUser f dst len).2.2.2.toNat =
        min (len.toNat / f.esize.toNat) f.count * f.esize.toNat -
          (min (len.toNat / f.esize.toNat) f.count -
            min (min (len.toNat / f.esize.toNat) f.count * f.esize.toNat)
              dst.valid / f.esize.toNat) := by
  have size_le := wf.size_le
  have count := wf.count
  unfold kfifoToUser
  dsimp only
  generalize hn : (if (if f.esize ≠ 1 then len / f.esize.toUInt64 else len) > (f.in_ - f.out).toUInt64
    then (f.in_ - f.out).toUInt64 else if f.esize ≠ 1 then len / f.esize.toUInt64 else len) = n
  have n_eq : n.toNat = min (len.toNat / f.esize.toNat) f.count := by
    rw [← hn, clampLen_toNat]
    rfl
  have n32 : n.toUInt32.toNat = n.toNat := by
    rw [UInt64.toNat_toUInt32, Nat.mod_eq_of_lt (by omega)]
  have key := kfifoCopyUser_ret wf (fun user a b n => copyToUser user b f.data a n)
    UserBuf.valid esize_pos (fun _ _ _ _ => rfl) (fun _ _ _ _ => rfl) dst n.toUInt32 f.out
    (by omega)
  rw [n32] at key
  obtain ⟨ret, copied⟩ : (kfifoCopyToUser f dst n.toUInt32 f.out).2.1.toNat =
        n.toNat - min (n.toNat * f.esize.toNat) dst.valid / f.esize.toNat ∧
      (kfifoCopyToUser f dst n.toUInt32 f.out).2.2.toNat =
        n.toNat * f.esize.toNat - (kfifoCopyToUser f dst n.toUInt32 f.out).2.1.toNat := key
  rw [← n_eq]
  generalize kfifoCopyToUser f dst n.toUInt32 f.out = r at ret copied
  obtain ⟨advance, fault_iff⟩ := accounting esize_pos f.out (by omega) ret
  refine ⟨?_, ?_, ?_⟩
  · split
    · rename_i fault
      rw [if_pos fault] at advance
      exact advance
    · rename_i none
      rw [if_neg none] at advance
      exact advance
  · rw [← fault_iff]
    split <;> simp_all
  · split <;> exact copied.trans (by rw [ret])

omit wf in
/-- Three 4-byte elements queued and a user buffer that faults 6 bytes in: asked for 12 bytes,
the copy moves `out` past the one whole element before the fault and reports it. -/
theorem kfifoToUser_spec_fault :
    let f : Kfifo := ⟨3, 0, 16 - 1, 4, fun i => (i % 256).toUInt8⟩
    f.Wf ∧ 0 < f.esize.toNat ∧ (kfifoToUser f ⟨fun _ => 0, 6⟩ 12).1.out.toNat = 1 ∧
      (kfifoToUser f ⟨fun _ => 0, 6⟩ 12).2.2.1 = .error .fault :=
  let wf : Kfifo.Wf ⟨3, 0, 16 - 1, 4, fun i => (i % 256).toUInt8⟩ :=
    ⟨⟨4, by decide, by decide, by decide⟩, by decide, by decide⟩
  let spec := kfifoToUser_spec wf (by decide) ⟨fun _ => 0, 6⟩ 12
  ⟨wf, by decide, spec.1.trans (by decide), spec.2.1.mpr (by decide)⟩

end

end LinuxKernel
