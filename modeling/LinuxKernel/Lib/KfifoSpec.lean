import Mathlib
import LinuxKernel.Lib.Kfifo

/-!
# kfifo refines a bounded queue

A fifo holds the `in - out` elements from `out` on, read around its ring of `mask + 1`
elements of `esize` bytes. While `mask + 1` is a power of two of at most `2 ^ 31` elements
whose bytes a 32-bit count can hold, and `in - out` stays within it, `__kfifo_in`,
`__kfifo_out` and `__kfifo_out_peek` act on that list of elements as on a bounded queue,
across every wrap of the buffer and of the counters.
-/

namespace LinuxKernel

open Ring

namespace Kfifo

/-- The capacity in elements, `mask + 1`. -/
def size (f : Kfifo) : Nat := f.mask.toNat + 1

/-- The number of elements held, `in - out`. -/
def count (f : Kfifo) : Nat := (f.in_ - f.out).toNat

/-- The element at position `p` of the ring. -/
def elemAt (f : Kfifo) (p : Nat) : List UInt8 :=
  ringRead f.data (f.size * f.esize.toNat) (p * f.esize.toNat) f.esize.toNat

def queue (f : Kfifo) : List (List UInt8) :=
  (List.range f.count).map fun i => f.elemAt (f.out.toNat + i)

structure Wf (f : Kfifo) : Prop where
  pow : ∃ k, 1 ≤ k ∧ k ≤ 31 ∧ f.size = 2 ^ k
  bytes : f.size * f.esize.toNat < 2 ^ 32
  count : f.count ≤ f.size

theorem size_pos (f : Kfifo) : 0 < f.size := Nat.succ_pos _

@[simp] theorem size_with (f : Kfifo) (i o : UInt32) (d : Nat → UInt8) :
    ({ f with in_ := i, out := o, data := d } : Kfifo).size = f.size := rfl

@[simp] theorem length_queue (f : Kfifo) : f.queue.length = f.count := by simp [queue]

theorem elemAt_congr (f : Kfifo) {p p' : Nat} (h : p % f.size = p' % f.size) :
    f.elemAt p = f.elemAt p' := by
  apply List.map_congr_left
  intro j _
  rw [mul_add_mod_congr _ _ h]

theorem flatten_take_queue (f : Kfifo) {m : Nat} (hm : m ≤ f.count) :
    (f.queue.take m).flatten =
      ringRead f.data (f.size * f.esize.toNat) (f.out.toNat * f.esize.toNat)
        (m * f.esize.toNat) := by
  rw [queue, ← List.map_take, List.take_range, Nat.min_eq_left hm]
  exact flatten_ringRead _ _ _ _ _

end Kfifo

/-! ### The abstract queue -/

/-- The elements `0, …, n - 1` of a caller's buffer of elements of `e` bytes. -/
def bufElems (e : Nat) (buf : Nat → UInt8) (n : Nat) : List (List UInt8) :=
  (List.range n).map fun i => read buf (i * e) e

/-- A call of the fifo's interface, with the caller's buffer and a count of elements. -/
inductive FifoCall
  | in_ (buf : Nat → UInt8) (len : UInt32)
  | out (buf : Nat → UInt8) (len : UInt32)
  | outPeek (buf : Nat → UInt8) (len : UInt32)

/-- A bounded queue of `cap` elements of `e` bytes on a call: the queue after it, the
caller's buffer after it, and the count the call returns. -/
def queueCall (cap e : Nat) (q : List (List UInt8)) :
    FifoCall → List (List UInt8) × (Nat → UInt8) × Nat
  | .in_ buf len =>
    let m := min len.toNat (cap - q.length)
    (q ++ bufElems e buf m, buf, m)
  | .out buf len =>
    let m := min len.toNat q.length
    (q.drop m, store buf (q.take m).flatten, m)
  | .outPeek buf len =>
    let m := min len.toNat q.length
    (q, store buf (q.take m).flatten, m)

/-- The queue after a run of calls, and what each call gave back. -/
def queueRun (cap e : Nat) (q : List (List UInt8)) :
    List FifoCall → List (List UInt8) × List ((Nat → UInt8) × Nat)
  | [] => (q, [])
  | c :: cs =>
    let r := queueCall cap e q c
    let rest := queueRun cap e r.1 cs
    (rest.1, (r.2.1, r.2.2) :: rest.2)

def kfifoCall (f : Kfifo) : FifoCall → Kfifo × (Nat → UInt8) × UInt32
  | .in_ buf len => ((kfifoIn f buf len).1, buf, (kfifoIn f buf len).2)
  | .out buf len => kfifoOut f buf len
  | .outPeek buf len => (f, kfifoOutPeek f buf len)

def kfifoRun (f : Kfifo) : List FifoCall → Kfifo × List ((Nat → UInt8) × Nat)
  | [] => (f, [])
  | c :: cs =>
    let r := kfifoCall f c
    let rest := kfifoRun r.1 cs
    (rest.1, (r.2.1, r.2.2.toNat) :: rest.2)

/-! ### Counters and positions -/

namespace Kfifo.Wf

variable {f : Kfifo} (wf : f.Wf)
include wf

theorem size_le : f.size ≤ 2 ^ 31 := by
  obtain ⟨k, -, le, eq⟩ := wf.pow
  rw [eq]
  exact Nat.pow_le_pow_right (by decide) le

theorem size_dvd : f.size ∣ 2 ^ 32 := by
  obtain ⟨k, -, le, eq⟩ := wf.pow
  rw [eq]
  exact Nat.pow_dvd_pow 2 (by omega)

theorem mask_add_one : (f.mask + 1).toNat = f.size := by
  have le := wf.size_le
  unfold size at le ⊢
  rw [UInt32.toNat_add, UInt32.toNat_one, Nat.mod_eq_of_lt (by omega)]

theorem and_mask (x : UInt32) : (x &&& f.mask).toNat = x.toNat % f.size := by
  obtain ⟨k, -, -, eq⟩ := wf.pow
  have mask : f.mask.toNat = 2 ^ k - 1 := by
    unfold size at eq
    omega
  rw [UInt32.toNat_and, mask, Nat.and_two_pow_sub_one_eq_mod, eq]

theorem out_add_count : (f.out.toNat + f.count) % f.size = f.in_.toNat % f.size := by
  obtain ⟨q, hq⟩ := wf.size_dvd
  have sub := UInt32.toNat_sub f.in_ f.out
  have := f.in_.toNat_lt
  have := f.out.toNat_lt
  obtain ⟨c, hc⟩ : ∃ c, f.out.toNat + f.count = f.in_.toNat + f.size * (q * c) := by
    unfold Kfifo.count
    by_cases le : f.out.toNat ≤ f.in_.toNat
    · exact ⟨0, by omega⟩
    · exact ⟨1, by rw [Nat.mul_one, ← hq]; omega⟩
  rw [hc, Nat.add_mul_mod_self_left]

theorem place_old (i : Nat) :
    (f.out.toNat + i) % f.size = (f.in_.toNat + (f.size - f.count + i)) % f.size := by
  have count := wf.count
  have turn : (f.out.toNat + f.count + (f.size - f.count + i)) % f.size =
      (f.out.toNat + i) % f.size := by
    rw [show f.out.toNat + f.count + (f.size - f.count + i) = f.out.toNat + i + f.size by omega,
      Nat.add_mod_right]
  rw [← turn]
  exact Nat.ModEq.add_right _ wf.out_add_count

theorem place_new (t : Nat) :
    (f.out.toNat + (f.count + t)) % f.size = (f.in_.toNat + t) % f.size := by
  rw [← Nat.add_assoc]
  exact Nat.ModEq.add_right _ wf.out_add_count

theorem scale (x : UInt32) (hx : x.toNat ≤ f.size) :
    (kfifoScale f x).toNat = x.toNat * f.esize.toNat := by
  have fits : x.toNat * f.esize.toNat < 2 ^ 32 :=
    lt_of_le_of_lt (Nat.mul_le_mul_right _ hx) wf.bytes
  unfold kfifoScale
  split
  · rw [UInt32.toNat_mul, Nat.mod_eq_of_lt fits]
  · rename_i one
    rw [not_not.mp one, UInt32.toNat_one, Nat.mul_one]

theorem unused : (kfifoUnused f).toNat = f.size - f.count := by
  have le : f.in_ - f.out ≤ f.mask + 1 := by
    rw [UInt32.le_iff_toNat_le, wf.mask_add_one]
    exact wf.count
  unfold kfifoUnused
  rw [UInt32.toNat_sub_of_le _ _ le, wf.mask_add_one]
  rfl

theorem count_add {m : UInt32} (h : f.count + m.toNat ≤ f.size) :
    (f.in_ + m - f.out).toNat = f.count + m.toNat := by
  have := wf.size_le
  have sub := UInt32.toNat_sub f.in_ f.out
  have := f.in_.toNat_lt
  have := f.out.toNat_lt
  unfold Kfifo.count at h ⊢
  rw [UInt32.toNat_sub, UInt32.toNat_add]
  omega

theorem count_sub {m : UInt32} (h : m.toNat ≤ f.count) :
    (f.in_ - (f.out + m)).toNat = f.count - m.toNat := by
  have := wf.size_le
  have sub := UInt32.toNat_sub f.in_ f.out
  have := f.in_.toNat_lt
  have := f.out.toNat_lt
  unfold Kfifo.count at h ⊢
  rw [UInt32.toNat_sub, UInt32.toNat_add]
  omega

/-! ### The two copies -/

theorem offset_le (off : UInt32) : (off &&& f.mask).toNat ≤ f.size := by
  rw [wf.and_mask]
  exact (Nat.mod_lt _ f.size_pos).le

theorem size_bytes : (kfifoScale f (f.mask + 1)).toNat = f.size * f.esize.toNat := by
  rw [wf.scale _ (by rw [wf.mask_add_one]), wf.mask_add_one]

theorem offset_bytes (off : UInt32) :
    (kfifoScale f (off &&& f.mask)).toNat = off.toNat % f.size * f.esize.toNat := by
  rw [wf.scale _ (wf.offset_le off), wf.and_mask]

theorem offset_scale_le (off : UInt32) :
    kfifoScale f (off &&& f.mask) ≤ kfifoScale f (f.mask + 1) := by
  rw [UInt32.le_iff_toNat_le, wf.size_bytes, wf.offset_bytes]
  exact Nat.mul_le_mul_right _ (Nat.mod_lt _ f.size_pos).le

theorem copyIn_eq (src : Nat → UInt8) {len : UInt32} (off : UInt32) (hlen : len.toNat ≤ f.size) :
    kfifoCopyIn f src len off =
      memcpy (memcpy f.data (off.toNat % f.size * f.esize.toNat) src 0
          (min (len.toNat * f.esize.toNat)
            (f.size * f.esize.toNat - off.toNat % f.size * f.esize.toNat)))
        0 src (min (len.toNat * f.esize.toNat)
            (f.size * f.esize.toNat - off.toNat % f.size * f.esize.toNat))
        (len.toNat * f.esize.toNat - min (len.toNat * f.esize.toNat)
            (f.size * f.esize.toNat - off.toNat % f.size * f.esize.toNat)) := by
  unfold kfifoCopyIn
  dsimp only
  rw [toNat_sub_min, toNat_min, UInt32.toNat_sub_of_le _ _ (wf.offset_scale_le off),
    wf.size_bytes, wf.offset_bytes, wf.scale _ hlen]

theorem copyOut_eq (dst : Nat → UInt8) {len : UInt32} (off : UInt32) (hlen : len.toNat ≤ f.size) :
    kfifoCopyOut f dst len off =
      memcpy (memcpy dst 0 f.data (off.toNat % f.size * f.esize.toNat)
          (min (len.toNat * f.esize.toNat)
            (f.size * f.esize.toNat - off.toNat % f.size * f.esize.toNat)))
        (min (len.toNat * f.esize.toNat)
            (f.size * f.esize.toNat - off.toNat % f.size * f.esize.toNat)) f.data 0
        (len.toNat * f.esize.toNat - min (len.toNat * f.esize.toNat)
            (f.size * f.esize.toNat - off.toNat % f.size * f.esize.toNat)) := by
  unfold kfifoCopyOut
  dsimp only
  rw [toNat_sub_min, toNat_min, UInt32.toNat_sub_of_le _ _ (wf.offset_scale_le off),
    wf.size_bytes, wf.offset_bytes, wf.scale _ hlen]

theorem copyIn_cell (src : Nat → UInt8) {len : UInt32} (off : UInt32) (hlen : len.toNat ≤ f.size)
    {t j : Nat} (ht : t < f.size) (hj : j < f.esize.toNat) :
    kfifoCopyIn f src len off
        (((off.toNat + t) * f.esize.toNat + j) % (f.size * f.esize.toNat)) =
      if t < len.toNat then src (t * f.esize.toNat + j)
      else f.data (((off.toNat + t) * f.esize.toNat + j) % (f.size * f.esize.toNat)) := by
  have cell : ((off.toNat + t) * f.esize.toNat + j) % (f.size * f.esize.toNat) =
      (off.toNat % f.size * f.esize.toNat + (t * f.esize.toNat + j)) %
        (f.size * f.esize.toNat) := by
    rw [← Nat.add_assoc, ← Nat.add_mul]
    exact mul_add_mod_congr _ _ (by rw [Nat.mod_add_mod])
  have off_lt : off.toNat % f.size * f.esize.toNat < f.size * f.esize.toNat :=
    Nat.mul_lt_mul_of_pos_right (Nat.mod_lt _ f.size_pos) (by omega)
  rw [cell, wf.copyIn_eq src off hlen,
    memcpy_ring_in f.data src off_lt (Nat.mul_le_mul_right _ hlen)
      ((mul_add_lt_mul_iff hj).mpr ht)]
  exact if_congr (mul_add_lt_mul_iff hj) rfl rfl

theorem copyOut_cell (dst : Nat → UInt8) {len : UInt32} (off : UInt32)
    (hlen : len.toNat ≤ f.size) {j : Nat} (hj : j < len.toNat * f.esize.toNat) :
    kfifoCopyOut f dst len off j =
      f.data ((off.toNat * f.esize.toNat + j) % (f.size * f.esize.toNat)) := by
  have e_pos : 0 < f.esize.toNat := Nat.pos_of_ne_zero fun zero => by
    rw [zero, Nat.mul_zero] at hj
    omega
  have off_lt : off.toNat % f.size * f.esize.toNat < f.size * f.esize.toNat :=
    Nat.mul_lt_mul_of_pos_right (Nat.mod_lt _ f.size_pos) e_pos
  rw [wf.copyOut_eq dst off hlen,
    memcpy_ring_out dst f.data off_lt (Nat.mul_le_mul_right _ hlen) hj,
    mul_add_mod_congr _ _ (Nat.mod_mod _ _)]

theorem copyOut_frame (dst : Nat → UInt8) {len : UInt32} (off : UInt32)
    (hlen : len.toNat ≤ f.size) {p : Nat} (hp : len.toNat * f.esize.toNat ≤ p) :
    kfifoCopyOut f dst len off p = dst p := by
  rw [wf.copyOut_eq dst off hlen, memcpy_ring_out_frame dst f.data hp]

theorem queue_in (src : Nat → UInt8) {m : UInt32} (fits : f.count + m.toNat ≤ f.size) :
    ({ f with data := kfifoCopyIn f src m f.in_, in_ := f.in_ + m } : Kfifo).queue =
      f.queue ++ bufElems f.esize.toNat src m.toNat := by
  have count' : ({ f with data := kfifoCopyIn f src m f.in_, in_ := f.in_ + m } : Kfifo).count =
      f.count + m.toNat := wf.count_add fits
  have := wf.count
  have hm : m.toNat ≤ f.size := by omega
  unfold Kfifo.queue
  rw [count', List.range_add, List.map_append, List.map_map, bufElems]
  simp only [Kfifo.elemAt, Kfifo.size_with, Function.comp_def]
  congr 1
  · -- the elements held lie past the copy, `size - count` places and more after `in`
    apply List.map_congr_left
    intro i mem
    have i_lt := List.mem_range.mp mem
    apply ringRead_congr
    intro j hj
    rw [mul_add_mod_congr _ _ (wf.place_old i), wf.copyIn_cell src f.in_ hm (by omega) hj,
      if_neg (by omega)]
  · -- the new elements are the buffer's, `t` places after `in`
    apply List.map_congr_left
    intro t mem
    have t_lt := List.mem_range.mp mem
    apply ringRead_eq_read
    intro j hj
    rw [mul_add_mod_congr _ _ (wf.place_new t), wf.copyIn_cell src f.in_ hm (by omega) hj,
      if_pos t_lt]

theorem queue_out {m : UInt32} (hm : m.toNat ≤ f.count) :
    ({ f with out := f.out + m } : Kfifo).queue = f.queue.drop m.toNat := by
  have count' : ({ f with out := f.out + m } : Kfifo).count = f.count - m.toNat := wf.count_sub hm
  apply List.ext_getElem (by rw [Kfifo.length_queue, List.length_drop, Kfifo.length_queue, count'])
  intro i _ _
  simp only [Kfifo.queue, List.getElem_drop, List.getElem_map, List.getElem_range]
  -- the new `out` is the old one plus `m`, wrapped at `2 ^ 32`, a multiple of the size
  have place : ((f.out + m).toNat + i) % f.size = (f.out.toNat + (m.toNat + i)) % f.size := by
    rw [UInt32.toNat_add, ← Nat.add_assoc]
    exact Nat.ModEq.add_right _ (Nat.mod_mod_of_dvd _ wf.size_dvd)
  exact f.elemAt_congr place

end Kfifo.Wf

/-! ### The calls -/

section Calls

variable {f : Kfifo} (wf : f.Wf)
include wf

theorem kfifoIn_spec (buf : Nat → UInt8) (len : UInt32) :
    (kfifoIn f buf len).2.toNat = min len.toNat (f.size - f.count) ∧
      (kfifoIn f buf len).1.Wf ∧
      (kfifoIn f buf len).1.queue =
        f.queue ++ bufElems f.esize.toNat buf (kfifoIn f buf len).2.toNat := by
  obtain ⟨m, hm, eq⟩ : ∃ m : UInt32, m.toNat = min len.toNat (f.size - f.count) ∧
      kfifoIn f buf len = ({ f with data := kfifoCopyIn f buf m f.in_, in_ := f.in_ + m }, m) := by
    refine ⟨_, ?_, rfl⟩
    rw [← wf.unused]
    split
    · rename_i gt
      rw [GT.gt, UInt32.lt_iff_toNat_lt] at gt
      omega
    · rename_i le
      rw [GT.gt, UInt32.lt_iff_toNat_lt] at le
      omega
  have := wf.count
  have fits : f.count + m.toNat ≤ f.size := by omega
  rw [eq]
  exact ⟨hm, ⟨wf.pow, wf.bytes, (wf.count_add fits).trans_le fits⟩, wf.queue_in buf fits⟩

-- the room is counted across a wrap of `in`: four elements held, twelve free
example : (kfifoIn ⟨4294967294, 4294967290, 15, 1, fun _ => 0⟩ (fun _ => 9) 20).2 = 12 := by
  decide

theorem kfifoOutPeek_spec (buf : Nat → UInt8) (len : UInt32) :
    (kfifoOutPeek f buf len).2.toNat = min len.toNat f.count ∧
      (kfifoOutPeek f buf len).1 =
        store buf (f.queue.take (kfifoOutPeek f buf len).2.toNat).flatten := by
  obtain ⟨m, hm, eq⟩ : ∃ m : UInt32, m.toNat = min len.toNat f.count ∧
      kfifoOutPeek f buf len = (kfifoCopyOut f buf m f.out, m) := by
    refine ⟨_, ?_, rfl⟩
    unfold Kfifo.count
    split
    · rename_i gt
      rw [GT.gt, UInt32.lt_iff_toNat_lt] at gt
      omega
    · rename_i le
      rw [GT.gt, UInt32.lt_iff_toNat_lt] at le
      omega
  rw [eq]
  dsimp only
  refine ⟨hm, ?_⟩
  have le : m.toNat ≤ f.size := by have := wf.count; omega
  rw [f.flatten_take_queue (by omega)]
  funext p
  unfold store
  split
  · rename_i lt
    rw [length_ringRead] at lt
    rw [wf.copyOut_cell buf f.out le lt]
    simp [ringRead]
  · rename_i ge
    rw [length_ringRead] at ge
    exact wf.copyOut_frame buf f.out le (by omega)

theorem kfifoOut_spec (buf : Nat → UInt8) (len : UInt32) :
    (kfifoOut f buf len).2.2.toNat = min len.toNat f.count ∧
      (kfifoOut f buf len).2.1 = store buf (f.queue.take (kfifoOut f buf len).2.2.toNat).flatten ∧
      (kfifoOut f buf len).1.Wf ∧
      (kfifoOut f buf len).1.queue = f.queue.drop (kfifoOut f buf len).2.2.toNat := by
  obtain ⟨hm, copied⟩ := kfifoOutPeek_spec wf buf len
  have eq : kfifoOut f buf len = ({ f with out := f.out + (kfifoOutPeek f buf len).2 },
      (kfifoOutPeek f buf len).1, (kfifoOutPeek f buf len).2) := rfl
  rw [eq]
  generalize kfifoOutPeek f buf len = peeked at hm copied
  obtain ⟨out, m⟩ := peeked
  dsimp only at hm copied ⊢
  have := wf.count
  have taken : m.toNat ≤ f.count := by omega
  exact ⟨hm, copied, ⟨wf.pow, wf.bytes, (wf.count_sub taken).trans_le (show _ ≤ f.size by omega)⟩,
    wf.queue_out taken⟩

theorem kfifoCall_refines (c : FifoCall) :
    (kfifoCall f c).1.Wf ∧ (kfifoCall f c).1.size = f.size ∧
      (kfifoCall f c).1.esize = f.esize ∧
      ((kfifoCall f c).1.queue, (kfifoCall f c).2.1, (kfifoCall f c).2.2.toNat) =
        queueCall f.size f.esize.toNat f.queue c := by
  cases c with
  | in_ buf len =>
    obtain ⟨hm, wf', queue'⟩ := kfifoIn_spec wf buf len
    refine ⟨wf', rfl, rfl, ?_⟩
    simp only [kfifoCall, queueCall, Kfifo.length_queue, queue', hm]
  | out buf len =>
    obtain ⟨hm, copied, wf', queue'⟩ := kfifoOut_spec wf buf len
    refine ⟨wf', rfl, rfl, ?_⟩
    simp only [kfifoCall, queueCall, Kfifo.length_queue, queue', copied, hm]
  | outPeek buf len =>
    obtain ⟨hm, copied⟩ := kfifoOutPeek_spec wf buf len
    refine ⟨wf, rfl, rfl, ?_⟩
    simp only [kfifoCall, queueCall, Kfifo.length_queue, copied, hm]

theorem kfifoRun_refines (calls : List FifoCall) :
    (kfifoRun f calls).1.Wf ∧ (kfifoRun f calls).1.size = f.size ∧
      (kfifoRun f calls).1.queue = (queueRun f.size f.esize.toNat f.queue calls).1 ∧
      (kfifoRun f calls).2 = (queueRun f.size f.esize.toNat f.queue calls).2 := by
  induction calls generalizing f with
  | nil => exact ⟨wf, rfl, rfl, rfl⟩
  | cons c cs ih =>
    obtain ⟨wf', size', esize', step⟩ := kfifoCall_refines wf c
    obtain ⟨wfr, sizer, queuer, outr⟩ := ih wf'
    rw [size', esize'] at queuer outr
    simp only [kfifoRun, queueRun, ← step]
    exact ⟨wfr, sizer.trans size', queuer, by rw [outr]⟩

end Calls

/-! ### Initialisation -/

theorem roundSize_pow {n : Nat} (hn : n < 2 ^ 32) (two : 2 ≤ (roundSize n).toNat) :
    ∃ k, 1 ≤ k ∧ k ≤ 31 ∧ (roundSize n).toNat = 2 ^ k ∧ 2 ^ k ≤ n := by
  have n_pos : n ≠ 0 := by
    rintro rfl
    simp [roundSize, isPowerOf2, rounddownPowOfTwo] at two
  -- both branches give the largest power of two up to `n`
  have pow : (if isPowerOf2 n then n else rounddownPowOfTwo n) = 2 ^ n.log2 := by
    unfold isPowerOf2 rounddownPowOfTwo
    split
    · rename_i h
      simp only [Bool.and_eq_true, bne_iff_ne, ne_eq, beq_iff_eq] at h
      obtain ⟨k, rfl⟩ := (Nat.and_sub_one_eq_zero_iff_isPowerOfTwo n_pos).mp h.2
      rw [Nat.log2_two_pow]
    · exact Nat.one_shiftLeft _
  have le := Nat.log2_self_le n_pos
  have lt : n.log2 < 32 := (Nat.log2_lt n_pos).mpr hn
  have value : (roundSize n).toNat = 2 ^ n.log2 := by
    rw [roundSize, pow, Nat.toUInt32_eq, UInt32.toNat_ofNat', Nat.mod_eq_of_lt (by omega)]
  rw [value] at two ⊢
  refine ⟨n.log2, ?_, by omega, rfl, le⟩
  by_contra zero
  rw [show n.log2 = 0 by omega] at two
  omega

theorem fresh_wf {s esize : UInt32} {buffer : Nat → UInt8}
    (pow : ∃ k, 1 ≤ k ∧ k ≤ 31 ∧ s.toNat = 2 ^ k) (bytes : s.toNat * esize.toNat < 2 ^ 32) :
    (⟨0, 0, s - 1, esize, buffer⟩ : Kfifo).Wf ∧ (⟨0, 0, s - 1, esize, buffer⟩ : Kfifo).queue = [] := by
  obtain ⟨k, one, le, eq⟩ := pow
  have two : 2 ≤ 2 ^ k := by
    calc 2 = 2 ^ 1 := rfl
      _ ≤ 2 ^ k := Nat.pow_le_pow_right (by decide) one
  have size : (⟨0, 0, s - 1, esize, buffer⟩ : Kfifo).size = s.toNat := by
    unfold Kfifo.size
    rw [UInt32.toNat_sub_of_le _ _ (by rw [UInt32.le_iff_toNat_le]; simp; omega)]
    simp only [UInt32.toNat_one]
    omega
  have empty : (⟨0, 0, s - 1, esize, buffer⟩ : Kfifo).count = 0 := by simp [Kfifo.count]
  refine ⟨⟨⟨k, one, le, by rw [size, eq]⟩, by rw [size]; exact bytes, by omega⟩, ?_⟩
  rw [← List.length_eq_zero_iff, Kfifo.length_queue, empty]

theorem kfifoInit_wf {buffer : Nat → UInt8} {size : UInt32} {esize : UInt64} {f : Kfifo}
    (h : kfifoInit buffer size esize = (f, .ok ())) : f.Wf ∧ f.queue = [] := by
  unfold kfifoInit at h
  dsimp only at h
  split at h
  · simp at h
  · rename_i two
    obtain ⟨rfl, -⟩ := Prod.mk.inj h
    rw [UInt32.lt_iff_toNat_lt, not_lt] at two
    -- the element count is at most `size / esize`, so its bytes fit in `size`
    have quot : (size.toUInt64 / esize).toUInt32.toNat ≤ size.toNat / esize.toNat := by
      simp only [UInt64.toNat_toUInt32, UInt64.toNat_div, UInt32.toNat_toUInt64]
      exact Nat.mod_le _ _
    obtain ⟨k, one, le, eq, below⟩ := roundSize_pow (UInt32.toNat_lt _) two
    apply fresh_wf ⟨k, one, le, eq⟩
    calc (roundSize (size.toUInt64 / esize).toUInt32.toNat).toNat * esize.toUInt32.toNat
        ≤ size.toNat / esize.toNat * esize.toNat := by
          rw [eq]
          apply Nat.mul_le_mul (below.trans quot)
          simp only [UInt64.toNat_toUInt32]
          exact Nat.mod_le _ _
      _ ≤ size.toNat := Nat.div_mul_le_self _ _
      _ < 2 ^ 32 := UInt32.toNat_lt _

theorem kfifoAlloc_wf {size : UInt32} {esize : UInt64} {buffer : Nat → UInt8} {ok : Bool}
    {f : Kfifo} (h : kfifoAlloc size esize buffer ok = (f, .ok ())) : f.Wf ∧ f.queue = [] := by
  unfold kfifoAlloc at h
  dsimp only at h
  split at h
  · simp at h
  · rename_i two
    split at h
    · simp at h
    · rename_i fits
      obtain ⟨rfl, -⟩ := Prod.mk.inj h
      rw [UInt32.lt_iff_toNat_lt, not_lt] at two
      obtain ⟨k, one, le, eq, -⟩ := roundSize_pow (UInt32.toNat_lt _) two
      apply fresh_wf ⟨k, one, le, eq⟩
      -- `kmalloc` refused more than `KMALLOC_MAX_SIZE` bytes
      have max : (roundSize size.toNat).toNat * esize.toNat ≤ kmallocMaxSize := by
        simp only [not_or] at fits
        omega
      calc (roundSize size.toNat).toNat * esize.toUInt32.toNat
          ≤ (roundSize size.toNat).toNat * esize.toNat := by
            apply Nat.mul_le_mul_left
            simp only [UInt64.toNat_toUInt32]
            exact Nat.mod_le _ _
        _ ≤ kmallocMaxSize := max
        _ < 2 ^ 32 := by unfold kmallocMaxSize; omega

theorem kfifo_bounded_queue {f : Kfifo}
    (init : (∃ buffer size esize, kfifoInit buffer size esize = (f, .ok ())) ∨
      ∃ size esize buffer ok, kfifoAlloc size esize buffer ok = (f, .ok ()))
    (calls : List FifoCall) :
    (∃ k, 1 ≤ k ∧ f.size = 2 ^ k) ∧
      (kfifoRun f calls).2 = (queueRun f.size f.esize.toNat [] calls).2 ∧
      (kfifoRun f calls).1.queue = (queueRun f.size f.esize.toNat [] calls).1 ∧
      (kfifoRun f calls).1.count ≤ f.size := by
  obtain ⟨wf, empty⟩ : f.Wf ∧ f.queue = [] := by
    rcases init with ⟨buffer, size, esize, h⟩ | ⟨size, esize, buffer, ok, h⟩
    exacts [kfifoInit_wf h, kfifoAlloc_wf h]
  obtain ⟨k, one, -, pow⟩ := wf.pow
  obtain ⟨wf', size', queue', outs⟩ := kfifoRun_refines wf calls
  rw [empty] at queue' outs
  exact ⟨⟨k, one, pow⟩, outs, queue', size' ▸ wf'.count⟩

theorem kfifo_bounded_queue_sixteen :
    let f : Kfifo := ⟨0, 0, 15, 1, fun _ => 0⟩
    let calls := [FifoCall.in_ (fun i => i.toUInt8) 20, .out (fun _ => 0) 5]
    (∃ k, 1 ≤ k ∧ f.size = 2 ^ k) ∧
      (kfifoRun f calls).2 = (queueRun f.size f.esize.toNat [] calls).2 ∧
      (kfifoRun f calls).1.queue = (queueRun f.size f.esize.toNat [] calls).1 ∧
      (kfifoRun f calls).1.count ≤ f.size :=
  kfifo_bounded_queue (Or.inl ⟨fun _ => 0, 16, 1, rfl⟩) _

end LinuxKernel
