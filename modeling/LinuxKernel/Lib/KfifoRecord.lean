import Mathlib
import LinuxKernel.Lib.KfifoSpec

/-!
# Record fifos

`__kfifo_in_r` and the other record functions keep records behind headers of `recsize` bytes,
low byte first, a queue of records free to wrap around the buffer. `__kfifo_skip_r` reads a
header without checking for a record, so on an empty fifo `in - out` wraps.
-/

namespace LinuxKernel

open Ring

/-- The header of a record of `n` bytes. -/
def recordHeader (recsize n : Nat) : List UInt8 :=
  if recsize = 1 then [n.toUInt8] else [n.toUInt8, (n / 256).toUInt8]

/-- Records one after the other, each behind its header. -/
def encodeRecords (recsize : Nat) (rs : List (List UInt8)) : List UInt8 :=
  rs.flatMap fun r => recordHeader recsize r.length ++ r

/-- A call of the record interface. -/
inductive RecordCall
  | inR (buf : Nat → UInt8) (len : UInt32)
  | outR (buf : Nat → UInt8) (len : UInt32)
  | outPeekR (buf : Nat → UInt8) (len : UInt32)
  | lenR
  | skipR

/-- A queue of byte records in a ring of `cap` bytes on a call: the records after it, the
caller's buffer after it where the call writes one, and the value the call returns. A call
outside its contract, a record too long for its header or a record asked of an empty queue,
has no outcome. -/
def recordCall (cap recsize : Nat) (rs : List (List UInt8)) :
    RecordCall → Option (List (List UInt8) × Option (Nat → UInt8) × Nat)
  | .inR buf len =>
    if 2 ^ (8 * recsize) ≤ len.toNat then none
    else if cap < (encodeRecords recsize rs).length + recsize + len.toNat then some (rs, none, 0)
    else some (rs ++ [read buf 0 len.toNat], none, len.toNat)
  | .outR buf len =>
    match rs with
    | [] => some ([], some buf, 0)
    | r :: rest => some (rest, some (store buf (r.take len.toNat)), min len.toNat r.length)
  | .outPeekR buf len =>
    match rs with
    | [] => some ([], some buf, 0)
    | r :: rest => some (r :: rest, some (store buf (r.take len.toNat)), min len.toNat r.length)
  | .lenR =>
    match rs with
    | [] => none
    | r :: rest => some (r :: rest, none, r.length)
  | .skipR =>
    match rs with
    | [] => none
    | _ :: rest => some (rest, none, 0)

def recordRun (cap recsize : Nat) (rs : List (List UInt8)) :
    List RecordCall → Option (List (List UInt8) × List (Option (Nat → UInt8) × Nat))
  | [] => some (rs, [])
  | c :: cs =>
    (recordCall cap recsize rs c).bind fun r =>
      (recordRun cap recsize r.1 cs).map fun rest => (rest.1, r.2 :: rest.2)

def kfifoRecordCall (f : Kfifo) (recsize : UInt64) :
    RecordCall → Kfifo × Option (Nat → UInt8) × Nat
  | .inR buf len => ((kfifoInR f buf len recsize).1, none, (kfifoInR f buf len recsize).2.toNat)
  | .outR buf len =>
    ((kfifoOutR f buf len recsize).1, some (kfifoOutR f buf len recsize).2.1,
      (kfifoOutR f buf len recsize).2.2.toNat)
  | .outPeekR buf len =>
    (f, some (kfifoOutPeekR f buf len recsize).1, (kfifoOutPeekR f buf len recsize).2.toNat)
  | .lenR => (f, none, (kfifoLenR f recsize).toNat)
  | .skipR => (kfifoSkipR f recsize, none, 0)

def kfifoRecordRun (f : Kfifo) (recsize : UInt64) :
    List RecordCall → Kfifo × List (Option (Nat → UInt8) × Nat)
  | [] => (f, [])
  | c :: cs =>
    let r := kfifoRecordCall f recsize c
    let rest := kfifoRecordRun r.1 recsize cs
    (rest.1, r.2 :: rest.2)

namespace Kfifo

/-- The bytes a byte fifo holds, from `out` on. -/
def bytes (f : Kfifo) : List UInt8 := ringRead f.data f.size f.out.toNat f.count

structure RecordWf (f : Kfifo) (recsize : Nat) (rs : List (List UInt8)) : Prop where
  wf : f.Wf
  byte : f.esize = 1
  bytes : f.bytes = encodeRecords recsize rs
  short : ∀ r ∈ rs, r.length < 2 ^ (8 * recsize)

@[simp] theorem length_bytes (f : Kfifo) : f.bytes.length = f.count := length_ringRead ..

theorem in_eq_out_iff (f : Kfifo) : f.in_ = f.out ↔ f.count = 0 := by
  have sub := UInt32.toNat_sub f.in_ f.out
  have := f.in_.toNat_lt
  have := f.out.toNat_lt
  unfold Kfifo.count
  rw [← UInt32.toNat_inj]
  omega

theorem data_of_bytes {f : Kfifo} {t : Nat} {b : UInt8} (h : f.bytes[t]? = some b) :
    f.data ((f.out.toNat + t) % f.size) = b := by
  obtain ⟨lt, eq⟩ := List.getElem?_eq_some_iff.mp h
  rw [← eq]
  simp [bytes, ringRead]

end Kfifo

theorem recsize_cases {recsize : UInt64} (two : recsize = 1 ∨ recsize = 2) :
    recsize.toNat = 1 ∨ recsize.toNat = 2 := by
  rcases two with rfl | rfl <;> decide

theorem recsize_toUInt32 {recsize : UInt64} (two : recsize = 1 ∨ recsize = 2) :
    recsize.toUInt32.toNat = recsize.toNat := by
  rcases two with rfl | rfl <;> rfl

theorem length_recordHeader {recsize : Nat} (two : recsize = 1 ∨ recsize = 2) (n : Nat) :
    (recordHeader recsize n).length = recsize := by
  rcases two with rfl | rfl <;> rfl

@[simp] theorem encodeRecords_nil (recsize : Nat) : encodeRecords recsize [] = [] := rfl

theorem encodeRecords_cons (recsize : Nat) (r : List UInt8) (rs : List (List UInt8)) :
    encodeRecords recsize (r :: rs) = recordHeader recsize r.length ++ r ++ encodeRecords recsize rs := by
  simp [encodeRecords]

theorem encodeRecords_append (recsize : Nat) (rs rs' : List (List UInt8)) :
    encodeRecords recsize (rs ++ rs') = encodeRecords recsize rs ++ encodeRecords recsize rs' := by
  simp [encodeRecords]

theorem toUInt8_shiftRight (n : UInt32) : (n >>> 8).toUInt8 = (n.toNat / 256).toUInt8 := by
  apply UInt8.toNat_inj.mp
  simp [UInt32.toNat_shiftRight, Nat.shiftRight_eq_div_pow]

theorem header_decode {n : Nat} (short : n < 2 ^ 16) :
    (n.toUInt8.toUInt32 ||| (n / 256).toUInt8.toUInt32 <<< 8).toNat = n := by
  have low : n.toUInt8.toUInt32.toNat = n % 2 ^ 8 := by simp
  have high : ((n / 256).toUInt8.toUInt32 <<< 8).toNat = (n / 256) <<< 8 := by
    simp only [UInt32.toNat_shiftLeft, UInt8.toNat_toUInt32, Nat.toUInt8_eq, UInt8.toNat_ofNat',
      UInt32.reduceToNat, Nat.reduceMod]
    rw [Nat.mod_eq_of_lt (by omega : n / 256 < 2 ^ 8), Nat.mod_eq_of_lt, Nat.shiftLeft_eq]
    omega
  -- the low byte and the high byte shifted past it do not overlap: their `or` is their sum
  rw [UInt32.toNat_or, low, high, Nat.lor_comm,
    ← Nat.shiftLeft_add_eq_or_of_lt (Nat.mod_lt _ (by decide)), Nat.shiftLeft_eq]
  omega

/-! ### Bytes of a fifo -/

namespace Kfifo.Wf

variable {f : Kfifo} (wf : f.Wf)
include wf

theorem two_le_size : 2 ≤ f.size := by
  obtain ⟨k, one, -, eq⟩ := wf.pow
  rw [eq]
  calc 2 = 2 ^ 1 := rfl
    _ ≤ 2 ^ k := Nat.pow_le_pow_right (by decide) one

theorem place_add (x k : UInt32) (t : Nat) :
    ((x + k).toNat + t) % f.size = (x.toNat + (k.toNat + t)) % f.size := by
  rw [UInt32.toNat_add, ← Nat.add_assoc]
  exact Nat.ModEq.add_right _ (Nat.mod_mod_of_dvd _ wf.size_dvd)

theorem and_mask_succ (x : UInt32) : ((x + 1) &&& f.mask).toNat = (x.toNat + 1) % f.size := by
  rw [wf.and_mask, UInt32.toNat_add, UInt32.toNat_one, Nat.mod_mod_of_dvd _ wf.size_dvd]

theorem bytes_out {k : UInt32} (hk : k.toNat ≤ f.count) :
    ({ f with out := f.out + k } : Kfifo).bytes = f.bytes.drop k.toNat := by
  have count' : ({ f with out := f.out + k } : Kfifo).count = f.count - k.toNat := wf.count_sub hk
  show ringRead f.data f.size (f.out + k).toNat ({ f with out := f.out + k } : Kfifo).count = _
  rw [count', Kfifo.bytes, ringRead_drop]
  apply List.map_congr_left
  intro j _
  rw [wf.place_add, Nat.add_assoc]

theorem with_data (d : Nat → UInt8) : ({ f with data := d } : Kfifo).Wf :=
  ⟨wf.pow, wf.bytes, wf.count⟩

theorem out_wf {k : UInt32} (hk : k.toNat ≤ f.count) : ({ f with out := f.out + k } : Kfifo).Wf :=
  ⟨wf.pow, wf.bytes, (wf.count_sub hk).trans_le (by have := wf.count; show _ ≤ f.size; omega)⟩

theorem pokeN_cell (n : UInt32) (recsize : UInt64) {t : Nat} (ht : t < f.size) :
    kfifoPokeN f n recsize ((f.in_.toNat + t) % f.size) =
      if t = 0 then n.toUInt8
      else if t = 1 ∧ recsize > 1 then (n >>> 8).toUInt8
      else f.data ((f.in_.toNat + t) % f.size) := by
  -- the places `t` and `s` after `in` are one exactly when `t = s`
  have same : ∀ s < f.size, (f.in_.toNat + t) % f.size = (f.in_.toNat + s) % f.size ↔ t = s := by
    intro s hs
    constructor
    · intro h
      have := Nat.ModEq.add_left_cancel' f.in_.toNat h
      rwa [Nat.ModEq, Nat.mod_eq_of_lt ht, Nat.mod_eq_of_lt hs] at this
    · rintro rfl
      rfl
  have at0 := same 0 f.size_pos
  have at1 := same 1 wf.two_le_size
  rw [Nat.add_zero] at at0
  unfold kfifoPokeN
  rw [wf.and_mask, wf.and_mask_succ]
  split
  · rename_i big
    rw [Function.update_apply, Function.update_apply]
    by_cases h1 : t = 1
    · rw [if_pos (at1.mpr h1), if_neg (by omega), if_pos ⟨h1, big⟩]
    · rw [if_neg (fun h => h1 (at1.mp h))]
      by_cases h0 : t = 0
      · rw [if_pos (at0.mpr h0), if_pos h0]
      · rw [if_neg (fun h => h0 (at0.mp h)), if_neg h0, if_neg (fun h => h1 h.1)]
  · rename_i small
    rw [Function.update_apply]
    by_cases h0 : t = 0
    · rw [if_pos (at0.mpr h0), if_pos h0]
    · rw [if_neg (fun h => h0 (at0.mp h)), if_neg h0, if_neg (fun h => small h.2)]

section Byte

variable (one : f.esize = 1)
include one

theorem copyIn_byte (src : Nat → UInt8) {len : UInt32} (off : UInt32) (hlen : len.toNat ≤ f.size)
    {t : Nat} (ht : t < f.size) :
    kfifoCopyIn f src len off ((off.toNat + t) % f.size) =
      if t < len.toNat then src t else f.data ((off.toNat + t) % f.size) := by
  have cell := wf.copyIn_cell src off hlen ht (show 0 < f.esize.toNat by rw [one]; decide)
  simpa only [one, UInt32.toNat_one, Nat.mul_one, Nat.add_zero] using cell

theorem copyOut_byte (dst : Nat → UInt8) {len : UInt32} (off : UInt32)
    (hlen : len.toNat ≤ f.size) {j : Nat} (hj : j < len.toNat) :
    kfifoCopyOut f dst len off j = f.data ((off.toNat + j) % f.size) := by
  have cell := wf.copyOut_cell dst off hlen
    (show j < len.toNat * f.esize.toNat by rw [one, UInt32.toNat_one, Nat.mul_one]; exact hj)
  simpa only [one, UInt32.toNat_one, Nat.mul_one] using cell

theorem copyOut_frame_byte (dst : Nat → UInt8) {len : UInt32} (off : UInt32)
    (hlen : len.toNat ≤ f.size) {p : Nat} (hp : len.toNat ≤ p) :
    kfifoCopyOut f dst len off p = dst p :=
  wf.copyOut_frame dst off hlen (by rw [one, UInt32.toNat_one, Nat.mul_one]; exact hp)

end Byte

end Kfifo.Wf

/-! ### Putting a record in -/

section In

variable {f : Kfifo} {recsize : UInt64} {rs : List (List UInt8)}
  (hrec : f.RecordWf recsize.toNat rs) (two : recsize = 1 ∨ recsize = 2)
include hrec two

theorem kfifoInR_check (len : UInt32) :
    (len.toUInt64 + recsize > (kfifoUnused f).toUInt64) ↔
      f.size < f.count + recsize.toNat + len.toNat := by
  have small : recsize.toNat ≤ 2 := by rcases two with rfl | rfl <;> decide
  have count := hrec.wf.count
  have := len.toNat_lt
  rw [GT.gt, UInt64.lt_iff_toNat_lt, UInt64.toNat_add, UInt32.toNat_toUInt64,
    UInt32.toNat_toUInt64, hrec.wf.unused, Nat.mod_eq_of_lt (by omega)]
  omega

theorem kfifoInR_full (buf : Nat → UInt8) (len : UInt32)
    (full : f.size < f.count + recsize.toNat + len.toNat) : kfifoInR f buf len recsize = (f, 0) := by
  unfold kfifoInR
  rw [if_pos ((kfifoInR_check hrec two len).mpr full)]

theorem kfifoInR_cell (buf : Nat → UInt8) {len : UInt32}
    (fits : f.count + recsize.toNat + len.toNat ≤ f.size) {t : Nat} (ht : t < f.size) :
    kfifoCopyIn { f with data := kfifoPokeN f len recsize } buf len (f.in_ + recsize.toUInt32)
        ((f.in_.toNat + t) % f.size) =
      if t = 0 then len.toUInt8
      else if t < recsize.toNat then (len >>> 8).toUInt8
      else if t < recsize.toNat + len.toNat then buf (t - recsize.toNat)
      else f.data ((f.in_.toNat + t) % f.size) := by
  have wf := hrec.wf
  have poked := wf.with_data (kfifoPokeN f len recsize)
  have rsz := recsize_toUInt32 two
  have small : 1 ≤ recsize.toNat ∧ recsize.toNat ≤ 2 := by rcases two with rfl | rfl <;> decide
  have hlen : len.toNat ≤ f.size := by omega
  -- the payload copy, `d` places after `in + recsize`
  have copy : ∀ d < f.size, kfifoCopyIn { f with data := kfifoPokeN f len recsize } buf len
      (f.in_ + recsize.toUInt32) (((f.in_ + recsize.toUInt32).toNat + d) % f.size) =
        if d < len.toNat then buf d
        else kfifoPokeN f len recsize (((f.in_ + recsize.toUInt32).toNat + d) % f.size) :=
    fun d hd => poked.copyIn_byte hrec.byte buf _ hlen hd
  by_cases header : t < recsize.toNat
  · -- a header byte lies `size - recsize + t` places after where the payload starts
    have place : (f.in_.toNat + t) % f.size =
        ((f.in_ + recsize.toUInt32).toNat + (f.size - recsize.toNat + t)) % f.size := by
      rw [wf.place_add, rsz, show recsize.toNat + (f.size - recsize.toNat + t) = t + f.size by omega,
        ← Nat.add_assoc, Nat.add_mod_right]
    rw [place, copy _ (by omega), if_neg (show ¬ f.size - recsize.toNat + t < len.toNat by omega),
      ← place, wf.pokeN_cell len recsize ht]
    by_cases h0 : t = 0
    · rw [if_pos h0, if_pos h0]
    · have big : recsize > 1 := by
        rcases two with rfl | rfl
        · simp at header; omega
        · decide
      rw [if_neg h0, if_neg h0, if_pos ⟨by omega, big⟩, if_pos header]
  · -- past the header: the payload's byte `t - recsize`, or the bytes the record left alone
    have place : (f.in_.toNat + t) % f.size =
        ((f.in_ + recsize.toUInt32).toNat + (t - recsize.toNat)) % f.size := by
      rw [wf.place_add, rsz, show recsize.toNat + (t - recsize.toNat) = t by omega]
    have t0 : t ≠ 0 := by omega
    have not1 : ¬ (t = 1 ∧ recsize > 1) := by
      rintro ⟨rfl, big⟩
      rcases two with rfl | rfl
      · exact absurd big (by decide)
      · exact header (by decide)
    rw [place, copy _ (by omega), ← place, if_neg t0, if_neg header]
    by_cases payload : t < recsize.toNat + len.toNat
    · rw [if_pos (show t - recsize.toNat < len.toNat by omega), if_pos payload]
    · rw [if_neg (show ¬ t - recsize.toNat < len.toNat by omega), if_neg payload,
        wf.pokeN_cell len recsize ht, if_neg t0, if_neg not1]

theorem kfifoInR_fits (buf : Nat → UInt8) (len : UInt32)
    (fits : f.count + recsize.toNat + len.toNat ≤ f.size) (short : len.toNat < 2 ^ (8 * recsize.toNat)) :
    (kfifoInR f buf len recsize).2 = len ∧
      (kfifoInR f buf len recsize).1.RecordWf recsize.toNat (rs ++ [read buf 0 len.toNat]) := by
  have wf := hrec.wf
  have rsz := recsize_toUInt32 two
  have small : 1 ≤ recsize.toNat ∧ recsize.toNat ≤ 2 := by rcases two with rfl | rfl <;> decide
  have count := wf.count
  -- `in` moves on by the header and the payload
  have step : (len + recsize.toUInt32).toNat = recsize.toNat + len.toNat := by
    rw [UInt32.toNat_add, rsz, Nat.mod_eq_of_lt (by have := wf.size_le; omega)]
    omega
  have eq : kfifoInR f buf len recsize =
      ({ f with
          data := (kfifoCopyIn { f with data := kfifoPokeN f len recsize } buf len
            (f.in_ + recsize.toUInt32))
          in_ := f.in_ + (len + recsize.toUInt32) }, len) := by
    unfold kfifoInR
    rw [if_neg (fun h => by have := (kfifoInR_check hrec two len).mp h; omega)]
    dsimp only
    rw [UInt32.add_assoc]
  rw [eq]
  have count' : (f.in_ + (len + recsize.toUInt32) - f.out).toNat =
      f.count + (recsize.toNat + len.toNat) := by
    rw [← step]
    exact wf.count_add (by rw [step]; omega)
  refine ⟨rfl, ⟨⟨wf.pow, wf.bytes, count'.trans_le (show _ ≤ f.size by omega)⟩, hrec.byte, ?_, ?_⟩⟩
  · show ringRead (kfifoCopyIn { f with data := kfifoPokeN f len recsize } buf len
        (f.in_ + recsize.toUInt32)) f.size f.out.toNat
        (f.in_ + (len + recsize.toUInt32) - f.out).toNat = _
    rw [count', ringRead_add, ringRead_add, encodeRecords_append, encodeRecords_cons,
      encodeRecords_nil, List.append_nil, ← hrec.bytes]
    congr 1
    · -- the bytes held lie past the record, `size - count` places and more after `in`
      apply ringRead_congr
      intro i hi
      rw [wf.place_old i, kfifoInR_cell hrec two buf fits (by omega), if_neg (by omega),
        if_neg (by omega), if_neg (by omega)]
    congr 1
    · -- the header
      apply List.ext_getElem (by rw [length_ringRead, length_recordHeader (recsize_cases two)])
      intro t ht _
      rw [length_ringRead] at ht
      simp only [ringRead, List.getElem_map, List.getElem_range]
      rw [Nat.add_assoc, wf.place_new t, kfifoInR_cell hrec two buf fits (by omega)]
      rcases two with rfl | rfl
      · have : t = 0 := by simp at ht; omega
        subst this
        simp [recordHeader, length_read]
      · by_cases h0 : t = 0
        · subst h0
          simp [recordHeader, length_read]
        · have h1 : t = 1 := by simp at ht; omega
          subst h1
          simp [recordHeader, length_read, toUInt8_shiftRight]
    · -- the payload
      apply ringRead_eq_read
      intro t ht
      rw [show f.out.toNat + f.count + recsize.toNat + t =
          f.out.toNat + (f.count + (recsize.toNat + t)) by omega, wf.place_new,
        kfifoInR_cell hrec two buf fits (by omega), if_neg (by omega), if_neg (by omega),
        if_pos (by omega), Nat.zero_add, Nat.add_sub_cancel_left]
  · intro r mem
    rcases List.mem_append.mp mem with old | new
    · exact hrec.short r old
    · rw [List.mem_singleton.mp new, length_read]
      exact short

end In

/-! ### Taking a record out -/

section Out

variable {f : Kfifo} {recsize : UInt64} {r : List UInt8} {rest : List (List UInt8)}
  (hrec : f.RecordWf recsize.toNat (r :: rest)) (two : recsize = 1 ∨ recsize = 2)
include hrec two

theorem record_count : recsize.toNat + r.length ≤ f.count := by
  rw [← Kfifo.length_bytes, hrec.bytes, encodeRecords_cons, List.length_append,
    List.length_append, length_recordHeader (recsize_cases two)]
  omega

omit two in
theorem record_header {t : Nat} {b : UInt8}
    (h : (recordHeader recsize.toNat r.length)[t]? = some b) :
    f.data ((f.out.toNat + t) % f.size) = b := by
  apply Kfifo.data_of_bytes
  have lt : t < (recordHeader recsize.toNat r.length).length := (List.getElem?_eq_some_iff.mp h).1
  rw [hrec.bytes, encodeRecords_cons, List.append_assoc, List.getElem?_append_left lt, h]

theorem record_payload {j : Nat} (hj : j < r.length) :
    f.data ((f.out.toNat + (recsize.toNat + j)) % f.size) = r[j] := by
  apply Kfifo.data_of_bytes
  have header := length_recordHeader (recsize_cases two) r.length
  rw [hrec.bytes, encodeRecords_cons, List.append_assoc,
    List.getElem?_append_right (by omega), header, Nat.add_sub_cancel_left,
    List.getElem?_append_left hj, List.getElem?_eq_getElem hj]

theorem kfifoPeekN_record : (kfifoPeekN f recsize).toNat = r.length := by
  have wf := hrec.wf
  have short := hrec.short r List.mem_cons_self
  unfold kfifoPeekN
  dsimp only
  rw [wf.and_mask, wf.and_mask_succ]
  rcases two with rfl | rfl
  · have b0 := record_header hrec (t := 0) (b := r.length.toUInt8) (by simp [recordHeader])
    rw [if_neg (by decide), ← Nat.add_zero f.out.toNat, b0]
    simp only [UInt8.toNat_toUInt32, Nat.toUInt8_eq, UInt8.toNat_ofNat']
    simp at short
    omega
  · have b0 := record_header hrec (t := 0) (b := r.length.toUInt8) (by simp [recordHeader])
    have b1 := record_header hrec (t := 1) (b := (r.length / 256).toUInt8)
      (by simp [recordHeader])
    rw [if_pos (by decide), ← Nat.add_zero f.out.toNat, b0, Nat.add_zero, b1]
    exact header_decode (by simpa using short)

theorem record_skip :
    ({ f with out := f.out + kfifoPeekN f recsize + recsize.toUInt32 } : Kfifo).RecordWf
      recsize.toNat rest := by
  have wf := hrec.wf
  have within := record_count hrec two
  have step : (kfifoPeekN f recsize + recsize.toUInt32).toNat = recsize.toNat + r.length := by
    rw [UInt32.toNat_add, kfifoPeekN_record hrec two, recsize_toUInt32 two, Nat.mod_eq_of_lt (by have := wf.count; have := wf.size_le; omega)]
    omega
  rw [UInt32.add_assoc]
  refine ⟨wf.out_wf (by omega), hrec.byte, ?_, fun r' mem => hrec.short r' (List.mem_cons_of_mem _ mem)⟩
  have header := length_recordHeader (recsize_cases two) r.length
  rw [wf.bytes_out (by omega), step, hrec.bytes, encodeRecords_cons, List.append_assoc,
    ← List.drop_drop, List.drop_left' header, List.drop_left]

theorem kfifoOutCopyR_record (buf : Nat → UInt8) (len : UInt32) :
    (kfifoOutCopyR f buf len recsize).1 = store buf (r.take len.toNat) ∧
      (kfifoOutCopyR f buf len recsize).2.1.toNat = min len.toNat r.length := by
  have wf := hrec.wf
  have peek := kfifoPeekN_record hrec two
  have within := record_count hrec two
  have count := wf.count
  obtain ⟨m, hm, eq⟩ : ∃ m : UInt32, m.toNat = min len.toNat r.length ∧
      kfifoOutCopyR f buf len recsize =
        (kfifoCopyOut f buf m (f.out + recsize.toUInt32), m, kfifoPeekN f recsize) := by
    refine ⟨_, ?_, rfl⟩
    split
    · rename_i gt
      rw [GT.gt, UInt32.lt_iff_toNat_lt, peek] at gt
      rw [peek]
      omega
    · rename_i le
      rw [GT.gt, UInt32.lt_iff_toNat_lt, peek] at le
      omega
  rw [eq]
  dsimp only
  have mle : m.toNat ≤ f.size := by omega
  refine ⟨?_, hm⟩
  funext p
  unfold store
  split
  · rename_i lt
    rw [List.length_take] at lt
    rw [wf.copyOut_byte hrec.byte buf _ mle (by omega), wf.place_add, recsize_toUInt32 two,
      record_payload hrec two (by omega), List.getElem_take]
  · rename_i ge
    rw [List.length_take] at ge
    exact wf.copyOut_frame_byte hrec.byte buf _ mle (by omega)

theorem record_nonempty : f.in_ ≠ f.out := fun same => by
  have empty := f.in_eq_out_iff.mp same
  have within := record_count hrec two
  rcases recsize_cases two with one | two <;> omega

theorem kfifoOutR_record (buf : Nat → UInt8) (len : UInt32) :
    (kfifoOutR f buf len recsize).1.RecordWf recsize.toNat rest ∧
      (kfifoOutR f buf len recsize).2.1 = store buf (r.take len.toNat) ∧
      (kfifoOutR f buf len recsize).2.2.toNat = min len.toNat r.length := by
  obtain ⟨copied, copiedLen⟩ := kfifoOutCopyR_record hrec two buf len
  unfold kfifoOutR
  rw [if_neg (record_nonempty hrec two)]
  exact ⟨record_skip hrec two, copied, copiedLen⟩

theorem kfifoOutPeekR_record (buf : Nat → UInt8) (len : UInt32) :
    (kfifoOutPeekR f buf len recsize).1 = store buf (r.take len.toNat) ∧
      (kfifoOutPeekR f buf len recsize).2.toNat = min len.toNat r.length := by
  obtain ⟨copied, copiedLen⟩ := kfifoOutCopyR_record hrec two buf len
  unfold kfifoOutPeekR
  rw [if_neg (record_nonempty hrec two)]
  exact ⟨copied, copiedLen⟩

end Out

/-! ### Runs of record calls -/

theorem Kfifo.RecordWf.empty {f : Kfifo} {recsize : Nat} (hrec : f.RecordWf recsize []) :
    f.in_ = f.out :=
  f.in_eq_out_iff.mpr (by rw [← Kfifo.length_bytes, hrec.bytes, encodeRecords_nil]; rfl)

theorem kfifoRecordCall_size (f : Kfifo) (recsize : UInt64) (c : RecordCall) :
    (kfifoRecordCall f recsize c).1.size = f.size := by
  cases c with
  | inR buf len =>
    show (kfifoInR f buf len recsize).1.size = f.size
    unfold kfifoInR
    split <;> rfl
  | outR buf len =>
    show (kfifoOutR f buf len recsize).1.size = f.size
    unfold kfifoOutR
    split <;> rfl
  | outPeekR | lenR | skipR => rfl

theorem kfifoRecordCall_refines {f : Kfifo} {recsize : UInt64} {rs : List (List UInt8)}
    (hrec : f.RecordWf recsize.toNat rs) (two : recsize = 1 ∨ recsize = 2) {c : RecordCall}
    {rs' : List (List UInt8)} {out : Option (Nat → UInt8) × Nat}
    (call : recordCall f.size recsize.toNat rs c = some (rs', out)) :
    (kfifoRecordCall f recsize c).1.RecordWf recsize.toNat rs' ∧
      (kfifoRecordCall f recsize c).1.size = f.size ∧ (kfifoRecordCall f recsize c).2 = out := by
  have held : (encodeRecords recsize.toNat rs).length = f.count := by
    rw [← hrec.bytes, Kfifo.length_bytes]
  have size := kfifoRecordCall_size f recsize c
  cases c with
  | inR buf len =>
    simp only [recordCall, held] at call
    split_ifs at call with long full
    · -- no room: nothing changes
      simp only [Option.some.injEq, Prod.mk.injEq] at call
      obtain ⟨rfl, rfl⟩ := call
      have full := kfifoInR_full hrec two buf len (by omega)
      refine ⟨?_, size, ?_⟩
      · show (kfifoInR f buf len recsize).1.RecordWf _ _
        rw [full]
        exact hrec
      · show (none, (kfifoInR f buf len recsize).2.toNat) = _
        rw [full]
        rfl
    · simp only [Option.some.injEq, Prod.mk.injEq] at call
      obtain ⟨rfl, rfl⟩ := call
      obtain ⟨returned, hrec'⟩ := kfifoInR_fits hrec two buf len (by omega) (by omega)
      refine ⟨hrec', size, ?_⟩
      show (none, (kfifoInR f buf len recsize).2.toNat) = _
      rw [returned]
  | outR buf len =>
    cases rs with
    | nil =>
      simp only [recordCall, Option.some.injEq, Prod.mk.injEq] at call
      obtain ⟨rfl, rfl⟩ := call
      have empty : kfifoOutR f buf len recsize = (f, buf, 0) := by
        unfold kfifoOutR
        rw [if_pos hrec.empty]
      refine ⟨?_, size, ?_⟩
      · show (kfifoOutR f buf len recsize).1.RecordWf _ _
        rw [empty]
        exact hrec
      · show (some (kfifoOutR f buf len recsize).2.1, (kfifoOutR f buf len recsize).2.2.toNat) = _
        rw [empty]
        rfl
    | cons r rest =>
      simp only [recordCall, Option.some.injEq, Prod.mk.injEq] at call
      obtain ⟨rfl, rfl⟩ := call
      obtain ⟨hrec', copied, copiedLen⟩ := kfifoOutR_record hrec two buf len
      refine ⟨hrec', size, ?_⟩
      show (some (kfifoOutR f buf len recsize).2.1, (kfifoOutR f buf len recsize).2.2.toNat) = _
      rw [copied, copiedLen]
  | outPeekR buf len =>
    cases rs with
    | nil =>
      simp only [recordCall, Option.some.injEq, Prod.mk.injEq] at call
      obtain ⟨rfl, rfl⟩ := call
      have empty : kfifoOutPeekR f buf len recsize = (buf, 0) := by
        unfold kfifoOutPeekR
        rw [if_pos hrec.empty]
      refine ⟨hrec, size, ?_⟩
      show (some (kfifoOutPeekR f buf len recsize).1, (kfifoOutPeekR f buf len recsize).2.toNat) = _
      rw [empty]
      rfl
    | cons r rest =>
      simp only [recordCall, Option.some.injEq, Prod.mk.injEq] at call
      obtain ⟨rfl, rfl⟩ := call
      obtain ⟨copied, copiedLen⟩ := kfifoOutPeekR_record hrec two buf len
      refine ⟨hrec, size, ?_⟩
      show (some (kfifoOutPeekR f buf len recsize).1, (kfifoOutPeekR f buf len recsize).2.toNat) = _
      rw [copied, copiedLen]
  | lenR =>
    cases rs with
    | nil => simp [recordCall] at call
    | cons r rest =>
      simp only [recordCall, Option.some.injEq, Prod.mk.injEq] at call
      obtain ⟨rfl, rfl⟩ := call
      refine ⟨hrec, size, ?_⟩
      show (none, (kfifoPeekN f recsize).toNat) = _
      rw [kfifoPeekN_record hrec two]
  | skipR =>
    cases rs with
    | nil => simp [recordCall] at call
    | cons r rest =>
      simp only [recordCall, Option.some.injEq, Prod.mk.injEq] at call
      obtain ⟨rfl, rfl⟩ := call
      exact ⟨record_skip hrec two, size, rfl⟩

theorem kfifoRecordRun_refines {f : Kfifo} {recsize : UInt64} {rs : List (List UInt8)}
    (hrec : f.RecordWf recsize.toNat rs) (two : recsize = 1 ∨ recsize = 2) {calls : List RecordCall}
    {rs' : List (List UInt8)} {outs : List (Option (Nat → UInt8) × Nat)}
    (run : recordRun f.size recsize.toNat rs calls = some (rs', outs)) :
    (kfifoRecordRun f recsize calls).1.RecordWf recsize.toNat rs' ∧
      (kfifoRecordRun f recsize calls).2 = outs := by
  induction calls generalizing f rs rs' outs with
  | nil =>
    simp only [recordRun, Option.some.injEq, Prod.mk.injEq] at run
    obtain ⟨rfl, rfl⟩ := run
    exact ⟨hrec, rfl⟩
  | cons c cs ih =>
    simp only [recordRun, Option.bind_eq_some_iff, Option.map_eq_some_iff] at run
    obtain ⟨⟨rs₁, out⟩, call, ⟨rs₂, outs₂⟩, rest, eq⟩ := run
    obtain ⟨hrec₁, size₁, out₁⟩ := kfifoRecordCall_refines hrec two call
    rw [← size₁] at rest
    obtain ⟨hrec₂, outs₂'⟩ := ih hrec₁ rest
    simp only [Prod.mk.injEq] at eq
    obtain ⟨rfl, rfl⟩ := eq
    exact ⟨hrec₂, by simp only [kfifoRecordRun, out₁, outs₂']⟩

theorem kfifoInit_esize {buffer : Nat → UInt8} {size : UInt32} {esize : UInt64} {f : Kfifo}
    {r : Except Errno Unit} (h : kfifoInit buffer size esize = (f, r)) : f.esize = esize.toUInt32 := by
  unfold kfifoInit at h
  dsimp only at h
  split at h <;> rw [← (Prod.mk.inj h).1]

theorem kfifoAlloc_esize {size : UInt32} {esize : UInt64} {buffer : Nat → UInt8} {ok : Bool}
    {f : Kfifo} {r : Except Errno Unit} (h : kfifoAlloc size esize buffer ok = (f, r)) :
    f.esize = esize.toUInt32 := by
  unfold kfifoAlloc at h
  dsimp only at h
  split at h
  · rw [← (Prod.mk.inj h).1]
  · split at h <;> rw [← (Prod.mk.inj h).1]

theorem kfifo_record_queue {f : Kfifo} {recsize : UInt64}
    (init : (∃ buffer size, kfifoInit buffer size 1 = (f, .ok ())) ∨
      ∃ size buffer ok, kfifoAlloc size 1 buffer ok = (f, .ok ()))
    (two : recsize = 1 ∨ recsize = 2) {calls : List RecordCall} {rs : List (List UInt8)}
    {outs : List (Option (Nat → UInt8) × Nat)}
    (run : recordRun f.size recsize.toNat [] calls = some (rs, outs)) :
    (kfifoRecordRun f recsize calls).2 = outs ∧
      (kfifoRecordRun f recsize calls).1.bytes = encodeRecords recsize.toNat rs := by
  obtain ⟨⟨wf, empty⟩, byte⟩ : (f.Wf ∧ f.queue = []) ∧ f.esize = 1 := by
    rcases init with ⟨buffer, size, h⟩ | ⟨size, buffer, ok, h⟩
    · exact ⟨kfifoInit_wf h, kfifoInit_esize h⟩
    · exact ⟨kfifoAlloc_wf h, kfifoAlloc_esize h⟩
  have hrec : f.RecordWf recsize.toNat [] := by
    refine ⟨wf, byte, ?_, by simp⟩
    rw [encodeRecords_nil, ← List.length_eq_zero_iff, Kfifo.length_bytes, ← Kfifo.length_queue,
      empty, List.length_nil]
  obtain ⟨hrec', outs'⟩ := kfifoRecordRun_refines hrec two run
  exact ⟨outs', hrec'.bytes⟩

theorem kfifo_record_queue_sixteen :
    let calls := [RecordCall.inR (fun i => i.toUInt8) 5, .lenR, .skipR]
    (kfifoRecordRun ⟨0, 0, 15, 1, fun _ => 0⟩ 2 calls).2 = [(none, 5), (none, 5), (none, 0)] ∧
      (kfifoRecordRun ⟨0, 0, 15, 1, fun _ => 0⟩ 2 calls).1.bytes = encodeRecords 2 [] :=
  kfifo_record_queue (Or.inl ⟨fun _ => 0, 16, rfl⟩) (Or.inr rfl) rfl

/-- `__kfifo_skip_r` on an empty fifo of four bytes: `out` moves past `in`, and a record of
four bytes, five with its header, then goes in, where a queue of records with four bytes free
turns it away. -/
theorem kfifoSkipR_empty_overfills :
    let f : Kfifo := ⟨0, 0, 3, 1, fun _ => 0⟩
    kfifoInit (fun _ => 0) 4 1 = (f, .ok ()) ∧ f.count = 0 ∧
      recordCall f.size 1 [] (.inR (fun _ => 7) 4) = some ([], none, 0) ∧
      (kfifoSkipR f 1).count = 2 ^ 32 - 1 ∧
      (kfifoInR (kfifoSkipR f 1) (fun _ => 7) 4 1).2 = 4 :=
  ⟨rfl, rfl, rfl, rfl, by decide⟩

end LinuxKernel
