import LinuxKernel.Foundation.ExceptRules
import LinuxKernel.Net.Nlattr

/-!
# What walking and parsing an attribute stream gives

`nlaAttrs` lists what `nla_for_each_attr` visits, in order and inside the stream
(`nlaAttrs_spec`), and every loop is a fold over it (`nlaForEachAttr_eq_fold`). After
`nla_parse` returns 0, `tb[t]` is the last attribute of type `t`, accepted by its policy.
-/

namespace LinuxKernel

open ExceptRules

/-! ### The walk -/

/-- The attributes `nla_for_each_attr` visits, on fuel. -/
def nlaAttrs (m : Nat → UInt8) : Nat → Nat → Int → Option (List Nat)
  | 0, _, _ => none
  | fuel + 1, nla, rem =>
    if nlaOk m nla rem then
      (nlaAttrs m fuel (nla + nlaTotlen m nla) (rem - nlaTotlen m nla)).map (nla :: ·)
    else some []

theorem le_nlaAlign (len : Nat) : len ≤ nlaAlign len := by
  unfold nlaAlign nlaAlignto
  omega

theorem nlaOk_bounds {m : Nat → UInt8} {nla : Nat} {rem : Int} (ok : nlaOk m nla rem = true) :
    4 ≤ rem ∧ 4 ≤ (nlattrAt m nla).nlaLen.toNat ∧ ((nlattrAt m nla).nlaLen.toNat : Int) ≤ rem ∧
      (nlattrAt m nla).nlaLen.toNat ≤ nlaTotlen m nla := by
  simp only [nlaOk, Bool.and_eq_true, decide_eq_true_eq] at ok
  obtain ⟨⟨room, header⟩, fits⟩ := ok
  exact ⟨room, header, fits, le_nlaAlign _⟩

/-- The walk from `nla` with `rem` bytes left ends within `rem / 4 + 1` rounds, and visits
attributes in order, apart from each other, each with its header and `nla_len` bytes in the
`rem` bytes from `nla`. -/
theorem nlaAttrs_spec (m : Nat → UInt8) {fuel : Nat} {nla : Nat} {rem : Int}
    (enough : rem.toNat < 4 * fuel) :
    ∃ attrs, nlaAttrs m fuel nla rem = some attrs ∧
      attrs.Pairwise (fun a b => a + (nlattrAt m a).nlaLen.toNat ≤ b) ∧
      ∀ a ∈ attrs, nla ≤ a ∧ 4 ≤ (nlattrAt m a).nlaLen.toNat ∧
        (a : Int) + (nlattrAt m a).nlaLen.toNat ≤ nla + rem := by
  induction fuel generalizing nla rem with
  | zero => omega
  | succ fuel ih =>
    unfold nlaAttrs
    by_cases ok : nlaOk m nla rem = true
    · obtain ⟨room, header, fits, step⟩ := nlaOk_bounds ok
      -- the step is at least a header, so the rest of the walk has a round less
      obtain ⟨rest, walk, apart, inside⟩ :=
        @ih (nla + nlaTotlen m nla) (rem - nlaTotlen m nla) (by omega)
      refine ⟨nla :: rest, by rw [if_pos ok, walk]; rfl, ?_, ?_⟩
      · refine List.pairwise_cons.mpr ⟨fun b mem => ?_, apart⟩
        have := (inside b mem).1
        omega
      · intro a mem
        rcases List.mem_cons.mp mem with rfl | later
        · exact ⟨le_refl _, header, by omega⟩
        · obtain ⟨after, header', fits'⟩ := inside a later
          exact ⟨by omega, header', by push_cast at fits' ⊢; omega⟩
    · exact ⟨[], by rw [if_neg ok], List.Pairwise.nil, by simp⟩

theorem nlaForEachAttr_eq_fold {σ : Type} (m : Nat → UInt8) (body : Nat → σ → Except Errno σ)
    {fuel nla : Nat} {rem : Int} {attrs : List Nat} (walk : nlaAttrs m fuel nla rem = some attrs)
    (st : σ) : nlaForEachAttr m body fuel nla rem st = some (foldUntilError body attrs st) := by
  induction fuel generalizing nla rem attrs st with
  | zero => cases walk
  | succ fuel ih =>
    unfold nlaAttrs at walk
    unfold nlaForEachAttr
    by_cases ok : nlaOk m nla rem = true
    · rw [if_pos ok] at walk ⊢
      obtain ⟨rest, walk', rfl⟩ := Option.map_eq_some_iff.mp walk
      unfold foldUntilError
      cases body nla st with
      | error e => rfl
      | ok st' => exact ih walk' st'
    · rw [if_neg ok] at walk ⊢
      cases walk
      rfl

/-! ### Policies -/

/-- The bytes of a string payload before a trailing NUL. -/
def strippedLen (m : Nat → UInt8) (data attrlen : Nat) : Nat :=
  if m (data + (attrlen - 1)) = 0 then attrlen - 1 else attrlen

/-- The least payload a policy of a fixed-size or nested type asks for: its `len` when set, and
the size of the type otherwise. -/
def policyMinlen (pt : NlaPolicy) : Nat := if pt.len ≠ 0 then pt.len.toNat else nlaAttrMinlen pt.type

/-- What the policy `pt` asks of a payload of `attrlen` bytes at `data`: no bytes for a flag;
a string of at least one byte, and of at most `len` bytes before a trailing NUL when `len` is
set; for a NUL-terminated string also a NUL in its first `len + 1` bytes (in all of them when
`len` is 0); at most `len` bytes of binary data when `len` is set; a nested-compat structure of
at least `len` bytes, with room for an inner header past its aligned end and that header's
`nla_len` bytes inside the payload, unless the payload ends before that aligned end; nothing or
at least `policyMinlen` bytes for nested attributes; and at least `policyMinlen` bytes
otherwise. -/
def PolicyOk (m : Nat → UInt8) (data attrlen : Nat) (pt : NlaPolicy) : Prop :=
  match pt.type with
  | .flag => attrlen = 0
  | .string => 1 ≤ attrlen ∧ (pt.len ≠ 0 → strippedLen m data attrlen ≤ pt.len.toNat)
  | .nulString =>
    (∃ i < (if pt.len ≠ 0 then min attrlen (pt.len.toNat + 1) else attrlen), m (data + i) = 0) ∧
      (pt.len ≠ 0 → strippedLen m data attrlen ≤ pt.len.toNat)
  | .binary => pt.len ≠ 0 → attrlen ≤ pt.len.toNat
  | .nestedCompat =>
    pt.len.toNat ≤ attrlen ∧
      (nlaAlign pt.len.toNat ≤ attrlen →
        nlaAlign pt.len.toNat + nlaHdrlen ≤ attrlen ∧
          nlaAlign pt.len.toNat + (nlattrAt m (data + nlaAlign pt.len.toNat)).nlaLen.toNat ≤ attrlen)
  | .nested => attrlen = 0 ∨ policyMinlen pt ≤ attrlen
  | _ => policyMinlen pt ≤ attrlen

theorem memchrNul_iff (m : Nat → UInt8) (s n : Nat) :
    memchrNul m s n = true ↔ ∃ i < n, m (s + i) = 0 := by
  simp [memchrNul]

theorem validateNlaString_ok_iff (m : Nat → UInt8) (nla : Nat) (pt : NlaPolicy) (attrlen : Nat) :
    validateNlaString m nla pt attrlen = .ok () ↔
      1 ≤ attrlen ∧ (pt.len ≠ 0 → strippedLen m (nlaData nla) attrlen ≤ pt.len.toNat) := by
  unfold validateNlaString strippedLen
  by_cases empty : attrlen < 1
  · rw [if_pos (by omega)]
    simp only [reduceCtorEq, false_iff, not_and]
    omega
  rw [if_neg (by omega)]
  by_cases limited : pt.len ≠ 0
  · have index : ((attrlen : Int) - 1).toNat = attrlen - 1 := by omega
    -- the trailing NUL is dropped alike in `int` and in `Nat`
    have stripped : (if m (nlaData nla + (attrlen - 1)) = 0 then (attrlen : Int) - 1 else attrlen) =
        ((if m (nlaData nla + (attrlen - 1)) = 0 then attrlen - 1 else attrlen : Nat) : Int) := by
      split <;> omega
    rw [if_pos limited, index]
    dsimp only
    rw [stripped, imp_iff_right limited]
    generalize (if m (nlaData nla + (attrlen - 1)) = 0 then attrlen - 1 else attrlen) = k
    split
    · simp only [reduceCtorEq, false_iff, not_and, not_le]
      omega
    · simp only [true_iff]
      omega
  · rw [if_neg limited]
    simp only [true_iff]
    exact ⟨by omega, fun h => absurd h limited⟩

theorem validateNlaDefault_ok_iff (pt : NlaPolicy) (attrlen : Nat) :
    validateNlaDefault pt attrlen = .ok () ↔ policyMinlen pt ≤ attrlen := by
  unfold validateNlaDefault policyMinlen
  by_cases limited : pt.len ≠ 0
  · rw [if_pos limited]
    split <;> simp_all
  · -- `nla_attr_minlen[NLA_UNSPEC]` is 0 too
    have unspec : (if pt.type ≠ .unspec then nlaAttrMinlen pt.type else 0) = nlaAttrMinlen pt.type := by
      split
      · rfl
      · rename_i same
        rw [not_not.mp same]
        rfl
    dsimp only
    rw [if_neg limited, if_neg limited, unspec]
    split <;> simp_all

theorem nlaHdrlen_eq : nlaHdrlen = 4 := rfl

theorem validateNla_ok_iff (m : Nat → UInt8) (nla : Nat) (maxtype : Int)
    (policy : Nat → NlaPolicy) (header : 4 ≤ (nlattrAt m nla).nlaLen.toNat) :
    validateNla m nla maxtype policy = .ok () ↔
      (0 < nlaType m nla → nlaType m nla ≤ maxtype →
        PolicyOk m (nlaData nla) (nlaLen m nla).toNat (policy (nlaType m nla).toNat)) := by
  have payload : nlaLen m nla = ((nlaLen m nla).toNat : Int) := by
    unfold nlaLen
    rw [nlaHdrlen_eq]
    omega
  unfold validateNla
  by_cases range : nlaType m nla ≤ 0 ∨ nlaType m nla > maxtype
  · rw [if_pos range]
    simp only [true_iff]
    intro pos le
    omega
  rw [if_neg range]
  simp only [show 0 < nlaType m nla by omega, show nlaType m nla ≤ maxtype by omega, true_implies]
  -- from here on only the policy of the type and the payload matter
  generalize policy (nlaType m nla).toNat = pt
  generalize (nlaLen m nla).toNat = n at payload ⊢
  rw [payload]
  cases kind : pt.type with
  | flag =>
    simp only [PolicyOk, kind]
    split
    · simp only [reduceCtorEq, false_iff]
      omega
    · simp only [true_iff]
      omega
  | nulString =>
    simp only [PolicyOk, kind]
    -- `minlen`, and the bytes `memchr` looks at, are the same in `int` and in `Nat`
    have minlen : (if pt.len ≠ 0 then min (n : Int) (pt.len.toNat + 1) else n) =
        ((if pt.len ≠ 0 then min n (pt.len.toNat + 1) else n : Nat) : Int) := by
      split <;> omega
    have within : (if pt.len ≠ 0 then min n (pt.len.toNat + 1) else n) ≤ n := by
      split <;> omega
    rw [minlen, Int.toNat_natCast]
    generalize (if pt.len ≠ 0 then min n (pt.len.toNat + 1) else n) = k at within ⊢
    by_cases nul : ∃ i < k, m (nlaData nla + i) = 0
    · have ⟨i, lt, _⟩ := nul
      have found := (memchrNul_iff m (nlaData nla) k).mpr nul
      rw [if_neg (by simp only [found, Bool.not_true, Bool.false_eq_true, or_false]; omega),
        validateNlaString_ok_iff]
      simp only [nul, true_and, and_iff_right_iff_imp]
      intro _
      omega
    · have missing : memchrNul m (nlaData nla) k = false := by
        rw [← Bool.not_eq_true, memchrNul_iff]
        exact nul
      rw [if_pos (by simp [missing])]
      simp [nul]
  | string =>
    simp only [PolicyOk, kind]
    exact validateNlaString_ok_iff m nla pt n
  | binary =>
    simp only [PolicyOk, kind]
    split <;> simp_all
  | nestedCompat =>
    simp only [PolicyOk, kind]
    unfold nlaLen
    rw [nlaHdrlen_eq]
    split_ifs <;> simp_all <;> omega
  | nested =>
    simp only [PolicyOk, kind]
    by_cases empty : n = 0
    · simp [empty]
    · rw [if_neg (by omega), validateNlaDefault_ok_iff]
      simp [empty]
  | unspec | u8 | u16 | u32 | u64 | msecs =>
    simp only [PolicyOk, kind]
    exact validateNlaDefault_ok_iff pt n

/-! ### Parsing -/

/-- The last attribute of type `t` among `attrs`. -/
def lastOfType (m : Nat → UInt8) (attrs : List Nat) (t : Nat) : Option Nat :=
  (attrs.filter fun a => nlaType m a = t).getLast?

theorem nlaType_nonneg (m : Nat → UInt8) (nla : Nat) : 0 ≤ nlaType m nla := by
  unfold nlaType
  omega

/-- One round of `nla_parse` that goes on: an attribute of a type in range passed its policy and
is filed under its type; any other leaves `tb` as it was. -/
theorem nlaParseAttr_ok {m : Nat → UInt8} {maxtype : Int} {policy : Option (Nat → NlaPolicy)}
    {nla : Nat} {tb tb' : Nat → Option Nat} (h : nlaParseAttr m maxtype policy nla tb = .ok tb') :
    (0 < nlaType m nla ∧ nlaType m nla ≤ maxtype →
      (∀ p, policy = some p → validateNla m nla maxtype p = .ok ()) ∧
        tb' = Function.update tb (nlaType m nla).toNat (some nla)) ∧
      (¬(0 < nlaType m nla ∧ nlaType m nla ≤ maxtype) → tb' = tb) := by
  unfold nlaParseAttr at h
  dsimp only at h
  by_cases range : 0 < nlaType m nla ∧ nlaType m nla ≤ maxtype
  · rw [if_pos range] at h
    refine ⟨fun _ => ?_, fun out => absurd range out⟩
    cases policy with
    | none => exact ⟨fun p given => (by cases given), (Except.ok.inj h).symm⟩
    | some p =>
      dsimp only at h
      cases valid : validateNla m nla maxtype p with
      | error e =>
        rw [valid] at h
        cases h
      | ok u =>
        rw [valid] at h
        exact ⟨fun p' same => by cases same; exact valid, (Except.ok.inj h).symm⟩
  · rw [if_neg range] at h
    exact ⟨fun inRange => absurd inRange range, fun _ => (Except.ok.inj h).symm⟩

/-- `nla_parse` run to the end over the attributes of the walk: each attribute of a type in
range passed its policy, and `tb[t]` holds the last one of type `t`, or what it held before. -/
theorem nlaParse_fold {m : Nat → UInt8} {maxtype : Int} {policy : Option (Nat → NlaPolicy)}
    {attrs : List Nat} {tb₀ tb : Nat → Option Nat}
    (h : foldUntilError (nlaParseAttr m maxtype policy) attrs tb₀ = (tb, none)) :
    (∀ a ∈ attrs, 0 < nlaType m a → nlaType m a ≤ maxtype →
      ∀ p, policy = some p → validateNla m a maxtype p = .ok ()) ∧
      ∀ t : Nat, 0 < t → (t : Int) ≤ maxtype → tb t = (lastOfType m attrs t).or (tb₀ t) := by
  induction attrs generalizing tb₀ with
  | nil =>
    obtain ⟨rfl, -⟩ := Prod.mk.inj h
    exact ⟨by simp, fun t _ _ => rfl⟩
  | cons a rest ih =>
    unfold foldUntilError at h
    cases round : nlaParseAttr m maxtype policy a tb₀ with
    | error e =>
      rw [round] at h
      cases (Prod.mk.inj h).2
    | ok tb₁ =>
      rw [round] at h
      obtain ⟨filed, skipped⟩ := nlaParseAttr_ok round
      obtain ⟨valid, table⟩ := ih h
      refine ⟨fun b mem pos le => ?_, fun t pos le => ?_⟩
      · rcases List.mem_cons.mp mem with rfl | later
        · exact (filed ⟨pos, le⟩).1
        · exact valid b later pos le
      · rw [table t pos le]
        have nonneg := nlaType_nonneg m a
        by_cases same : nlaType m a = t
        · -- `a` is filed under `t`, unless a later attribute of type `t` comes after it
          have slot : tb₁ t = some a := by
            rw [(filed ⟨by omega, by omega⟩).2, show (nlaType m a).toNat = t by omega,
              Function.update_self]
          simp only [lastOfType, List.filter_cons, same, decide_true, if_true, List.getLast?_cons,
            slot]
          cases (rest.filter fun b => nlaType m b = t).getLast? <;> rfl
        · have kept : tb₁ t = tb₀ t := by
            by_cases range : 0 < nlaType m a ∧ nlaType m a ≤ maxtype
            · rw [(filed range).2, Function.update_of_ne (by omega)]
            · rw [skipped range]
          simp only [lastOfType, List.filter_cons, same, decide_false, Bool.false_eq_true, if_false,
            kept]

/-- `nla_for_each_attr` over any stream of `len` bytes ends, and visits in order attributes that
lie whole in the stream, apart from each other. When `nla_parse` returns 0, every `tb[t]` for a
type from 1 to `maxtype` is the last attribute of type `t` the walk visited, and its payload
meets the policy of `t`. -/
theorem nlaParse_last_attr_meets_policy (m : Nat → UInt8) (maxtype : Int) (head : Nat) (len : Int)
    (policy : Nat → NlaPolicy) :
    ∃ attrs, nlaAttrs m (len.toNat + 1) head len = some attrs ∧
      attrs.Pairwise (fun a b => a + (nlattrAt m a).nlaLen.toNat ≤ b) ∧
      (∀ a ∈ attrs, head ≤ a ∧ 4 ≤ (nlattrAt m a).nlaLen.toNat ∧
        (a : Int) + (nlattrAt m a).nlaLen.toNat ≤ head + len) ∧
      ∃ tb res, nlaParse m maxtype head len (some policy) = some (tb, res) ∧
        (res = .ok () → ∀ t : Nat, 0 < t → (t : Int) ≤ maxtype →
          tb t = lastOfType m attrs t ∧
            ∀ a, tb t = some a → PolicyOk m (nlaData a) (nlaLen m a).toNat (policy t)) := by
  obtain ⟨attrs, walk, apart, inside⟩ := @nlaAttrs_spec m (len.toNat + 1) head len (by omega)
  refine ⟨attrs, walk, apart, inside, ?_⟩
  unfold nlaParse
  rw [nlaForEachAttr_eq_fold m _ walk]
  -- the loop is the fold of its body over the walk
  generalize fold : foldUntilError (nlaParseAttr m maxtype (some policy)) attrs (fun _ => none) = r
  obtain ⟨tb, err⟩ := r
  cases err with
  | some e => exact ⟨tb, .error e, rfl, fun h => by cases h⟩
  | none =>
    refine ⟨tb, .ok (), rfl, fun _ t pos le => ?_⟩
    obtain ⟨valid, table⟩ := nlaParse_fold fold
    have last : tb t = lastOfType m attrs t := by
      rw [table t pos le]
      cases lastOfType m attrs t <;> rfl
    refine ⟨last, fun a filed => ?_⟩
    -- the attribute filed under `t` is one of the walk's, of type `t`, and passed its policy
    rw [last, lastOfType] at filed
    have mem := List.mem_of_getLast? filed
    obtain ⟨visited, typed⟩ := List.mem_filter.mp mem
    have typed : nlaType m a = t := of_decide_eq_true typed
    have := (validateNla_ok_iff m a maxtype policy (inside a visited).2.1).mp
      (valid a visited (by omega) (by omega) policy rfl) (by omega) (by omega)
    rwa [typed, Int.toNat_natCast] at this

/-- An empty nested attribute, and a nested-compat attribute of a 4-byte structure whose inner
header says `nla_len` 0: `nla_parse` returns 0 on each and files it in `tb[1]`, though the first
payload is shorter than `NLA_HDRLEN` and the second inner header is shorter than a header. -/
theorem nlaParse_accepts_short_nested :
    (nlaParse (fun i => [4, 0, 1, 0].getD i 0) 1 0 4 (some fun _ => ⟨.nested, 0⟩)).map
        (fun r => (r.1 1, r.2)) = some (some 0, .ok ()) ∧
      nlaLen (fun i => [4, 0, 1, 0].getD i 0) 0 = 0 ∧
      (nlaParse (fun i => [12, 0, 1, 0, 0, 0, 0, 0, 0, 0, 0, 0].getD i 0) 1 0 12
          (some fun _ => ⟨.nestedCompat, 4⟩)).map (fun r => (r.1 1, r.2)) = some (some 0, .ok ()) ∧
      (nlattrAt (fun i => [12, 0, 1, 0, 0, 0, 0, 0, 0, 0, 0, 0].getD i 0) 8).nlaLen = 0 := by
  decide

end LinuxKernel
