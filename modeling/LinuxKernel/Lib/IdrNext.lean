import LinuxKernel.Lib.IdrTree

/-!
# Walking an idr

`idr_for_each` and `idr_get_next` descend along the digits of `id`, skip a missing subtree by
its span `1 << n` and climb while `n < fls(id)`. The outer loop runs on fuel; each round moves
`id` up.
-/

namespace LinuxKernel

variable {α : Type}

/-- `fls(x)`: the position of the highest set bit, counting from 1; `0` for `0`. -/
def fls (x : Nat) : Nat := if x = 0 then 0 else x.log2 + 1

/-- `while (n > 0 && p)` of the walkers, from `k` layers above the leaves: the layer is pushed on
`pa[]` and `p` moves to its slot of `id`. -/
def idrWalkDown (id : Nat) : Nat → IdrSlot α → List (IdrLayer α) → Nat × IdrSlot α × List (IdrLayer α)
  | k + 1, .layer p, pa => idrWalkDown id k (p.ary (idrDigit id k)) (p :: pa)
  | k, p, pa => (k, p, pa)

/-- `while (n < fls(id)) { n += IDR_BITS; p = *--paa; }`. Climbing past the top reads below
`pa[]`; the walk then ends, since `id` has reached `max`, and that value is never used. -/
def idrWalkUp (id : Nat) : Nat → Nat → IdrSlot α → List (IdrLayer α) → Nat × IdrSlot α × List (IdrLayer α)
  | 0, k, p, pa => (k, p, pa)
  | fuel + 1, k, p, pa =>
    if idrBits * k < fls id then
      match pa with
      | q :: pa => idrWalkUp id fuel (k + 1) (.layer q) pa
      | [] => idrWalkUp id fuel (k + 1) .null []
    else (k, p, pa)

/-- `id += 1 << n` past the slot the walk stopped at, and the climb after it. -/
def idrWalkNext (id k : Nat) (p : IdrSlot α) (pa : List (IdrLayer α)) :
    Nat × Nat × IdrSlot α × List (IdrLayer α) :=
  let id := id + (1 <<< (idrBits * k))
  match idrWalkUp id (maxLevel + 1) k p pa with
  | (k, p, pa) => (id, k, p, pa)

/-- The `while (id < max)` loop of `idr_for_each`: the ids and slots `fn` is called with, in
order, and the error the walk ends with. -/
def idrForEachLoop (fn : Nat → IdrSlot α → Int) (max : Nat) : Nat → Nat → Nat → IdrSlot α →
    List (IdrLayer α) → List (Nat × IdrSlot α) × Int
  | 0, _, _, _, _ => ([], 0)
  | fuel + 1, id, k, p, pa =>
    if id < max then
      match idrWalkDown id k p pa with
      | (k, p, pa) =>
        let error := if p.isNull then 0 else fn id p
        let calls := if p.isNull then [] else [(id, p)]
        if error ≠ 0 then (calls, error)
        else
          match idrWalkNext id k p pa with
          | (id, k, p, pa) =>
            match idrForEachLoop fn max fuel id k p pa with
            | (rest, error) => (calls ++ rest, error)
    else ([], 0)

/-- `idr_for_each(idp, fn, data)`: the calls of `fn` and the error it returns. -/
def idrForEach (idp : Idr α) (fn : Nat → IdrSlot α → Int) : List (Nat × IdrSlot α) × Int :=
  let k := idp.layers
  let max := 1 <<< (idrBits * k)
  idrForEachLoop fn max max 0 k (match idp.top with | some p => .layer p | none => .null) []

/-- The `while (id < max)` loop of `idr_get_next`: the first slot the walk finds that is not
`NULL`, with its id. -/
def idrGetNextLoop (max : Nat) : Nat → Nat → Nat → IdrSlot α → List (IdrLayer α) →
    Option (IdrSlot α × Nat)
  | 0, _, _, _, _ => none
  | fuel + 1, id, k, p, pa =>
    if id < max then
      match idrWalkDown id k p pa with
      | (k, .null, pa) =>
        match idrWalkNext id k .null pa with
        | (id, k, p, pa) => idrGetNextLoop max fuel id k p pa
      | (_, p, _) => some (p, id)
    else none

/-- `idr_get_next(idp, nextidp)` from `*nextidp = id`: the slot it returns and the id it stores,
or `none` for `NULL`. -/
def idrGetNext (idp : Idr α) (id : Nat) : Option (IdrSlot α × Nat) :=
  match idp.top with
  | none => none
  | some p =>
    let k := p.layer + 1
    let max := 1 <<< (idrBits * k)
    idrGetNextLoop max max id k (.layer p) []

/-- A fresh idr given only id 64, by `idr_get_new_above(idp, ptr, 64, &id)`, has two layers and
no leaf for the ids below 64. `idr_for_each` calls `fn` on id 64 alone and `idr_get_next` from
0 finds it; but from 5 the walk finds slot 0 of the top empty, moves `id` on by the 64 ids of
that subtree to 69, past 64, and finds nothing more below `max`: it returns `NULL`. -/
theorem idrGetNext_skips_past_unaligned_start :
    let idp : Option (Idr Nat) :=
      (idrGetNewAbove 20 (idrPreGet (idrInit : Idr Nat) idrFreeMax).1 (some 7) 64).map (·.1)
    idp.map (fun idp => idrFind idp 64) = some (some (some 7)) ∧
      idp.map (fun idp => (idrForEach idp fun _ _ => 0).1.map fun c => (c.1, c.2.ptr)) =
        some [(64, some 7)] ∧
      idp.map (fun idp => (idrGetNext idp 0).map fun r => (r.1.ptr, r.2)) = some (some (some 7, 64)) ∧
      idp.map (fun idp => (idrGetNext idp 5).isNone) = some true := by
  decide +kernel

end LinuxKernel
