import Mathlib
import LinuxKernel.Creds.Types
import LinuxKernel.Foundation.RangeChain

/-!
# IPv4 fragment queues

`net/ipv4/ip_fragment.c`: `ip_frag_queue` files a fragment into its `ipq` and `ip_frag_reasm`
glues a complete queue together. A queued sk_buff is its identity, offset, length and header
fields; what the code leaves to its surroundings is a `FragEnv`. Arithmetic is `Int`.
-/

namespace LinuxKernel.IpFragment

def ipMf : UInt16 := 0x2000
def ipOffset : UInt16 := 0x1FFF

def inetFragComplete : UInt8 := 4
def inetFragFirstIn : UInt8 := 2
def inetFragLastIn : UInt8 := 1

/-- A queued sk_buff. -/
structure Frag where
  id : Nat
  /-- `FRAG_CB(skb)->offset` -/
  offset : Int
  /-- `skb->len`, the IP header pulled -/
  len : Int
  ihl : Nat
  tos : UInt8
  deriving DecidableEq, Repr

/-- The bytes of the datagram a fragment holds, as a range. -/
def Frag.range (f : Frag) : Int × Int := (f.offset, f.len)

@[simp] theorem Frag.range_fst (f : Frag) : f.range.1 = f.offset := rfl

@[simp] theorem Frag.range_snd (f : Frag) : f.range.2 = f.len := rfl

/-- `struct ipq` with the fields of its `inet_frag_queue` that the queue code reads. -/
structure Ipq where
  lastIn : UInt8
  len : Int
  meat : Int
  fragments : List Frag
  /-- `q.fragments_tail`, as the identity of the sk_buff it points to -/
  fragmentsTail : Option Nat
  ecn : UInt8
  deriving DecidableEq, Repr

/-- The queue `inet_frag_alloc` hands out: zeroed. -/
def Ipq.fresh : Ipq := ⟨0, 0, 0, [], none, 0⟩

/-- The arriving sk_buff. -/
structure Skb where
  id : Nat
  /-- `ntohs(ip_hdr(skb)->frag_off)` -/
  fragOff : UInt16
  /-- `skb->len`, the IP header included -/
  len : Nat
  ihl : Nat
  tos : UInt8
  /-- `IPCB(skb)->flags & IPSKB_FRAG_COMPLETE` -/
  fragCompleteFlag : Bool
  deriving DecidableEq, Repr

structure FragEnv where
  /-- the peer's `rid` moved more than `sysctl_ipfrag_max_dist` since this queue's -/
  peerFar : Bool
  /-- `mod_timer` in `ip_frag_reinit` found the timer pending -/
  timerPending : Bool
  /-- `pskb_pull(skb, ihl)`, once `ihl` is at most `skb->len` -/
  pullHeader : Bool
  trim : Bool
  /-- `pskb_pull(skb, i)` for the overlap with the preceding fragment -/
  pullFront : Bool
  /-- `pskb_pull(next, i)` for the head eaten off the following fragment -/
  pullNext : Bool
  /-- `skb_clone` in `ip_frag_reasm` -/
  clone : Bool
  /-- `pskb_expand_head` and `alloc_skb` in `ip_frag_reasm` -/
  glue : Bool
  deriving DecidableEq, Repr

/-- The header of the datagram `ip_frag_reasm` builds. -/
structure Datagram where
  ihl : Nat
  totLen : UInt16
  /-- `head->len`: the header and every fragment glued to it -/
  len : Int
  tos : UInt8
  deriving DecidableEq, Repr

/-- How a call of `ip_frag_queue` ends. -/
inductive Exit where
  /-- `goto err`: the fragment is freed and `-e` returned -/
  | err (e : Errno)
  /-- queued, `-EINPROGRESS` -/
  | queued
  /-- `return ip_frag_reasm(qp, prev, dev)` -/
  | reasm (r : Except Errno Datagram)
  deriving DecidableEq, Repr

def ip4FragEcn (tos : UInt8) : UInt8 := 1 <<< (tos &&& 3)

/-- `ip4_frag_ecn_table`, indexed by the OR of the fragments' `ip4_frag_ecn`. -/
def ip4FragEcnTable : List UInt8 :=
  [0, 0, 0, 0xff, 0, 0xff, 0, 0xff, 0, 0xff, 3, 0xff, 3, 0xff, 3, 0xff]

/-- `ip_frag_too_far`: only a queue that holds fragments is too far behind. -/
def ipFragTooFar (qp : Ipq) (peerFar : Bool) : Bool := !qp.fragments.isEmpty && peerFar

def ipFragReinit (qp : Ipq) (timerPending : Bool) : Except Errno Ipq :=
  if !timerPending then .error .timedOut
  else .ok { qp with lastIn := 0, len := 0, meat := 0, fragments := [], fragmentsTail := none,
                     ecn := 0 }

/-- `ipq_kill`, through `inet_frag_kill`. -/
def ipqKill (qp : Ipq) : Ipq := { qp with lastIn := qp.lastIn ||| inetFragComplete }

/-- "Is this the final fragment?": the queue with its new `last_in` and `len`, and the
fragment's end, or `none` for a fragment that contradicts the queue. An MF fragment's end
is rounded down to 8 bytes (`end &= ~7`). -/
def ipFragEnd (qp : Ipq) (flags : UInt16) (end_ : Int) : Option (Ipq × Int) :=
  if flags &&& ipMf = 0 then
    if end_ < qp.len ∨ (qp.lastIn &&& inetFragLastIn ≠ 0 ∧ end_ ≠ qp.len) then none
    else some ({ qp with lastIn := qp.lastIn ||| inetFragLastIn, len := end_ }, end_)
  else
    let end_ := if end_ % 8 ≠ 0 then end_ - end_ % 8 else end_
    if end_ > qp.len then
      if qp.lastIn &&& inetFragLastIn ≠ 0 then none
      else some ({ qp with len := end_ }, end_)
    else some (qp, end_)

/-- The search for `prev` and `next`: the chain up to `prev`, and the chain from `next` on.
Past a `fragments_tail` before the new offset the fragment goes last; else the chain is
walked to the first fragment at or after it. `none` where `fragments_tail` names no queued
sk_buff. -/
def ipFragFind (qp : Ipq) (offset : Int) : Option (List Frag × List Frag) :=
  match qp.fragmentsTail with
  | none => some ([], [])
  | some t =>
    match qp.fragments.find? (·.id = t) with
    | none => none
    | some tail =>
      if tail.offset < offset then some (qp.fragments.takeWhile (·.id ≠ t) ++ [tail], [])
      else some (qp.fragments.takeWhile (·.offset < offset),
        qp.fragments.dropWhile (·.offset < offset))

/-- `if (prev)`: what overlaps the preceding fragment is cut off the front of the new one. -/
def ipFragTrimFront (prev : Option Frag) (offset end_ : Int) (pullFront : Bool) :
    Except Errno Int :=
  match prev with
  | none => .ok offset
  | some prev =>
    let i := prev.offset + prev.len - offset
    if i > 0 then
      if end_ ≤ offset + i then .error .inval
      else if !pullFront then .error .noMem
      else .ok (offset + i)
    else .ok offset

/-- The `while (next && FRAG_CB(next)->offset < end)` loop: a following fragment the new one
covers is freed, one it overlaps loses its head and ends the loop. The chain from `next` on,
the meat, and `false` where `pskb_pull` fails (`goto err`, after the frees). -/
def ipFragEatNext (end_ : Int) (pullNext : Bool) : List Frag → Int → List Frag × Int × Bool
  | [], meat => ([], meat, true)
  | next :: rest, meat =>
    if next.offset < end_ then
      let i := end_ - next.offset
      if i < next.len then
        if pullNext then
          ({ next with offset := next.offset + i, len := next.len - i } :: rest, meat - i, true)
        else (next :: rest, meat, false)
      else ipFragEatNext end_ pullNext rest (meat - next.len)
    else (next :: rest, meat, true)

/-- "Insert this fragment in the chain of fragments." -/
def ipFragInsert (qp : Ipq) (before : List Frag) (frag : Frag) (after : List Frag)
    (ecn : UInt8) : Ipq :=
  { qp with
    fragments := before ++ frag :: after
    fragmentsTail := if after = [] then some frag.id else qp.fragmentsTail
    meat := qp.meat + frag.len
    ecn := qp.ecn ||| ecn
    lastIn := if frag.offset = 0 then qp.lastIn ||| inetFragFirstIn else qp.lastIn }

/-- `ip_frag_reasm`. With a `prev`, `skb_morph` moves the first fragment into the sk_buff just
received and a clone of that one takes its place: the chain's ranges stay as they are. The
datagram is the first fragment's header followed by every fragment. `none` for the
`WARN_ON(head == NULL)` that goes on to read the header of `NULL`. -/
def ipFragReasm (qp : Ipq) (prev : Option Frag) (env : FragEnv) :
    Option (Ipq × Except Errno Datagram) :=
  let qp := ipqKill qp
  let ecn := ip4FragEcnTable.getD qp.ecn.toNat 0
  if ecn = 0xff then some (qp, .error .inval)
  else if prev.isSome && !env.clone then some (qp, .error .noMem)
  else
    match qp.fragments with
    | [] => none
    | head :: _ =>
      let len : Int := head.ihl + qp.len
      if len > 65535 then some (qp, .error .tooBig)
      else if !env.glue then some (qp, .error .noMem)
      else some ({ qp with fragments := [], fragmentsTail := none },
        .ok ⟨head.ihl, len.toNat.toUInt16, head.ihl + (qp.fragments.map (·.len)).sum,
          head.tos ||| ecn⟩)

/-- `ip_frag_queue` once the queue is known to be live and near enough: the fragment's
position, the checks on it, where it goes, its overlaps, and the completion test. -/
def ipFragQueueAt (qp : Ipq) (skb : Skb) (env : FragEnv) : Option (Ipq × Exit) :=
  let ecn := ip4FragEcn skb.tos
  let flags := skb.fragOff &&& ~~~ipOffset
  let offset : Int := ((skb.fragOff &&& ipOffset).toNat <<< 3 : Nat)
  match ipFragEnd qp flags (offset + skb.len - skb.ihl) with
  | none => some (qp, .err .inval)
  | some (qp, end_) =>
    if end_ = offset then some (qp, .err .inval)
    else if skb.len < skb.ihl ∨ env.pullHeader = false ∨ env.trim = false then
      some (qp, .err .noMem)
    else
      match ipFragFind qp offset with
      | none => none
      | some (before, after) =>
        match ipFragTrimFront before.getLast? offset end_ env.pullFront with
        | .error e => some (qp, .err e)
        | .ok offset =>
          let eaten := ipFragEatNext end_ env.pullNext after qp.meat
          if !eaten.2.2 then
            some ({ qp with fragments := before ++ eaten.1, meat := eaten.2.1 }, .err .noMem)
          else
            let qp := ipFragInsert { qp with meat := eaten.2.1 } before
              ⟨skb.id, offset, end_ - offset, skb.ihl, skb.tos⟩ eaten.1 ecn
            if qp.lastIn = inetFragFirstIn ||| inetFragLastIn ∧ qp.meat = qp.len then
              (ipFragReasm qp before.getLast? env).map fun r => (r.1, .reasm r.2)
            else some (qp, .queued)

def ipFragQueue (qp : Ipq) (skb : Skb) (env : FragEnv) : Option (Ipq × Exit) :=
  if qp.lastIn &&& inetFragComplete ≠ 0 then some (qp, .err .noEnt)
  else if !skb.fragCompleteFlag && ipFragTooFar qp env.peerFar then
    match ipFragReinit qp env.timerPending with
    | .error e => some (ipqKill qp, .err e)
    | .ok qp => ipFragQueueAt qp skb env
  else ipFragQueueAt qp skb env

/-- The queue after a sequence of fragments, each passed to `ip_frag_queue` with what its
surroundings decide at that call; `none` if a call reads a freed sk_buff. -/
def fragRun (qp : Ipq) : List (Skb × FragEnv) → Option Ipq
  | [] => some qp
  | (skb, env) :: rest => (ipFragQueue qp skb env).bind fun r => fragRun r.1 rest

end LinuxKernel.IpFragment
