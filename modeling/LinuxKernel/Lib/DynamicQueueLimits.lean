import LinuxKernel.Lib.Div64

/-!
# Dynamic queue limits (`lib/dynamic_queue_limits.c`)

A `struct dql` counts queued and completed bytes in wrapping 32-bit counters and keeps a limit
on what may be in flight. The driver queues while `adj_limit - num_queued` is not negative, so
`adj_limit` must be `limit + num_completed`: from `adj_limit = 0` runs stay bounded
(`dqlRun_bounded`), a stale one does not (`dqlInit_stale_adjLimit`).
-/

namespace LinuxKernel.DynamicQueueLimits

structure Dql where
  numQueued : UInt32
  adjLimit : UInt32
  lastObjCnt : UInt32
  limit : UInt32
  numCompleted : UInt32
  prevOvlimit : UInt32
  prevNumQueued : UInt32
  prevLastObjCnt : UInt32
  lowestSlack : UInt32
  slackStartTime : UInt64
  maxLimit : UInt32
  minLimit : UInt32
  slackHoldTime : UInt32
  deriving DecidableEq, Repr

def uintMax : UInt32 := 0xffffffff

def dqlMaxObject : UInt32 := uintMax / 16

def dqlMaxLimit : UInt32 := uintMax / 2 - dqlMaxObject

/-- `POSDIFF(A, B)`: `A - B` when it is positive as an `int`, else 0. -/
def posdiff (a b : UInt32) : UInt32 := if (a - b).toInt32 > 0 then a - b else 0

def afterEq (a b : UInt32) : Bool := (a - b).toInt32 ≥ 0

/-- `time_after(a, b)`: `(long)(b) - (long)(a) < 0`, the subtraction wrapping as the kernel builds
it (`-fno-strict-overflow`). -/
def timeAfter (a b : UInt64) : Bool := b.toInt64 - a.toInt64 < 0

def clamp (val lo hi : UInt32) : UInt32 :=
  let val := if val < lo then lo else val
  if val > hi then hi else val

/-- `dql_queued(dql, count)`; `none` is the `BUG_ON`. -/
def dqlQueued (dql : Dql) (count : UInt32) : Option Dql :=
  if count > dqlMaxObject then none
  else some { dql with numQueued := dql.numQueued + count, lastObjCnt := count }

def dqlAvail (dql : Dql) : Int32 := (dql.adjLimit - dql.numQueued).toInt32

/-- The limit `dql_completed` computes before the clamp, with the `slack_start_time` and
`lowest_slack` it leaves. -/
def limitUpdate (dql : Dql) (numQueued completed ovlimit : UInt32) (jiffies : UInt64) :
    UInt32 × UInt64 × UInt32 :=
  let limit := dql.limit
  let inprogress := numQueued - completed
  let prevInprogress := dql.prevNumQueued - dql.numCompleted
  let allPrevCompleted := afterEq completed dql.prevNumQueued
  if (ovlimit ≠ 0 ∧ inprogress = 0) ∨ (dql.prevOvlimit ≠ 0 ∧ allPrevCompleted) then
    -- starved: the limit grows by what was sent and completed, and the previous overlimit
    (limit + (posdiff completed dql.prevNumQueued + dql.prevOvlimit), jiffies, uintMax)
  else if inprogress ≠ 0 ∧ prevInprogress ≠ 0 ∧ !allPrevCompleted then
    let slack := posdiff (limit + dql.prevOvlimit) (2 * (completed - dql.numCompleted))
    let slackLastObjs := if dql.prevOvlimit ≠ 0 then posdiff dql.prevLastObjCnt dql.prevOvlimit else 0
    let slack := max slack slackLastObjs
    let lowestSlack := if slack < dql.lowestSlack then slack else dql.lowestSlack
    if timeAfter jiffies (dql.slackStartTime + dql.slackHoldTime.toUInt64) then
      (posdiff limit lowestSlack, jiffies, uintMax)
    else (limit, dql.slackStartTime, lowestSlack)
  else (limit, dql.slackStartTime, dql.lowestSlack)

/-- `dql_completed(dql, count)` at the time `jiffies`; `none` is the `BUG_ON`. Storing the
clamped limit only when it differs from `dql->limit` stores it in every case. -/
def dqlCompleted (dql : Dql) (count : UInt32) (jiffies : UInt64) : Option Dql :=
  let numQueued := dql.numQueued
  if count > numQueued - dql.numCompleted then none
  else
    let completed := dql.numCompleted + count
    let ovlimit := posdiff (numQueued - dql.numCompleted) dql.limit
    let update := limitUpdate dql numQueued completed ovlimit jiffies
    let limit := clamp update.1 dql.minLimit dql.maxLimit
    let ovlimit := if limit ≠ dql.limit then 0 else ovlimit
    some { dql with
      limit := limit
      adjLimit := limit + completed
      prevOvlimit := ovlimit
      prevLastObjCnt := dql.lastObjCnt
      numCompleted := completed
      prevNumQueued := numQueued
      slackStartTime := update.2.1
      lowestSlack := update.2.2 }

/-- `dql_reset(dql)` at the time `jiffies`. -/
def dqlReset (dql : Dql) (jiffies : UInt64) : Dql :=
  { dql with
    limit := 0
    numQueued := 0
    numCompleted := 0
    lastObjCnt := 0
    prevNumQueued := 0
    prevLastObjCnt := 0
    prevOvlimit := 0
    lowestSlack := uintMax
    slackStartTime := jiffies }

/-- `dql_init(dql, hold_time)` at the time `jiffies`; it returns 0. -/
def dqlInit (dql : Dql) (holdTime : UInt32) (jiffies : UInt64) : Dql :=
  dqlReset { dql with maxLimit := dqlMaxLimit, minLimit := 0, slackHoldTime := holdTime } jiffies

/-! ### Runs of calls -/

/-- The calls a driver makes on a queue. -/
inductive Op
  | queued (count : UInt32)
  | completed (count : UInt32) (jiffies : UInt64)
  deriving DecidableEq, Repr

def dqlStep (dql : Dql) : Op → Option Dql
  | .queued count => dqlQueued dql count
  | .completed count jiffies => dqlCompleted dql count jiffies

/-- The caller's side of the contract: `dql_queued` with at most `DQL_MAX_OBJECT` bytes and only
when `dql_avail` is not negative, `dql_completed` with at most what is in flight. -/
def allowed (dql : Dql) : Op → Bool
  | .queued count => count ≤ dqlMaxObject && 0 ≤ dqlAvail dql
  | .completed count _ => count ≤ dql.numQueued - dql.numCompleted

/-- A run of calls from `dql`; `none` once a call breaks the contract. -/
def dqlRun (dql : Dql) : List Op → Option Dql
  | [] => some dql
  | op :: ops => if allowed dql op then (dqlStep dql op).bind (dqlRun · ops) else none

/-- The bytes in flight, `num_queued - num_completed`. -/
def inFlight (dql : Dql) : UInt32 := dql.numQueued - dql.numCompleted

/-! ### The calls, one at a time -/

theorem dqlQueued_eq_some_iff {dql dql' : Dql} {count : UInt32} :
    dqlQueued dql count = some dql' ↔
      count ≤ dqlMaxObject ∧ dql' = { dql with numQueued := dql.numQueued + count, lastObjCnt := count } := by
  unfold dqlQueued
  by_cases big : count > dqlMaxObject
  · rw [if_pos big]
    simp only [reduceCtorEq, false_iff, not_and]
    intro small
    exact absurd small (UInt32.not_le.mpr big)
  · rw [if_neg big, Option.some.injEq]
    exact ⟨fun eq => ⟨UInt32.not_lt.mp big, eq.symm⟩, fun ⟨_, eq⟩ => eq.symm⟩

/-- `dql_completed` goes through when the count is within what is in flight, and then stores the
clamped limit, `adj_limit` and the counters as below, whichever way the limit update went. -/
theorem dqlCompleted_eq_some_iff {dql dql' : Dql} {count : UInt32} {jiffies : UInt64} :
    dqlCompleted dql count jiffies = some dql' ↔
      count ≤ inFlight dql ∧
        let update := limitUpdate dql dql.numQueued (dql.numCompleted + count)
          (posdiff (inFlight dql) dql.limit) jiffies
        let limit := clamp update.1 dql.minLimit dql.maxLimit
        dql' = { dql with
          limit := limit
          adjLimit := limit + (dql.numCompleted + count)
          prevOvlimit := if limit ≠ dql.limit then 0 else posdiff (inFlight dql) dql.limit
          prevLastObjCnt := dql.lastObjCnt
          numCompleted := dql.numCompleted + count
          prevNumQueued := dql.numQueued
          slackStartTime := update.2.1
          lowestSlack := update.2.2 } := by
  unfold dqlCompleted
  by_cases big : count > dql.numQueued - dql.numCompleted
  · rw [if_pos big]
    simp only [reduceCtorEq, false_iff, not_and]
    intro small
    exact absurd small (UInt32.not_le.mpr big)
  · rw [if_neg big, Option.some.injEq]
    exact ⟨fun eq => ⟨UInt32.not_lt.mp big, eq.symm⟩, fun ⟨_, eq⟩ => eq.symm⟩

theorem clamp_le (val lo hi : UInt32) : clamp val lo hi ≤ hi := by
  unfold clamp
  simp only [UInt32.le_iff_toNat_le, UInt32.lt_iff_toNat_lt, gt_iff_lt]
  split_ifs <;> omega

theorem le_clamp {lo hi : UInt32} (ordered : lo ≤ hi) (val : UInt32) : lo ≤ clamp val lo hi := by
  unfold clamp
  simp only [UInt32.le_iff_toNat_le, UInt32.lt_iff_toNat_lt, gt_iff_lt] at ordered ⊢
  split_ifs <;> omega

theorem dqlCompleted_limits {dql dql' : Dql} {count : UInt32} {jiffies : UInt64}
    (ordered : dql.minLimit ≤ dql.maxLimit) (step : dqlCompleted dql count jiffies = some dql') :
    dql'.minLimit ≤ dql'.limit ∧ dql'.limit ≤ dql'.maxLimit ∧ dql'.adjLimit = dql'.limit + dql'.numCompleted := by
  obtain ⟨-, eq⟩ := dqlCompleted_eq_some_iff.mp step
  subst eq
  exact ⟨le_clamp ordered _, clamp_le _ _ _, rfl⟩

/-! ### Signed views of small differences -/

theorem maxLimit_add_maxObject : dqlMaxLimit.toNat + dqlMaxObject.toNat = 2 ^ 31 - 1 := by decide

theorem uintMax_toNat : uintMax.toNat = 2 ^ 32 - 1 := by decide

theorem toInt_toInt32_sub {c d : UInt32} (hc : c.toNat < 2 ^ 31) (hd : d.toNat < 2 ^ 31) :
    (c - d).toInt32.toInt = (c.toNat : Int) - d.toNat := by
  rw [Div64.toInt_eq_toNat_cond32, show (c - d).toInt32.toUInt32 = c - d from rfl, UInt32.toNat_sub]
  split <;> omega

theorem posdiff_toNat {a b c d : UInt32} (hc : c.toNat < 2 ^ 31) (hd : d.toNat < 2 ^ 31)
    (sub : a - b = c - d) : (posdiff a b).toNat = c.toNat - d.toNat := by
  unfold posdiff
  have signed := toInt_toInt32_sub hc hd
  rw [sub]
  by_cases lt : d.toNat < c.toNat
  · have pos : (c - d).toInt32 > 0 := by
      rw [gt_iff_lt, Int32.lt_iff_toInt_lt, signed, Int32.toInt_zero]
      omega
    rw [if_pos pos, UInt32.toNat_sub_of_le _ _ (UInt32.le_iff_toNat_le.mpr (by omega))]
  · have notPos : ¬(c - d).toInt32 > 0 := by
      rw [gt_iff_lt, Int32.lt_iff_toInt_lt, signed, Int32.toInt_zero]
      omega
    rw [if_neg notPos, UInt32.toNat_zero]
    omega

/-! ### The invariant of a run -/

/-- What every state of a run from a struct with `adj_limit = 0` keeps: the configured limits, a
limit below `max_limit`, `adj_limit = limit + num_completed`, at most `INT_MAX` bytes in flight,
split into those queued before and after the last completion, and a limit and previous
overlimit that add up to at most `INT_MAX`. -/
structure Inv (dql : Dql) : Prop where
  ordered : dql.minLimit ≤ dql.maxLimit
  capped : dql.maxLimit ≤ dqlMaxLimit
  limit_le : dql.limit ≤ dql.maxLimit
  adj : dql.adjLimit = dql.limit + dql.numCompleted
  inFlight_le : (inFlight dql).toNat ≤ 2 ^ 31 - 1
  split : (dql.prevNumQueued - dql.numCompleted).toNat + (dql.numQueued - dql.prevNumQueued).toNat =
    (inFlight dql).toNat
  overlimit : dql.limit.toNat + dql.prevOvlimit.toNat ≤ 2 ^ 31 - 1

theorem Inv.limit_toNat {dql : Dql} (inv : Inv dql) : dql.limit.toNat ≤ dqlMaxLimit.toNat :=
  UInt32.le_iff_toNat_le.mp (UInt32.le_trans inv.limit_le inv.capped)

theorem Inv.avail_nonneg_iff {dql : Dql} (inv : Inv dql) :
    0 ≤ dqlAvail dql ↔ (inFlight dql).toNat ≤ dql.limit.toNat := by
  have limit := inv.limit_toNat
  have bound : dqlMaxLimit.toNat < 2 ^ 31 := by decide
  have rest : dql.adjLimit - dql.numQueued = dql.limit - inFlight dql := by
    rw [inv.adj, inFlight]
    grind
  unfold dqlAvail
  rw [Int32.le_iff_toInt_le, Int32.toInt_zero, rest,
    toInt_toInt32_sub (by omega) (by have := inv.inFlight_le; omega)]
  omega

theorem Inv.queued {dql dql' : Dql} {count : UInt32} (inv : Inv dql)
    (allow : allowed dql (.queued count) = true) (step : dqlQueued dql count = some dql') : Inv dql' := by
  rw [allowed, Bool.and_eq_true, decide_eq_true_eq, decide_eq_true_eq] at allow
  obtain ⟨small, avail⟩ := allow
  have within := inv.avail_nonneg_iff.mp avail
  have limit := inv.limit_toNat
  have total := maxLimit_add_maxObject
  have object := UInt32.le_iff_toNat_le.mp small
  have split := inv.split
  obtain ⟨-, eq⟩ := dqlQueued_eq_some_iff.mp step
  subst eq
  -- the new bytes are added to the in-flight count and to those queued since the completion
  have grown : (inFlight dql + count).toNat = (inFlight dql).toNat + count.toNat := by
    rw [UInt32.toNat_add, Nat.mod_eq_of_lt (by omega)]
  have since : (dql.numQueued - dql.prevNumQueued + count).toNat =
      (dql.numQueued - dql.prevNumQueued).toNat + count.toNat := by
    rw [UInt32.toNat_add, Nat.mod_eq_of_lt (by omega)]
  have flight : dql.numQueued + count - dql.numCompleted = inFlight dql + count := by
    rw [inFlight]
    grind
  have queuedSince : dql.numQueued + count - dql.prevNumQueued = dql.numQueued - dql.prevNumQueued + count := by
    grind
  refine ⟨inv.ordered, inv.capped, inv.limit_le, inv.adj, ?_, ?_, inv.overlimit⟩
  · show (dql.numQueued + count - dql.numCompleted).toNat ≤ 2 ^ 31 - 1
    rw [flight, grown]
    omega
  · show (dql.prevNumQueued - dql.numCompleted).toNat + (dql.numQueued + count - dql.prevNumQueued).toNat =
      (dql.numQueued + count - dql.numCompleted).toNat
    rw [queuedSince, since, flight, grown]
    omega

/-- A completion that keeps to the contract keeps the invariant, whichever way its limit update
went: the clamp keeps the limit below `max_limit`, and the overlimit it stores is the in-flight
count past an unchanged limit. -/
theorem Inv.completed {dql dql' : Dql} {count : UInt32} {jiffies : UInt64} (inv : Inv dql)
    (step : dqlCompleted dql count jiffies = some dql') : Inv dql' := by
  obtain ⟨le, eq⟩ := dqlCompleted_eq_some_iff.mp step
  subst eq
  -- the limit update is left as it is: only the clamp's bound matters
  generalize limitUpdate dql dql.numQueued (dql.numCompleted + count) (posdiff (inFlight dql) dql.limit)
    jiffies = update
  have below := clamp_le update.1 dql.minLimit dql.maxLimit
  generalize clamp update.1 dql.minLimit dql.maxLimit = limit' at below ⊢
  have flight := UInt32.le_iff_toNat_le.mp le
  have limit := inv.limit_toNat
  have bound : dqlMaxLimit.toNat < 2 ^ 31 := by decide
  have inFlightLe := inv.inFlight_le
  have remaining : dql.numQueued - (dql.numCompleted + count) = inFlight dql - count := by
    rw [inFlight]
    grind
  have remainingNat : (inFlight dql - count).toNat = (inFlight dql).toNat - count.toNat :=
    UInt32.toNat_sub_of_le _ _ le
  refine ⟨inv.ordered, inv.capped, below, rfl, ?_, ?_, ?_⟩
  · show (dql.numQueued - (dql.numCompleted + count)).toNat ≤ 2 ^ 31 - 1
    rw [remaining, remainingNat]
    omega
  · show (dql.numQueued - (dql.numCompleted + count)).toNat + (dql.numQueued - dql.numQueued).toNat =
      (dql.numQueued - (dql.numCompleted + count)).toNat
    rw [UInt32.sub_self, UInt32.toNat_zero, Nat.add_zero]
  · show limit'.toNat + (if limit' ≠ dql.limit then 0 else posdiff (inFlight dql) dql.limit).toNat ≤ 2 ^ 31 - 1
    by_cases changed : limit' ≠ dql.limit
    · -- a new limit: the overlimit is dropped
      rw [if_pos changed, UInt32.toNat_zero, Nat.add_zero]
      have := UInt32.le_iff_toNat_le.mp (UInt32.le_trans below inv.capped)
      omega
    · -- the same limit: limit plus the overlimit past it is the larger of the two
      rw [if_neg changed, not_not.mp changed, posdiff_toNat (by omega) (by omega) rfl]
      omega

/-- With the invariant, the three sums a completion forms in `unsigned int` stay within
`UINT_MAX`: the raised limit `limit + POSDIFF(completed, prev_num_queued) + prev_ovlimit`, twice
the completed count, and `limit + prev_ovlimit`; so the clamp sees the true limit. -/
theorem Inv.completion_sums {dql : Dql} {count : UInt32} (inv : Inv dql) (le : count ≤ inFlight dql) :
    dql.limit.toNat + (posdiff (dql.numCompleted + count) dql.prevNumQueued).toNat +
        dql.prevOvlimit.toNat ≤ uintMax.toNat ∧
      2 * count.toNat ≤ uintMax.toNat ∧ dql.limit.toNat + dql.prevOvlimit.toNat ≤ uintMax.toNat := by
  have flight := UInt32.le_iff_toNat_le.mp le
  have inFlightLe := inv.inFlight_le
  have split := inv.split
  have overlimit := inv.overlimit
  -- past the bytes queued before the last completion, what completes now was queued after it
  have since : dql.numCompleted + count - dql.prevNumQueued =
      count - (dql.prevNumQueued - dql.numCompleted) := by
    grind
  have raised := posdiff_toNat (by omega) (by omega) since
  rw [uintMax_toNat, raised]
  omega

theorem inv_dqlRun (ops : List Op) {dql dql' : Dql} (inv : Inv dql)
    (run : dqlRun dql ops = some dql') : Inv dql' := by
  induction ops generalizing dql with
  | nil =>
    rw [dqlRun, Option.some.injEq] at run
    exact run ▸ inv
  | cons op ops ih =>
    rw [dqlRun] at run
    split at run
    · rename_i allow
      obtain ⟨mid, step, rest⟩ := Option.bind_eq_some_iff.mp run
      have next : Inv mid := by
        cases op with
        | queued count => exact inv.queued allow step
        | completed count jiffies => exact inv.completed step
      exact ih next rest
    · cases run

/-- `dql_init` on a struct whose `adj_limit` is 0, with the limits then set to any
`min_limit ≤ max_limit ≤ DQL_MAX_LIMIT`, starts a run with the invariant. -/
theorem inv_dqlInit (dql : Dql) (holdTime : UInt32) (jiffies : UInt64) {minLimit maxLimit : UInt32}
    (zero : dql.adjLimit = 0) (ordered : minLimit ≤ maxLimit) (capped : maxLimit ≤ dqlMaxLimit) :
    Inv { dqlInit dql holdTime jiffies with minLimit, maxLimit } := by
  -- the counters and the limit are 0, and `adj_limit` is the struct's own
  refine ⟨ordered, capped, UInt32.le_iff_toNat_le.mpr (Nat.zero_le _), ?_, ?_, ?_, ?_⟩
  · show dql.adjLimit = 0 + 0
    rw [zero]
    rfl
  · show ((0 : UInt32) - 0).toNat ≤ 2 ^ 31 - 1
    decide
  · show ((0 : UInt32) - 0).toNat + ((0 : UInt32) - 0).toNat = ((0 : UInt32) - 0).toNat
    decide
  · show (0 : UInt32).toNat + (0 : UInt32).toNat ≤ 2 ^ 31 - 1
    decide

/-- From `dql_init` on a struct whose `adj_limit` is 0, with any limits
`min_limit ≤ max_limit ≤ DQL_MAX_LIMIT`, every run of calls that keeps to the contract has at most
`DQL_MAX_LIMIT + DQL_MAX_OBJECT` bytes in flight, and a completion it may call next forms its
sums within `UINT_MAX` and leaves `min_limit ≤ limit ≤ max_limit` and
`adj_limit = limit + num_completed`. -/
theorem dqlRun_bounded (dql : Dql) (holdTime : UInt32) (jiffies : UInt64) {minLimit maxLimit : UInt32}
    (zero : dql.adjLimit = 0) (ordered : minLimit ≤ maxLimit) (capped : maxLimit ≤ dqlMaxLimit)
    {ops : List Op} {dql' : Dql}
    (run : dqlRun { dqlInit dql holdTime jiffies with minLimit, maxLimit } ops = some dql') :
    (inFlight dql').toNat ≤ dqlMaxLimit.toNat + dqlMaxObject.toNat ∧
      ∀ (count : UInt32) (jiffies' : UInt64), count ≤ inFlight dql' →
        (dql'.limit.toNat + (posdiff (dql'.numCompleted + count) dql'.prevNumQueued).toNat +
            dql'.prevOvlimit.toNat ≤ uintMax.toNat ∧
          2 * count.toNat ≤ uintMax.toNat ∧ dql'.limit.toNat + dql'.prevOvlimit.toNat ≤ uintMax.toNat) ∧
        ∃ dql'', dqlCompleted dql' count jiffies' = some dql'' ∧
          dql''.minLimit ≤ dql''.limit ∧ dql''.limit ≤ dql''.maxLimit ∧
          dql''.adjLimit = dql''.limit + dql''.numCompleted := by
  have inv := inv_dqlRun ops (inv_dqlInit dql holdTime jiffies zero ordered capped) run
  refine ⟨?_, fun count jiffies' le => ⟨inv.completion_sums le, ?_⟩⟩
  · rw [maxLimit_add_maxObject]
    exact inv.inFlight_le
  · have step : dqlCompleted dql' count jiffies' = _ := dqlCompleted_eq_some_iff.mpr ⟨le, rfl⟩
    exact ⟨_, step, dqlCompleted_limits inv.ordered step⟩

theorem dqlRun_bounded_one_queued :
    let dql : Dql := ⟨0, 0, 0, 0, 0, 0, 0, 0, 0, 0, 0, 0, 0⟩
    let dql' : Dql := { dqlInit dql 1 0 with minLimit := 0, maxLimit := 100, numQueued := 3, lastObjCnt := 3 }
    dql.adjLimit = 0 ∧ (0 : UInt32) ≤ 100 ∧ (100 : UInt32) ≤ dqlMaxLimit ∧
      dqlRun { dqlInit dql 1 0 with minLimit := 0, maxLimit := 100 } [.queued 3] = some dql' ∧
      (inFlight dql').toNat ≤ dqlMaxLimit.toNat + dqlMaxObject.toNat :=
  have run : dqlRun { dqlInit ⟨0, 0, 0, 0, 0, 0, 0, 0, 0, 0, 0, 0, 0⟩ 1 0 with minLimit := 0, maxLimit := 100 }
      [.queued 3] = some { dqlInit ⟨0, 0, 0, 0, 0, 0, 0, 0, 0, 0, 0, 0, 0⟩ 1 0 with
        minLimit := 0, maxLimit := 100, numQueued := 3, lastObjCnt := 3 } := by decide
  ⟨rfl, by decide, by decide, run, (dqlRun_bounded _ 1 0 rfl (by decide) (by decide) run).1⟩

/-- `dql_init` on a struct left with `adj_limit` at `INT_MAX` and every other field 0: nine objects of `DQL_MAX_OBJECT`
bytes, each queued while `dql_avail` is not negative, put `0x8ffffff7` bytes in flight, past
`DQL_MAX_LIMIT + DQL_MAX_OBJECT`. -/
theorem dqlInit_stale_adjLimit :
    ∃ dql', dqlRun (dqlInit ⟨0, 0x7fffffff, 0, 0, 0, 0, 0, 0, 0, 0, 0, 0, 0⟩ 0 0)
        (List.replicate 9 (.queued dqlMaxObject)) = some dql' ∧
      dqlMaxLimit.toNat + dqlMaxObject.toNat < (inFlight dql').toNat :=
  ⟨_, rfl, by decide⟩

end LinuxKernel.DynamicQueueLimits
