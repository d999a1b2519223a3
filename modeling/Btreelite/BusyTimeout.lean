import Btreelite.Prog
import Mathlib.Algebra.Order.Ring.Int
import Mathlib.Data.Nat.Find

/-!
# The busy timeout

While a lock stays busy, `sqliteDefaultBusyCallback` sleeps for longer and longer intervals, which it takes
from a table and, behind the end of the table, computes from the number of calls. The sums are those of a
signed `int`: one that leaves its range has no defined result.
-/

namespace Btreelite

namespace Busy

open Prog

/-- A signed sum out of range. -/
inductive Undefined
  | overflow
deriving DecidableEq, Repr

/-- The part of `sqlite3` the busy handler uses. `xBusyHandler` says that the default handler is there, and
`slept` holds the microseconds of the calls of `sqlite3OsSleep`, the last one first. -/
structure Db where
  busyTimeout : Int
  xBusyHandler : Bool
  nBusy : Int
  slept : List Int
deriving DecidableEq, Repr

abbrev BusyM := EStateM Undefined Db

def intMax : Int := 2147483647

/-- The result of an operation on two `int`s. -/
def toInt (x : Int) : BusyM Int := if -intMax - 1 ≤ x ∧ x ≤ intMax then return x else throw .overflow

def delays : List Int := [1, 2, 5, 10, 15, 20, 25, 25, 25, 50, 50, 100]

def totals : List Int := [0, 1, 3, 8, 18, 33, 53, 78, 103, 128, 178, 228]

def sqlite3OsSleep (nMicro : Int) : BusyM Unit := modify fun db => { db with slept := nMicro :: db.slept }

/-- The first branch of the callback: the delay of the call, and the sum of those before it. -/
def delayPrior (count : Int) : BusyM (Int × Int) := do
  if count < delays.length then return (delays.getD count.toNat 0, totals.getD count.toNat 0)
  else
    let n ← toInt (count - 11)
    let tail ← toInt (100 * n)
    return (100, ← toInt (228 + tail))

def sqliteDefaultBusyCallback (count : Int) : BusyM Bool := do
  let tmout := (← get).busyTimeout
  let (delay, prior) ← delayPrior count
  if tmout < (← toInt (prior + delay)) then
    let delay ← toInt (tmout - prior)
    if delay ≤ 0 then return false
    else
      sqlite3OsSleep (← toInt (delay * 1000))
      return true
  else
    sqlite3OsSleep (← toInt (delay * 1000))
    return true

def sqlite3InvokeBusyHandler : BusyM Bool := do
  let db ← get
  if db.xBusyHandler = false ∨ db.nBusy < 0 then return false
  else
    let rc ← sqliteDefaultBusyCallback db.nBusy
    if rc = false then modify fun db => { db with nBusy := -1 }
    else
      let n ← toInt (db.nBusy + 1)
      modify fun db => { db with nBusy := n }
    return rc

/-- `sqlite3_busy_timeout`. -/
def sqlite3BusyTimeout (ms : Int) : Db :=
  if 0 < ms then { busyTimeout := ms, xBusyHandler := true, nBusy := 0, slept := [] }
  else { busyTimeout := 0, xBusyHandler := false, nBusy := 0, slept := [] }

/-- The lock is busy `n` times, and each time the handler is asked whether to try again; the last answer. -/
def busyTimes : Nat → BusyM Bool
  | 0 => return true
  | n + 1 => do
    if ← busyTimes n then sqlite3InvokeBusyHandler else return false

/-! ## How long a call sleeps -/

/-- What the calls before call `n` would sleep without a timeout. -/
def priorOf (n : Nat) : Int := if n < 12 then totals.getD n 0 else 228 + 100 * ((n : Int) - 11)

def delayOf (n : Nat) : Int := if n < 12 then delays.getD n 0 else 100

section Delays

variable {n : Nat}

theorem priorOf_succ (n : Nat) : priorOf (n + 1) = priorOf n + delayOf n := by
  rcases Nat.lt_or_ge n 11 with h | h
  · have : ∀ k < 11, priorOf (k + 1) = priorOf k + delayOf k := by decide
    exact this n h
  · rcases Nat.eq_or_lt_of_le h with rfl | h
    · rfl
    · rw [priorOf, priorOf, delayOf, if_neg (by omega), if_neg (by omega), if_neg (by omega)]
      omega

theorem delayOf_bounds (n : Nat) : 1 ≤ delayOf n ∧ delayOf n ≤ 100 := by
  rcases Nat.lt_or_ge n 12 with h | h
  · have : ∀ k < 12, 1 ≤ delayOf k ∧ delayOf k ≤ 100 := by decide
    exact this n h
  · rw [delayOf, if_neg (by omega)]
    omega

theorem le_priorOf (n : Nat) : (n : Int) ≤ priorOf n := by
  induction n with
  | zero => decide
  | succ n ih =>
    have := priorOf_succ n
    have := delayOf_bounds n
    omega

/-- From call 11 on the sums are 28 more than a multiple of 100. -/
theorem priorOf_of_ge (h : 11 ≤ n) : priorOf n = 100 * (n : Int) - 872 := by
  rcases Nat.eq_or_lt_of_le h with rfl | h
  · rfl
  · rw [priorOf, if_neg (by omega)]
    omega

theorem priorOf_mono {m : Nat} (h : m ≤ n) : priorOf m ≤ priorOf n := by
  induction n, h using Nat.le_induction with
  | base => exact le_rfl
  | succ n _ ih =>
    have := priorOf_succ n
    have := delayOf_bounds n
    omega

end Delays

/-! ## The calls of the handler -/

section Calls

variable {n : Nat} {db : Db} {tmout x : Int}

theorem wp_toInt {Q : Int → Db → Prop} {E : Undefined → Db → Prop} (h : -intMax - 1 ≤ x ∧ x ≤ intMax) :
    wp (toInt x) Q E db ↔ Q x db := by
  rw [toInt, if_pos h]
  exact Iff.rfl

theorem wp_toInt_out {Q : Int → Db → Prop} (h : intMax < x) : wp (toInt x) Q (fun _ _ => True) db := by
  rw [toInt, if_neg (by omega)]
  trivial

/-- The delay and the sum before it, as long as the sum is in range. -/
theorem delayPrior_wp {Q : Int × Int → Db → Prop} {E : Undefined → Db → Prop} (h : priorOf n ≤ intMax) :
    wp (delayPrior n) Q E db ↔ Q (delayOf n, priorOf n) db := by
  have hlen : (delays.length : Int) = 12 := rfl
  have hn := le_priorOf n
  rw [intMax] at h
  by_cases hlt : n < 12
  · rw [delayPrior, if_pos (by omega), Int.toNat_natCast, delayOf, priorOf, if_pos hlt, if_pos hlt]
    exact Iff.rfl
  · rw [priorOf, if_neg hlt] at h
    rw [delayPrior, if_neg (by omega), wp_bind, wp_toInt (by unfold intMax; omega), wp_bind,
      wp_toInt (by unfold intMax; omega), wp_bind, wp_toInt (by unfold intMax; omega), delayOf, priorOf, if_neg hlt, if_neg hlt]
    exact Iff.rfl

/-- A call sleeps for its delay or for what is left of the budget, and gives up when nothing is left. -/
theorem sqliteDefaultBusyCallback_wp (hn : priorOf n + delayOf n ≤ intMax) (h0 : 0 < db.busyTimeout)
    (hmax : db.busyTimeout ≤ intMax) :
    wp (sqliteDefaultBusyCallback n) (fun r db' =>
      (priorOf n < db.busyTimeout ∧ r = true
        ∧ db' = { db with slept := 1000 * min (delayOf n) (db.busyTimeout - priorOf n) :: db.slept })
      ∨ (db.busyTimeout ≤ priorOf n ∧ r = false ∧ db' = db)) (fun _ _ => False) db := by
  have hd := delayOf_bounds n
  have hp := le_priorOf n
  have hmul : ∀ d, d ≤ delayOf n → 0 < d → -intMax - 1 ≤ d * 1000 ∧ d * 1000 ≤ intMax := fun d h1 h2 => by
    unfold intMax
    omega
  have hsum : -intMax - 1 ≤ priorOf n + delayOf n ∧ priorOf n + delayOf n ≤ intMax := by
    unfold intMax at *
    omega
  rw [sqliteDefaultBusyCallback, wp_bind, wp_get, wp_bind, delayPrior_wp (by omega)]
  dsimp only
  rw [wp_bind, wp_toInt hsum]
  by_cases hclip : db.busyTimeout < priorOf n + delayOf n
  · rw [if_pos hclip, wp_bind, wp_toInt (by unfold intMax at *; omega)]
    by_cases hleft : db.busyTimeout - priorOf n ≤ 0
    · rw [if_pos hleft, wp_pure]
      exact Or.inr ⟨by omega, rfl, rfl⟩
    · rw [if_neg hleft, wp_bind, wp_toInt (hmul _ (by omega) (by omega))]
      refine Or.inl ⟨by omega, rfl, ?_⟩
      rw [min_eq_right (by omega), mul_comm]
  · rw [if_neg hclip, wp_bind, wp_toInt (hmul _ le_rfl (by omega))]
    refine Or.inl ⟨by omega, rfl, ?_⟩
    rw [min_eq_left (by omega), mul_comm]

/-- The next call comes with count `n`, and the calls before it have slept for the sum of their delays or
for the whole budget. -/
structure Waited (tmout : Int) (n : Nat) (db : Db) : Prop where
  busyTimeout : db.busyTimeout = tmout
  xBusyHandler : db.xBusyHandler = true
  nBusy : db.nBusy = n
  slept : db.slept.sum = 1000 * min (priorOf n) tmout

theorem waited_zero (h : 0 < tmout) : Waited tmout 0 (sqlite3BusyTimeout tmout) := by
  rw [sqlite3BusyTimeout, if_pos h]
  refine ⟨rfl, rfl, rfl, ?_⟩
  rw [show priorOf 0 = 0 from rfl, min_eq_left (by omega)]
  rfl

/-- A call within the budget. -/
theorem Waited.goOn (h : Waited tmout n db) (hmax : tmout ≤ intMax) (hlt : priorOf n < tmout)
    (hn : priorOf n + delayOf n ≤ intMax) :
    wp sqlite3InvokeBusyHandler (fun r db' => r = true ∧ Waited tmout (n + 1) db') (fun _ _ => False) db := by
  have hp := le_priorOf n
  have hs := priorOf_succ n
  have hd := delayOf_bounds n
  rw [sqlite3InvokeBusyHandler, wp_bind, wp_get, h.nBusy, if_neg (by rw [h.xBusyHandler]; simp), wp_bind]
  refine (sqliteDefaultBusyCallback_wp hn (by rw [h.busyTimeout]; omega) (by rwa [h.busyTimeout])).post ?_
  rintro r db' (⟨-, rfl, rfl⟩ | ⟨hle, -, -⟩)
  · rw [if_neg (by simp), wp_bind, wp_toInt (by unfold intMax at *; omega), wp_bind, wp_modify, wp_pure]
    refine ⟨rfl, h.busyTimeout, h.xBusyHandler, by push_cast; rfl, ?_⟩
    rw [List.sum_cons, h.slept, h.busyTimeout, hs]
    omega
  · rw [h.busyTimeout] at hle
    omega

/-- The call after the budget is spent. -/
theorem Waited.giveUp (h : Waited tmout n db) (h0 : 0 < tmout) (hmax : tmout ≤ intMax) (hle : tmout ≤ priorOf n)
    (hn : priorOf n + delayOf n ≤ intMax) :
    wp sqlite3InvokeBusyHandler (fun r db' => r = false ∧ db'.nBusy = -1 ∧ db'.slept.sum = 1000 * tmout)
      (fun _ _ => False) db := by
  rw [sqlite3InvokeBusyHandler, wp_bind, wp_get, h.nBusy, if_neg (by rw [h.xBusyHandler]; simp), wp_bind]
  refine (sqliteDefaultBusyCallback_wp hn (by rwa [h.busyTimeout]) (by rwa [h.busyTimeout])).post ?_
  rintro r db' (⟨hlt, -, -⟩ | ⟨-, rfl, rfl⟩)
  · rw [h.busyTimeout] at hlt
    omega
  · rw [if_pos rfl, wp_bind, wp_modify, wp_pure]
    exact ⟨rfl, rfl, by rw [h.slept, min_eq_right hle]⟩

/-- The call whose sum is out of range. -/
theorem Waited.overflows (h : Waited tmout n db) (hp : priorOf n ≤ intMax) (hn : intMax < priorOf n + delayOf n) :
    wp sqlite3InvokeBusyHandler (fun _ _ => False) (fun _ _ => True) db := by
  rw [sqlite3InvokeBusyHandler, wp_bind, wp_get, h.nBusy, if_neg (by rw [h.xBusyHandler]; simp), wp_bind,
    sqliteDefaultBusyCallback, wp_bind, wp_get, wp_bind, delayPrior_wp hp]
  dsimp only
  rw [wp_bind]
  exact wp_toInt_out hn

/-- The calls as long as there is something left of the budget. -/
theorem busyTimes_wp (h0 : 0 < tmout) (hmax : tmout ≤ intMax) : ∀ {n : Nat},
    (∀ k < n, priorOf k < tmout ∧ priorOf k + delayOf k ≤ intMax) →
    wp (busyTimes n) (fun r db => r = true ∧ Waited tmout n db) (fun _ _ => False) (sqlite3BusyTimeout tmout)
  | 0, _ => ⟨rfl, waited_zero h0⟩
  | n + 1, h => by
    rw [busyTimes, wp_bind]
    refine (busyTimes_wp h0 hmax fun k hk => h k (by omega)).post ?_
    rintro _ db ⟨rfl, hw⟩
    exact hw.goOn hmax (h n (by omega)).1 (h n (by omega)).2

end Calls

/-! ## The whole wait -/

section Wait

variable {ms : Int}

/-- The calls made while the lock stays busy sleep for at most `ms` milliseconds, and after finitely many of
them one gives up with the whole budget spent; no sum on the way leaves the range of an `int`. -/
def Respects (ms : Int) : Prop :=
  ∃ n, (∀ k ≤ n, wp (busyTimes k) (fun r db => r = true ∧ db.slept.sum ≤ 1000 * ms) (fun _ _ => False)
      (sqlite3BusyTimeout ms))
    ∧ wp (busyTimes (n + 1)) (fun r db => r = false ∧ db.slept.sum = 1000 * ms) (fun _ _ => False)
      (sqlite3BusyTimeout ms)

/-- Some call comes with the budget spent; `n` is the first. -/
theorem exists_spent (h0 : 0 < ms) : ∃ n, ms ≤ priorOf n ∧ ∀ k < n, priorOf k < ms := by
  have hex : ∃ n, ms ≤ priorOf n := ⟨ms.toNat, by
    have := le_priorOf ms.toNat
    omega⟩
  exact ⟨Nat.find hex, Nat.find_spec hex, fun k hk => not_le.1 (Nat.find_min hex hk)⟩

/-- As long as every sum is in range, the wait ends at the first call that has nothing left. -/
theorem respects_of_le (h0 : 0 < ms) (hle : ms ≤ 2147483528) : Respects ms := by
  have hmax : ms ≤ intMax := by
    unfold intMax
    omega
  obtain ⟨n, hspent, hbefore⟩ := exists_spent h0
  have hlast : priorOf 21474844 = 2147483528 := rfl
  have hn : n ≤ 21474844 := not_lt.1 fun hlt => by
    have := hbefore 21474844 hlt
    omega
  have hsum : ∀ k ≤ n, priorOf k + delayOf k ≤ intMax := fun k hk => by
    have hmono := priorOf_mono (n := 21474845) (m := k + 1) (by omega)
    have hnext : priorOf 21474845 = 2147483628 := rfl
    rw [priorOf_succ, hnext] at hmono
    unfold intMax
    omega
  have hruns : ∀ k ≤ n, wp (busyTimes k) (fun r db => r = true ∧ Waited ms k db) (fun _ _ => False)
      (sqlite3BusyTimeout ms) := fun k hk =>
    busyTimes_wp h0 hmax fun i hi => ⟨hbefore i (by omega), hsum i (by omega)⟩
  refine ⟨n, fun k hk => (hruns k hk).post ?_, ?_⟩
  · rintro _ db ⟨rfl, hw⟩
    refine ⟨rfl, ?_⟩
    have := min_le_right (priorOf k) ms
    rw [hw.slept]
    omega
  · rw [busyTimes, wp_bind]
    refine (hruns n le_rfl).post ?_
    rintro _ db ⟨rfl, hw⟩
    exact (hw.giveUp h0 hmax hspent (hsum n le_rfl)).post fun r db' h => ⟨h.1, h.2.2⟩

/-- When a call that the wait reaches leaves the range, no run of calls is as it should be. -/
theorem not_respects_of_overflow (last : Nat) (h0 : 0 < ms) (hmax : ms ≤ intMax)
    (hbefore : ∀ k < last, priorOf k < ms) (hlast : priorOf last ≤ intMax)
    (hover : intMax < priorOf last + delayOf last) : ¬ Respects ms := by
  have hruns : ∀ k ≤ last, wp (busyTimes k) (fun r db => r = true ∧ Waited ms k db) (fun _ _ => False)
      (sqlite3BusyTimeout ms) := fun k hk =>
    busyTimes_wp h0 hmax fun i hi => by
      have := priorOf_mono (show i + 1 ≤ last by omega)
      rw [priorOf_succ] at this
      exact ⟨hbefore i (by omega), by omega⟩
  have hout : wp (busyTimes (last + 1)) (fun _ _ => False) (fun _ _ => True) (sqlite3BusyTimeout ms) := by
    rw [busyTimes, wp_bind]
    refine (hruns last le_rfl).mono ?_ fun _ _ => False.elim
    rintro _ db ⟨rfl, hw⟩
    exact hw.overflows hlast hover
  rintro ⟨n, hgo, hstop⟩
  rcases Nat.lt_trichotomy n last with h | rfl | h
  · -- The handler goes on where it should have given up.
    refine wp.false (((hruns (n + 1) h).and hstop).mono ?_ fun _ _ h => h.1)
    rintro r db ⟨⟨rfl, -⟩, hr, -⟩
    contradiction
  · exact wp.false ((hout.and hstop).mono (fun _ _ h => h.1) fun _ _ h => h.2)
  · exact wp.false ((hout.and (hgo (last + 1) h)).mono (fun _ _ h => h.1) fun _ _ h => h.2)

theorem not_respects_of_lt (hlt : 2147483528 < ms) (hmax : ms ≤ intMax) : ¬ Respects ms := by
  have hprev : priorOf 21474844 = 2147483528 := rfl
  have hlast : priorOf 21474845 = 2147483628 := rfl
  have hdelay : delayOf 21474845 = 100 := rfl
  refine not_respects_of_overflow 21474845 (by omega) hmax (fun k hk => ?_) ?_ ?_
  · have := priorOf_mono (show k ≤ 21474844 by omega)
    omega
  · rw [hlast]
    decide
  · rw [hlast, hdelay]
    decide

/-- The timeout is respected up to 2147483528 milliseconds: behind it, the sum that is compared with the
timeout leaves the range. -/
theorem respects_iff (h0 : 0 < ms) (hmax : ms ≤ intMax) : Respects ms ↔ ms ≤ 2147483528 :=
  ⟨fun h => not_lt.1 fun hlt => not_respects_of_lt hlt hmax h, respects_of_le h0⟩

theorem respects_iff_five_seconds : Respects 5000 ↔ (5000 : Int) ≤ 2147483528 :=
  respects_iff (by decide) (by decide)

theorem not_respects_intMax : ¬ Respects intMax := not_respects_of_lt (by decide) le_rfl

end Wait

end Busy

end Btreelite
