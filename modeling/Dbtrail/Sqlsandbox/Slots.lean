import Mathlib

/-!
# Slots for statements on the copy

A statement on the copy runs in a slot. `reserve` takes one, or puts the caller in line; a
release hands the freed slot to the callers in line, the longest waiting first, and passes over
one whose own user is busy. A caller's wait ends by a grant, by time or because it left, and the
end of the wait and a grant can come in the same instant: the caller then finds under the lock
that the slot is its own.

A step of `step` is one section the runner's lock protects, or one choice of the scheduler
outside it. Standby workers are left out: they are started and stopped without a slot.
-/

namespace Dbtrail.Sqlsandbox

/-! ## The gate -/

/-- The counters under the runner's lock. -/
structure Gate : Type where
  maxInFlight : ℤ
  inFlight : ℤ
  busy : Finset String
  deriving DecidableEq

namespace Gate

/-- A user that is named and has its slot taken. -/
def userBusy (g : Gate) (user : String) : Prop := user ≠ "" ∧ user ∈ g.busy

instance (g : Gate) (user : String) : Decidable (g.userBusy user) :=
  inferInstanceAs (Decidable (_ ∧ _))

/-- `acquireLocked`: the global slot always, the user's when one is named. -/
def acquire (g : Gate) (user : String) : Option Gate :=
  if g.maxInFlight ≤ g.inFlight then none
  else if g.userBusy user then none
  else some { g with
    inFlight := g.inFlight + 1
    busy := if user = "" then g.busy else insert user g.busy }

/-- What a release does to the counters. -/
def release (g : Gate) (user : String) : Gate :=
  { g with
    inFlight := g.inFlight - 1
    busy := if user = "" then g.busy else g.busy.erase user }

end Gate

/-- A caller in line, by the number of its call. -/
structure Waiter : Type where
  id : ℕ
  user : String
  deriving DecidableEq, Repr

/-- The walk over the line: the counters afterwards, who stays in line, who was handed a slot. -/
def grantLoop (g : Gate) : List Waiter → Gate × List Waiter × List Waiter
  | [] => (g, [], [])
  | w :: rest =>
      if g.maxInFlight ≤ g.inFlight then (g, w :: rest, [])
      else
        match g.acquire w.user with
        | some g' =>
            let (after, kept, granted) := grantLoop g' rest
            (after, kept, w :: granted)
        | none =>
            let (after, kept, granted) := grantLoop g rest
            (after, w :: kept, granted)

/-! ## Callers -/

/-- Where a call stands: parked in `Reserve` (`got` once a slot was handed over), its wait over
and the lock not taken yet, about to give a slot back because it left, with its slot, or gone.
A slot is `claimed` by the `Run` that uses it. -/
inductive Phase : Type where
  | parked (got : Bool)
  | ended (byTime got : Bool)
  | givingBack
  | slot (released running claimed : Bool)
  | gone
  deriving DecidableEq, Repr

/-- A slot handed over or held, and not returned. -/
def Phase.owns : Phase → Bool
  | .parked got => got
  | .ended _ got => got
  | .givingBack => true
  | .slot released _ _ => !released
  | .gone => false

/-- In line. -/
def Phase.waits : Phase → Bool
  | .parked got => !got
  | .ended _ got => !got
  | _ => false

/-- A slot was had and returned, or never will be had. -/
def Phase.spent : Phase → Bool
  | .slot released _ _ => released
  | .gone => true
  | _ => false

def Phase.hand : Phase → Phase
  | .parked _ => .parked true
  | .ended byTime _ => .ended byTime true
  | phase => phase

/-- `left`: the call's context has ended. -/
structure Caller : Type where
  user : String
  phase : Phase
  left : Bool := false
  deriving DecidableEq, Repr

inductive MaxWait : Type where
  | refuse
  | bounded
  | unbounded
  deriving DecidableEq, Repr

structure Runner : Type where
  gate : Gate
  waiters : List Waiter
  callers : List Caller
  maxWaiters : ℕ
  maxWait : MaxWait
  closed : Bool
  deriving DecidableEq

namespace Runner

def init (maxInFlight : ℤ) (maxWaiters : ℕ) (maxWait : MaxWait) : Runner :=
  ⟨⟨maxInFlight, 0, ∅⟩, [], [], maxWaiters, maxWait, false⟩

def setPhase (r : Runner) (i : ℕ) (phase : Phase) : Runner :=
  { r with callers := r.callers.modify i fun c => { c with phase := phase } }

/-- The callers that were handed a slot. -/
def hand (callers : List Caller) (granted : List Waiter) : List Caller :=
  granted.foldl
    (fun callers w => callers.modify w.id fun c => { c with phase := c.phase.hand }) callers

def grantLocked (r : Runner) : Runner :=
  if r.waiters = [] ∨ r.gate.maxInFlight ≤ r.gate.inFlight then r
  else
    let (gate, kept, granted) := grantLoop r.gate r.waiters
    { r with gate := gate, waiters := kept, callers := hand r.callers granted }

/-- `release`, by a caller that then has the given phase. -/
def release (r : Runner) (i : ℕ) (user : String) (phase : Phase) : Runner :=
  let r := r.setPhase i phase
  grantLocked { r with gate := r.gate.release user }

/-- `Reserve` up to the wait. -/
def reserve (r : Runner) (user : String) : Runner :=
  match r.gate.acquire user with
  | some gate =>
      { r with gate := gate, callers := r.callers ++ [⟨user, .slot false false false, false⟩] }
  | none =>
      if r.maxWait = .refuse ∨ r.maxWaiters ≤ r.waiters.length then
        { r with callers := r.callers ++ [⟨user, .gone, false⟩] }
      else
        { r with
          waiters := r.waiters ++ [⟨r.callers.length, user⟩]
          callers := r.callers ++ [⟨user, .parked false, false⟩] }

/-- `Reserve` when its wait was ended by time or by the caller, under the lock. -/
def settle (r : Runner) (i : ℕ) (c : Caller) (got : Bool) : Runner :=
  if got then
    r.setPhase i (if c.left then .givingBack else .slot false false false)
  else { r.setPhase i .gone with waiters := r.waiters.filter fun w => w.id != i }

/-- `Slot.Release`. -/
def releaseSlot (r : Runner) (i : ℕ) (c : Caller) (released running claimed : Bool) : Runner :=
  if released then r.setPhase i (.slot released running claimed)
  else r.release i c.user (.slot true running claimed)

def setMaxInFlight (r : Runner) (n : ℤ) : Runner :=
  if n < 1 ∨ r.closed then r
  else grantLocked { r with gate := { r.gate with maxInFlight := n } }

end Runner

/-! ## Steps -/

/-- What can happen next: a call of `Reserve`; a context ends; the wait of a parked call ends by
the grant, by its context or by time; the call looks under the lock; it gives back the slot it
was handed as it left; `Slot.Release`; `Slot.Run` claims the slot, and its deferred release. -/
inductive Act : Type where
  | reserve (user : String)
  | leave (i : ℕ)
  | wakeGranted (i : ℕ)
  | wakeLeft (i : ℕ)
  | wakeTime (i : ℕ)
  | settle (i : ℕ)
  | giveBack (i : ℕ)
  | release (i : ℕ)
  | claim (i : ℕ)
  | finish (i : ℕ)
  | setMaxInFlight (n : ℤ)
  | close
  deriving DecidableEq, Repr

/-- The step of one caller, where it can take it. -/
def Runner.callerStep (r : Runner) (c : Caller) : Act → Runner
  | .leave i => { r with callers := r.callers.modify i fun c => { c with left := true } }
  | .wakeGranted i =>
      match c.phase with
      | .parked true => r.setPhase i (if c.left then .givingBack else .slot false false false)
      | _ => r
  | .wakeLeft i =>
      match c.phase, c.left with
      | .parked got, true => r.setPhase i (.ended false got)
      | _, _ => r
  | .wakeTime i =>
      match c.phase, r.maxWait with
      | .parked got, .bounded => r.setPhase i (.ended true got)
      | _, _ => r
  | .settle i =>
      match c.phase with
      | .ended _ got => r.settle i c got
      | _ => r
  | .giveBack i =>
      match c.phase with
      | .givingBack => r.release i c.user .gone
      | _ => r
  | .release i =>
      match c.phase with
      | .slot released running claimed => r.releaseSlot i c released running claimed
      | _ => r
  | .claim i =>
      match c.phase with
      | .slot released running claimed =>
          -- A second `Run`, or one after `Release`, is refused and leaves the slot alone.
          r.setPhase i (.slot released true (claimed || (!released && !running)))
      | _ => r
  | .finish i =>
      match c.phase with
      | .slot released running true => r.releaseSlot i c released running false
      | _ => r
  | _ => r

/-- The caller a step belongs to. -/
def Act.caller : Act → Option ℕ
  | .leave i | .wakeGranted i | .wakeLeft i | .wakeTime i | .settle i | .giveBack i | .release i
  | .claim i | .finish i => some i
  | _ => none

def step (r : Runner) (a : Act) : Runner :=
  match a with
  | .reserve user => r.reserve user
  | .setMaxInFlight n => r.setMaxInFlight n
  | .close => { r with closed := true }
  | a =>
      match a.caller.bind fun i => r.callers[i]? with
      | some c => r.callerStep c a
      | none => r

end Dbtrail.Sqlsandbox
