/-!
# Promises

A promise is the completion of some work as others see it. It is settled at most once: it is resolved
with a value or rejected with a reason, and who comes second is told what state it is in. Any number
of waiters wait for it.

A settler stores its outcome and then wakes those who wait. A waiter first registers for being woken
and only then looks at the promise, so a settlement that falls between the two is not missed. In a
`Gathering` everyone takes single steps (`store`, `wakeAll`, `advance`), and the steps of different
people may follow each other in any order.
-/

namespace ObjectMarkup

universe u v

/-- The state of a promise that everyone can see. -/
inductive PromiseState where
  | pending
  | resolved
  | rejected
  deriving DecidableEq, Repr

def PromiseState.text : PromiseState → String
  | .pending => "pending"
  | .resolved => "resolved"
  | .rejected => "rejected"

/-- A settled promise was to be settled again. -/
structure ProtocolViolation where
  /-- The state that the promise was in. -/
  state : PromiseState
  deriving DecidableEq, Repr

def ProtocolViolation.message (v : ProtocolViolation) : String :=
  "completion already settled as " ++ v.state.text

/-- The completion of some work: what will be settled once. -/
structure Promise (ε : Type u) (α : Type v) where
  /-- What the promise was settled with. -/
  outcome? : Option (Except ε α)

namespace Promise

variable {ε : Type u} {α : Type v}

/-- The promise that is not settled. -/
def pending : Promise ε α :=
  ⟨none⟩

instance : Inhabited (Promise ε α) := ⟨pending⟩

/-- The state that a settlement leads to. -/
def stateOf : Except ε α → PromiseState
  | .ok _ => .resolved
  | .error _ => .rejected

def state (p : Promise ε α) : PromiseState :=
  match p.outcome? with
  | none => .pending
  | some outcome => stateOf outcome

/-- Settles a promise, unless it is settled. -/
def settle (p : Promise ε α) (outcome : Except ε α) :
    Except ProtocolViolation (Promise ε α) :=
  match p.outcome? with
  | none => .ok ⟨some outcome⟩
  | some earlier => .error ⟨stateOf earlier⟩

def resolve (p : Promise ε α) (value : α) : Except ProtocolViolation (Promise ε α) :=
  p.settle (.ok value)

def reject (p : Promise ε α) (reason : ε) : Except ProtocolViolation (Promise ε α) :=
  p.settle (.error reason)

@[simp] theorem settle_pending (outcome : Except ε α) :
    (pending : Promise ε α).settle outcome = .ok ⟨some outcome⟩ := rfl

@[simp] theorem settle_settled (earlier outcome : Except ε α) :
    (⟨some earlier⟩ : Promise ε α).settle outcome = .error ⟨stateOf earlier⟩ := rfl

end Promise

/-- Where someone who waits for a promise is. -/
inductive Waiter (ε : Type u) (α : Type v) where
  /-- About to register. -/
  | arriving
  /-- Registered, about to look; `woken` says whether it was woken meanwhile. -/
  | registered (woken : Bool)
  /-- Has found nothing and sleeps until it is woken. -/
  | parked (woken : Bool)
  /-- Has found the outcome. -/
  | finished (outcome : Except ε α)

namespace Waiter

variable {ε : Type u} {α : Type v}

/-- Wakes a waiter that is registered. -/
def wake : Waiter ε α → Waiter ε α
  | .registered _ => .registered true
  | .parked _ => .parked true
  | w => w

/-- The next step of a waiter. -/
def advance (p : Promise ε α) : Waiter ε α → Waiter ε α
  | .arriving => .registered false
  -- Looking comes after registering, so an outcome that is stored in between is not missed.
  | .registered woken =>
    match p.outcome? with
    | some outcome => .finished outcome
    | none => .parked woken
  | .parked true => .arriving
  | .parked false => .parked false
  | .finished outcome => .finished outcome

/-- Lets a waiter go as far as it can without being woken again: three steps are enough to come
round from where it sleeps. -/
def run (p : Promise ε α) (w : Waiter ε α) : Waiter ε α :=
  advance p (advance p (advance p w))

/-- What a waiter has found. -/
def outcome? : Waiter ε α → Option (Except ε α)
  | .finished outcome => some outcome
  | _ => none

end Waiter

/-- Where someone who settles a promise is. -/
inductive Settler (ε : Type u) (α : Type v) where
  /-- About to store the outcome. -/
  | arriving (outcome : Except ε α)
  /-- Has stored the outcome and is about to wake the waiters. -/
  | stored
  /-- Has come to the end; `refused` says why nothing was stored. -/
  | finished (refused : Option ProtocolViolation)

/-- A promise together with those who settle it and those who wait for it. -/
structure Gathering (ε : Type u) (α : Type v) where
  promise : Promise ε α
  /-- The settlers, in the order in which they came. -/
  settlers : List (Settler ε α)
  /-- The waiters, in the order in which they came. -/
  waiters : List (Waiter ε α)

namespace Gathering

variable {ε : Type u} {α : Type v}

/-- A promise that is not settled, with nobody around. -/
def empty : Gathering ε α :=
  ⟨.pending, [], []⟩

/-! ### Single steps -/

/-- A settler stores its outcome, or is refused. -/
def store (g : Gathering ε α) (settler : Nat) : Gathering ε α :=
  match g.settlers[settler]? with
  | some (.arriving outcome) =>
    match g.promise.settle outcome with
    | .ok p => { g with promise := p, settlers := g.settlers.set settler .stored }
    | .error v => { g with settlers := g.settlers.set settler (.finished (some v)) }
  | _ => g

/-- A settler that has stored its outcome wakes all waiters. -/
def wakeAll (g : Gathering ε α) (settler : Nat) : Gathering ε α :=
  match g.settlers[settler]? with
  | some .stored =>
    { g with settlers := g.settlers.set settler (.finished none)
             waiters := g.waiters.map Waiter.wake }
  | _ => g

/-- A waiter takes its next step. -/
def advance (g : Gathering ε α) (waiter : Nat) : Gathering ε α :=
  { g with waiters := g.waiters.modify waiter (·.advance g.promise) }

/-! ### Runs of steps -/

/-- All waiters go as far as they can. -/
def settleDown (g : Gathering ε α) : Gathering ε α :=
  { g with waiters := g.waiters.map (Waiter.run g.promise) }

/-- Waiters come, and all waiters go as far as they can. -/
def join (g : Gathering ε α) (count : Nat) : Gathering ε α :=
  { g with waiters := g.waiters ++ List.replicate count Waiter.arriving }.settleDown

/-- A settler comes and takes all its steps, and then the waiters go as far as they can. -/
def settle (g : Gathering ε α) (outcome : Except ε α) :
    Option ProtocolViolation × Gathering ε α :=
  let settler := g.settlers.length
  let joined := { g with settlers := g.settlers ++ [Settler.arriving outcome] }
  let settled := ((joined.store settler).wakeAll settler).settleDown
  (match settled.settlers[settler]? with
    | some (Settler.finished refused) => refused
    | _ => none, settled)

/-- What the waiters have found so far. -/
def outcomes (g : Gathering ε α) : List (Except ε α) :=
  g.waiters.filterMap Waiter.outcome?

/-- All waiters leave. -/
def dismiss (g : Gathering ε α) : Gathering ε α :=
  { g with waiters := [] }

end Gathering

end ObjectMarkup
