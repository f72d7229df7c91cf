import ObjectMarkup.CompileError

/-!
# Work that is done once

A unit of work is processed at most once, as an element or an attribute is in a pass. Any number of
callers ask for it, each with its own idea of how to do it. The work of the first one is begun in a
task of its own, and all callers wait for its outcome. Since the task is not the caller's, a caller
may leave without stopping it.

`Once` is the machine and the functions on it are its single steps. `Once.start`, `Once.request`
and `Once.release` put steps together the way a scheduler takes them that lets everyone go on as far
as possible.
-/

namespace ObjectMarkup

/-- What can be seen of work that is done once. -/
inductive Status where
  /-- Nobody has asked for it. -/
  | unprocessed
  /-- It was begun and is not settled. -/
  | inFlight
  /-- It has given a value. -/
  | succeeded
  | failed
  deriving DecidableEq, Repr

namespace Status

def text : Status → String
  | .unprocessed => "unprocessed"
  | .inFlight => "in_flight"
  | .succeeded => "succeeded"
  | .failed => "failed"

/-- The status of work, for someone who has found the outcome or none at first, and then, if there
was none, whether it was asked for. -/
def read {α : Type} : Option (Outcome α) → Bool → Status
  | some (.ok _), _ => .succeeded
  | some (.error _), _ => .failed
  | none, true => .inFlight
  | none, false => .unprocessed

/-- The status of work with an outcome, where work without one has not been begun. -/
def ofOutcome? {α : Type} : Option (Outcome α) → Status
  | none => .unprocessed
  | some (.ok _) => .succeeded
  | some (.error _) => .failed

end Status

/-- Work, known by how it ends. -/
inductive Work (α : Type) where
  /-- It ends this way when it is let go on. -/
  | ends (ending : Except Stop α)
  /-- It panics before there is anything to wait for. -/
  | panicsAtOnce (p : Panic)

def Work.ending {α : Type} : Work α → Except Stop α
  | .ends ending => ending
  | .panicsAtOnce p => .error (.panic p)

/-- Where the task of the work is. -/
inductive WorkTask (α : Type) where
  /-- There is none. -/
  | absent
  | begun (work : Work α)
  /-- It has ended, and the outcome is not settled. -/
  | ended (ending : Except Stop α)
  | settled

/-- Where a caller is. -/
inductive Caller (α : Type) where
  /-- It has not asked. -/
  | arriving (work : Work α)
  /-- It was the first one of all to ask, and has not begun its work yet. -/
  | elected (work : Work α)
  | waiting
  /-- It has the outcome. -/
  | returned (outcome : Outcome α)

/-- A unit of work that is done once, with those who ask for it. It is processed by the first caller
that asks, and its completion is the promise that all of them wait for. -/
structure Once (α : Type) where
  /-- Whether someone has asked. -/
  started : Bool
  task : WorkTask α
  /-- What the callers wait for. -/
  promise : Promise CompileError α
  /-- The callers, in the order in which they came. -/
  callers : List (Caller α)
  /-- How many works were begun. -/
  runs : Nat

namespace Once

variable {α : Type}

/-- Nobody has asked. -/
def idle : Once α :=
  ⟨false, .absent, .pending, [], 0⟩

def status (o : Once α) : Status :=
  .read o.promise.outcome? o.started

def result? (o : Once α) : Option α :=
  match o.promise.outcome? with
  | some (.ok value) => some value
  | _ => none

def error? (o : Once α) : Option CompileError :=
  match o.promise.outcome? with
  | some (.error e) => some e
  | _ => none

/-! ### Single steps -/

/-- A caller comes. -/
def arrive (o : Once α) (work : Work α) : Once α :=
  { o with callers := o.callers ++ [.arriving work] }

/-- A caller asks: the first one of all is to begin its work, and everyone else waits. -/
def ask (o : Once α) (caller : Nat) : Once α :=
  match o.callers[caller]? with
  | some (.arriving work) =>
    -- The work of who comes later is never begun.
    if o.started then { o with callers := o.callers.set caller .waiting }
    else { o with started := true, callers := o.callers.set caller (.elected work) }
  | _ => o

/-- The caller who is to begin its work hands it to a task and waits like everyone. -/
def launch (o : Once α) (caller : Nat) : Once α :=
  match o.callers[caller]? with
  | some (.elected work) =>
    { o with task := .begun work, callers := o.callers.set caller .waiting, runs := o.runs + 1 }
  | _ => o

/-- The work ends. -/
def finish (o : Once α) : Once α :=
  match o.task with
  | .begun work => { o with task := .ended work.ending }
  | _ => o

/-- The outcome is settled. A promise that is settled already stays as it is. -/
def settle (o : Once α) : Once α :=
  match o.task with
  | .ended ending =>
    let o := { o with task := .settled }
    match o.promise.settle (contain ending) with
    | .ok p => { o with promise := p }
    | .error _ => o
  | _ => o

/-- A caller that waits takes the outcome, if there is one. -/
def take (o : Once α) (caller : Nat) : Once α :=
  match o.callers[caller]?, o.promise.outcome? with
  | some .waiting, some outcome =>
    { o with callers := o.callers.set caller (.returned outcome) }
  | _, _ => o

/-- A caller leaves. One that is to begin its work has nothing to wait for until it has. -/
def leave (o : Once α) (caller : Nat) : Once α :=
  match o.callers[caller]? with
  | some (.elected _) => o
  | _ => { o with callers := o.callers.eraseIdx caller }

/-! ### Runs of steps -/

/-- All callers that wait take the outcome, if there is one. -/
def takeAll (o : Once α) : Once α :=
  (List.range o.callers.length).foldl take o

/-- Work that panics at once ends without being let go on. -/
def finishEarly (o : Once α) : Once α :=
  match o.task with
  | .begun (.panicsAtOnce _) => o.finish
  | _ => o

/-- A caller comes and asks, and everyone goes on as far as possible while the work is held back. -/
def start (o : Once α) (work : Work α) : Once α :=
  let o := o.arrive work
  let caller := o.callers.length - 1
  ((o.ask caller).launch caller).finishEarly.settle.takeAll

/-- The work is let go on, and everyone goes on as far as possible. -/
def release (o : Once α) : Once α :=
  o.finish.settle.takeAll

/-- A caller comes, asks and waits. If it is the first one of all, its work is not held back and the
caller returns with the outcome. -/
def request (o : Once α) (work : Work α) : Option (Outcome α) × Once α :=
  let arrived := o.arrive work
  let caller := arrived.callers.length - 1
  let asked := (arrived.ask caller).launch caller
  -- Who comes second waits for work that somebody else has begun and may hold back.
  let taken := (if o.started then asked else asked.finish.settle).take caller
  (match taken.callers[caller]? with
    | some (.returned outcome) => some outcome
    | _ => none, taken.leave caller)

/-- The outcomes of the callers that have returned. -/
def returned (o : Once α) : List (Outcome α) :=
  o.callers.filterMap fun
    | .returned outcome => some outcome
    | _ => none

def hasReturned (o : Once α) (caller : Nat) : Bool :=
  match o.callers[caller]? with
  | some (.returned _) => true
  | _ => false

/-- All callers leave. -/
def dismiss (o : Once α) : Once α :=
  { o with callers := [] }

end Once

end ObjectMarkup
