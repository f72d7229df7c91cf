import ObjectMarkup.Panic

/-!
# Jobs in a queue

Jobs are started one after the other and run in the order of a queue. A deferred job gives way
once: when its turn comes it goes to the end of the queue. So if all jobs are started before the
first one runs, the deferred ones run behind the others; if each job is awaited before the next one
is started, deferring changes nothing.
-/

namespace ObjectMarkup

inductive JobEnd where
  /-- It runs to its end. -/
  | completes
  | panics (p : Panic)
  /-- It is cancelled before it runs. -/
  | cancelled
  deriving DecidableEq, Repr

namespace JobEnd

/-- The panic of a job that has panicked. -/
def panicMessage? : JobEnd → Option String
  | .panics p => some p.message
  | _ => none

/-- Why a job was not completed. -/
def message? : JobEnd → Option String
  | .completes => none
  | .panics p => some p.message
  | .cancelled => some "task cancelled"

end JobEnd

structure Job where
  /-- Whether it gives way once. -/
  deferred : Bool
  /-- What it writes into the log first. -/
  note : Option String
  ending : JobEnd

namespace Job

/-- What a job writes when it runs. A cancelled job never runs. -/
def written (j : Job) : List String :=
  match j.ending with
  | .cancelled => []
  | _ => j.note.toList

end Job

/-- A place in the queue. -/
structure Turn where
  job : Job
  /-- Whether the job has yet to give way. -/
  waits : Bool

/-- A job as it is started. -/
def Job.turn (j : Job) : Turn :=
  ⟨j, j.deferred⟩

/-- The jobs of a queue in the order in which they run. One that has yet to give way goes to the end of
the queue when its turn comes. -/
def runQueue : List Turn → List Job
  | [] => []
  | t :: rest =>
    if t.waits then runQueue (rest ++ [{ t with waits := false }])
    else t.job :: runQueue rest
termination_by queue => queue.length + queue.countP Turn.waits
decreasing_by
  · next hwaits => simp [hwaits]
  · simp only [List.length_cons, List.countP_cons]
    omega

/-- When jobs are awaited. -/
inductive Awaiting where
  /-- Each one before the next one is started. -/
  | oneByOne
  /-- All together, after all were started. -/
  | together
  deriving DecidableEq, Repr

/-- The order in which jobs run. -/
def Awaiting.order : Awaiting → List Job → List Job
  | .oneByOne, jobs => jobs.flatMap fun j => runQueue [j.turn]
  | .together, jobs => runQueue (jobs.map Job.turn)

/-- The log that jobs leave behind. -/
def Awaiting.log (a : Awaiting) (jobs : List Job) : List String :=
  (a.order jobs).flatMap Job.written

end ObjectMarkup
