import ObjectMarkup.Concurrency.JobQueue

/-!
# The order of jobs

What a queue comes to in which some jobs give way once: those that do not run first, and the deferred
ones behind them, both in the order in which they were started (`order_together`). A job that is
awaited before the next one is started finds nobody to give way to (`order_oneByOne`). So deferring
changes the order of a log, and never what is in it (`log_perm`).
-/

namespace ObjectMarkup

/-- **Who waits runs last.** Jobs that have yet to give way run behind the others, in their order. -/
theorem runQueue_eq (queue : List Turn) : runQueue queue =
    (queue.filter (!·.waits)).map Turn.job ++ (queue.filter Turn.waits).map Turn.job := by
  fun_induction runQueue queue with
  | case1 => rfl
  | case2 t rest hwaits ih =>
    -- the job that gives way is behind all others, and does not wait any more
    rw [ih]
    simp [hwaits]
  | case3 t rest hruns ih =>
    rw [ih]
    simp [hruns]

namespace Awaiting

theorem order_together (jobs : List Job) :
    together.order jobs = jobs.filter (!·.deferred) ++ jobs.filter (·.deferred) := by
  have hjob : Turn.job ∘ Job.turn = id := rfl
  rw [order, runQueue_eq, List.filter_map, List.filter_map, List.map_map, List.map_map, hjob,
    List.map_id, List.map_id]
  rfl

theorem order_oneByOne (jobs : List Job) : oneByOne.order jobs = jobs := by
  have halone : ∀ j : Job, runQueue [j.turn] = [j] := by
    intro j
    rw [runQueue_eq]
    cases hdeferred : j.deferred <;> simp [Job.turn, hdeferred]
  rw [order]
  simp only [halone]
  exact List.flatMap_singleton' jobs

/-- Every job that was started runs once. -/
theorem order_perm (a : Awaiting) (jobs : List Job) : (a.order jobs).Perm jobs := by
  cases a with
  | oneByOne => rw [order_oneByOne]
  | together =>
    rw [order_together]
    exact List.perm_append_comm.trans (List.filter_append_perm _ _)

/-- The log has the notes of all jobs that were not cancelled, whenever they were awaited. -/
theorem log_perm (a : Awaiting) (jobs : List Job) : (a.log jobs).Perm (jobs.flatMap Job.written) :=
  (a.order_perm jobs).flatMap_right _

end Awaiting

end ObjectMarkup
