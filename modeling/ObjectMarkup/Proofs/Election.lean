import ObjectMarkup.Concurrency.Once

/-!
# One work for all who ask

Callers come, ask, wait and leave, while a task does the work and another one settles its outcome.
Each of them takes single steps, and a course of `Move`s has these steps in any order, for any
number of callers. `Once.run_course` says what every course from `Once.idle` comes to: the work that
is begun is that of the first caller to ask, its outcome is the one that everyone gets, and what can
be seen from outside never moves back.

The flag and the promise are two separate things that are read and written at different steps, so
what ties them together is an invariant, `Once.Agrees`. Its heart is `Once.Stage`: the work of the
first caller to ask is to be begun, is going on, has ended or is settled, and the promise stays open
until the last of these. Each move leads from one stage to the next or leaves the stage alone
(`Once.Agrees.apply`).

Who looks from outside takes two steps as well: first at the promise, and then at the flag. Neither
is ever taken back (`Once.Persists`), so two looks of that kind, one after the other, give statuses
in their order (`Once.before_of_persists`).
-/

namespace ObjectMarkup

/-- Whether a status may be seen later than another one. -/
def Status.Before : Status → Status → Prop
  | .unprocessed, _ => True
  | .inFlight, later => later ≠ .unprocessed
  | .succeeded, later => later = .succeeded
  | .failed, later => later = .failed

namespace Caller

variable {α : Type}

/-- The work that a caller is to begin. -/
def elected? : Caller α → Option (Work α)
  | .elected work => some work
  | _ => none

/-- What a caller has come to, given the work that is done and the outcome that is settled. -/
def Fits (first? : Option (Work α)) (outcome? : Option (Outcome α)) : Caller α → Prop
  | .arriving _ => True
  | .elected _ => True
  | .waiting => first?.isSome
  | .returned outcome => outcome? = some outcome

end Caller

namespace Once

variable {α : Type}

/-! ### Courses of moves -/

/-- A single step of one of those who take part. -/
inductive Move (α : Type) where
  | arrive (work : Work α)
  | ask (caller : Nat)
  | launch (caller : Nat)
  /-- The task of the work comes to its end. -/
  | finish
  /-- The task that settles takes its step. -/
  | settle
  | take (caller : Nat)
  | leave (caller : Nat)

def apply (o : Once α) : Move α → Once α
  | .arrive work => o.arrive work
  | .ask caller => o.ask caller
  | .launch caller => o.launch caller
  | .finish => o.finish
  | .settle => o.settle
  | .take caller => o.take caller
  | .leave caller => o.leave caller

def run (o : Once α) (moves : List (Move α)) : Once α :=
  moves.foldl apply o

@[simp] theorem run_nil (o : Once α) : o.run [] = o := rfl

@[simp] theorem run_cons (o : Once α) (m : Move α) (moves : List (Move α)) :
    o.run (m :: moves) = (o.apply m).run moves := rfl

theorem run_append (o : Once α) (moves later : List (Move α)) :
    o.run (moves ++ later) = (o.run moves).run later :=
  List.foldl_append

/-- The work of the caller who asks at a move. -/
def askedAt? (o : Once α) : Move α → Option (Work α)
  | .ask caller =>
    match o.callers[caller]? with
    | some (.arriving work) => some work
    | _ => none
  | _ => none

/-- The work that is handed to a task at a move. -/
def begunAt? (o : Once α) : Move α → Option (Work α)
  | .launch caller =>
    match o.callers[caller]? with
    | some (.elected work) => some work
    | _ => none
  | _ => none

/-- The works of those who ask in a course, in the order in which they do. -/
def asked (o : Once α) : List (Move α) → List (Work α)
  | [] => []
  | m :: moves => (o.askedAt? m).toList ++ (o.apply m).asked moves

/-- The works that are begun in a course, in the order in which they are. -/
def begun (o : Once α) : List (Move α) → List (Work α)
  | [] => []
  | m :: moves => (o.begunAt? m).toList ++ (o.apply m).begun moves

/-! ### What a single step does -/

/-- A caller who has not asked does so; a step of anyone else is none. -/
theorem ask_cases (o : Once α) (i : Nat) :
    (o.askedAt? (.ask i) = none ∧ o.ask i = o) ∨
      ∃ w, o.callers[i]? = some (.arriving w) ∧ o.askedAt? (.ask i) = some w ∧
        o.ask i = if o.started then { o with callers := o.callers.set i .waiting }
          else { o with started := true, callers := o.callers.set i (.elected w) } := by
  simp only [askedAt?, ask]
  rcases o.callers[i]? with _ | (w | _ | _ | _)
  case some.arriving => exact Or.inr ⟨w, rfl, rfl, rfl⟩
  all_goals exact Or.inl ⟨rfl, rfl⟩

/-- A caller who is to begin its work does so. -/
theorem launch_cases (o : Once α) (i : Nat) :
    (o.begunAt? (.launch i) = none ∧ o.launch i = o) ∨
      ∃ w, o.callers[i]? = some (.elected w) ∧ o.begunAt? (.launch i) = some w ∧
        o.launch i = { o with
          task := .begun w, callers := o.callers.set i .waiting, runs := o.runs + 1 } := by
  simp only [begunAt?, launch]
  rcases o.callers[i]? with _ | (_ | w | _ | _)
  case some.elected => exact Or.inr ⟨w, rfl, rfl, rfl⟩
  all_goals exact Or.inl ⟨rfl, rfl⟩

/-- A caller who waits takes the outcome, if there is one. -/
theorem take_cases (o : Once α) (i : Nat) :
    o.take i = o ∨
      ∃ outcome, o.callers[i]? = some .waiting ∧ o.promise.outcome? = some outcome ∧
        o.take i = { o with callers := o.callers.set i (.returned outcome) } := by
  unfold take
  rcases o.callers[i]? with _ | (_ | _ | _ | _)
  case some.waiting =>
    rcases o.promise.outcome? with _ | outcome
    · exact Or.inl rfl
    · exact Or.inr ⟨outcome, rfl, rfl, rfl⟩
  all_goals exact Or.inl rfl

/-- A caller who is not to begin its work leaves. -/
theorem leave_cases (o : Once α) (i : Nat) :
    o.leave i = o ∨
      ∃ c, o.callers[i]? = some c ∧ c.elected? = none ∧
        o.leave i = { o with callers := o.callers.eraseIdx i } := by
  unfold leave
  rcases hc : o.callers[i]? with _ | c
  · refine Or.inl ?_
    show { o with callers := o.callers.eraseIdx i } = o
    rw [List.eraseIdx_of_length_le (List.getElem?_eq_none_iff.mp hc)]
  · -- only an elected caller cannot leave: the work is in its hands
    cases c with
    | elected w => exact Or.inl rfl
    | arriving w => exact Or.inr ⟨_, rfl, rfl, rfl⟩
    | waiting => exact Or.inr ⟨_, rfl, rfl, rfl⟩
    | returned outcome => exact Or.inr ⟨_, rfl, rfl, rfl⟩

/-! ### What ties flag, task and promise together -/

/-- What one item adds to a list, and what becomes of that when the item is replaced or goes. -/
theorem filterMap_at {β γ : Type} (f : β → Option γ) {l : List β} {i : Nat} {b : β}
    (h : l[i]? = some b) :
    ∃ u v, l.filterMap f = u ++ (f b).toList ++ v ∧
      (∀ b', (l.set i b').filterMap f = u ++ (f b').toList ++ v) ∧
      (l.eraseIdx i).filterMap f = u ++ v := by
  obtain ⟨hi, rfl⟩ := List.getElem?_eq_some_iff.mp h
  -- the list is cut at the place, and nothing happens to either part
  have hcons : ∀ b, (b :: l.drop (i + 1)).filterMap f
      = (f b).toList ++ (l.drop (i + 1)).filterMap f := by
    intro b
    rw [List.filterMap_cons]
    cases f b <;> rfl
  refine ⟨(l.take i).filterMap f, (l.drop (i + 1)).filterMap f, ?_, ?_, ?_⟩
  · calc l.filterMap f
        = (l.take i ++ l[i] :: l.drop (i + 1)).filterMap f := by
          rw [List.getElem_cons_drop, List.take_append_drop]
      _ = _ := by rw [List.filterMap_append, hcons, List.append_assoc]
  · intro b'
    rw [List.set_eq_take_append_cons_drop, if_pos hi, List.filterMap_append, hcons,
      List.append_assoc]
  · rw [List.eraseIdx_eq_take_drop_succ, List.filterMap_append]

/-- How far the work of the first caller to ask has come: that work, the works that were begun, the
task, and what the promise was settled with. -/
inductive Stage : Option (Work α) → List (Work α) → WorkTask α → Option (Outcome α) → Prop where
  | unasked : Stage none [] .absent none
  | elected (w : Work α) : Stage (some w) [] .absent none
  | begun (w : Work α) : Stage (some w) [w] (.begun w) none
  | ended (w : Work α) : Stage (some w) [w] (.ended w.ending) none
  | settled (w : Work α) : Stage (some w) [w] .settled (some (contain w.ending))

/-- **The invariant.** The state agrees with the works that were asked for and those that were
begun. -/
structure Agrees (asked begun : List (Work α)) (o : Once α) : Prop where
  stage : Stage asked.head? begun o.task o.promise.outcome?
  /-- The flag says whether someone has asked. -/
  started : o.started = asked.head?.isSome
  runs : o.runs = begun.length
  /-- The first work that is asked for is begun or is to be begun by one caller. -/
  elected : o.callers.filterMap Caller.elected? ++ begun = asked.head?.toList
  callers : ∀ c ∈ o.callers, c.Fits asked.head? o.promise.outcome?

theorem agrees_idle : Agrees [] [] (idle : Once α) where
  stage := .unasked
  started := rfl
  runs := rfl
  elected := rfl
  callers := fun _ h => absurd h List.not_mem_nil

namespace Agrees

variable {asked begun : List (Work α)} {o : Once α}

/-- A caller goes on in its place, which matters to no one else. -/
theorem set (h : Agrees asked begun o) {i : Nat} {c c' : Caller α} (hc : o.callers[i]? = some c)
    (hsame : c.elected? = c'.elected?) (hfits : c'.Fits asked.head? o.promise.outcome?) :
    Agrees asked begun { o with callers := o.callers.set i c' } := by
  obtain ⟨u, v, hl, hset, -⟩ := filterMap_at Caller.elected? hc
  -- the task is not concerned, and the elected ones are those from before
  refine ⟨h.stage, h.started, h.runs, ?_, ?_⟩
  · show (o.callers.set i c').filterMap Caller.elected? ++ begun = _
    rw [hset, ← hsame, ← hl]
    exact h.elected
  · intro k hk
    rcases List.mem_or_eq_of_mem_set hk with hk | rfl
    · exact h.callers k hk
    · exact hfits

theorem arrive (h : Agrees asked begun o) (w : Work α) : Agrees asked begun (o.arrive w) := by
  refine ⟨h.stage, h.started, h.runs, ?_, ?_⟩
  · show (o.callers ++ [Caller.arriving w]).filterMap Caller.elected? ++ begun = _
    -- who has not asked is not elected
    rw [List.filterMap_append]
    show o.callers.filterMap Caller.elected? ++ [] ++ begun = _
    rw [List.append_nil]
    exact h.elected
  · intro c hc
    rcases List.mem_append.mp hc with hc | hc
    · exact h.callers c hc
    · cases List.mem_singleton.mp hc
      trivial

/-- Asking: only the first caller to do so is to begin its work. -/
theorem ask (h : Agrees asked begun o) (i : Nat) :
    Agrees (asked ++ (o.askedAt? (.ask i)).toList) begun (o.ask i) := by
  obtain ⟨hat, hask⟩ | ⟨w, hw, hat, hask⟩ := o.ask_cases i
  · rw [hat, hask, Option.toList_none, List.append_nil]
    exact h
  rw [hat, hask, Option.toList_some]
  cases asked with
  | cons first rest =>
    -- someone has asked before, so the flag is up and the caller only waits
    have hstarted : o.started = true := h.started
    rw [if_pos hstarted]
    have hset : Agrees (first :: rest) begun { o with callers := o.callers.set i .waiting } :=
      h.set hw rfl rfl
    obtain ⟨hstage, hstarted, hruns, helected, hcallers⟩ := hset
    exact ⟨hstage, hstarted, hruns, helected, hcallers⟩
  | nil =>
    have hstarted : o.started = false := h.started
    rw [hstarted, if_neg Bool.false_ne_true]
    obtain ⟨u, v, hl, hset, -⟩ := filterMap_at Caller.elected? hw
    -- nobody has asked before, so no work is begun or to be begun
    have hnone : (u ++ [] ++ v) ++ begun = [] := by
      show (u ++ (Caller.arriving w).elected?.toList ++ v) ++ begun = []
      rw [← hl]
      exact h.elected
    -- so the caller is the one that is elected, and there is no other
    obtain ⟨huv, rfl⟩ := List.append_eq_nil_iff.mp hnone
    refine ⟨?_, rfl, h.runs, ?_, ?_⟩
    · have hstage := h.stage
      show Stage (some w) [] o.task o.promise.outcome?
      generalize o.task = task at hstage ⊢
      generalize o.promise.outcome? = outcome? at hstage ⊢
      cases hstage
      exact .elected w
    · show (o.callers.set i (.elected w)).filterMap Caller.elected? ++ [] = [w]
      rw [List.append_nil] at huv
      obtain ⟨rfl, rfl⟩ := List.append_eq_nil_iff.mp huv
      rw [hset]
      rfl
    · intro c hc
      rcases List.mem_or_eq_of_mem_set hc with hc | rfl
      · -- nobody waits yet
        have hfits := h.callers c hc
        cases c with
        | arriving _ => trivial
        | elected _ => trivial
        | waiting => cases hfits
        | returned _ => exact hfits
      · trivial

/-- The work that was asked for first is handed to the task, and there is no other. -/
theorem launch (h : Agrees asked begun o) (i : Nat) :
    Agrees asked (begun ++ (o.begunAt? (.launch i)).toList) (o.launch i) := by
  obtain ⟨hat, hlaunch⟩ | ⟨w, hw, hat, hlaunch⟩ := o.launch_cases i
  · rw [hat, hlaunch, Option.toList_none, List.append_nil]
    exact h
  rw [hat, hlaunch, Option.toList_some]
  obtain ⟨u, v, hl, hset, -⟩ := filterMap_at Caller.elected? hw
  -- what is to be begun, or was begun, is the first work that was asked for
  have hone : u ++ [w] ++ v ++ begun = asked.head?.toList := by
    show u ++ (Caller.elected w).elected?.toList ++ v ++ begun = _
    rw [← hl]
    exact h.elected
  -- the list has one item at most, and `w` is in it
  obtain ⟨rfl, rfl, rfl, hfirst⟩ :
      u = [] ∧ v = [] ∧ begun = [] ∧ asked.head? = some w := by
    cases hfirst : asked.head? with
    | none => rw [hfirst] at hone; simp at hone
    | some first =>
      rw [hfirst, Option.toList_some] at hone
      have hlen := congrArg List.length hone
      simp only [List.length_append, List.length_singleton] at hlen
      have hu : u = [] := List.length_eq_zero_iff.mp (by omega)
      have hv : v = [] := List.length_eq_zero_iff.mp (by omega)
      have hb : begun = [] := List.length_eq_zero_iff.mp (by omega)
      subst hu hv hb
      exact ⟨rfl, rfl, rfl, congrArg some (List.singleton_inj.mp hone).symm⟩
  -- work that is still to be begun is not settled
  have hopen : o.promise.outcome? = none := by
    have hstage := h.stage
    rw [hfirst] at hstage
    generalize o.task = task at hstage
    generalize o.promise.outcome? = outcome? at hstage
    cases hstage
    rfl
  refine ⟨?_, h.started, by rw [h.runs]; rfl, ?_, ?_⟩
  · show Stage asked.head? [w] (.begun w) o.promise.outcome?
    rw [hfirst, hopen]
    exact .begun w
  · show (o.callers.set i .waiting).filterMap Caller.elected? ++ [w] = _
    rw [hset, hfirst]
    rfl
  · intro c hc
    rcases List.mem_or_eq_of_mem_set hc with hc | rfl
    · exact h.callers c hc
    · show asked.head?.isSome
      rw [hfirst]
      rfl

theorem finish (h : Agrees asked begun o) : Agrees asked begun o.finish := by
  unfold Once.finish
  split
  -- only a task that was begun has something to finish
  case h_2 => exact h
  case h_1 w hw =>
    refine ⟨?_, h.started, h.runs, h.elected, h.callers⟩
    have hstage := h.stage
    rw [hw] at hstage
    show Stage asked.head? begun (.ended w.ending) o.promise.outcome?
    generalize asked.head? = first? at hstage ⊢
    generalize o.promise.outcome? = outcome? at hstage ⊢
    -- what the task has ended with is the ending of the work that was begun
    cases hstage
    exact .ended w

/-- **The settling task is never refused:** while an outcome is to be settled, the promise is
open. -/
theorem settle_ended (h : Agrees asked begun o) {ending : Except Stop α}
    (ht : o.task = .ended ending) :
    ∃ w, asked.head? = some w ∧ begun = [w] ∧ ending = w.ending ∧ o.promise = .pending := by
  have hstage := h.stage
  rw [ht] at hstage
  generalize asked.head? = first? at hstage ⊢
  generalize hp : o.promise.outcome? = outcome? at hstage
  cases hstage with
  | ended w => exact ⟨w, rfl, rfl, rfl, congrArg Promise.mk hp⟩

/-- A state after settling. -/
theorem settle_eq (h : Agrees asked begun o) {ending : Except Stop α}
    (ht : o.task = .ended ending) :
    o.settle = { o with task := .settled, promise := ⟨some (contain ending)⟩ } := by
  obtain ⟨-, -, -, -, hopen⟩ := h.settle_ended ht
  unfold Once.settle
  rw [ht, hopen]
  rfl

theorem settle (h : Agrees asked begun o) : Agrees asked begun o.settle := by
  cases ht : o.task with
  | ended ending =>
    -- a task that has ended and is not settled settles the promise, which was open
    obtain ⟨w, hfirst, rfl, rfl, hopen⟩ := h.settle_ended ht
    rw [h.settle_eq ht]
    refine ⟨?_, h.started, h.runs, h.elected, ?_⟩
    · show Stage asked.head? [w] .settled (some (contain w.ending))
      rw [hfirst]
      exact .settled w
    · -- nobody has returned before there was an outcome
      intro c hc
      have hfits := h.callers c hc
      rw [hopen] at hfits
      cases c with
      | arriving _ => trivial
      | elected _ => trivial
      | waiting => exact hfits
      | returned _ => cases hfits
  -- in all other stages there is nothing to settle
  | absent => unfold Once.settle; rw [ht]; exact h
  | begun _ => unfold Once.settle; rw [ht]; exact h
  | settled => unfold Once.settle; rw [ht]; exact h

theorem take (h : Agrees asked begun o) (i : Nat) : Agrees asked begun (o.take i) := by
  obtain htake | ⟨outcome, hc, ho, htake⟩ := o.take_cases i
  · rw [htake]
    exact h
  · rw [htake]
    exact h.set hc rfl ho

theorem leave (h : Agrees asked begun o) (i : Nat) : Agrees asked begun (o.leave i) := by
  obtain hleave | ⟨c, hc, hnone, hleave⟩ := o.leave_cases i
  · rw [hleave]
    exact h
  rw [hleave]
  obtain ⟨u, v, hl, -, herase⟩ := filterMap_at Caller.elected? hc
  -- who leaves was not elected, so the same work is still to be begun
  refine ⟨h.stage, h.started, h.runs, ?_, ?_⟩
  · show (o.callers.eraseIdx i).filterMap Caller.elected? ++ begun = _
    rw [hnone, Option.toList_none, List.append_nil] at hl
    rw [herase, ← hl]
    exact h.elected
  · intro k hk
    exact h.callers k (List.mem_of_mem_eraseIdx hk)

/-- **Each move keeps the invariant.** -/
theorem apply (h : Agrees asked begun o) (m : Move α) :
    Agrees (asked ++ (o.askedAt? m).toList) (begun ++ (o.begunAt? m).toList) (o.apply m) := by
  -- works are noted at two moves only
  have hnone : Agrees asked begun (o.apply m) → o.askedAt? m = none → o.begunAt? m = none →
      Agrees (asked ++ (o.askedAt? m).toList) (begun ++ (o.begunAt? m).toList) (o.apply m) := by
    intro hm hasked hbegun
    rwa [hasked, hbegun, Option.toList_none, List.append_nil, List.append_nil]
  cases m with
  -- otherwise each move has its own lemma
  | arrive w => exact hnone (h.arrive w) rfl rfl
  | ask i =>
    show Agrees _ (begun ++ []) _
    rw [List.append_nil]
    exact h.ask i
  | launch i =>
    show Agrees (asked ++ []) _ _
    rw [List.append_nil]
    exact h.launch i
  | finish => exact hnone h.finish rfl rfl
  | settle => exact hnone h.settle rfl rfl
  | take i => exact hnone (h.take i) rfl rfl
  | leave i => exact hnone (h.leave i) rfl rfl

theorem run (h : Agrees asked begun o) (moves : List (Move α)) :
    Agrees (asked ++ o.asked moves) (begun ++ o.begun moves) (o.run moves) := by
  induction moves generalizing asked begun o with
  | nil => rwa [Once.asked, Once.begun, List.append_nil, List.append_nil]
  | cons m rest ih =>
    rw [Once.asked, Once.begun, ← List.append_assoc, ← List.append_assoc]
    exact ih (h.apply m)

end Agrees

/-! ### What can be seen from outside -/

/-- Nothing that can be seen is taken back. -/
structure Persists (o o' : Once α) : Prop where
  flag : o.started = true → o'.started = true
  outcome : ∀ outcome, o.promise.outcome? = some outcome → o'.promise.outcome? = some outcome

theorem Persists.refl (o : Once α) : o.Persists o :=
  ⟨id, fun _ => id⟩

theorem Persists.trans {o o' o'' : Once α} (h : o.Persists o') (h' : o'.Persists o'') :
    o.Persists o'' :=
  ⟨h'.flag ∘ h.flag, fun outcome => h'.outcome outcome ∘ h.outcome outcome⟩

/-- A move changes nothing that can be seen, or puts the flag up, or settles the promise, and it
does only one of these. -/
theorem apply_cases (o : Once α) (m : Move α) :
    ((o.apply m).started = o.started ∧ (o.apply m).promise = o.promise) ∨
      ((o.apply m).started = true ∧ (o.apply m).promise = o.promise) ∨
      ∃ ending, o.task = .ended ending ∧ o.promise.outcome? = none ∧
        (o.apply m).started = o.started ∧
        (o.apply m).promise.outcome? = some (contain ending) := by
  cases m with
  | arrive w => exact Or.inl ⟨rfl, rfl⟩
  | ask i =>
    show ((o.ask i).started = _ ∧ (o.ask i).promise = _) ∨ _
    obtain ⟨-, hask⟩ | ⟨w, -, -, hask⟩ := o.ask_cases i
    · exact Or.inl (by rw [hask]; exact ⟨rfl, rfl⟩)
    · -- asking raises the flag unless it was up
      by_cases hstarted : o.started = true
      · rw [if_pos hstarted] at hask
        exact Or.inl (by rw [hask]; exact ⟨rfl, rfl⟩)
      · rw [if_neg hstarted] at hask
        refine Or.inr (Or.inl ?_)
        show (o.ask i).started = true ∧ (o.ask i).promise = o.promise
        rw [hask]
        exact ⟨rfl, rfl⟩
  -- what follows is seen by nobody until the promise is settled
  | launch i =>
    obtain ⟨-, h⟩ | ⟨w, -, -, h⟩ := o.launch_cases i
    all_goals exact Or.inl (by rw [apply, h]; exact ⟨rfl, rfl⟩)
  | finish =>
    refine Or.inl ?_
    show o.finish.started = _ ∧ o.finish.promise = _
    unfold finish
    split
    all_goals exact ⟨rfl, rfl⟩
  -- the promise changes here and nowhere else, and only if it was open
  | settle =>
    show (o.settle.started = _ ∧ o.settle.promise = _) ∨ (o.settle.started = _ ∧ _) ∨
      ∃ ending, _ ∧ _ ∧ o.settle.started = _ ∧ o.settle.promise.outcome? = _
    unfold settle
    cases ht : o.task with
    | ended ending =>
      cases ho : o.promise.outcome? with
      | none =>
        refine Or.inr (Or.inr ⟨ending, rfl, rfl, ?_⟩)
        simp only [Promise.settle, ho, and_self]
      | some outcome =>
        refine Or.inl ?_
        simp only [Promise.settle, ho, and_self]
    | absent => exact Or.inl ⟨rfl, rfl⟩
    | begun _ => exact Or.inl ⟨rfl, rfl⟩
    | settled => exact Or.inl ⟨rfl, rfl⟩
  | take i =>
    obtain h | ⟨outcome, -, -, h⟩ := o.take_cases i
    all_goals exact Or.inl (by rw [apply, h]; exact ⟨rfl, rfl⟩)
  | leave i =>
    obtain h | ⟨c, -, -, h⟩ := o.leave_cases i
    all_goals exact Or.inl (by rw [apply, h]; exact ⟨rfl, rfl⟩)

theorem persists_apply (o : Once α) (m : Move α) : o.Persists (o.apply m) := by
  obtain ⟨hflag, hpromise⟩ | ⟨hflag, hpromise⟩ | ⟨ending, -, hopen, hflag, -⟩ := o.apply_cases m
  · exact ⟨fun h => hflag.trans h, fun outcome h => by rw [hpromise, h]⟩
  · exact ⟨fun _ => hflag, fun outcome h => by rw [hpromise, h]⟩
  · refine ⟨fun h => hflag.trans h, fun outcome h => ?_⟩
    rw [hopen] at h
    cases h

theorem persists_run (o : Once α) (moves : List (Move α)) : o.Persists (o.run moves) := by
  induction moves generalizing o with
  | nil => exact .refl o
  | cons m rest ih => exact (o.persists_apply m).trans (ih (o.apply m))

/-- **Two looks, one after the other.** Each is at the promise first and at the flag later. -/
theorem before_of_persists {promise₁ flag₁ promise₂ flag₂ : Once α}
    (hpromise : promise₁.Persists promise₂) (hflag : flag₁.Persists flag₂) :
    (Status.read promise₁.promise.outcome? flag₁.started).Before
      (.read promise₂.promise.outcome? flag₂.started) := by
  cases ho : promise₁.promise.outcome? with
  | some outcome =>
    -- an outcome that was found is found again
    rw [hpromise.outcome outcome ho]
    cases outcome <;> rfl
  | none =>
    cases hs : flag₁.started with
    | false => trivial
    -- the flag stays up, so what was asked for does not become unasked
    | true =>
      rw [hflag.flag hs]
      show Status.read promise₂.promise.outcome? true ≠ .unprocessed
      rcases promise₂.promise.outcome? with _ | (_ | _) <;> exact Status.noConfusion

/-- **The status moves one on,** or stays as it is. -/
theorem Agrees.status_apply {asked begun : List (Work α)} {o : Once α} (h : Agrees asked begun o)
    (m : Move α) :
    (o.apply m).status = o.status ∨
      (o.status = .unprocessed ∧ (o.apply m).status = .inFlight) ∨
      (o.status = .inFlight ∧
        ((o.apply m).status = .succeeded ∨ (o.apply m).status = .failed)) := by
  obtain ⟨hflag, hpromise⟩ | ⟨hflag, hpromise⟩ | ⟨ending, ht, hopen, -, hsettled⟩ := o.apply_cases m
  · refine Or.inl ?_
    unfold status
    rw [hflag, hpromise]
  · unfold status
    rw [hflag, hpromise]
    -- with an outcome the flag is not looked at
    cases ho : o.promise.outcome? with
    | some outcome => cases outcome <;> exact Or.inl rfl
    | none =>
      cases o.started with
      | true => exact Or.inl rfl
      | false => exact Or.inr (Or.inl ⟨rfl, rfl⟩)
  · -- there is something to settle only when someone has asked
    obtain ⟨w, hfirst, -, -, -⟩ := h.settle_ended ht
    have hstarted : o.started = true := by rw [h.started, hfirst]; rfl
    refine Or.inr (Or.inr ⟨?_, ?_⟩)
    · unfold status
      rw [hopen, hstarted]
      rfl
    · unfold status
      rw [hsettled]
      cases contain ending with
      | ok _ => exact Or.inl rfl
      | error _ => exact Or.inr rfl

/-! ### Callers who leave -/

/-- The place of a caller while the one who will leave still stands at `gone`. -/
def placeBefore (gone i : Nat) : Nat :=
  if i < gone then i else i + 1

theorem placeBefore_ne (gone i : Nat) : placeBefore gone i ≠ gone := by
  unfold placeBefore
  split <;> omega

theorem getElem?_placeBefore {β : Type} (l : List β) (gone i : Nat) :
    (l.eraseIdx gone)[i]? = l[placeBefore gone i]? := by
  rw [List.getElem?_eraseIdx, placeBefore]
  split <;> rfl

/-- Replacing an item and taking another one out can be done in any order. -/
theorem set_eraseIdx {β : Type} (l : List β) (gone i : Nat) (b : β) :
    (l.eraseIdx gone).set i b = (l.set (placeBefore gone i) b).eraseIdx gone := by
  refine List.ext_getElem? fun j => ?_
  simp only [List.getElem?_set, List.getElem?_eraseIdx, List.length_eraseIdx, placeBefore]
  grind

/-- Two items can be taken out in any order. -/
theorem eraseIdx_eraseIdx {β : Type} (l : List β) (gone i : Nat) :
    (l.eraseIdx gone).eraseIdx i
      = (l.eraseIdx (placeBefore gone i)).eraseIdx (if i < gone then gone - 1 else gone) := by
  refine List.ext_getElem? fun j => ?_
  simp only [List.getElem?_eraseIdx, placeBefore]
  grind

/-- One state is the other one without a caller, who has no work to begin. -/
structure Lacks (gone : Nat) (c : Caller α) (o o' : Once α) : Prop where
  caller : o.callers[gone]? = some c
  idle : c.elected? = none
  eq : o' = { o with callers := o.callers.eraseIdx gone }

/-- A caller who has no work to begin may leave, which takes it out. -/
theorem lacks_leave {o : Once α} {gone : Nat} {c : Caller α} (hc : o.callers[gone]? = some c)
    (hidle : c.elected? = none) : Lacks gone c o (o.leave gone) := by
  refine ⟨hc, hidle, ?_⟩
  unfold Once.leave
  rw [hc]
  cases c with
  | elected w => cases hidle
  | arriving w => rfl
  | waiting => rfl
  | returned outcome => rfl

namespace Lacks

variable {gone : Nat} {c : Caller α} {o o' : Once α}

theorem eq_leave (h : Lacks gone c o o') : o' = o.leave gone :=
  h.eq.trans (lacks_leave h.caller h.idle).eq.symm

/-- Someone else goes on in its place, while flag, task and promise come to the same. -/
theorem set (h : Lacks gone c o o') (i : Nat) (b : Caller α) (started : Bool) (task : WorkTask α)
    (promise : Promise CompileError α) (runs : Nat) :
    Lacks gone c ⟨started, task, promise, o.callers.set (placeBefore gone i) b, runs⟩
      ⟨started, task, promise, (o.callers.eraseIdx gone).set i b, runs⟩ := by
  refine ⟨?_, h.idle, ?_⟩
  · show (o.callers.set (placeBefore gone i) b)[gone]? = some c
    rw [List.getElem?_set_ne (placeBefore_ne gone i), h.caller]
  · rw [set_eraseIdx]

theorem arrive (h : Lacks gone c o o') (w : Work α) :
    Lacks gone c (o.arrive w) (o'.arrive w) := by
  have hlt : gone < o.callers.length := (List.getElem?_eq_some_iff.mp h.caller).1
  refine ⟨?_, h.idle, ?_⟩
  · show (o.callers ++ [Caller.arriving w])[gone]? = some c
    rw [List.getElem?_append_left hlt, h.caller]
  · rw [h.eq]
    unfold Once.arrive
    rw [List.eraseIdx_append_of_lt_length hlt]

theorem ask (h : Lacks gone c o o') (i : Nat) :
    Lacks gone c (o.ask (placeBefore gone i)) (o'.ask i) := by
  rw [h.eq]
  simp only [Once.ask, getElem?_placeBefore]
  rcases o.callers[placeBefore gone i]? with _ | (w | _ | _ | _)
  case some.arriving =>
    simp only
    split
    all_goals exact h.set i _ _ _ _ _
  all_goals exact ⟨h.caller, h.idle, rfl⟩

theorem launch (h : Lacks gone c o o') (i : Nat) :
    Lacks gone c (o.launch (placeBefore gone i)) (o'.launch i) := by
  rw [h.eq]
  simp only [Once.launch, getElem?_placeBefore]
  rcases o.callers[placeBefore gone i]? with _ | (_ | w | _ | _)
  case some.elected => exact h.set i _ _ _ _ _
  all_goals exact ⟨h.caller, h.idle, rfl⟩

theorem take (h : Lacks gone c o o') (i : Nat) :
    Lacks gone c (o.take (placeBefore gone i)) (o'.take i) := by
  rw [h.eq]
  simp only [Once.take, getElem?_placeBefore]
  rcases o.callers[placeBefore gone i]? with _ | (_ | _ | _ | _)
  case some.waiting =>
    rcases o.promise.outcome? with _ | outcome
    · exact ⟨h.caller, h.idle, rfl⟩
    · exact h.set i _ _ _ _ _
  all_goals exact ⟨h.caller, h.idle, rfl⟩

/-- What the tasks do does not depend on who is there. -/
theorem finish (h : Lacks gone c o o') : Lacks gone c o.finish o'.finish := by
  obtain ⟨hcaller, hidle, rfl⟩ := h
  obtain ⟨started, task, promise, callers, runs⟩ := o
  cases task
  all_goals exact ⟨hcaller, hidle, rfl⟩

theorem settle (h : Lacks gone c o o') : Lacks gone c o.settle o'.settle := by
  obtain ⟨hcaller, hidle, rfl⟩ := h
  obtain ⟨started, task, promise, callers, runs⟩ := o
  unfold Once.settle
  -- settling does not look at the callers
  cases task with
  | ended ending =>
    simp only
    cases promise.settle (contain ending)
    all_goals exact ⟨hcaller, hidle, rfl⟩
  | absent => exact ⟨hcaller, hidle, rfl⟩
  | begun _ => exact ⟨hcaller, hidle, rfl⟩
  | settled => exact ⟨hcaller, hidle, rfl⟩

/-- Someone else leaves, after which the caller may stand one place further to the front. -/
theorem leave (h : Lacks gone c o o') (i : Nat) :
    ∃ gone', Lacks gone' c (o.leave (placeBefore gone i)) (o'.leave i) := by
  have hlt : gone < o.callers.length := (List.getElem?_eq_some_iff.mp h.caller).1
  have hcaller := h.caller
  have herase : ∃ gone', Lacks gone' c { o with callers := o.callers.eraseIdx (placeBefore gone i) }
      { o with callers := (o.callers.eraseIdx gone).eraseIdx i } := by
    -- the caller that is missing moves up when one before it leaves
    refine ⟨if i < gone then gone - 1 else gone, ?_, h.idle, ?_⟩
    · show (o.callers.eraseIdx (placeBefore gone i))[_]? = some c
      rw [List.getElem?_eraseIdx, placeBefore]
      grind
    · rw [eraseIdx_eraseIdx]
  rw [h.eq]
  simp only [Once.leave, getElem?_placeBefore]
  rcases o.callers[placeBefore gone i]? with _ | (_ | _ | _ | _)
  -- an elected caller stays in both
  case some.elected => exact ⟨gone, h.caller, h.idle, rfl⟩
  all_goals exact herase

/-- **Whatever happens without the caller happens just so with it around,** if it does nothing. -/
theorem apply (h : Lacks gone c o o') (m : Move α) :
    ∃ m' gone', Lacks gone' c (o.apply m') (o'.apply m) := by
  cases m with
  | arrive w => exact ⟨.arrive w, gone, h.arrive w⟩
  | ask i => exact ⟨.ask (placeBefore gone i), gone, h.ask i⟩
  | launch i => exact ⟨.launch (placeBefore gone i), gone, h.launch i⟩
  | finish => exact ⟨.finish, gone, h.finish⟩
  | settle => exact ⟨.settle, gone, h.settle⟩
  | take i => exact ⟨.take (placeBefore gone i), gone, h.take i⟩
  | leave i => exact ⟨.leave (placeBefore gone i), h.leave i⟩

theorem run (h : Lacks gone c o o') (later : List (Move α)) :
    ∃ later' gone', later'.length = later.length ∧ Lacks gone' c (o.run later') (o'.run later) := by
  induction later generalizing gone o o' with
  | nil => exact ⟨[], gone, rfl, h⟩
  | cons m rest ih =>
    obtain ⟨m', gone₁, hm⟩ := h.apply m
    obtain ⟨rest', gone', hlength, hrest⟩ := ih hm
    exact ⟨m' :: rest', gone', congrArg (· + 1) hlength, hrest⟩

end Lacks

/-! ### Callers who wait -/

section Waits

variable {o : Once α} {i : Nat} {w : Work α}

/-- A caller takes an outcome that is there. -/
theorem take_of_settled (hi : o.callers[i]? = some .waiting)
    (ho : o.promise.outcome? = some (contain w.ending)) :
    (o.take i).callers[i]? = some (.returned (contain w.ending)) := by
  have hlt := (List.getElem?_eq_some_iff.mp hi).1
  unfold Once.take
  rw [hi, ho]
  exact List.getElem?_set_self hlt

/-- When the work has ended, there is one more move before the outcome is there. -/
theorem take_of_ended (hi : o.callers[i]? = some .waiting) (ht : o.task = .ended w.ending)
    (hp : o.promise = .pending) :
    (o.settle.take i).callers[i]? = some (.returned (contain w.ending)) := by
  apply take_of_settled
  all_goals unfold Once.settle; rw [ht, hp]
  · exact hi
  · rfl

/-- When the work was begun, there are two. -/
theorem take_of_begun (hi : o.callers[i]? = some .waiting) (ht : o.task = .begun w)
    (hp : o.promise = .pending) :
    (o.finish.settle.take i).callers[i]? = some (.returned (contain w.ending)) := by
  apply take_of_ended
  all_goals unfold Once.finish; rw [ht]
  · exact hi
  · exact hp

end Waits

namespace Agrees

variable {asked begun : List (Work α)} {o : Once α}

/-- A caller who waits returns as soon as the tasks have done what is left to do. -/
theorem returns (h : Agrees asked begun o) {i : Nat} (hi : o.callers[i]? = some .waiting) :
    ∃ w later, asked.head? = some w ∧
      (o.run later).callers[i]? = some (.returned (contain w.ending)) := by
  have hstage := h.stage
  have hwaits : asked.head?.isSome := h.callers _ (List.mem_of_getElem? hi)
  have helected := h.elected
  generalize hp : o.promise.outcome? = outcome? at hstage
  generalize ht : o.task = task at hstage
  generalize asked.head? = first? at hstage hwaits helected ⊢
  -- from each stage on, the steps that are still missing are taken one after the other
  cases hstage with
  -- nobody waits for what nobody has asked for
  | unasked => cases hwaits
  | settled w => exact ⟨w, [.take i], rfl, take_of_settled hi hp⟩
  | ended w => exact ⟨w, [.settle, .take i], rfl, take_of_ended hi ht (congrArg Promise.mk hp)⟩
  | begun w =>
    exact ⟨w, [.finish, .settle, .take i], rfl, take_of_begun hi ht (congrArg Promise.mk hp)⟩
  | elected w =>
    -- the first caller to ask is still there, and it is not the one who waits
    obtain ⟨c, hc, hw⟩ : ∃ c ∈ o.callers, c.elected? = some w := by
      rw [List.append_nil] at helected
      exact List.mem_filterMap.mp (helected ▸ List.mem_singleton_self w)
    obtain ⟨k, hk⟩ := List.getElem?_of_mem hc
    obtain rfl : c = .elected w := by
      cases c <;> cases hw
      rfl
    have hne : k ≠ i := by
      rintro rfl
      rw [hk] at hi
      cases hi
    refine ⟨w, [.launch k, .finish, .settle, .take i], rfl, ?_⟩
    show ((o.launch k).finish.settle.take i).callers[i]? = _
    apply take_of_begun
    all_goals unfold Once.launch; rw [hk]
    · exact (List.getElem?_set_ne hne).trans hi
    · exact congrArg Promise.mk hp

end Agrees

/-! ### Courses from the beginning -/

/-- **What a course comes to.** -/
structure Course (moves : List (Move α)) : Prop where
  /-- At most one work is begun, and it is that of the first caller to ask. -/
  begun : idle.begun moves = [] ∨
    ∃ w, idle.begun moves = [w] ∧ (idle.asked moves).head? = some w
  /-- The works that are begun are counted. -/
  runs : (idle.run moves).runs = (idle.begun moves).length
  /-- A caller who returns has the outcome of that work, where a panic has become an error. -/
  returned : ∀ (i : Nat) (outcome : Outcome α),
    (idle.run moves).callers[i]? = some (Caller.returned outcome) →
    ∃ w, idle.begun moves = [w] ∧ outcome = contain w.ending
  /-- A caller who waits returns as soon as the tasks have done what is left to do. -/
  returns : ∀ i : Nat, (idle.run moves).callers[i]? = some Caller.waiting →
    ∃ w later, (idle.asked moves).head? = some w ∧
      (idle.run (moves ++ later)).callers[i]? = some (Caller.returned (contain w.ending))
  /-- The task that settles finds an open promise. -/
  accepted : ∀ ending, (idle.run moves).task = .ended ending →
    (idle.run moves).promise.settle (contain ending) = .ok ⟨some (contain ending)⟩
  /-- A caller who leaves changes nothing: whatever happens then could happen while it stays where
  it is, and would come to the same for everyone else. -/
  leaves : ∀ (i : Nat) (c : Caller α), (idle.run moves).callers[i]? = some c → c.elected? = none →
    ∀ later, ∃ (later' : List (Move α)) (i' : Nat), later'.length = later.length ∧
      (idle.run (moves ++ later')).callers[i']? = some c ∧
      ((idle.run moves).leave i).run later = (idle.run (moves ++ later')).leave i'
  /-- Each move takes the status one on or leaves it as it is. -/
  moves_on : ∀ m, (idle.run (moves ++ [m])).status = (idle.run moves).status ∨
    ((idle.run moves).status = .unprocessed ∧ (idle.run (moves ++ [m])).status = .inFlight) ∨
    ((idle.run moves).status = .inFlight ∧
      ((idle.run (moves ++ [m])).status = .succeeded ∨ (idle.run (moves ++ [m])).status = .failed))
  /-- Who looks twice, each time at the promise first and at the flag later, sees statuses in their
  order. -/
  looks : ∀ between pause between',
    (Status.read (idle.run moves).promise.outcome? (idle.run (moves ++ between)).started).Before
      (.read (idle.run (moves ++ between ++ pause)).promise.outcome?
        (idle.run (moves ++ between ++ pause ++ between')).started)
  /-- Value and error are those of the work, and they are there when the status says so. -/
  shown : match (idle.run moves).status with
    | .unprocessed => idle.asked moves = [] ∧ (idle.run moves).result? = none ∧
        (idle.run moves).error? = none
    | .inFlight => idle.asked moves ≠ [] ∧ (idle.run moves).result? = none ∧
        (idle.run moves).error? = none
    | .succeeded => ∃ w value, idle.begun moves = [w] ∧ contain w.ending = .ok value ∧
        (idle.run moves).result? = some value ∧ (idle.run moves).error? = none
    | .failed => ∃ w e, idle.begun moves = [w] ∧ contain w.ending = .error e ∧
        (idle.run moves).result? = none ∧ (idle.run moves).error? = some e

/-- Nobody's work is begun yet, or that of the first caller to ask is and no other. -/
theorem Agrees.begun_cases {asked begun : List (Work α)} {o : Once α} (h : Agrees asked begun o) :
    begun = [] ∨ ∃ w, begun = [w] ∧ asked.head? = some w := by
  have hstage := h.stage
  generalize asked.head? = first? at hstage ⊢
  generalize o.promise.outcome? = outcome? at hstage
  generalize o.task = task at hstage
  -- each stage says which work was begun
  cases hstage with
  | unasked => exact Or.inl rfl
  | elected w => exact Or.inl rfl
  | begun w => exact Or.inr ⟨w, rfl, rfl⟩
  | ended w => exact Or.inr ⟨w, rfl, rfl⟩
  | settled w => exact Or.inr ⟨w, rfl, rfl⟩

/-- An outcome that is there is that of the work that was begun. -/
theorem Agrees.outcome_eq {asked begun : List (Work α)} {o : Once α} (h : Agrees asked begun o)
    {outcome : Outcome α} (ho : o.promise.outcome? = some outcome) :
    ∃ w, begun = [w] ∧ outcome = contain w.ending := by
  have hstage := h.stage
  rw [ho] at hstage
  generalize asked.head? = first? at hstage
  generalize o.task = task at hstage
  cases hstage with
  | settled w => exact ⟨w, rfl, rfl⟩

/-- **One work for all who ask.** In every course of moves, of however many callers with whatever
works, the first caller to ask has its work begun and nobody else has; everyone who returns has its
outcome; and the status, value and error that can be seen go with it and never back. -/
theorem run_course (moves : List (Move α)) : Course moves := by
  have h := (agrees_idle (α := α)).run moves
  rw [List.nil_append, List.nil_append] at h
  -- all is read off from what the run agrees with, but for the two looks and for who leaves
  refine ⟨?begun, ?runs, ?returned, ?returns, ?accepted, ?leaves, ?moves_on, ?looks, ?shown⟩
  case begun =>
    exact h.begun_cases
  case runs =>
    exact h.runs
  case returned =>
    intro i outcome hi
    exact h.outcome_eq (h.callers _ (List.mem_of_getElem? hi))
  case returns =>
    intro i hi
    obtain ⟨w, later, hfirst, hlater⟩ := h.returns hi
    exact ⟨w, later, hfirst, by rw [run_append]; exact hlater⟩
  case accepted =>
    intro ending ht
    obtain ⟨-, -, -, -, hopen⟩ := h.settle_ended ht
    rw [hopen]
    rfl
  -- the run without the caller goes on as the run with it, its moves renumbered
  case leaves =>
    intro i c hi hidle later
    obtain ⟨later', i', hlength, hlacks⟩ := (lacks_leave hi hidle).run later
    refine ⟨later', i', hlength, ?_, ?_⟩
    · rw [run_append]
      exact hlacks.caller
    · rw [run_append]
      exact hlacks.eq_leave
  case moves_on =>
    intro m
    rw [run_append]
    exact h.status_apply m
  -- each look comes later in the run than the one before it
  case looks =>
    intro between pause between'
    refine before_of_persists ?_ ?_
    · rw [List.append_assoc, run_append idle moves]
      exact persists_run _ _
    · rw [List.append_assoc _ pause, run_append idle (moves ++ between)]
      exact persists_run _ _
  -- the flag says whether anyone has asked, the promise how the work has ended
  case shown =>
    have hstarted := h.started
    have houtcome := @h.outcome_eq
    unfold status result? error?
    generalize (idle.run moves).started = started at hstarted ⊢
    cases ho : (idle.run moves).promise.outcome? with
    | none =>
      cases hasked : idle.asked moves with
      | nil =>
        rw [hasked] at hstarted
        rw [hstarted]
        exact ⟨rfl, rfl, rfl⟩
      | cons w rest =>
        rw [hasked] at hstarted
        rw [hstarted]
        exact ⟨List.cons_ne_nil _ _, rfl, rfl⟩
    | some outcome =>
      obtain ⟨w, hbegun, hw⟩ := houtcome ho
      cases outcome with
      | ok value => exact ⟨w, value, hbegun, hw.symm, rfl, rfl⟩
      | error e => exact ⟨w, e, hbegun, hw.symm, rfl, rfl⟩

end Once

end ObjectMarkup
