import ObjectMarkup.Concurrency.Promise

/-!
# Settled once and seen by all

Settlers come with what they offer, and waiters come to wait for what is stored. Each of them takes
single steps: a settler stores its offer and then wakes those who have registered, and a waiter
registers, looks, sleeps and begins again when it is woken. A course of `Move`s has these steps in
any order, for any number of people. `Gathering.settled_course` says what every course from
`Gathering.empty` comes to: one offer is stored and stays, everyone else who comes with one is
refused, everyone who returns has what is stored, and nobody sleeps through it.

The promise is stored at one step and the waiters are woken at a later one, so between the two a
waiter may sleep although there is something to find. The invariant, `Gathering.Agrees`, therefore
tells three stages apart: nothing is stored, the settler whose offer is stored has not woken anyone,
and it has. Only the last one excludes sleepers that nobody wakes (`Stage.woken`). It is entered by
waking all of them at once, and in it nobody falls asleep any more: a waiter looks after it has
registered, and then there is something to find (`Waiter.advance_ne_parked`).
-/

namespace ObjectMarkup

universe u v

variable {ε : Type u} {α : Type v}

/-- The settler has its offer stored. -/
def Settler.Accepted : Settler ε α → Prop
  | .stored | .finished none => True
  | _ => False

/-- The settler has tried to store its offer. -/
def Settler.Tried : Settler ε α → Prop
  | .arriving _ => False
  | _ => True

/-- A settler whose offer is not the one that is stored: it has not tried, or was told the state of
what is stored. -/
def Settler.LeftOut (stored? : Option (Except ε α)) (offer : Except ε α) (s : Settler ε α) : Prop :=
  s = .arriving offer ∨
    ∃ stored, stored? = some stored ∧ s = .finished (some ⟨Promise.stateOf stored⟩)

namespace Waiter

/-- Who looks when something is stored does not fall asleep. -/
theorem advance_ne_parked {p : Promise ε α} {stored : Except ε α} (hp : p.outcome? = some stored)
    {w : Waiter ε α} (hw : w ≠ .parked false) : w.advance p ≠ .parked false := by
  intro h
  cases w with
  | arriving => cases h
  -- who looks now finds the promise settled
  | registered woken =>
    rw [advance, hp] at h
    cases h
  | parked woken =>
    -- one that was woken comes again, and one that was not was excluded
    cases woken with
    | false => exact hw rfl
    | true => cases h
  | finished o => cases h

/-- What a waiter returns with is what is stored. -/
theorem stored_of_advance {p : Promise ε α} {w : Waiter ε α} {o : Except ε α}
    (hw : ∀ o, w = .finished o → p.outcome? = some o) (h : w.advance p = .finished o) :
    p.outcome? = some o := by
  cases w with
  | arriving => cases h
  | registered woken =>
    unfold advance at h
    cases hp : p.outcome? with
    | none =>
      rw [hp] at h
      cases h
    | some stored =>
      rw [hp] at h
      cases h
      rfl
  | parked woken => cases woken <;> cases h
  -- who has returned before has found it before
  | finished o' =>
    cases h
    exact hw o rfl

/-- How many steps of its own a waiter is away from returning, once something is stored. One that
sleeps and was not woken is counted as if it were. -/
def distance : Waiter ε α → Nat
  | .parked _ => 3
  | .arriving => 2
  | .registered _ => 1
  | .finished _ => 0

theorem distance_le (w : Waiter ε α) : w.distance ≤ 3 := by
  cases w with
  | arriving => exact Nat.le_succ 2
  | registered woken => exact Nat.le_add_right 1 2
  | parked woken => exact Nat.le_refl 3
  | finished o => exact Nat.zero_le 3

theorem distance_wake (w : Waiter ε α) : w.wake.distance = w.distance := by
  cases w <;> rfl

theorem wake_ne_parked (w : Waiter ε α) : w.wake ≠ .parked false := by
  cases w <;> exact fun h => nomatch h

/-- Waking is nothing to someone who has returned. -/
theorem wake_eq_finished {w : Waiter ε α} {o : Except ε α} (h : w.wake = .finished o) :
    w = .finished o := by
  cases w with
  | finished o' => exact h
  | _ => cases h

/-- Each step brings a waiter closer. -/
theorem distance_advance {p : Promise ε α} {stored : Except ε α} (hp : p.outcome? = some stored)
    {w : Waiter ε α} (hw : w ≠ .parked false) : (w.advance p).distance = w.distance - 1 := by
  -- each step brings a waiter on, unless it sleeps
  cases w with
  | arriving => rfl
  | registered woken =>
    unfold advance
    rw [hp]
    rfl
  | parked woken =>
    cases woken with
    | false => exact absurd rfl hw
    | true => rfl
  | finished o => rfl

theorem eq_finished_of_distance {w : Waiter ε α} (h : w.distance = 0) : ∃ o, w = .finished o := by
  cases w with
  | finished o => exact ⟨o, rfl⟩
  | _ => cases h

end Waiter

namespace Gathering

/-! ### Courses of moves -/

/-- A single step of one of those who take part. -/
inductive Move (ε : Type u) (α : Type v) where
  /-- A settler comes with what it offers. -/
  | offer (outcome : Except ε α)
  /-- A waiter comes. -/
  | arrive
  | store (settler : Nat)
  | wakeAll (settler : Nat)
  | advance (waiter : Nat)

/-- What a settler comes with at a move. -/
def Move.offered? : Move ε α → Option (Except ε α)
  | .offer outcome => some outcome
  | _ => none

/-- The waiter whose step a move is. -/
def Move.waiter? : Move ε α → Option Nat
  | .advance waiter => some waiter
  | _ => none

def apply (g : Gathering ε α) : Move ε α → Gathering ε α
  | .offer outcome => { g with settlers := g.settlers ++ [.arriving outcome] }
  | .arrive => { g with waiters := g.waiters ++ [.arriving] }
  | .store settler => g.store settler
  | .wakeAll settler => g.wakeAll settler
  | .advance waiter => g.advance waiter

def run (g : Gathering ε α) (moves : List (Move ε α)) : Gathering ε α :=
  moves.foldl apply g

@[simp] theorem run_nil (g : Gathering ε α) : g.run [] = g := rfl

@[simp] theorem run_cons (g : Gathering ε α) (m : Move ε α) (moves : List (Move ε α)) :
    g.run (m :: moves) = (g.apply m).run moves := rfl

theorem run_append (g : Gathering ε α) (moves later : List (Move ε α)) :
    g.run (moves ++ later) = (g.run moves).run later :=
  List.foldl_append

/-- What the settlers of a course have come with, in the order in which they came. -/
def offers (moves : List (Move ε α)) : List (Except ε α) :=
  moves.filterMap Move.offered?

/-- How many steps a waiter takes in a course. -/
def stepsOf (waiter : Nat) (moves : List (Move ε α)) : Nat :=
  (moves.filterMap Move.waiter?).count waiter

/-! ### What a single step does -/

/-- A settler that has not tried does so, and is accepted if nothing is stored; a step of anyone
else is none. -/
theorem store_cases (g : Gathering ε α) (i : Nat) :
    ((∀ own, g.settlers[i]? ≠ some (.arriving own)) ∧ g.store i = g) ∨
      ∃ own, g.settlers[i]? = some (.arriving own) ∧
        ((g.promise.outcome? = none ∧
            g.store i = { g with promise := ⟨some own⟩, settlers := g.settlers.set i .stored }) ∨
          ∃ stored, g.promise.outcome? = some stored ∧
            g.store i = { g with
              settlers := g.settlers.set i (.finished (some ⟨Promise.stateOf stored⟩)) }) := by
  unfold store
  cases hs : g.settlers[i]? with
  | none => exact Or.inl ⟨fun _ h => (nomatch h), rfl⟩
  | some s =>
    cases s with
    -- it stores what it offers, or learns in which state the promise is
    | arriving own =>
      refine Or.inr ⟨own, rfl, ?_⟩
      simp only [Promise.settle]
      cases g.promise.outcome? with
      | none => exact Or.inl ⟨rfl, rfl⟩
      | some stored => exact Or.inr ⟨stored, rfl, rfl⟩
    | stored => exact Or.inl ⟨fun _ h => (nomatch h), rfl⟩
    | finished refused => exact Or.inl ⟨fun _ h => (nomatch h), rfl⟩

/-- A settler that has stored its offer wakes the waiters. -/
theorem wakeAll_cases (g : Gathering ε α) (i : Nat) :
    (g.settlers[i]? ≠ some .stored ∧ g.wakeAll i = g) ∨
      (g.settlers[i]? = some .stored ∧
        g.wakeAll i = { g with
          settlers := g.settlers.set i (.finished none), waiters := g.waiters.map Waiter.wake }) := by
  unfold wakeAll
  cases hs : g.settlers[i]? with
  | none => exact Or.inl ⟨fun h => (nomatch h), rfl⟩
  | some s =>
    cases s with
    | arriving own => exact Or.inl ⟨fun h => (nomatch h), rfl⟩
    -- only the one whose offer is stored has someone to wake
    | stored => exact Or.inr ⟨rfl, rfl⟩
    | finished refused => exact Or.inl ⟨fun h => (nomatch h), rfl⟩

/-- A waiter after a step of one of them. -/
theorem mem_modify {p : Promise ε α} {ws : List (Waiter ε α)} {i : Nat} {w : Waiter ε α}
    (h : w ∈ ws.modify i (·.advance p)) : w ∈ ws ∨ ∃ w' ∈ ws, w = w'.advance p := by
  obtain ⟨k, hk⟩ := List.getElem?_of_mem h
  rw [List.getElem?_modify] at hk
  obtain ⟨w', hw', rfl⟩ := Option.map_eq_some_iff.mp hk
  have hmem := List.mem_of_getElem? hw'
  by_cases hik : i = k
  · rw [if_pos hik]
    exact Or.inr ⟨w', hmem, rfl⟩
  · rw [if_neg hik]
    exact Or.inl hmem

/-- Someone in a list to which one has come. -/
theorem getElem?_concat_cases {β : Type v} {l : List β} {b c : β} {k : Nat}
    (h : (l ++ [b])[k]? = some c) : l[k]? = some c ∨ (k = l.length ∧ c = b) := by
  rcases Nat.lt_or_ge k l.length with hlt | hge
  · rw [List.getElem?_append_left hlt] at h
    exact Or.inl h
  · obtain rfl : k = l.length := by
      have hlen := (List.getElem?_eq_some_iff.mp h).1
      rw [List.length_append, List.length_singleton] at hlen
      omega
    rw [List.getElem?_concat_length] at h
    exact Or.inr ⟨rfl, (Option.some.inj h).symm⟩

/-! ### What ties settlers, promise and waiters together -/

/-- How far the settling has come, and whose offer it is. -/
inductive Stage (offers : List (Except ε α)) (g : Gathering ε α) : Option Nat → Prop where
  /-- Nothing is stored. -/
  | pending (nothing : g.promise.outcome? = none) : Stage offers g none
  /-- An offer is stored, and its settler has not woken anyone. -/
  | stored {i : Nat} {own : Except ε α} (offer : offers[i]? = some own)
    (kept : g.promise.outcome? = some own) (settler : g.settlers[i]? = some .stored) :
    Stage offers g (some i)
  /-- Its settler has woken everyone who slept. -/
  | woken {i : Nat} {own : Except ε α} (offer : offers[i]? = some own)
    (kept : g.promise.outcome? = some own) (settler : g.settlers[i]? = some (.finished none))
    (awake : ∀ w ∈ g.waiters, w ≠ .parked false) : Stage offers g (some i)

/-- **The invariant.** The state agrees with what was offered, and with whose offer is stored. -/
structure Agrees (offers : List (Except ε α)) (winner? : Option Nat) (g : Gathering ε α) :
    Prop where
  stage : Stage offers g winner?
  /-- Every settler has come with its offer. -/
  count : g.settlers.length = offers.length
  others : ∀ k s, g.settlers[k]? = some s → winner? ≠ some k →
    ∃ own, offers[k]? = some own ∧ s.LeftOut g.promise.outcome? own
  waiters : ∀ w ∈ g.waiters, ∀ o, w = .finished o → g.promise.outcome? = some o

theorem agrees_empty : Agrees [] none (empty : Gathering ε α) where
  stage := .pending rfl
  count := rfl
  others := fun _ _ h => nomatch h
  waiters := fun _ h => absurd h List.not_mem_nil

namespace Agrees

variable {offers : List (Except ε α)} {winner? : Option Nat} {g : Gathering ε α}

theorem offer (h : Agrees offers winner? g) (outcome : Except ε α) :
    Agrees (offers ++ [outcome]) winner? (g.apply (.offer outcome)) := by
  have hgrow : ∀ {i : Nat} {own : Except ε α}, offers[i]? = some own →
      (offers ++ [outcome])[i]? = some own := fun hi =>
    (List.getElem?_append_left (List.getElem?_eq_some_iff.mp hi).1).trans hi
  have hsettler : ∀ {i : Nat} {s : Settler ε α}, g.settlers[i]? = some s →
      (g.settlers ++ [Settler.arriving outcome])[i]? = some s := fun hi =>
    (List.getElem?_append_left (List.getElem?_eq_some_iff.mp hi).1).trans hi
  refine ⟨?stage, ?count, ?others, h.waiters⟩
  -- offers are added at the end, so places of old ones do not change
  case stage =>
    cases h.stage with
    | pending hnothing => exact .pending hnothing
    | stored ho hkept hs => exact .stored (hgrow ho) hkept (hsettler hs)
    | woken ho hkept hs hawake => exact .woken (hgrow ho) hkept (hsettler hs) hawake
  case count =>
    show (g.settlers ++ [Settler.arriving outcome]).length = _
    rw [List.length_append, List.length_append, h.count]
    rfl
  case others =>
    intro k s hs hk
    rcases getElem?_concat_cases hs with hs | ⟨rfl, rfl⟩
    · obtain ⟨own, ho, hleft⟩ := h.others k s hs hk
      exact ⟨own, hgrow ho, hleft⟩
    · -- it is the one who has just come
      exact ⟨outcome, by rw [h.count, List.getElem?_concat_length], Or.inl rfl⟩

theorem arrive (h : Agrees offers winner? g) : Agrees offers winner? (g.apply .arrive) := by
  have hmem : ∀ w ∈ g.waiters ++ [Waiter.arriving], w ∈ g.waiters ∨ w = .arriving := fun w hw =>
    (List.mem_append.mp hw).imp_right List.mem_singleton.mp
  refine ⟨?stage, h.count, h.others, ?waiters⟩
  case stage =>
    cases h.stage with
    | pending hnothing => exact .pending hnothing
    | stored ho hkept hs => exact .stored ho hkept hs
    | woken ho hkept hs hawake =>
      refine .woken ho hkept hs fun w hw => ?_
      -- who comes late does not sleep
      rcases hmem w hw with hw | rfl
      · exact hawake w hw
      · exact fun h => nomatch h
  case waiters =>
    intro w hw o hfinished
    rcases hmem w hw with hw | rfl
    · exact h.waiters w hw o hfinished
    · cases hfinished

/-- As long as nothing is stored, nobody has stored it. -/
theorem winner_eq_none (h : Agrees offers winner? g) (hnothing : g.promise.outcome? = none) :
    winner? = none := by
  cases h.stage with
  | pending _ => rfl
  | stored _ hkept _ => rw [hnothing] at hkept; cases hkept
  | woken _ hkept _ _ => rw [hnothing] at hkept; cases hkept

/-- The first settler to try is accepted. -/
theorem accept (h : Agrees offers winner? g) {i : Nat} {own : Except ε α}
    (hlt : i < g.settlers.length) (ho : offers[i]? = some own)
    (hnothing : g.promise.outcome? = none) :
    Agrees offers (some i) { g with
      promise := ⟨some own⟩, settlers := g.settlers.set i .stored } := by
  refine ⟨?stage, ?count, ?others, ?waiters⟩
  -- from now on this settler is the one whose offer is kept
  case stage => exact .stored ho rfl (List.getElem?_set_self hlt)
  case count =>
    show (g.settlers.set i .stored).length = _
    rw [List.length_set, h.count]
  case others =>
    intro k s hs hk
    have hik : i ≠ k := fun heq => hk (congrArg some heq)
    have hold : g.settlers[k]? = some s := (List.getElem?_set_ne hik).symm.trans hs
    have hother : winner? ≠ some k := by
      rw [h.winner_eq_none hnothing]
      exact (Option.some_ne_none k).symm
    -- nothing was stored, so nobody was refused
    obtain ⟨own', ho', hleft⟩ := h.others k s hold hother
    rw [hnothing] at hleft
    rcases hleft with heq | ⟨_, hsome, _⟩
    · exact ⟨own', ho', Or.inl heq⟩
    · cases hsome
  case waiters =>
    -- nor has anybody returned
    intro w hw o hfinished
    have hsome := h.waiters w hw o hfinished
    rw [hnothing] at hsome
    cases hsome

/-- Whoever else tries is refused with the state of what is stored. -/
theorem refuse (h : Agrees offers winner? g) {i : Nat} {own stored : Except ε α}
    (hlt : i < g.settlers.length) (ho : offers[i]? = some own) (hnot : winner? ≠ some i)
    (hkept : g.promise.outcome? = some stored) :
    Agrees offers winner? { g with
      settlers := g.settlers.set i (.finished (some ⟨Promise.stateOf stored⟩)) } := by
  -- the settler that is refused is another one than the one whose offer is kept
  have hset : ∀ {k : Nat}, winner? = some k → ∀ s, g.settlers[k]? = some s →
      (g.settlers.set i (.finished (some ⟨Promise.stateOf stored⟩)))[k]? = some s := by
    intro k hk s hs
    have hik : i ≠ k := fun heq => hnot (heq ▸ hk)
    exact (List.getElem?_set_ne hik).trans hs
  refine ⟨?stage, ?count, ?others, h.waiters⟩
  case stage =>
    obtain ⟨hstage, -, -, -⟩ := h
    cases hstage with
    | pending hnothing => exact .pending hnothing
    | stored ho hkept hs => exact .stored ho hkept (hset rfl _ hs)
    | woken ho hkept hs hawake => exact .woken ho hkept (hset rfl _ hs) hawake
  case count =>
    show (g.settlers.set i _).length = _
    rw [List.length_set, h.count]
  case others =>
    intro k s hs hk
    change (g.settlers.set i _)[k]? = some s at hs
    -- it learns of the offer that is stored, the others of nothing
    by_cases hik : i = k
    · subst hik
      rw [List.getElem?_set_self hlt] at hs
      cases hs
      exact ⟨own, ho, Or.inr ⟨stored, hkept, rfl⟩⟩
    · rw [List.getElem?_set_ne hik] at hs
      exact h.others k s hs hk

/-- Storing: the first settler to try is accepted, and everyone else is refused. -/
theorem store (h : Agrees offers winner? g) (i : Nat) :
    ∃ winner', Agrees offers winner' (g.store i) ∧ (winner? ≠ none → winner' = winner?) := by
  obtain ⟨-, hstore⟩ | ⟨own, hi, hcases⟩ := g.store_cases i
  · rw [hstore]
    exact ⟨winner?, h, fun _ => rfl⟩
  have hlt : i < g.settlers.length := (List.getElem?_eq_some_iff.mp hi).1
  -- whoever has not tried is not the one whose offer is stored
  have hnot : winner? ≠ some i := by
    rintro rfl
    cases h.stage with
    | stored _ _ hs => rw [hi] at hs; cases hs
    | woken _ _ hs _ => rw [hi] at hs; cases hs
  obtain ⟨own', ho, hown⟩ := h.others i _ hi hnot
  -- its offer stands at its place in the list
  obtain rfl : own = own' := by
    rcases hown with heq | ⟨_, _, heq⟩ <;> cases heq
    rfl
  obtain ⟨hnothing, hstore⟩ | ⟨stored, hkept, hstore⟩ := hcases
  · rw [hstore]
    exact ⟨some i, h.accept hlt ho hnothing, fun hsome => absurd (h.winner_eq_none hnothing) hsome⟩
  · rw [hstore]
    exact ⟨winner?, h.refuse hlt ho hnot hkept, fun _ => rfl⟩

/-- Waking: the settler whose offer is stored wakes everyone. -/
theorem wakeAll (h : Agrees offers winner? g) (i : Nat) :
    Agrees offers winner? (g.wakeAll i) := by
  obtain ⟨-, hwake⟩ | ⟨hi, hwake⟩ := g.wakeAll_cases i
  · rw [hwake]
    exact h
  rw [hwake]
  have hlt : i < g.settlers.length := (List.getElem?_eq_some_iff.mp hi).1
  -- nobody but the one whose offer is stored has stored anything
  obtain rfl : winner? = some i := by
    refine Classical.byContradiction fun hnot => ?_
    obtain ⟨_, _, heq | ⟨_, _, heq⟩⟩ := h.others i _ hi hnot <;> cases heq
  refine ⟨?stage, ?count, ?others, ?waiters⟩
  case stage =>
    -- whoever slept is woken, and who comes later looks at the promise first
    have hawake : ∀ w ∈ g.waiters.map Waiter.wake, w ≠ .parked false := by
      intro w hw
      obtain ⟨w', -, rfl⟩ := List.mem_map.mp hw
      exact w'.wake_ne_parked
    cases h.stage with
    | stored ho hkept hs => exact .woken ho hkept (List.getElem?_set_self hlt) hawake
    | woken _ _ hs _ => rw [hi] at hs; cases hs
  case count =>
    show (g.settlers.set i _).length = _
    rw [List.length_set, h.count]
  case others =>
    intro k s hs hk
    have hik : i ≠ k := fun heq => hk (congrArg some heq)
    change (g.settlers.set i _)[k]? = some s at hs
    rw [List.getElem?_set_ne hik] at hs
    exact h.others k s hs hk
  case waiters =>
    intro w hw o hfinished
    -- being woken is not returning
    obtain ⟨w', hw', rfl⟩ := List.mem_map.mp hw
    exact h.waiters w' hw' o (Waiter.wake_eq_finished hfinished)

theorem advance (h : Agrees offers winner? g) (i : Nat) :
    Agrees offers winner? (g.advance i) := by
  refine ⟨?stage, h.count, h.others, ?waiters⟩
  case stage =>
    cases h.stage with
    | pending hnothing => exact .pending hnothing
    | stored ho hkept hs => exact .stored ho hkept hs
    | woken ho hkept hs hawake =>
      refine .woken ho hkept hs fun w hw => ?_
      -- the waiter that moves does not fall asleep, as there is something to find
      rcases mem_modify hw with hw | ⟨w', hw', rfl⟩
      · exact hawake w hw
      · exact Waiter.advance_ne_parked hkept (hawake w' hw')
  case waiters =>
    intro w hw o hfinished
    rcases mem_modify hw with hw | ⟨w', hw', rfl⟩
    · exact h.waiters w hw o hfinished
    · exact Waiter.stored_of_advance (h.waiters w' hw') hfinished

/-- **Each move keeps the invariant.** Whose offer is stored is decided once. -/
theorem apply (h : Agrees offers winner? g) (m : Move ε α) :
    ∃ winner', Agrees (offers ++ m.offered?.toList) winner' (g.apply m) ∧
      (winner? ≠ none → winner' = winner?) := by
  cases m with
  | offer outcome => exact ⟨winner?, h.offer outcome, fun _ => rfl⟩
  | arrive => exact ⟨winner?, (List.append_nil offers).symm ▸ h.arrive, fun _ => rfl⟩
  | store i =>
    obtain ⟨winner', h', hsame⟩ := h.store i
    exact ⟨winner', (List.append_nil offers).symm ▸ h', hsame⟩
  | wakeAll i => exact ⟨winner?, (List.append_nil offers).symm ▸ h.wakeAll i, fun _ => rfl⟩
  | advance i => exact ⟨winner?, (List.append_nil offers).symm ▸ h.advance i, fun _ => rfl⟩

theorem run (h : Agrees offers winner? g) (moves : List (Move ε α)) :
    ∃ winner', Agrees (offers ++ Gathering.offers moves) winner' (g.run moves) ∧
      (winner? ≠ none → winner' = winner?) := by
  -- offers are added at the end, so the one that is stored keeps its number
  induction moves generalizing offers winner? g with
  | nil => exact ⟨winner?, (List.append_nil offers).symm ▸ h, fun _ => rfl⟩
  | cons m rest ih =>
    obtain ⟨winner₁, h₁, hsame₁⟩ := h.apply m
    obtain ⟨winner₂, h₂, hsame₂⟩ := ih h₁
    have hoffers : offers ++ Gathering.offers (m :: rest)
        = offers ++ m.offered?.toList ++ Gathering.offers rest := by
      rw [List.append_assoc]
      unfold Gathering.offers
      rw [List.filterMap_cons]
      cases m.offered? <;> rfl
    refine ⟨winner₂, hoffers ▸ h₂, fun hsome => ?_⟩
    have hone := hsame₁ hsome
    exact (hsame₂ (hone ▸ hsome)).trans hone

/-- What is stored is the offer that the stage tells of. -/
theorem outcome_eq (h : Agrees offers winner? g) :
    g.promise.outcome? = winner?.bind fun i => offers[i]? := by
  cases h.stage with
  | pending hnothing => exact hnothing
  | stored ho hkept _ => exact hkept.trans ho.symm
  | woken ho hkept _ _ => exact hkept.trans ho.symm

/-- What is stored stays. -/
theorem stored_run (h : Agrees offers winner? g) {stored : Except ε α}
    (hp : g.promise.outcome? = some stored) (moves : List (Move ε α)) :
    (g.run moves).promise.outcome? = some stored := by
  obtain ⟨winner', h', hsame⟩ := h.run moves
  obtain ⟨i, rfl, hi⟩ := Option.bind_eq_some_iff.mp (h.outcome_eq.symm.trans hp)
  obtain rfl : winner' = some i := hsame (Option.some_ne_none i)
  -- the offer of the one settler is what is stored before and after
  rw [h'.outcome_eq]
  exact (List.getElem?_append_left (List.getElem?_eq_some_iff.mp hi).1).trans hi

/-- The settler whose offer is stored was accepted. -/
theorem accepted (h : Agrees offers winner? g) {stored : Except ε α}
    (hp : g.promise.outcome? = some stored) :
    ∃ i winner, winner? = some i ∧ offers[i]? = some stored ∧ g.settlers[i]? = some winner ∧
      winner.Accepted := by
  -- something is stored, so the stage names the one who has stored it
  cases h.stage with
  | pending hnothing =>
    rw [hnothing] at hp
    cases hp
  | stored ho hkept hs =>
    rw [hkept] at hp
    cases hp
    exact ⟨_, _, rfl, ho, hs, trivial⟩
  | woken ho hkept hs _ =>
    rw [hkept] at hp
    cases hp
    exact ⟨_, _, rfl, ho, hs, trivial⟩

/-- Every other one has not tried, or was refused with the state of what is stored. -/
theorem left_out (h : Agrees offers winner? g) {stored : Except ε α}
    (hp : g.promise.outcome? = some stored) {k : Nat} {s : Settler ε α}
    (hs : g.settlers[k]? = some s) (hk : winner? ≠ some k) :
    (∃ own, offers[k]? = some own ∧ s = .arriving own) ∨
      s = .finished (some ⟨Promise.stateOf stored⟩) := by
  obtain ⟨own, ho, rfl | ⟨stored', hp', rfl⟩⟩ := h.others k s hs hk
  · exact Or.inl ⟨own, ho, rfl⟩
  · rw [hp] at hp'
    cases hp'
    exact Or.inr rfl

/-- The settler that has finished without being refused is the one whose offer is stored, and nobody
sleeps through it. -/
theorem awake (h : Agrees offers winner? g) {i : Nat}
    (hi : g.settlers[i]? = some (.finished none)) :
    (∃ own, g.promise.outcome? = some own) ∧ ∀ w ∈ g.waiters, w ≠ .parked false := by
  obtain rfl : winner? = some i := by
    refine Classical.byContradiction fun hnot => ?_
    obtain ⟨_, _, heq | ⟨_, _, heq⟩⟩ := h.others i _ hi hnot <;> cases heq
  cases h.stage with
  | stored _ _ hs =>
    rw [hi] at hs
    cases hs
  | woken _ hkept _ hawake => exact ⟨⟨_, hkept⟩, hawake⟩

end Agrees

/-! ### Going on -/

section GoingOn

variable {g : Gathering ε α}

/-- Who has come to settle stays there. One that has tried to store its offer has tried for good, and
one that has finished is not touched any more. -/
theorem settler_apply (m : Move ε α) {k : Nat} {s : Settler ε α} (hs : g.settlers[k]? = some s) :
    ∃ s', (g.apply m).settlers[k]? = some s' ∧ (s.Tried → s'.Tried) ∧
      ∀ refused, s = .finished refused → s' = s := by
  have hlt : k < g.settlers.length := (List.getElem?_eq_some_iff.mp hs).1
  -- most moves are not those of this settler
  have hstays : ∃ s', g.settlers[k]? = some s' ∧ (s.Tried → s'.Tried) ∧
      ∀ refused, s = .finished refused → s' = s := ⟨s, hs, id, fun _ _ => rfl⟩
  cases m with
  | offer outcome => exact ⟨s, (List.getElem?_append_left hlt).trans hs, id, fun _ _ => rfl⟩
  | arrive => exact hstays
  | advance i => exact hstays
  | store i =>
    show ∃ s', (g.store i).settlers[k]? = some s' ∧ _
    obtain ⟨-, hstore⟩ | ⟨own, hi, ⟨-, hstore⟩ | ⟨stored, -, hstore⟩⟩ := g.store_cases i
    · rw [hstore]
      exact hstays
    -- it has arrived, so it was not finished and changes for good now
    all_goals
      rw [hstore]
      by_cases hik : i = k
      · subst hik
        rw [hs] at hi
        cases hi
        exact ⟨_, List.getElem?_set_self hlt, fun _ => trivial, fun _ h => nomatch h⟩
      · exact ⟨s, (List.getElem?_set_ne hik).trans hs, id, fun _ _ => rfl⟩
  | wakeAll i =>
    show ∃ s', (g.wakeAll i).settlers[k]? = some s' ∧ _
    obtain ⟨-, hwake⟩ | ⟨hi, hwake⟩ := g.wakeAll_cases i
    · rw [hwake]
      exact hstays
    rw [hwake]
    -- likewise when it wakes the others
    by_cases hik : i = k
    · subst hik
      rw [hs] at hi
      cases hi
      exact ⟨_, List.getElem?_set_self hlt, fun _ => trivial, fun _ h => nomatch h⟩
    · exact ⟨s, (List.getElem?_set_ne hik).trans hs, id, fun _ _ => rfl⟩

theorem settler_run (moves : List (Move ε α)) {k : Nat} {s : Settler ε α}
    (hs : g.settlers[k]? = some s) :
    ∃ s', (g.run moves).settlers[k]? = some s' ∧ (s.Tried → s'.Tried) ∧
      ∀ refused, s = .finished refused → s' = s := by
  -- what a settler has come to is handed on from move to move
  induction moves generalizing g s with
  | nil => exact ⟨s, hs, id, fun _ _ => rfl⟩
  | cons m rest ih =>
    obtain ⟨s₁, hs₁, htried₁, hsame₁⟩ := settler_apply m hs
    obtain ⟨s₂, hs₂, htried₂, hsame₂⟩ := ih hs₁
    refine ⟨s₂, hs₂, fun h => htried₂ (htried₁ h), fun refused h => ?_⟩
    have hone := hsame₁ refused h
    exact (hsame₂ refused (hone.trans h)).trans hone

/-- A settler that takes its first step has tried. -/
theorem tried_store {k : Nat} {s : Settler ε α} (hs : g.settlers[k]? = some s) :
    ∃ s', (g.store k).settlers[k]? = some s' ∧ s'.Tried := by
  have hlt : k < g.settlers.length := (List.getElem?_eq_some_iff.mp hs).1
  obtain ⟨hnot, hstore⟩ | ⟨own, hi, ⟨-, hstore⟩ | ⟨stored, -, hstore⟩⟩ := g.store_cases k
  · rw [hstore]
    refine ⟨s, hs, ?_⟩
    cases s with
    | arriving own => exact absurd hs (hnot own)
    | stored => trivial
    | finished refused => trivial
  -- accepted or refused, it has tried
  all_goals
    rw [hstore]
    exact ⟨_, List.getElem?_set_self hlt, trivial⟩

/-- A settler that has tried has finished after its second step. -/
theorem finished_wakeAll {k : Nat} {s : Settler ε α} (hs : g.settlers[k]? = some s)
    (htried : s.Tried) : ∃ refused, (g.wakeAll k).settlers[k]? = some (.finished refused) := by
  have hlt : k < g.settlers.length := (List.getElem?_eq_some_iff.mp hs).1
  obtain ⟨hnot, hwake⟩ | ⟨-, hwake⟩ := g.wakeAll_cases k
  · rw [hwake]
    cases s with
    | arriving own => exact absurd htried id
    | stored => exact absurd hs hnot
    | finished refused => exact ⟨refused, hs⟩
  · rw [hwake]
    exact ⟨none, List.getElem?_set_self hlt⟩

theorem stepsOf_cons (j : Nat) (m : Move ε α) (rest : List (Move ε α)) :
    stepsOf j (m :: rest) = stepsOf j [m] + stepsOf j rest := by
  unfold stepsOf
  rw [← List.singleton_append, List.filterMap_append, List.count_append]

/-- A waiter is brought closer by its own steps, and put back by nobody's. -/
theorem waiter_apply {stored : Except ε α} (hp : g.promise.outcome? = some stored)
    (hawake : ∀ w ∈ g.waiters, w ≠ .parked false) (m : Move ε α) {j : Nat} {w : Waiter ε α}
    (hw : g.waiters[j]? = some w) :
    ∃ w', (g.apply m).waiters[j]? = some w' ∧ w'.distance = w.distance - stepsOf j [m] := by
  have hlt : j < g.waiters.length := (List.getElem?_eq_some_iff.mp hw).1
  cases m with
  | offer outcome => exact ⟨w, hw, rfl⟩
  | arrive => exact ⟨w, (List.getElem?_append_left hlt).trans hw, rfl⟩
  -- settlers do not move waiters
  | store i =>
    show ∃ w', (g.store i).waiters[j]? = some w' ∧ _
    obtain ⟨-, hstore⟩ | ⟨own, -, ⟨-, hstore⟩ | ⟨_, -, hstore⟩⟩ := g.store_cases i
    all_goals
      rw [hstore]
      exact ⟨w, hw, rfl⟩
  | wakeAll i =>
    show ∃ w', (g.wakeAll i).waiters[j]? = some w' ∧ _
    obtain ⟨-, hwake⟩ | ⟨-, hwake⟩ := g.wakeAll_cases i
    · rw [hwake]
      exact ⟨w, hw, rfl⟩
    · rw [hwake]
      exact ⟨w.wake, by rw [List.getElem?_map, hw]; rfl, w.distance_wake⟩
  | advance i =>
    have hget : (g.waiters.modify i (·.advance g.promise))[j]?
        = some (if i = j then w.advance g.promise else w) := by
      rw [List.getElem?_modify, hw]
      rfl
    refine ⟨_, hget, ?_⟩
    -- only a step of this waiter counts
    have hsteps : stepsOf j [(Move.advance i : Move ε α)] = if i = j then 1 else 0 := by
      show List.count j [i] = _
      rw [List.count_singleton]
      by_cases hij : i = j
      · rw [if_pos hij, if_pos (beq_iff_eq.mpr hij)]
      · rw [if_neg hij, if_neg (fun h => hij (beq_iff_eq.mp h))]
    rw [hsteps]
    by_cases hij : i = j
    · rw [if_pos hij, if_pos hij]
      exact Waiter.distance_advance hp (hawake w (List.mem_of_getElem? hw))
    · rw [if_neg hij, if_neg hij]
      rfl

/-- Once the settler has finished whose offer is stored, waiters come closer with every step of
theirs. -/
theorem Agrees.waiter_run {offers : List (Except ε α)} {winner? : Option Nat}
    (h : Agrees offers winner? g) {i : Nat} (hi : g.settlers[i]? = some (.finished none))
    (moves : List (Move ε α)) {j : Nat} {w : Waiter ε α} (hw : g.waiters[j]? = some w) :
    ∃ w', (g.run moves).waiters[j]? = some w' ∧ w'.distance = w.distance - stepsOf j moves := by
  -- by induction on the moves: each step of the waiter is one less to go
  induction moves generalizing offers winner? g w with
  | nil => exact ⟨w, hw, rfl⟩
  | cons m rest ih =>
    -- the settler stays finished, so everyone is awake at every move
    obtain ⟨⟨own, hp⟩, hawake⟩ := h.awake hi
    obtain ⟨w₁, hw₁, hdistance₁⟩ := waiter_apply hp hawake m hw
    obtain ⟨s, hs, -, hsame⟩ := settler_apply m hi
    obtain ⟨winner₁, h₁, -⟩ := h.apply m
    obtain ⟨w₂, hw₂, hdistance₂⟩ := ih h₁ (hs.trans (congrArg some (hsame none rfl))) hw₁
    refine ⟨w₂, hw₂, ?_⟩
    rw [hdistance₂, hdistance₁, stepsOf_cons j m rest, Nat.sub_sub]

end GoingOn

/-! ### Courses from the beginning -/

/-- **What a course comes to.** -/
structure Course (moves : List (Move ε α)) : Prop where
  /-- As long as nothing is stored, nobody has tried to store anything. -/
  untried : (empty.run moves).promise.outcome? = none →
    ∀ s ∈ (empty.run moves).settlers, ¬ s.Tried
  /-- What is stored is the offer of exactly one settler, which was accepted; every other one has not
  tried or was refused with the state of what is stored. -/
  one : ∀ stored, (empty.run moves).promise.outcome? = some stored →
    ∃ (i : Nat) (winner : Settler ε α), (offers moves)[i]? = some stored ∧
      (empty.run moves).settlers[i]? = some winner ∧ winner.Accepted ∧
      ∀ k s, (empty.run moves).settlers[k]? = some s → k ≠ i →
        (∃ own, (offers moves)[k]? = some own ∧ s = .arriving own) ∨
          s = .finished (some ⟨Promise.stateOf stored⟩)
  /-- What is stored stays. -/
  kept : ∀ stored later, (empty.run moves).promise.outcome? = some stored →
    (empty.run (moves ++ later)).promise.outcome? = some stored
  /-- A settler has returned after two steps of its own, whatever happens in between. -/
  settles : ∀ k s between, (empty.run moves).settlers[k]? = some s →
    ∃ refused, (empty.run (moves ++ .store k :: between ++ [.wakeAll k])).settlers[k]?
      = some (.finished refused)
  /-- Who returns has what is stored. -/
  returned : ∀ stored, .finished stored ∈ (empty.run moves).waiters →
    (empty.run moves).promise.outcome? = some stored
  /-- When the settler has finished whose offer is stored, nobody sleeps who was not woken. -/
  awake : ∀ i : Nat, (empty.run moves).settlers[i]? = some (Settler.finished none) →
    .parked false ∉ (empty.run moves).waiters
  /-- From then on a waiter has returned after three steps of its own, whatever happens in
  between. -/
  returns : ∀ (i j : Nat) (w : Waiter ε α) (later : List (Move ε α)),
    (empty.run moves).settlers[i]? = some (Settler.finished none) →
    (empty.run moves).waiters[j]? = some w → 3 ≤ stepsOf j later →
    ∃ stored, (empty.run moves).promise.outcome? = some stored ∧
      (empty.run (moves ++ later)).waiters[j]? = some (.finished stored)

/-- **Settled once and seen by all.** In every course of moves, of however many settlers and waiters,
one settler is accepted and all others are refused, and what it has stored stays and is what every
waiter returns with; no waiter sleeps through it. -/
theorem settled_course (moves : List (Move ε α)) : Course moves := by
  obtain ⟨winner?, h, -⟩ := (agrees_empty (ε := ε) (α := α)).run moves
  rw [List.nil_append] at h
  have hkept : ∀ stored later, (empty.run moves).promise.outcome? = some stored →
      (empty.run (moves ++ later)).promise.outcome? = some stored := by
    intro stored later hstored
    rw [run_append]
    exact h.stored_run hstored later
  -- each part is read off from what the run agrees with, going on where time passes in between
  refine ⟨?untried, ?one, hkept, ?settles, ?returned, ?awake, ?returns⟩
  -- nobody has been accepted or refused, so all are still to come
  case untried =>
    intro hnothing s hs
    obtain ⟨k, hk⟩ := List.getElem?_of_mem hs
    have hnone : winner? = none := h.winner_eq_none hnothing
    obtain ⟨own, -, rfl | ⟨_, hsome, -⟩⟩ := h.others k s hk (by rw [hnone]; exact nofun)
    · exact id
    · rw [hnothing] at hsome
      cases hsome
  case one =>
    intro stored hstored
    obtain ⟨i, winner, rfl, ho, hi, haccepted⟩ := h.accepted hstored
    refine ⟨i, winner, ho, hi, haccepted, fun k s hs hk => ?_⟩
    exact h.left_out hstored hs fun heq => hk (Option.some.inj heq).symm
  case settles =>
    intro k s between hs
    -- what happens between its two steps does not undo the first one
    obtain ⟨s₁, hs₁, htried₁⟩ := tried_store hs
    obtain ⟨s₂, hs₂, htried₂, -⟩ := settler_run between hs₁
    rw [run_append, run_append]
    exact finished_wakeAll hs₂ (htried₂ htried₁)
  case returned =>
    intro stored hmem
    exact h.waiters _ hmem stored rfl
  case awake =>
    intro i hi hmem
    exact (h.awake hi).2 _ hmem rfl
  case returns =>
    intro i j w later hi hw hsteps
    obtain ⟨⟨stored, hstored⟩, -⟩ := h.awake hi
    obtain ⟨w', hw', hdistance⟩ := h.waiter_run hi later hw
    obtain ⟨winner', h', -⟩ := h.run later
    have hle := w.distance_le
    obtain ⟨stored', rfl⟩ := Waiter.eq_finished_of_distance (w := w') (by omega)
    have hsame := hkept stored later hstored
    rw [run_append] at hsame ⊢
    -- what it has found is what was stored all the time
    have hfound := h'.waiters _ (List.mem_of_getElem? hw') stored' rfl
    rw [hsame] at hfound
    cases hfound
    exact ⟨stored, hstored, hw'⟩

end Gathering

end ObjectMarkup
