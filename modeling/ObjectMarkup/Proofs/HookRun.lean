import ObjectMarkup.Compile.Process

/-!
# Runs of hooks

A hook is a state transformer that may end early. `Hook.exec` runs one on a state and gives how it
ended together with the state that it left behind, also when it ended early. The equations
`exec_pure`, `exec_bind` and so on take a run apart along the text of the hook, so that no proof
further on looks into the monad.

`Hook.Keeps R` says that a run, however it ends, leads from any state to an `R`-related one. For a
transitive `R` it is closed under sequencing (`Keeps.bind`), and so it is the form in which the
facts about whole runs are collected from those about single steps.
-/

namespace ObjectMarkup

variable {σ ε ε' α β : Type}

/-- A run of a hook: its ending, and the state that it leaves behind. -/
def Hook.exec (h : Hook σ ε α) (s : σ) : Except ε α × σ :=
  h.run.run s

namespace Hook

/-! ### The run of each construct -/

@[simp] theorem exec_pure (a : α) (s : σ) : Hook.exec (pure a : Hook σ ε α) s = (.ok a, s) := rfl

@[simp] theorem exec_throw (e : ε) (s : σ) :
    Hook.exec (throw e : Hook σ ε α) s = (.error e, s) := rfl

@[simp] theorem exec_get (s : σ) : Hook.exec (get : Hook σ ε σ) s = (.ok s, s) := rfl

@[simp] theorem exec_set (s t : σ) : Hook.exec (set t : Hook σ ε PUnit) s = (.ok ⟨⟩, t) := rfl

@[simp] theorem exec_modify (f : σ → σ) (s : σ) :
    Hook.exec (modify f : Hook σ ε PUnit) s = (.ok ⟨⟩, f s) := rfl

@[simp] theorem exec_modifyGet (f : σ → α × σ) (s : σ) :
    Hook.exec (modifyGet f : Hook σ ε α) s = (.ok (f s).1, (f s).2) := rfl

@[simp] theorem exec_mk (f : σ → Except ε α × σ) (s : σ) :
    Hook.exec (ExceptT.mk f : Hook σ ε α) s = f s := rfl

theorem mapError_ok (f : ε → ε') (a : α) : (Except.ok a : Except ε α).mapError f = .ok a := rfl

@[simp] theorem exec_adapt (f : ε → ε') (h : Hook σ ε α) (s : σ) :
    Hook.exec (ExceptT.adapt f h : Hook σ ε' α) s
      = ((Hook.exec h s).1.mapError f, (Hook.exec h s).2) := rfl

/-- Two hooks in sequence: the second one runs only if the first one has ended with a value. -/
theorem exec_bind (h : Hook σ ε α) (f : α → Hook σ ε β) (s : σ) :
    Hook.exec (h >>= f) s =
      match Hook.exec h s with
      | (.ok a, t) => Hook.exec (f a) t
      | (.error e, t) => (.error e, t) := by
  simp only [Hook.exec, ExceptT.run_bind, StateT.run_bind]
  cases h.run.run s with
  | mk ending t => cases ending <;> rfl

theorem exec_bind_ok {h : Hook σ ε α} {s t : σ} {a : α} (hh : Hook.exec h s = (.ok a, t))
    (f : α → Hook σ ε β) : Hook.exec (h >>= f) s = Hook.exec (f a) t := by
  rw [exec_bind, hh]

theorem exec_bind_error {h : Hook σ ε α} {s t : σ} {e : ε} (hh : Hook.exec h s = (.error e, t))
    (f : α → Hook σ ε β) : Hook.exec (h >>= f) s = (.error e, t) := by
  rw [exec_bind, hh]

/-- A sequence that fails has failed in one of its parts. -/
theorem error_of_bind {h : Hook σ ε α} {f : α → Hook σ ε β} {s : σ} {e : ε}
    (he : (Hook.exec (h >>= f) s).1 = .error e) :
    (Hook.exec h s).1 = .error e ∨
      ∃ a t, Hook.exec h s = (.ok a, t) ∧ (Hook.exec (f a) t).1 = .error e := by
  rw [exec_bind] at he
  rcases hh : Hook.exec h s with ⟨e' | a, t⟩
  · rw [hh] at he
    cases he
    exact Or.inl rfl
  · rw [hh] at he
    exact Or.inr ⟨a, t, rfl, he⟩

/-! ### What every run keeps -/

/-- However a run ends, the state that it leaves behind is related to the one it began in. -/
def Keeps (R : σ → σ → Prop) (h : Hook σ ε α) : Prop :=
  ∀ s, R s (Hook.exec h s).2

namespace Keeps

variable {R : σ → σ → Prop}

theorem pure (hR : ∀ s, R s s) (a : α) : Keeps R (Pure.pure a : Hook σ ε α) :=
  fun s => hR s

theorem get (hR : ∀ s, R s s) : Keeps R (MonadState.get : Hook σ ε σ) :=
  fun s => hR s

theorem adapt {h : Hook σ ε α} (hh : Keeps R h) (f : ε → ε') :
    Keeps R (ExceptT.adapt f h : Hook σ ε' α) :=
  fun s => hh s

/-- **Sequencing.** If both parts of a sequence keep a transitive relation, so does the sequence:
either the second part has run after the first one, or the first one has ended the run. -/
theorem bind (ht : ∀ s t u, R s t → R t u → R s u) {h : Hook σ ε α} {f : α → Hook σ ε β}
    (hh : Keeps R h) (hf : ∀ a, Keeps R (f a)) : Keeps R (h >>= f) := by
  intro s
  have h₁ := hh s
  rw [exec_bind]
  cases he : Hook.exec h s with
  | mk ending t =>
    rw [he] at h₁
    cases ending with
    | ok a => exact ht s t _ h₁ (hf a t)
    | error e => exact h₁

/-- A loop keeps what its body keeps. -/
theorem forM (hR : ∀ s, R s s) (ht : ∀ s t u, R s t → R t u → R s u)
    {f : α → Hook σ ε PUnit} (hf : ∀ a, Keeps R (f a)) (l : List α) : Keeps R (l.forM f) := by
  induction l with
  | nil => exact pure hR _
  | cons a rest ih => exact bind ht (hf a) fun _ => ih

end Keeps

end Hook

end ObjectMarkup
