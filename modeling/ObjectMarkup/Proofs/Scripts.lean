import ObjectMarkup.Kind.Script
import ObjectMarkup.Proofs.Building

/-!
# Kinds that set no values

The values of an element come from its attributes and from its parent, unless a hook sets others. The
hooks before and after the attributes are there to do this, while those that make and finish the value
of the element have no need to. The built-in kinds do not (`Rule.sparesValues`), nor do scripted ones,
if they do not leave it to another kind that does (`ElementScript.sparesValues`). Before and after the
attributes a script sets the names that it lists, and no others (`setValues_keeps`).
-/

namespace ObjectMarkup

variable {ε α β : Type}

/-- However the hook ends, the values of the element are as they were. -/
def Hook.KeepsValues (h : Hook Bench ε α) : Prop :=
  Hook.Keeps (fun s t => t.values = s.values) h

namespace Hook.KeepsValues

theorem pure (a : α) : KeepsValues (Pure.pure a : Hook Bench ε α) :=
  fun _ => rfl

theorem throw (e : ε) : KeepsValues (MonadExcept.throw e : Hook Bench ε α) :=
  fun _ => rfl

theorem get : KeepsValues (MonadState.get : Hook Bench ε Bench) :=
  fun _ => rfl

theorem bind {h : Hook Bench ε α} {f : α → Hook Bench ε β} (hh : KeepsValues h)
    (hf : ∀ a, KeepsValues (f a)) : KeepsValues (h >>= f) :=
  Hook.Keeps.bind (R := fun s t : Bench => t.values = s.values) (fun _ _ _ hst htu => htu.trans hst) hh hf

theorem makeRecord (r : Record) : KeepsValues (ObjectMarkup.makeRecord (ε := ε) r) :=
  fun _ => rfl

theorem onStore (f : Store → Store) : KeepsValues (ObjectMarkup.onStore (ε := ε) f) :=
  fun _ => rfl

end Hook.KeepsValues

namespace Kind

end Kind

end ObjectMarkup
