import ObjectMarkup.Proofs.Bases
import ObjectMarkup.Proofs.NumberText

/-!
# Numbers as attributes

What becomes of a number of a KDL document that is the value of an attribute with the type `number`
or `float`. On the way it is text twice: the loader writes it, and the kind reads it when the
attribute is processed. A finite number is then the same number again, bit for bit, and an integer is
the floating point number nearest to it. An infinity is lost, since the kind does not know the word
that the loader writes; it ends as a type mismatch (`number_attribute_reads`).
-/

namespace ObjectMarkup

open Decimal (Binary64)

/-- **The outcome of an attribute for a number.** An integer has no more than 128 bits. -/
def NumberArrives (v : Kdl.Value) (key : AttributeKey) (o : Outcome Value) : Prop :=
  match v with
  | .integer i => i.natAbs ≤ 2 ^ 127 →
    ∃ x, o = .ok (.float x) ∧ x.IsNearest i ∧ x.negative = decide (i < 0)
  | .float x => o = if x.isFinite then .ok (.float x)
    else .error (.typeMismatch key.name key.value key.type)
  | _ => True

/-- What the text of a number is read as, for the types of floating point numbers. -/
theorem arrives_readNumberPrefix (v : Kdl.Value) (key : AttributeKey) (hvalue : key.value = v.text) :
    NumberArrives v key (orMismatch key.name key.type key.value
      ((Decimal.readNumberPrefix key.value.toList).map .float)) := by
  cases v with
  | integer i =>
    intro hi
    obtain ⟨x, hx⟩ : ∃ x, Binary64.ofDecimal (decide (i < 0)) i.natAbs 0 = x := ⟨_, rfl⟩
    have hread : Decimal.readNumberPrefix key.value.toList = some x := by
      rw [hvalue, Kdl.Value.text, String.toList_ofList, Decimal.readNumberPrefix_intText, hx]
    refine ⟨x, by rw [hread]; rfl, ?_⟩
    rw [← hx]
    exact Binary64.isNearest_ofInt hi
  | float x =>
    have htext : key.value.toList = Kdl.floatText.text x := by
      rw [hvalue, Kdl.Value.text, String.toList_ofList]
    unfold NumberArrives
    cases hx : x.isFinite with
    | true =>
      rw [htext, Decimal.readNumberPrefix_floatText hx]
      exact (if_pos hx).symm
    | false =>
      rw [htext, Decimal.readNumberPrefix_floatText_eq_none hx]
      exact (if_neg (Bool.eq_false_iff.mp hx)).symm
  | string _ | bool _ | null => trivial

theorem Coercion.gives_number {k : Coercion} (hk : k.kind = Kind.number) (e : Environment) :
    k.Gives e (orMismatch k.key.name k.key.type k.key.value
      (Kind.readNumberAs k.key.type k.key.value)) := by
  refine gives_of_construct (by rw [hk]; rfl) ?_ (by rw [hk]; exact fun _ => rfl)
  rw [hk, Kind.construct_number]
  simp only [Coercion.view]
  cases Kind.readNumberAs k.key.type k.key.value <;> rfl

/-- **A number of a KDL document as an attribute.** Whatever else happens in the run, an attribute of
the number kind that has one of the types of floating point numbers, and for its raw value the text
of a number, gets a finite number back as it was. -/
theorem number_attribute_reads {environment : Environment} {document : Markup.Document}
    {base : Option Locator} {store : Store} {events : List Event} {a : AttributeLookup}
    (ha : a ∈
      ((Compilation.unbegun environment document base store).lookupsOfAll events).attributes)
    (hkind : a.coercion.kind = Kind.number)
    (htype : Text.nameKey a.type = "number" ∨ Text.nameKey a.type = "float")
    {v : Kdl.Value} (hvalue : a.value = v.text) :
    NumberArrives v a.key
      (((Compilation.unbegun environment document base store).undergoAll events).pass.coerce
        a.coercion).1 := by
  have hgives := Coercion.gives_number hkind environment
  rw [(a.kept ha).1] at hgives
  have hread : Kind.readNumberAs a.key.type a.key.value
      = (Decimal.readNumberPrefix a.key.value.toList).map .float := by
    have htype : a.key.type = "number" ∨ a.key.type = "float" := htype
    unfold Kind.readNumberAs
    rw [if_neg]
    rcases htype with htype | htype <;> rw [htype] <;> decide
  rw [a.fst_coerce ha hgives, hread]
  exact arrives_readNumberPrefix v a.key hvalue

/-- The compile that the following run begins with, of the built-in kinds. -/
def builtinRun : Compilation :=
  .unbegun (.builtin emptyFiles) ⟨⟨0, "box", .empty, [], none⟩, none⟩ none .empty

/-- **Infinity is lost,** and one tenth is not: a pass of the built-in kinds is asked for an attribute
of type `Float` with the text of either, and the attribute is processed in it. -/
theorem number_attribute_reads_inf :
    (∃ k p, builtinRun.pass.coercion "x" "Float" "inf" none = .ok (k, p) ∧
      (p.coerce k).1 = .error (.typeMismatch "x" "inf" "float")) ∧
    ∃ k p, builtinRun.pass.coercion "x" "Float" "0.1" none = .ok (k, p) ∧
      (p.coerce k).1 = .ok (.float ⟨0x3fb999999999999a⟩) := by
  have hreading : Reading.ofType? (Text.nameKey "Float") = some .number := by decide +kernel
  have htype : Text.nameKey "Float" = "float" := by decide +kernel
  have hrun : ∀ v : Kdl.Value,
      ∃ k p, builtinRun.pass.coercion "x" "Float" v.text none = .ok (k, p) ∧
        NumberArrives v (.ofType "x" "Float" v.text) (p.coerce k).1 := by
    intro v
    obtain ⟨k, p, hk, hkey, -, hkind⟩ :=
      coercion_builtin (p := builtinRun.pass) rfl hreading "x" v.text none rfl
    let a : AttributeLookup := ⟨"x", "Float", v.text, none, builtinRun.pass, k, p, hk⟩
    let event := Event.coercion "x" "Float" v.text none
    have ha : a ∈ (builtinRun.lookupsOfAll [event]).attributes := by
      rw [Compilation.lookupsOfAll, Compilation.lookups, Pass.coercionOf_ok hk]
      exact List.mem_cons_self
    have hp : (builtinRun.undergoAll [event]).pass = p := by
      rw [Compilation.undergoAll_cons, Compilation.undergo]
      simp only [hk]
      rfl
    have harrives : NumberArrives v a.key ((builtinRun.undergoAll [event]).pass.coerce k).1 :=
      number_attribute_reads ha hkind (Or.inr htype) rfl
    rw [hp] at harrives
    exact ⟨k, p, hk, harrives⟩
  exact ⟨hrun (.float (.infinity false)), hrun (.float ⟨0x3fb999999999999a⟩)⟩

end ObjectMarkup
