import ObjectMarkup.Proofs.Scalars
import ObjectMarkup.Proofs.Retagging
import ObjectMarkup.Proofs.Spelling

/-!
# How the tag of a scalar is spelled

A scalar element has the value of its attribute `value`, and the type of the attribute is the tag of
the element, or what the element says if the tag is `data`. The type is made a key before it is looked
up, so that the spelling of the tag does not matter. But whether the tag is `data` is asked before
that, of the tag in lower case with all its blanks. So there are two ways to read the tag
(`typeOf_value`), and spellings with one key can differ in which one applies to them.

* Where the same one applies, the declared attributes are the same, and so is everything that comes
  of the element (`compileElement_retag`).
* A spelling of `data` with blanks is taken for a type `data`, which no attribute has
  (`compileElement_blanks`). Its value is lost and reported.

`scalar_spelling` puts both together: elements that differ in the spelling of the tag mean the same
unless one is such a spelling and the other one is not, and then only if there is nothing to be lost.
-/

namespace ObjectMarkup

open Markup (Element NodeId)

/-- Only the entry under one key counts. -/
theorem filterMap_eq_lookup {α β : Type} {key : String} {f : String × α → Option β}
    {l : List (String × α)} (hnodup : (l.map Prod.fst).Nodup)
    (h : ∀ a ∈ l, a.1 ≠ key → f a = none) :
    l.filterMap f = ((l.lookup key).bind fun a => f (key, a)).toList := by
  induction l with
  | nil => rfl
  | cons a rest ih =>
    obtain ⟨name, v⟩ := a
    obtain ⟨hname, hnodup⟩ := List.nodup_cons.mp hnodup
    obtain ⟨hfirst, hrest⟩ := List.forall_mem_cons.mp h
    rw [List.filterMap_cons, List.lookup_cons]
    -- the names are distinct, so nothing behind the entry of that name is kept
    by_cases heq : name = key
    · subst heq
      have hnone : rest.filterMap f = [] := List.filterMap_eq_nil_iff.mpr fun b hb =>
        hrest b hb fun heq => hname (List.mem_map.mpr ⟨b, hb, heq⟩)
      rw [beq_self_eq_true, hnone, Option.bind_some]
      cases f (name, v) <;> rfl
    · rw [beq_eq_false_iff_ne.mpr (Ne.symm heq), hfirst heq]
      exact ih hnodup hrest

/-! ### The type of a scalar -/

/-- Only the attribute `value` is declared with a type that depends on the element. -/
theorem typeOf_scalar (e : Element) (name : String) :
    (Rule.schema e .data).typeOf name =
      if name = "value" then Text.nameKey (Kind.scalarType e) else "string" := by
  have hstring : Text.nameKey "string" = "string" := by decide +kernel
  simp only [Rule.schema, Schema.define, Schema.declare, Schema.typeOf, OrderedMap.get?_insert,
    OrderedMap.get?_empty, hstring]
  -- three attributes are declared, and only `value` has another type than text
  by_cases hvalue : name = "value"
  · simp only [if_pos hvalue]
  · simp only [if_neg hvalue]
    by_cases htype : name = "type"
    · simp only [if_pos htype]
    · simp only [if_neg htype]
      by_cases hname : name = "name"
      · simp only [if_pos hname]
      · simp only [if_neg hname]

/-- **The type of the value:** what the element says if the tag in lower case is `data`, and else the
key of the tag. -/
theorem typeOf_value (e : Element) :
    (Rule.schema e .data).typeOf "value" =
      if Text.lowercase e.tag = "data" then Text.nameKey ((e.attribute? "type").getD "string")
      else Text.nameKey e.tag := by
  rw [typeOf_scalar, if_pos rfl, Kind.scalarType]
  by_cases hdata : Text.lowercase e.tag = "data"
  · simp only [if_pos hdata]
  · simp only [if_neg hdata, Text.nameKey_lowercase]

/-- A tag that is `data` in lower case has that for its key. -/
theorem nameKey_of_lowercase {tag : String} (h : Text.lowercase tag = "data") :
    Text.nameKey tag = "data" := by
  rw [← Text.nameKey_lowercase, h]
  decide +kernel

/-- What is declared depends on the type of the value only. -/
theorem schema_scalar_congr {e e' : Element}
    (h : (Rule.schema e' .data).typeOf "value" = (Rule.schema e .data).typeOf "value") :
    Rule.schema e' .data = Rule.schema e .data := by
  rw [typeOf_scalar, typeOf_scalar, if_pos rfl, if_pos rfl] at h
  simp only [Rule.schema, Schema.define, Schema.declare, h]

/-! ### What a scalar compiles to -/

/-- The outcome of an element that was not looked up before, and the pass behind it. -/
def Pass.compileElement (p : Pass) (e : Element) : Outcome Value × Pass :=
  ((Compilation.processRoot p e).1, (Compilation.processRoot p e).2.1)

/-- The attributes of an element that are reported when it is compiled, each with its failure. -/
def Pass.attributeReports (p : Pass) (e : Element) : List (String × CompileError) :=
  ((p.compileElement e).2.diagnostics.drop p.diagnostics.length).filterMap fun d =>
    if d.node = e.id then d.attributeName.map fun name => (name, d.error) else none

/-- What the attribute `value` has come to, if the element has one. -/
def Pass.scalarOutcome? (q : Pass) (e : Element) : Option (Outcome Value) :=
  (e.attribute? "value").map (q.attributeOutcome "value" ((Rule.schema e .data).typeOf "value"))

/-- The value of a scalar: that of the attribute, if it has come to one. -/
def scalarValue : Option (Outcome Value) → Value
  | some (.ok v) => v
  | _ => .null

/-- What is reported of a scalar: the attribute, if it has failed. -/
def scalarReports : Option (Outcome Value) → List (String × CompileError)
  | some (.error error) => [("value", error)]
  | _ => []

/-- A scalar element that a pass can be asked for, of which it knows nothing. -/
structure Pass.AwaitsScalar (p : Pass) (e : Element) : Prop where
  builtin : p.Builtin
  numbered : e.Numbered
  untouched : p.Untouched [e]
  tag : Rule.ofTag? e.tag = some .data

namespace Pass.AwaitsScalar

variable {p : Pass} {e : Element}

theorem absent (h : p.AwaitsScalar e) : p.constructions.get? e.id = none := by
  refine h.untouched e ?_
  rw [Element.preorderAll]
  exact List.mem_append_left _ (Element.self_mem_preorder e)

theorem lookup (h : p.AwaitsScalar e) :
    p.lookup e = .ok (Rule.data.start e, p.start .data e) := by
  have hlookup := Pass.lookup_builtin h.builtin.catalog h.absent
  rwa [h.tag] at hlookup

theorem compileElement_eq (h : p.AwaitsScalar e) :
    p.compileElement e = process e (p.start .data e) := by
  rw [Pass.compileElement, Compilation.processRoot, h.lookup]

theorem started (h : p.AwaitsScalar e) :
    (p.start .data e).constructions.get? e.id = some (Rule.data.start e) :=
  get?_of_lookup h.lookup

theorem started_builtin (h : p.AwaitsScalar e) : (p.start .data e).Builtin :=
  h.builtin.lead (Pass.leads_lookup h.lookup)

theorem started_untouched (h : p.AwaitsScalar e) : (p.start .data e).Untouched e.children := by
  have hbelow : p.Untouched e.children := fun n hn => h.untouched n (by
    rw [Element.preorderAll, Element.preorder_eq]
    exact List.mem_append_left _ (List.mem_cons_of_mem _ hn))
  exact hbelow.past h.numbered (Pass.leads_lookup h.lookup h.builtin.sound).2

theorem ready (h : p.AwaitsScalar e) : (p.start .data e).Ready e := by
  refine .of_lookup h.builtin.sound h.numbered (fun n hn c hc => ?_) h.lookup
  have hnone := h.untouched n (by rw [Element.preorderAll]; exact List.mem_append_left _ hn)
  rw [hnone] at hc
  cases hc

/-- Another spelling of the tag. -/
theorem retag (h : p.AwaitsScalar e) {tag : String} (hkey : Text.nameKey tag = Text.nameKey e.tag) :
    p.AwaitsScalar { e with tag := tag } where
  builtin := h.builtin
  numbered := (Element.numbered_iff _).mpr ((Element.numbered_iff e).mp h.numbered)
  untouched := fun n hn => by
    rw [Element.preorderAll, Element.preorder_eq, List.cons_append, List.mem_cons] at hn
    -- the root is the only node with another tag
    rcases hn with rfl | hn
    · exact h.absent
    · refine h.untouched n ?_
      rw [Element.preorderAll, Element.preorder_eq]
      exact List.mem_cons_of_mem _ hn
  tag := by
    rw [Rule.ofTag?, hkey]
    exact h.tag

/-- **What a scalar compiles to,** and what is reported of it, can be told from what its attribute
has come to. -/
theorem compiles (h : p.AwaitsScalar e) :
    (p.compileElement e).1 = .ok (scalarValue ((p.compileElement e).2.scalarOutcome? e)) ∧
      p.attributeReports e = scalarReports ((p.compileElement e).2.scalarOutcome? e) := by
  obtain ⟨p₁, p₂, hthrough⟩ :=
    Pass.exists_goesThrough h.ready h.started_builtin h.started
  -- what was read is asked of the final pass, in which it does not change any more
  obtain ⟨hvalues, below, hdiag, hbelow⟩ := hthrough.reads h.started_builtin.sound h.started
  have hvalue := hvalues "value"
  rw [Pass.attributeReports]
  rw [← h.compileElement_eq] at hvalue hdiag
  -- named, since both parts speak of it and neither needs to know how it came about
  generalize hq : (p.compileElement e).2 = q at hvalue hdiag ⊢
  constructor
  · rw [h.compileElement_eq, hthrough.ending, Pass.makes, Rule.made, hvalue, Pass.scalarOutcome?]
    cases e.attribute? "value" with
    | none => rfl
    | some raw =>
      rw [Option.bind_some, Option.map_some]
      cases q.attributeOutcome "value" ((Rule.schema e .data).typeOf "value") raw with
      | error error => rfl
      | ok v => cases v <;> rfl
  · have hstart : (p.start .data e).diagnostics = p.diagnostics := rfl
    -- reports from below do not count: their nodes have other numbers than the element
    have hnone : below.filterMap (fun d =>
        if d.node = e.id then d.attributeName.map fun name => (name, d.error) else none) = [] := by
      refine List.filterMap_eq_nil_iff.mpr fun d hd => if_neg fun heq => ?_
      exact ((Element.numbered_iff e).mp h.numbered).1 (heq ▸ hbelow d hd)
    rw [hdiag, hstart, List.drop_left, List.filterMap_append, hnone, List.append_nil,
      List.filterMap_filterMap]
    -- strings are not reported
    have hothers : ∀ a ∈ e.attributes.entries, a.1 ≠ "value" →
        (q.attributeReport? e (Rule.schema e .data) a).bind (fun d =>
          if d.node = e.id then d.attributeName.map fun name => (name, d.error) else none) = none := by
      intro a _ hne
      rw [Pass.attributeReport?, Pass.attributeOutcome, typeOf_scalar, if_neg hne, if_pos rfl]
      rfl
    rw [filterMap_eq_lookup e.attributes.nodup hothers, Pass.scalarOutcome?]
    show (Option.bind (e.attribute? "value") _).toList = _
    cases e.attribute? "value" with
    | none => rfl
    | some raw =>
      rw [Option.bind_some, Option.map_some, Pass.attributeReport?]
      cases q.attributeOutcome "value" ((Rule.schema e .data).typeOf "value") raw with
      | ok v => rfl
      | error error =>
        simp only [Option.bind_some, if_pos, Option.map_some]
        rfl

/-! ### Two spellings -/

/-- Giving the element another tag from the start. -/
theorem retags (h : p.AwaitsScalar e) {tag : String}
    (hschema : Rule.schema { e with tag := tag } .data = Rule.schema e .data) :
    (p.start .data e).Retags e.id tag (p.start .data { e with tag := tag }) where
  environment := rfl
  base := rfl
  released := rfl
  store := rfl
  coercions := rfl
  constructions := by
    -- no compiler has the number of the element, which is still untouched
    have hothers : p.constructions.map (Construction.retag e.id tag) = p.constructions := by
      refine OrderedMap.map_eq_self fun a ha => if_neg fun heq => ?_
      have hget := OrderedMap.get?_of_mem_entries ha
      rw [h.builtin.sound.node_id hget] at heq
      rw [heq, h.absent] at hget
      cases hget
    have hself : (Rule.data.start e).retag e.id tag = Rule.data.start { e with tag := tag } := by
      rw [Rule.start, Rule.start, hschema]
      exact if_pos rfl
    rw [Pass.start, Pass.start, OrderedMap.map_insert, hothers, hself]
  known := by
    rw [OrderedMap.mem_keys_iff, h.started]
    rfl

/-- **Spellings that are read in the same way** make no difference: the outcome is the same, and so
are the records and what is reported of the element. -/
theorem compileElement_retag (h : p.AwaitsScalar e) {tag : String}
    (hkey : Text.nameKey tag = Text.nameKey e.tag)
    (hsame : Text.lowercase e.tag = "data" ↔ Text.lowercase tag = "data") :
    (p.compileElement { e with tag := tag }).1 = (p.compileElement e).1 ∧
      (p.compileElement { e with tag := tag }).2.store = (p.compileElement e).2.store ∧
      p.attributeReports { e with tag := tag } = p.attributeReports e := by
  -- the spelling of the tag reaches the run by the type of the value alone
  have htype : (Rule.schema { e with tag := tag } .data).typeOf "value" =
      (Rule.schema e .data).typeOf "value" := by
    rw [typeOf_value, typeOf_value]
    exact ite_congr (propext hsame.symm) (fun _ => rfl) fun _ => hkey
  have hschema := schema_scalar_congr htype
  have h' := h.retag hkey
  obtain ⟨houtcome, hpasses⟩ := (h.retags hschema).process h.ready h.started_builtin
    h.started_untouched h.started h'.started hschema
  -- one key, one shared compiler and so one outcome, in either run
  have hread : (process { e with tag := tag } (p.start .data { e with tag := tag })).2.scalarOutcome?
      { e with tag := tag } = (process e (p.start .data e)).2.scalarOutcome? e := by
    rw [Pass.scalarOutcome?, htype,
      Pass.attributeOutcome_congr hpasses.environment hpasses.coercions]
    rfl
  rw [h.compiles.2, h'.compiles.2, h.compileElement_eq, h'.compileElement_eq, hread]
  exact ⟨houtcome, hpasses.store, rfl⟩

/-- **A spelling of `data` with blanks** is no type that an attribute can have. -/
theorem compileElement_blanks (h : p.AwaitsScalar e) (hkey : Text.nameKey e.tag = "data")
    (hblanks : Text.lowercase e.tag ≠ "data") :
    (p.compileElement e).1 = .ok .null ∧
      p.attributeReports e =
        (e.attribute? "value").toList.map fun _ => ("value", .unresolved .type "data") := by
  have hread : (p.compileElement e).2.scalarOutcome? e =
      (e.attribute? "value").map fun _ => .error (.unresolved .type "data") := by
    have henv : (p.compileElement e).2.environment.catalog = .builtin := by
      rw [h.compileElement_eq]
      exact (h.started_builtin.lead (leads_process e _)).catalog
    have htype : (Rule.schema e .data).typeOf "value" = "data" := by
      rw [typeOf_value, if_neg hblanks, hkey]
    -- `data` is no type of an attribute, whatever text is given for it
    have hnone : Reading.ofType? "data" = none := by decide +kernel
    have hdata : ∀ raw, (AttributeKey.ofType "value" "data" raw).type = "data" := fun _ =>
      nameKey_of_lowercase (by decide +kernel)
    rw [Pass.scalarOutcome?, htype]
    refine congrArg (Option.map · _) (funext fun raw => ?_)
    rw [Pass.attributeOutcome, if_neg (by decide)]
    simp only [hdata, Pass.attributeKind_builtin henv, hnone]
  obtain ⟨houtcome, hreports⟩ := h.compiles
  rw [houtcome, hreports, hread]
  cases e.attribute? "value" with
  | none => exact ⟨rfl, rfl⟩
  | some raw => exact ⟨rfl, rfl⟩

/-- So if there is a value to be lost, the attribute is reported. -/
theorem reports_of_blanks (h : p.AwaitsScalar e) (hkey : Text.nameKey e.tag = "data")
    (hblanks : Text.lowercase e.tag ≠ "data") (hvalue : e.attribute? "value" ≠ none) :
    p.attributeReports e ≠ [] := by
  obtain ⟨raw, hraw⟩ := Option.ne_none_iff_exists'.mp hvalue
  rw [(h.compileElement_blanks hkey hblanks).2, hraw]
  exact List.cons_ne_nil _ _

/-- A scalar that reports an attribute has no value. -/
theorem null_of_reports (h : p.AwaitsScalar e) (hreports : p.attributeReports e ≠ []) :
    (p.compileElement e).1 = .ok .null := by
  obtain ⟨houtcome, hread⟩ := h.compiles
  rw [hread] at hreports
  rw [houtcome]
  generalize (p.compileElement e).2.scalarOutcome? e = outcome at hreports
  match outcome with
  | none => rfl
  | some (.error error) => rfl
  | some (.ok v) => exact absurd rfl hreports

/-- A scalar without the attribute has no value and nothing to report. -/
theorem null_of_absent (h : p.AwaitsScalar e) (hnone : e.attribute? "value" = none) :
    (p.compileElement e).1 = .ok .null ∧ p.attributeReports e = [] := by
  have hread : (p.compileElement e).2.scalarOutcome? e = none := by
    rw [Pass.scalarOutcome?, hnone]
    rfl
  obtain ⟨houtcome, hreports⟩ := h.compiles
  rw [houtcome, hreports, hread]
  exact ⟨rfl, rfl⟩

end Pass.AwaitsScalar

/-- **Two elements mean the same** to a pass: they have values that show the same, and either both or
neither have an attribute that is reported. -/
structure Pass.MeanTheSame (p : Pass) (e e' : Element) : Prop where
  values : ∃ v v', (p.compileElement e).1 = .ok v ∧ (p.compileElement e').1 = .ok v' ∧
    (p.compileElement e).2.store.tree v = (p.compileElement e').2.store.tree v'
  reports : p.attributeReports e = [] ↔ p.attributeReports e' = []

/-- **What comes of two spellings** of the tag of a scalar. -/
structure Pass.Spellings (p : Pass) (e e' : Element) : Prop where
  /-- Either element has the value of its attribute, or reports the attribute. -/
  compiles : ∀ n, n = e ∨ n = e' →
    (p.compileElement n).1 = .ok (scalarValue ((p.compileElement n).2.scalarOutcome? n)) ∧
      p.attributeReports n = scalarReports ((p.compileElement n).2.scalarOutcome? n)
  /-- Spellings that are both `data` in lower case, or neither, make no difference at all. -/
  alike : (Text.lowercase e.tag = "data" ↔ Text.lowercase e'.tag = "data") →
    (p.compileElement e').1 = (p.compileElement e).1 ∧
      (p.compileElement e').2.store = (p.compileElement e).2.store ∧
      p.attributeReports e' = p.attributeReports e
  /-- With blanks around `data` the value is lost, and the attribute is reported. -/
  blanks : ∀ n, n = e ∨ n = e' → Text.nameKey n.tag = "data" → Text.lowercase n.tag ≠ "data" →
    (p.compileElement n).1 = .ok .null ∧
      p.attributeReports n =
        (n.attribute? "value").toList.map fun _ => ("value", .unresolved .type "data")
  /-- So the elements mean the same just if the spellings are read in the same way, or there is no
  value to be lost, or the value is lost with both spellings. -/
  same_iff : p.MeanTheSame e e' ↔
    (Text.lowercase e.tag = "data" ↔ Text.lowercase e'.tag = "data") ∨
      e.attribute? "value" = none ∨ (p.attributeReports e ≠ [] ∧ p.attributeReports e' ≠ [])

/-- **How the tag of a scalar is spelled.** Two spellings of its tag with one key, of an element that
a pass of the built-in kinds knows nothing of. -/
theorem scalar_spelling {p : Pass} (hb : p.Builtin) {e : Element} (hn : e.Numbered)
    (hnew : p.Untouched [e]) (hkind : p.environment.catalog.elementKind e.tag = .ok Kind.data)
    {tag : String} (hkey : Text.nameKey tag = Text.nameKey e.tag) :
    p.Spellings e { e with tag := tag } := by
  have h : p.AwaitsScalar e := by
    refine ⟨hb, hn, hnew, ?_⟩
    rw [Pass.elementKind_builtin hb.catalog] at hkind
    cases hr : Rule.ofTag? e.tag with
    | none =>
      rw [hr] at hkind
      cases hkind
    | some r =>
      rw [hr] at hkind
      rw [Rule.eq_data_of_kind (Except.ok.inj hkind)]
  have h' := h.retag hkey
  -- every part below is about the element or its other spelling
  have hboth : ∀ n, n = e ∨ n = { e with tag := tag } → p.AwaitsScalar n := by
    rintro n (rfl | rfl)
    · exact h
    · exact h'
  have hnull : ∀ s t : Store, s.tree .null = t.tree .null := fun _ _ => rfl
  refine
    { compiles := fun n hn => (hboth n hn).compiles
      alike := h.compileElement_retag hkey
      blanks := fun n hn => (hboth n hn).compileElement_blanks
      same_iff := ⟨fun hsame => ?lost, ?same⟩ }
  case lost =>
    by_cases halike : Text.lowercase e.tag = "data" ↔ Text.lowercase tag = "data"
    · exact .inl halike
    refine .inr ?_
    by_cases hvalue : e.attribute? "value" = none
    · exact .inl hvalue
    -- one of the two is spelled with blanks, and if it is reported so is the other one
    by_cases hdata : Text.lowercase e.tag = "data"
    · have hblanks : Text.lowercase tag ≠ "data" := fun h =>
        halike ⟨fun _ => h, fun _ => hdata⟩
      have hreported :=
        h'.reports_of_blanks (hkey.trans (nameKey_of_lowercase hdata)) hblanks hvalue
      exact .inr ⟨fun hnil => hreported (hsame.reports.mp hnil), hreported⟩
    · have hdata' : Text.lowercase tag = "data" := by
        by_contra hblanks
        exact halike ⟨fun h => absurd h hdata, fun h => absurd h hblanks⟩
      have hreported :=
        h.reports_of_blanks (hkey.symm.trans (nameKey_of_lowercase hdata')) hdata hvalue
      exact .inr ⟨hreported, fun hnil => hreported (hsame.reports.mpr hnil)⟩
  case same =>
    rintro (halike | hnone | ⟨hreports, hreports'⟩)
    · -- same spelling but for case, no value at all, or a value that neither of the two reads
      obtain ⟨houtcome, hstore, hreports⟩ := h.compileElement_retag hkey halike
      have hvalue := h.compiles.1
      exact ⟨⟨_, _, hvalue, houtcome.trans hvalue, by rw [hstore]⟩, by rw [hreports]⟩
    · obtain ⟨hvalue, hreports⟩ := h.null_of_absent hnone
      obtain ⟨hvalue', hreports'⟩ := h'.null_of_absent hnone
      exact ⟨⟨_, _, hvalue, hvalue', hnull _ _⟩, by rw [hreports, hreports']⟩
    · exact ⟨⟨_, _, h.null_of_reports hreports, h'.null_of_reports hreports', hnull _ _⟩,
        ⟨fun hnil => absurd hnil hreports, fun hnil => absurd hnil hreports'⟩⟩

/-- A scalar with a text for its value. -/
def textScalar : Element :=
  (Markup.Draft.build none 0 ((Markup.Draft.leaf "data").withAttribute "value" "x")).1

/-- A pass of the built-in kinds that has not begun. -/
def scalarStart : Pass :=
  .begin (.builtin .empty) none .empty

/-- With a blank before the tag the text is lost. -/
theorem scalar_spelling_text :
    scalarStart.Builtin ∧ textScalar.Numbered ∧ scalarStart.Untouched [textScalar] ∧
      scalarStart.environment.catalog.elementKind textScalar.tag = .ok Kind.data ∧
      Text.nameKey " data" = Text.nameKey textScalar.tag ∧
      (scalarStart.compileElement textScalar).1 = .ok (.string "x") ∧
      (scalarStart.compileElement { textScalar with tag := " data" }).1 = .ok .null ∧
      ¬ scalarStart.MeanTheSame textScalar { textScalar with tag := " data" } := by
  have hb : scalarStart.Builtin := ⟨.initial _ _ _, rfl, rfl⟩
  have hn : textScalar.Numbered := by decide
  have hnew : scalarStart.Untouched [textScalar] := fun _ _ => rfl
  have hkind : scalarStart.environment.catalog.elementKind textScalar.tag = .ok Kind.data := by
    have hrule : Rule.ofTag? textScalar.tag = some .data := by decide +kernel
    rw [Pass.elementKind_builtin hb.catalog, hrule]
    rfl
  have hkey : Text.nameKey " data" = Text.nameKey textScalar.tag := by decide +kernel
  have hplain : Text.lowercase textScalar.tag = "data" := by decide +kernel
  have hblanks : Text.lowercase " data" ≠ "data" := by decide +kernel
  have hspellings := scalar_spelling hb hn hnew hkind hkey
  obtain ⟨hvalue, hreports⟩ := hspellings.compiles textScalar (.inl rfl)
  obtain ⟨hlost, -⟩ := hspellings.blanks _ (.inr rfl) (hkey.trans (nameKey_of_lowercase hplain))
    hblanks
  -- the type of the value is that of texts
  have htype : (Rule.schema textScalar .data).typeOf "value" = "string" := by
    rw [typeOf_value, if_pos hplain]
    decide +kernel
  have hread : (scalarStart.compileElement textScalar).2.scalarOutcome? textScalar =
      some (.ok (.string "x")) := by
    rw [Pass.scalarOutcome?, htype]
    rfl
  rw [hread] at hvalue hreports
  refine ⟨hb, hn, hnew, hkind, hkey, hvalue, hlost, fun hsame => ?_⟩
  rcases hspellings.same_iff.mp hsame with halike | hnone | ⟨hreported, -⟩
  · exact hblanks (halike.mp hplain)
  · cases hnone
  · exact hreported hreports

end ObjectMarkup
