import ObjectMarkup.Compile.Compilation
import ObjectMarkup.Proofs.Advance

/-!
# Passes before a tree

What has to hold of a pass so that a tree can be processed in it, as `Pass.Ready`, and so that
children can be visited, as `Pass.ReadyFor`. Beyond soundness it is that the numbers of the tree are
its own: they are pairwise different, and what the pass knows under them belongs to the tree. So a
claim about processing that goes by induction on the tree need not mention numbers any more: a
pass that is ready for an element is ready for its children after the attributes
(`Ready.children`), and one that is ready for children is ready for the first one after its look-up
(`ReadyFor.first`), and for the rest after the visit to the first (`ReadyFor.rest`).
-/

namespace ObjectMarkup

open Markup (Element NodeId)

/-! ### Looking elements up -/

theorem get?_of_lookup {p q : Pass} {node : Element} {c : Construction}
    (h : p.lookup node = .ok (c, q)) : q.constructions.get? node.id = some c := by
  obtain ⟨hfound, rfl⟩ | ⟨-, -, rfl⟩ := lookup_finds h
  · exact hfound
  · exact OrderedMap.get?_insert_self _ _ _

/-- A look-up fails only for an element that is not there: its tag is unknown, or its kind panics. -/
theorem lookup_eq_error_iff {p : Pass} {node : Element} {stop : Stop} :
    p.lookup node = .error stop ↔
      p.constructions.get? node.id = none ∧
        ((∃ e, p.environment.catalog.elementKind node.tag = .error e ∧ stop = .error e) ∨
          ∃ kind x, p.environment.catalog.elementKind node.tag = .ok kind ∧
            kind.define node = .error x ∧ stop = .panic x) := by
  unfold Pass.lookup
  cases p.constructions.get? node.id with
  | some c => simp
  | none =>
    -- not known yet: the kind is looked up first and asked to declare second
    cases p.environment.catalog.elementKind node.tag with
    | error e => simp [eq_comm]
    | ok kind =>
      cases hd : kind.define node with
      | error x => simp [hd, eq_comm]
      | ok schema => simp [hd]

/-- A tag that has no kind is unresolved. -/
theorem elementKind_eq_error {c : Catalog} {tag : String} {e : CompileError}
    (h : c.elementKind tag = .error e) : e = .unresolved .tag tag := by
  unfold Catalog.elementKind at h
  split at h
  · cases h
  · cases h; rfl

/-- Whether a look-up fails does not depend on what is done to other elements. -/
theorem Pass.Advances.lookup_eq_error_iff {p q : Pass} {ids : List NodeId} {node : Element}
    (h : p.Advances ids q) (hid : node.id ∉ ids) {stop : Stop} :
    q.lookup node = .error stop ↔ p.lookup node = .error stop := by
  rw [ObjectMarkup.lookup_eq_error_iff, ObjectMarkup.lookup_eq_error_iff, h.others _ hid,
    h.environment]

/-! ### Trees of their own -/

/-- The elements that the pass knows under the numbers of a tree are those of the tree. -/
def Pass.Fits (p : Pass) (es : List Element) : Prop :=
  ∀ e ∈ es, ∀ c, p.constructions.get? e.id = some c → c.node = e

theorem Pass.fits_cons {p : Pass} {e : Element} {es : List Element} :
    p.Fits (e :: es) ↔ (∀ c, p.constructions.get? e.id = some c → c.node = e) ∧ p.Fits es :=
  List.forall_mem_cons

theorem Pass.fits_append {p : Pass} {es es' : List Element} :
    p.Fits (es ++ es') ↔ p.Fits es ∧ p.Fits es' :=
  List.forall_mem_append

/-- What fits goes on to fit, whatever is done to other elements and to those that are known. -/
theorem Pass.Fits.advance {p q : Pass} {es : List Element} {ids : List NodeId} (h : p.Fits es)
    (ha : p.Advances ids q)
    (hes : ∀ e ∈ es, e.id ∈ ids → ∃ c, p.constructions.get? e.id = some c) : q.Fits es := by
  intro e he c' hc'
  -- where the pass may have changed, the compiler was there before with the same node
  by_cases hid : e.id ∈ ids
  · obtain ⟨c, hc⟩ := hes e he hid
    obtain ⟨c₁, hc₁, hb⟩ := ha.constructions _ _ hc
    rw [hc₁] at hc'
    cases hc'
    rw [hb.node]
    exact h e he c hc
  · rw [ha.others _ hid] at hc'
    exact h e he c' hc'

theorem Pass.Fits.lookup {p q : Pass} {node : Element} {c : Construction} {es : List Element}
    (h : p.Fits (node :: es)) (hl : p.lookup node = .ok (c, q)) : c.node = node := by
  obtain ⟨hfound, -⟩ | ⟨-, hmade, -⟩ := lookup_finds hl
  · exact (Pass.fits_cons.mp h).1 _ hfound
  · exact hmade.node

theorem Pass.Fits.after_lookup {p q : Pass} {node : Element} {c : Construction}
    {es : List Element} (hp : p.Sound) (h : p.Fits (node :: es))
    (hl : p.lookup node = .ok (c, q)) (hes : ∀ e ∈ es, e.id ≠ node.id) :
    q.Fits (node :: es) := by
  refine Pass.fits_cons.mpr ⟨fun c' hc' => ?_, ?_⟩
  · rw [get?_of_lookup hl] at hc'
    cases hc'
    exact h.lookup hl
  · refine (Pass.fits_cons.mp h).2.advance (Pass.leads_lookup hl hp).2 fun e he hid => ?_
    exact absurd (List.mem_singleton.mp hid) (hes e he)

/-! ### Being ready -/

/-- A pass in which an element can be processed. -/
structure Pass.Ready (p : Pass) (e : Element) : Prop where
  sound : p.Sound
  /-- The tree has numbers of its own. -/
  numbered : e.Numbered
  /-- Nothing but elements of the tree is known under them. -/
  fits : p.Fits e.preorder
  /-- The element was looked up. -/
  known : ∃ c, p.constructions.get? e.id = some c

/-- A pass in which the children of an element can be visited. -/
structure Pass.ReadyFor (p : Pass) (parent : NodeId) (children : List Element) : Prop where
  sound : p.Sound
  /-- The parent is none of them. -/
  parent : parent ∉ Element.idsAll children
  /-- The trees have numbers of their own. -/
  numbered : Element.NumberedAll children
  /-- Nothing but elements of the trees is known under them. -/
  fits : p.Fits (Element.preorderAll children)

/-- What a pass that is ready for an element knows of it. -/
theorem Pass.Ready.construction {p : Pass} {e : Element} (h : p.Ready e) :
    ∃ c, p.constructions.get? e.id = some c ∧ c.node = e := by
  obtain ⟨c, hc⟩ := h.known
  have hfits := h.fits
  rw [Element.preorder_eq] at hfits
  exact ⟨c, hc, (Pass.fits_cons.mp hfits).1 c hc⟩

theorem Pass.Ready.of_lookup {p q : Pass} {e : Element} {c : Construction} (hp : p.Sound)
    (hn : e.Numbered) (hfits : p.Fits e.preorder) (hl : p.lookup e = .ok (c, q)) : q.Ready e := by
  refine ⟨(Pass.leads_lookup hl hp).1, hn, ?_, c, get?_of_lookup hl⟩
  rw [Element.preorder_eq] at hfits ⊢
  refine hfits.after_lookup hp hl fun e' he' heq => ?_
  exact ((Element.numbered_iff e).mp hn).1 (heq ▸ List.mem_map_of_mem he')

/-- Work on the element itself leaves the pass ready for it. -/
theorem Pass.Ready.advance {p q : Pass} {e : Element} (h : p.Ready e) (hq : q.Sound)
    (ha : p.Advances [e.id] q) : q.Ready e := by
  obtain ⟨c, hc⟩ := h.known
  obtain ⟨c', hc', -⟩ := ha.constructions _ _ hc
  refine ⟨hq, h.numbered, h.fits.advance ha fun e' _ hid => ?_, c', hc'⟩
  rw [List.mem_singleton.mp hid]
  exact ⟨c, hc⟩

/-- A pass that is ready for an element is ready for its children. -/
theorem Pass.Ready.children {p : Pass} {e : Element} (h : p.Ready e) :
    p.ReadyFor e.id e.children := by
  obtain ⟨hid, hn⟩ := (Element.numbered_iff e).mp h.numbered
  have hfits := h.fits
  rw [Element.preorder_eq] at hfits
  exact ⟨h.sound, hid, hn, (Pass.fits_cons.mp hfits).2⟩

namespace Pass.ReadyFor

variable {p : Pass} {parent : NodeId} {child : Element} {others : List Element}

theorem child_numbered (h : p.ReadyFor parent (child :: others)) : child.Numbered :=
  ((Element.numberedAll_cons _ _).mp h.numbered).1

/-- The first child and the others have no number in common. -/
theorem not_mem_rest (h : p.ReadyFor parent (child :: others)) {id : NodeId} (hid : id ∈ child.ids) :
    id ∉ parent :: Element.idsAll others := by
  intro hmem
  rcases List.mem_cons.mp hmem with rfl | hmem
  · exact h.parent (by rw [Element.idsAll_cons]; exact List.mem_append_left _ hid)
  · exact ((Element.numberedAll_cons _ _).mp h.numbered).2.2 id hid hmem

/-- A look-up makes ready for the first child, and so it is when values were handed down to it. -/
theorem first (h : p.ReadyFor parent (child :: others)) {c : Construction} {p' : Pass}
    (hl : p.lookup child = .ok (c, p')) : (p'.handDown parent child.id).Ready child := by
  have hfits := h.fits
  rw [Element.preorderAll, Pass.fits_append] at hfits
  have hready := Pass.Ready.of_lookup h.sound h.child_numbered hfits.1 hl
  obtain ⟨hq, ha⟩ := leads_handDown p' parent child.id hready.sound
  exact hready.advance hq ha

/-- The visit to the first child makes ready for the others. -/
theorem rest (h : p.ReadyFor parent (child :: others)) :
    (Hook.exec (visit parent [child]) p).2.ReadyFor parent others := by
  obtain ⟨hq, ha⟩ := leads_visit parent [child] p h.sound
  obtain ⟨-, hn, hsep⟩ := (Element.numberedAll_cons _ _).mp h.numbered
  have hparent := h.parent
  have hfits := h.fits
  rw [Element.idsAll_cons, List.mem_append, not_or] at hparent
  rw [Element.preorderAll, Pass.fits_append] at hfits
  -- the visit touches the parent and what is below the child, and neither is among the others
  refine ⟨hq, hparent.2, hn, hfits.2.advance ha fun e he hid => ?_⟩
  have hmem : e.id ∈ Element.idsAll others := List.mem_map_of_mem he
  rcases List.mem_cons.mp hid with heq | hid
  · exact absurd (heq ▸ hmem) hparent.2
  · rw [Element.idsAll_cons, Element.idsAll_nil, List.append_nil] at hid
    exact absurd hmem (hsep _ hid)

end Pass.ReadyFor

/-! ### Documents -/

theorem Pass.fits_begin (environment : Environment) (base : Option Locator) (store : Store)
    (es : List Element) : (Pass.begin environment base store).Fits es :=
  fun _ _ _ h => absurd h (by simp [Pass.begin])

/-- The pass of a document is ready for the root once it was looked up. -/
theorem Pass.Ready.of_lookup_begin {environment : Environment} {base : Option Locator}
    {store : Store} {root : Element} {c : Construction} {p : Pass} (hn : root.Numbered)
    (hl : (Pass.begin environment base store).lookup root = .ok (c, p)) : p.Ready root :=
  .of_lookup (.initial _ _ _) hn (Pass.fits_begin _ _ _ _) hl

namespace Compilation

variable {environment : Environment} {document : Markup.Document}
  {base workingDirectory : Option Locator} {store : Store}

/-- The pass of a document that was processed. -/
def final (c : Compilation) : Pass :=
  c.process.2.pass

/-- A document whose root is found is processed as its root is. -/
theorem process_of_lookup {c : Construction} {p : Pass}
    (hl : (begin environment document base workingDirectory store).pass.lookup document.root
      = .ok (c, p)) :
    (begin environment document base workingDirectory store).process.1
        = (ObjectMarkup.process document.root p).1 ∧
      (begin environment document base workingDirectory store).final
        = (ObjectMarkup.process document.root p).2 := by
  simp only [final, process, processRoot, begin] at hl ⊢
  simp only [hl, and_self]

/-- A document whose root is not found ends with that, and nothing happens in the pass. -/
theorem process_of_lookup_error {stop : Stop}
    (hl : (begin environment document base workingDirectory store).pass.lookup document.root
      = .error stop) :
    (begin environment document base workingDirectory store).process.1 = contain (.error stop) ∧
      (begin environment document base workingDirectory store).final
        = (begin environment document base workingDirectory store).pass := by
  simp only [final, process, processRoot, begin] at hl ⊢
  simp only [hl, and_self]

/-- Processing a document works on the elements of its tree only. -/
theorem leads_final : Pass.Leads document.root.ids
    (begin environment document base workingDirectory store).pass
    (begin environment document base workingDirectory store).final := by
  -- without a compiler for the root the pass ends as it began
  cases hl : (begin environment document base workingDirectory store).pass.lookup document.root with
  | error stop =>
    rw [(process_of_lookup_error hl).2]
    exact Pass.Leads.refl _ _
  | ok cp =>
    obtain ⟨c, p⟩ := cp
    rw [(process_of_lookup hl).2]
    refine Pass.Leads.trans _ p _ ((Pass.leads_lookup hl).mono ?_) (leads_process document.root p)
    intro id hid
    rw [List.mem_singleton.mp hid]
    exact Element.id_mem_ids _

theorem environment_final :
    (begin environment document base workingDirectory store).final.environment = environment :=
  (leads_final (.initial _ _ _)).2.environment

/-- The coercions of a pass with a base have that base. -/
theorem base_of_get?_final {b : Locator}
    (hb : (base.or document.base).or workingDirectory = some b) {key : AttributeKey} {k : Coercion}
    (hk : (begin environment document base workingDirectory store).final.coercions.get? key
      = some k) : k.base = some b := by
  obtain ⟨hsound, ha⟩ := leads_final (.initial environment _ store)
  exact (hsound.coercions key k hk).key_base b (ha.base.trans hb)

end Compilation

end ObjectMarkup
