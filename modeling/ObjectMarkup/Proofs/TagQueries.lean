import ObjectMarkup.Proofs.Containment
import ObjectMarkup.Proofs.Identity
import ObjectMarkup.Proofs.Spelling

/-!
# What a query for a tag finds

A query for a tag goes through the elements below and looks up those whose tag differs from the one
that is asked for in the case of ASCII letters at most. The catalog goes by keys instead, so there
are elements of the same kind that a query passes over: the ones whose tag has the same key, but
with blanks around it or with a letter beyond ASCII in the other case.

`queryByTag_exact` says what comes of a query in a tree with registered tags, and what it misses. The
look-ups go one after the other, and `lookupAll_ending` carries along the elements that were found:
numbers are pairwise different, so a look-up leaves the others as they are.
-/

namespace ObjectMarkup

open Markup (Element NodeId)

/-- The elements below whose tag belongs to the same entry of a catalog as the given one. -/
def Markup.Element.withKeyOf (node : Element) (tag : String) : List Element :=
  (Element.preorderAll node.children).filter fun e => Text.nameKey e.tag == Text.nameKey tag

/-- The elements that a query finds, in the order of the tree. -/
theorem withTag_eq (node : Element) (tag : String) :
    node.withTag tag = (Element.preorderAll node.children).filter
      fun e => Text.sameIgnoringAsciiCase e.tag tag := by
  rw [Element.withTag, Element.descendants_eq]

/-- Names that differ in the case of ASCII letters have one key, so what is found is among the elements
of the entry. -/
theorem withTag_eq_filter (node : Element) (tag : String) :
    node.withTag tag =
      (node.withKeyOf tag).filter fun e => Text.sameIgnoringAsciiCase e.tag tag := by
  rw [withTag_eq, Element.withKeyOf, List.filter_filter]
  refine List.filter_congr fun e _ => ?_
  cases hsame : Text.sameIgnoringAsciiCase e.tag tag with
  | false => rfl
  | true => simp [Text.nameKey_eq_of_sameIgnoringAsciiCase hsame]

/-- All of them are found just if no two spellings of the tag differ in more than ASCII letters. -/
theorem withTag_eq_withKeyOf_iff (node : Element) (tag : String) :
    node.withTag tag = node.withKeyOf tag ↔
      ∀ e ∈ Element.preorderAll node.children, Text.nameKey e.tag = Text.nameKey tag →
        Text.sameIgnoringAsciiCase e.tag tag = true := by
  rw [withTag_eq_filter, List.filter_eq_self, Element.withKeyOf]
  simp only [List.mem_filter, beq_iff_eq, and_imp]

/-- What fits elements fits some of them. -/
theorem Pass.Fits.of_subset {p : Pass} {es es' : List Element} (h : p.Fits es) (hs : es' ⊆ es) :
    p.Fits es' :=
  fun e he => h e (hs he)

/-- **How looking up ends** when the tags are registered: with all that was looked up, or with the
first panic. -/
theorem lookupAll_ending (nodes : List Element) {p : Pass} (hp : p.Sound) (hfits : p.Fits nodes)
    (hids : (nodes.map Element.id).Nodup)
    (htags : ∀ e ∈ nodes, Text.nameKey e.tag ∈ p.environment.catalog.elements.keys) :
    match p.firstPanic? nodes with
    | some x => (p.lookupAll nodes).1 = .error (.panic x)
    | none => ∃ found, (p.lookupAll nodes).1 = .ok found ∧ found.map (·.node) = nodes ∧
        ∀ c ∈ found, (p.lookupAll nodes).2.constructions.get? c.node.id = some c := by
  induction nodes generalizing p with
  | nil => exact ⟨[], rfl, rfl, fun _ hc => absurd hc List.not_mem_nil⟩
  | cons node rest ih =>
    obtain ⟨htag, hrest⟩ := List.forall_mem_cons.mp htags
    rw [List.map_cons, List.nodup_cons] at hids
    have hothers : ∀ e ∈ rest, e.id ≠ node.id := fun e he heq =>
      hids.1 (heq ▸ List.mem_map_of_mem he)
    rw [firstPanic?_cons, Pass.lookupAll]
    cases hl : p.lookup node with
    | error stop =>
      obtain ⟨-, ⟨e, he, -⟩ | ⟨-, x, -, -, rfl⟩⟩ := lookup_eq_error_iff.mp hl
      · -- the tag is registered
        obtain ⟨kind, hkind⟩ := Catalog.elementKind_of_mem htag
        cases hkind.symm.trans he
      · rfl
    | ok first =>
      obtain ⟨c, q⟩ := first
      obtain ⟨hq, ha⟩ := Pass.leads_lookup hl hp
      have hnode : c.node = node := hfits.lookup hl
      have hfitsq : q.Fits rest :=
        (hfits.after_lookup hp hl hothers).of_subset (List.subset_cons_self _ _)
      -- the look-up of the first node does not change which of the others panics
      have hpanics : q.firstPanic? rest = p.firstPanic? rest :=
        ha.firstPanic?_eq fun e he hmem => hothers e he (List.mem_singleton.mp hmem)
      have hending := ih hq hfitsq hids.2 (by rwa [ha.environment])
      -- what was found first stays as it is, for the others have other numbers
      have hstays : (q.lookupAll rest).2.constructions.get? node.id = some c :=
        get?_lookupAll_of_known (get?_of_lookup hl)
      simp only
      rw [hpanics] at hending
      cases hx : p.firstPanic? rest with
      | some x =>
        rw [hx] at hending
        simp only at hending ⊢
        rcases hall : q.lookupAll rest with ⟨stop | others, r⟩
        · rw [hall] at hending
          exact hending
        · rw [hall] at hending
          cases hending
      | none =>
        rw [hx] at hending
        obtain ⟨found, hfound, hnodes, hknown⟩ := hending
        rcases hall : q.lookupAll rest with ⟨stop | others, r⟩
        · rw [hall] at hfound
          cases hfound
        · rw [hall] at hfound hknown hstays
          cases hfound
          refine ⟨c :: found, rfl, by rw [List.map_cons, hnode, hnodes], ?_⟩
          exact List.forall_mem_cons.mpr ⟨hnode.symm ▸ hstays, hknown⟩

/-- **A query for a tag** below an element. -/
structure TagQuery (p : Pass) (node : Element) (tag : String) : Prop where
  /-- A pass that was given up answers nothing. -/
  detached : p.released = true → p.queryByTag node tag = (.error (.error .detached), p)
  /-- The first kind that panics when it declares the attributes ends the query. -/
  panics : p.released = false → ∀ x, p.firstPanic? (node.withTag tag) = some x →
    (p.queryByTag node tag).1 = .error (.panic x)
  /-- Else the query has one compiler for each element whose tag differs in the case of ASCII letters
  at most, in the order of the tree, and it is the one that the pass has for the element. -/
  finds : p.released = false → p.firstPanic? (node.withTag tag) = none →
    ∃ found q, p.queryByTag node tag = (.ok found, q) ∧
      found.map (·.node) = (Element.preorderAll node.children).filter
        (fun e => Text.sameIgnoringAsciiCase e.tag tag) ∧
      (found.map (·.node.id)).Nodup ∧ ∀ c ∈ found, q.lookup c.node = .ok (c, q)
  /-- None is found that belongs to another entry of the catalog. -/
  sublist : (node.withTag tag).Sublist (node.withKeyOf tag)
  /-- Nothing is missed just if no two spellings of the tag differ in more than ASCII letters. -/
  complete_iff : node.withTag tag = node.withKeyOf tag ↔
    ∀ e ∈ Element.preorderAll node.children, Text.nameKey e.tag = Text.nameKey tag →
      Text.sameIgnoringAsciiCase e.tag tag = true
  /-- So it is where all tags are of ASCII and have no blanks at the ends. -/
  complete_of_plain : Text.Plain tag → (∀ e ∈ Element.preorderAll node.children, Text.Plain e.tag) →
    node.withTag tag = node.withKeyOf tag

/-- **What a query for a tag finds** below an element that was looked up, if the tags below are
registered. -/
theorem queryByTag_exact {p : Pass} {node : Element} (h : p.Ready node)
    (htags : ∀ e ∈ Element.preorderAll node.children,
      Text.nameKey e.tag ∈ p.environment.catalog.elements.keys) (tag : String) :
    TagQuery p node tag := by
  have hbelow := h.children
  have hmem : ∀ e ∈ node.withTag tag, e ∈ Element.preorderAll node.children := fun e he => by
    rw [withTag_eq] at he
    exact List.mem_of_mem_filter he
  -- the matching nodes are a part of the tree, so no number comes twice
  have hids : ((node.withTag tag).map Element.id).Nodup := by
    rw [withTag_eq]
    exact List.Nodup.sublist (List.filter_sublist.map _) hbelow.numbered
  have hending := lookupAll_ending (node.withTag tag) h.sound
    (hbelow.fits.of_subset hmem) hids fun e he => htags e (hmem e he)
  have hquery : p.released = false → p.queryByTag node tag = p.lookupAll (node.withTag tag) :=
    fun hlive => by
      rw [Pass.queryByTag, hlive]
      rfl
  refine
    { detached := fun hreleased => by rw [Pass.queryByTag, hreleased]; rfl
      panics := fun hlive x hx => ?panics
      finds := fun hlive hx => ?finds
      sublist := withTag_eq_filter node tag ▸ List.filter_sublist
      complete_iff := withTag_eq_withKeyOf_iff node tag
      complete_of_plain := fun htag hall => (withTag_eq_withKeyOf_iff node tag).mpr
        fun e he hkey => Text.sameIgnoringAsciiCase_of_plain (hall e he) htag hkey }
  case panics =>
    rw [hx] at hending
    rw [hquery hlive]
    exact hending
  -- the query is the look-up of its matches one after the other
  case finds =>
    rw [hx] at hending
    obtain ⟨found, hfound, hnodes, hknown⟩ := hending
    refine ⟨found, (p.lookupAll (node.withTag tag)).2, ?_, ?_, ?_, ?_⟩
    · rw [hquery hlive]
      exact Prod.ext hfound rfl
    · rw [hnodes, withTag_eq]
    · have hmap : found.map (·.node.id) = (found.map (·.node)).map Element.id := by
        rw [List.map_map]
        rfl
      rw [hmap, hnodes]
      exact hids
    · exact fun c hc => lookup_known (hknown c hc)

/-! ### A query that misses an element -/

/-- A generic record with two children whose tags differ in the case of an accented letter. -/
def accentedTree : Element :=
  (Markup.Draft.build none 0
    (((Markup.Draft.leaf "object").withChild (.leaf "É")).withChild (.leaf "é"))).1

/-- The catalog has both under one key. -/
def accentedCatalog : Catalog :=
  ⟨.ofList [("object", Kind.object), ("é", Kind.object)], .empty⟩

/-- The record as it was looked up. -/
def accentedRoot : Construction :=
  ⟨accentedTree, Kind.object, .empty, .empty, [], none⟩

/-- The pass before that. -/
def accentedStart : Pass :=
  .begin ⟨.empty, accentedCatalog⟩ none .empty

/-- The pass in which it was looked up. -/
def accentedPass : Pass :=
  { accentedStart with constructions := OrderedMap.empty.insert accentedTree.id accentedRoot }

/-- A query for the small letter finds one of the two children of that kind. -/
theorem queryByTag_exact_accented :
    accentedPass.Ready accentedTree ∧
      (∀ e ∈ Element.preorderAll accentedTree.children,
        Text.nameKey e.tag ∈ accentedPass.environment.catalog.elements.keys) ∧
      (accentedTree.withKeyOf "é").map (·.tag) = ["É", "é"] ∧
      ∃ found q, accentedPass.queryByTag accentedTree "é" = (.ok found, q) ∧
        found.map (·.node.tag) = ["é"] := by
  have hlookup : accentedStart.lookup accentedTree = .ok (accentedRoot, accentedPass) := by
    have hkey : Text.nameKey accentedTree.tag = "object" := by decide +kernel
    rw [Pass.lookup, Catalog.elementKind, hkey]
    rfl
  have hready : accentedPass.Ready accentedTree := .of_lookup_begin (by decide) hlookup
  have htags : ∀ e ∈ Element.preorderAll accentedTree.children,
      Text.nameKey e.tag ∈ accentedPass.environment.catalog.elements.keys := by
    decide +kernel
  -- generic records declare nothing, and declaring is what could panic
  have hpanics : accentedPass.firstPanic? (accentedTree.withTag "é") = none := by
    refine firstPanic?_eq_none_iff.mpr fun e _ x hl => ?_
    obtain ⟨-, ⟨_, -, hx⟩ | ⟨kind, y, hkind, hdefine, -⟩⟩ := lookup_eq_error_iff.mp hl
    · cases hx
    · -- both entries of the catalog have the generic kind, which declares nothing
      rw [Catalog.elementKind] at hkind
      split at hkind
      · next found hfound =>
        have hmem : (Text.nameKey e.tag, found) ∈ [("object", Kind.object), ("é", Kind.object)] :=
          OrderedMap.mem_entries_of_get? hfound
        obtain rfl : found = Kind.object := by
          rcases List.mem_cons.mp hmem with heq | hmem
          · exact congrArg Prod.snd heq
          · exact congrArg Prod.snd (List.mem_singleton.mp hmem)
        cases hkind
        cases hdefine
      · cases hkind
  obtain ⟨found, q, hfound, hnodes, -⟩ := (queryByTag_exact hready htags "é").finds rfl hpanics
  refine ⟨hready, htags, by decide +kernel, found, q, hfound, ?_⟩
  have hmap : found.map (·.node.tag) = (found.map (·.node)).map Element.tag := by
    rw [List.map_map]
    rfl
  rw [hmap, hnodes]
  decide +kernel

end ObjectMarkup
