import ObjectMarkup.Markup.Document

/-!
# The numbers of a tree

A pass finds what it knows of an element under the element's number, so everything that is said of
a pass rests on the numbers of a tree being pairwise different. `Element.Numbered` says so, and
`Draft.numbered_build` shows that building gives no other trees: it counts through the elements in
postorder (`Draft.numbers_build`), so that an element has a greater number than those below it
(`Element.id_lt_of_postorder`).

In numbered trees an element is known by its number (`NumberedAll.eq_of_id_eq`) and has at most one
parent (`NumberedAll.parent_unique`).
-/

namespace ObjectMarkup.Markup

namespace Element

/-- The numbers of the elements of a tree, each element before its children. -/
def ids (e : Element) : List NodeId :=
  e.preorder.map id

/-- The numbers of the elements of a list of trees. -/
def idsAll (es : List Element) : List NodeId :=
  (preorderAll es).map id

theorem ids_eq (e : Element) : e.ids = e.id :: idsAll e.children := by
  rw [ids, preorder_eq, List.map_cons, idsAll]

@[simp] theorem ids_mk (id : NodeId) (tag : String) (attributes : OrderedMap String String)
    (children : List Element) (base : Option Locator) :
    ids ⟨id, tag, attributes, children, base⟩ = id :: idsAll children :=
  ids_eq _

@[simp] theorem idsAll_nil : idsAll [] = [] := rfl

@[simp] theorem idsAll_cons (e : Element) (rest : List Element) :
    idsAll (e :: rest) = e.ids ++ idsAll rest := by
  simp [idsAll, ids, preorderAll]

theorem preorderAll_append (es es' : List Element) :
    preorderAll (es ++ es') = preorderAll es ++ preorderAll es' := by
  induction es with
  | nil => rfl
  | cons e rest ih =>
    rw [List.cons_append, preorderAll, preorderAll, ih, List.append_assoc]

theorem idsAll_append (es es' : List Element) : idsAll (es ++ es') = idsAll es ++ idsAll es' := by
  rw [idsAll, preorderAll_append, List.map_append, idsAll, idsAll]

theorem mem_preorderAll {n : Element} {es : List Element} :
    n ∈ preorderAll es ↔ ∃ e ∈ es, n ∈ e.preorder := by
  induction es with
  | nil => simp [preorderAll]
  | cons e rest ih => simp [preorderAll, ih]

mutual

/-- Induction on trees: what holds of an element if it holds of its children holds of all. -/
theorem induction {M : Element → Prop} (h : ∀ e, (∀ child ∈ e.children, M child) → M e) :
    ∀ e, M e
  | ⟨id, tag, attributes, children, base⟩ =>
    h ⟨id, tag, attributes, children, base⟩ (inductionAll h children)

theorem inductionAll {M : Element → Prop} (h : ∀ e, (∀ child ∈ e.children, M child) → M e) :
    ∀ es : List Element, ∀ e ∈ es, M e
  | [] => fun _ hmem => absurd hmem List.not_mem_nil
  | e :: rest => fun e' hmem => by
    rcases List.mem_cons.mp hmem with heq | hmem
    · exact heq ▸ induction h e
    · exact inductionAll h rest e' hmem

end

theorem id_mem_ids (e : Element) : e.id ∈ e.ids := by
  rw [ids_eq]; exact List.mem_cons_self

theorem mem_idsAll {e : Element} {es : List Element} {id : NodeId} (h : e ∈ es)
    (hid : id ∈ e.ids) : id ∈ idsAll es := by
  induction es with
  | nil => cases h
  | cons a rest ih =>
    rw [idsAll_cons, List.mem_append]
    rcases List.mem_cons.mp h with rfl | h
    · exact Or.inl hid
    · exact Or.inr (ih h)

theorem id_mem_idsAll {e : Element} {es : List Element} (h : e ∈ es) : e.id ∈ idsAll es :=
  mem_idsAll h (id_mem_ids e)

theorem self_mem_preorder (e : Element) : e ∈ e.preorder := by
  rw [preorder_eq]; exact List.mem_cons_self

theorem preorder_section_of_mem {e : Element} {es : List Element} (h : e ∈ es) :
    e.preorder <:+: preorderAll es := by
  induction es with
  | nil => cases h
  | cons first rest ih =>
    rw [preorderAll]
    rcases List.mem_cons.mp h with rfl | h
    · exact (List.prefix_append _ _).isInfix
    · exact (ih h).trans (List.suffix_append _ _).isInfix

/-- A subtree is a section of the tree. -/
theorem preorder_section {e n : Element} (h : n ∈ e.preorder) : n.preorder <:+: e.preorder := by
  revert n
  refine Element.induction (M := fun e => ∀ {n : Element}, n ∈ e.preorder →
    n.preorder <:+: e.preorder) (fun e ih n h => ?_) e
  rw [preorder_eq] at h
  rcases List.mem_cons.mp h with rfl | h
  · exact List.infix_refl _
  · obtain ⟨child, hchild, hn⟩ := mem_preorderAll.mp h
    rw [preorder_eq e]
    exact ((ih child hchild hn).trans (preorder_section_of_mem hchild)).trans
      (List.suffix_cons _ _).isInfix

theorem preorder_section_preorderAll {es : List Element} {n : Element} (h : n ∈ preorderAll es) :
    n.preorder <:+: preorderAll es := by
  obtain ⟨e, he, hn⟩ := mem_preorderAll.mp h
  exact (preorder_section hn).trans (preorder_section_of_mem he)

/-- The numbers of a subtree are numbers of the tree. -/
theorem ids_subset {e n : Element} (h : n ∈ e.preorder) : ∀ id ∈ n.ids, id ∈ e.ids := by
  intro id hid
  obtain ⟨m, hm, rfl⟩ := List.mem_map.mp hid
  exact List.mem_map_of_mem ((preorder_section h).subset hm)

theorem ids_subset_idsAll {es : List Element} {n : Element} (h : n ∈ preorderAll es) :
    ∀ id ∈ n.ids, id ∈ idsAll es := by
  obtain ⟨e, he, hn⟩ := mem_preorderAll.mp h
  exact fun id hid => mem_idsAll he (ids_subset hn id hid)

/-- No two elements of the tree have one number. -/
def Numbered (e : Element) : Prop :=
  e.ids.Nodup

/-- No two elements of the trees have one number. -/
def NumberedAll (es : List Element) : Prop :=
  (idsAll es).Nodup

instance (e : Element) : Decidable e.Numbered :=
  inferInstanceAs (Decidable e.ids.Nodup)

/-- A numbered tree is a number of its own over numbered trees. -/
theorem numbered_iff (e : Element) :
    e.Numbered ↔ e.id ∉ idsAll e.children ∧ NumberedAll e.children := by
  rw [Numbered, ids_eq, List.nodup_cons, NumberedAll]

theorem numberedAll_cons (e : Element) (rest : List Element) :
    NumberedAll (e :: rest) ↔
      e.Numbered ∧ NumberedAll rest ∧ ∀ id ∈ e.ids, id ∉ idsAll rest := by
  rw [NumberedAll, idsAll_cons, List.nodup_append, Numbered, NumberedAll]
  constructor
  · rintro ⟨he, hrest, hne⟩
    exact ⟨he, hrest, fun id hid hmem => hne id hid id hmem rfl⟩
  · rintro ⟨he, hrest, hdis⟩
    exact ⟨he, hrest, fun a ha b hb hab => hdis a ha (hab ▸ hb)⟩

/-- Subtrees of numbered trees are numbered. -/
theorem NumberedAll.numbered {es : List Element} (h : NumberedAll es) {n : Element}
    (hn : n ∈ preorderAll es) : n.Numbered :=
  List.Sublist.nodup ((preorder_section_preorderAll hn).sublist.map id) h

theorem NumberedAll.numbered_of_mem {es : List Element} (h : NumberedAll es) {e : Element}
    (he : e ∈ es) : e.Numbered :=
  h.numbered ((preorder_section_of_mem he).subset (self_mem_preorder e))

/-- Two of several numbered trees have no number in common. -/
theorem NumberedAll.eq_of_mem_ids {es : List Element} (h : NumberedAll es) {e e' : Element}
    (he : e ∈ es) (he' : e' ∈ es) {id : NodeId} (hid : id ∈ e.ids) (hid' : id ∈ e'.ids) :
    e = e' := by
  induction es with
  | nil => cases he
  | cons first rest ih =>
    obtain ⟨-, hrest, hsep⟩ := (numberedAll_cons _ _).mp h
    -- the numbers of the first tree are in none of the others
    rcases List.mem_cons.mp he with heq | hrest₁ <;> rcases List.mem_cons.mp he' with heq' | hrest₂
    · exact heq.trans heq'.symm
    · exact absurd (mem_idsAll hrest₂ hid') (hsep id (heq ▸ hid))
    · exact absurd (mem_idsAll hrest₁ hid) (hsep id (heq' ▸ hid'))
    · exact ih hrest hrest₁ hrest₂

/-- An element of numbered trees is known by its number. -/
theorem NumberedAll.eq_of_id_eq {es : List Element} (h : NumberedAll es) {n m : Element}
    (hn : n ∈ preorderAll es) (hm : m ∈ preorderAll es) (heq : n.id = m.id) : n = m := by
  have hne : (preorderAll es).Pairwise fun n m => n.id ≠ m.id := List.pairwise_map.mp h
  refine List.Pairwise.forall_of_forall_of_flip (R := fun n m => n.id = m.id → n = m)
    (fun _ _ _ => rfl) (hne.imp fun hne heq => absurd heq hne) ?_ hn hm heq
  exact hne.imp fun hne heq => absurd heq.symm hne

/-- An element of numbered trees is in a subtree if its number is. -/
theorem NumberedAll.mem_preorder_of_id_mem {es : List Element} (h : NumberedAll es)
    {x n : Element} (hx : x ∈ preorderAll es) (hn : n ∈ preorderAll es) (hid : n.id ∈ x.ids) :
    n ∈ x.preorder := by
  obtain ⟨m, hm, heq⟩ := List.mem_map.mp hid
  obtain rfl := h.eq_of_id_eq ((preorder_section_preorderAll hx).subset hm) hn heq
  exact hm

/-- No child has the number of an element below a child. -/
theorem id_ne_of_mem_preorderAll {children : List Element} (h : NumberedAll children) :
    ∀ child ∈ children, ∀ node ∈ preorderAll child.children,
      ∀ sibling ∈ children, sibling.id ≠ node.id := by
  intro child hchild node hnode sibling hsibling heq
  have hid : node.id ∈ idsAll child.children := List.mem_map_of_mem hnode
  have hids : node.id ∈ child.ids := by
    rw [ids_eq]
    exact List.mem_cons_of_mem _ hid
  obtain rfl := h.eq_of_mem_ids hchild hsibling hids (heq ▸ id_mem_ids sibling)
  exact ((numbered_iff child).mp (h.numbered_of_mem hchild)).1 (heq ▸ hid)

/-- A child of an element in a tree is below the root of the tree. -/
theorem mem_preorderAll_of_mem_children {e a n : Element} (ha : a ∈ e.preorder)
    (hn : n ∈ a.children) : n ∈ preorderAll e.children := by
  rw [preorder_eq] at ha
  rcases List.mem_cons.mp ha with rfl | ha
  · exact mem_preorderAll.mpr ⟨n, hn, self_mem_preorder n⟩
  · obtain ⟨child, hchild, ha⟩ := mem_preorderAll.mp ha
    have hn' : n ∈ a.preorder := by
      rw [preorder_eq]
      exact List.mem_cons_of_mem _ (mem_preorderAll.mpr ⟨n, hn, self_mem_preorder n⟩)
    exact mem_preorderAll.mpr ⟨child, hchild, (preorder_section ha).subset hn'⟩

theorem id_mem_ids_of_mem_children {e a n : Element} (ha : a ∈ e.preorder) (hn : n ∈ a.children) :
    n.id ∈ e.ids := by
  rw [ids_eq]
  exact List.mem_cons_of_mem _ (List.mem_map_of_mem (mem_preorderAll_of_mem_children ha hn))

theorem Numbered.parent_unique {n a b : Element} (hna : n ∈ a.children) (hnb : n ∈ b.children)
    (e : Element) : e.Numbered → a ∈ e.preorder → b ∈ e.preorder → a = b := by
  refine Element.induction (M := fun e => e.Numbered → a ∈ e.preorder → b ∈ e.preorder → a = b)
    (fun e ih he ha hb => ?_) e
  obtain ⟨-, hchildren⟩ := (numbered_iff e).mp he
  -- a child is not further down as well
  have hnot : n ∈ e.children → ∀ x ∈ preorderAll e.children, n ∉ x.children := by
    intro hn x hx hnx
    obtain ⟨child, hchild, hx⟩ := mem_preorderAll.mp hx
    exact id_ne_of_mem_preorderAll hchildren child hchild n
      (mem_preorderAll_of_mem_children hx hnx) n hn rfl
  rw [preorder_eq] at ha hb
  rcases List.mem_cons.mp ha with rfl | ha <;> rcases List.mem_cons.mp hb with hb | hb
  · exact hb.symm
  · exact absurd hnb (hnot hna b hb)
  · exact absurd hna (hnot (hb ▸ hnb) a ha)
  · -- both parents are below the root, and below the same child, since they share `n`
    obtain ⟨child, hchild, ha⟩ := mem_preorderAll.mp ha
    obtain ⟨child', hchild', hb⟩ := mem_preorderAll.mp hb
    obtain rfl := hchildren.eq_of_mem_ids hchild hchild' (id_mem_ids_of_mem_children ha hna)
      (id_mem_ids_of_mem_children hb hnb)
    exact ih child hchild (hchildren.numbered_of_mem hchild) ha hb

/-- **An element has one parent** in numbered trees. -/
theorem NumberedAll.parent_unique {es : List Element} (h : NumberedAll es) {n a b : Element}
    (ha : a ∈ preorderAll es) (hb : b ∈ preorderAll es) (hna : n ∈ a.children)
    (hnb : n ∈ b.children) : a = b := by
  obtain ⟨e, he, ha'⟩ := mem_preorderAll.mp ha
  obtain ⟨e', he', hb'⟩ := mem_preorderAll.mp hb
  obtain rfl := h.eq_of_mem_ids he he' (id_mem_ids_of_mem_children ha' hna)
    (id_mem_ids_of_mem_children hb' hnb)
  exact Numbered.parent_unique hna hnb e (h.numbered_of_mem he) ha' hb'

end Element

/-- The elements that come off the stack are those of the trees on it, in their order. -/
theorem Descendants.toList_eq (d : Descendants) :
    d.toList = Element.preorderAll d.stack := by
  induction d using Descendants.toList.induct with
  | case1 d hnext =>
    obtain ⟨_ | ⟨e, rest⟩⟩ := d
    · unfold Descendants.toList
      rfl
    · cases hnext
  | case2 d e d' hnext ih =>
    obtain ⟨_ | ⟨first, rest⟩⟩ := d
    · cases hnext
    obtain ⟨rfl, rfl⟩ := Prod.mk.inj (Option.some.inj hnext)
    -- the walk puts the children before what is on the stack, and so does preorder
    calc (Descendants.mk (first :: rest)).toList
        = first :: (Descendants.mk (first.children ++ rest)).toList := by
          rw [Descendants.toList]
          rfl
      _ = first :: Element.preorderAll (first.children ++ rest) := by rw [ih]
      _ = Element.preorderAll (first :: rest) := by
          rw [Element.preorderAll_append, Element.preorderAll, Element.preorder_eq,
            List.cons_append]

theorem Element.descendants_eq (e : Element) : e.descendants = Element.preorderAll e.children :=
  Descendants.toList_eq _

/-- What is found below an element of the trees is one of them. -/
theorem Element.mem_preorderAll_of_mem_descendants {trees : List Element} {node n : Element}
    (hnode : node ∈ Element.preorderAll trees) (hn : n ∈ node.descendants) :
    n ∈ Element.preorderAll trees := by
  rw [Element.descendants_eq] at hn
  refine (Element.preorder_section_preorderAll hnode).subset ?_
  rw [Element.preorder_eq]
  exact List.mem_cons_of_mem _ hn

namespace Element

mutual

/-- The element and everything below it, each element after its children. -/
def postorder : Element → List Element
  | ⟨id, tag, attributes, children, base⟩ =>
    postorderAll children ++ [⟨id, tag, attributes, children, base⟩]

def postorderAll : List Element → List Element
  | [] => []
  | e :: rest => e.postorder ++ postorderAll rest

end

theorem postorder_eq (e : Element) : e.postorder = postorderAll e.children ++ [e] := by
  cases e; simp [postorder]

mutual

theorem postorder_perm : ∀ e : Element, e.postorder.Perm e.preorder
  | ⟨id, tag, attributes, children, base⟩ => by
    rw [postorder, preorder]
    exact (List.perm_append_singleton _ _).trans ((postorderAll_perm children).cons _)

theorem postorderAll_perm : ∀ es : List Element, (postorderAll es).Perm (preorderAll es)
  | [] => .refl _
  | e :: rest => by
    rw [postorderAll, preorderAll]
    exact (postorder_perm e).append (postorderAll_perm rest)

end

/-- The tree of a child is passed through in one go. -/
theorem postorder_section_of_mem {e : Element} {es : List Element} (h : e ∈ es) :
    e.postorder <:+: postorderAll es := by
  induction es with
  | nil => cases h
  | cons first rest ih =>
    rw [postorderAll]
    rcases List.mem_cons.mp h with rfl | h
    · exact (List.prefix_append _ _).isInfix
    · exact (ih h).trans (List.suffix_append _ _).isInfix

/-- In a tree that is numbered in postorder no element has a smaller number than one below it. -/
theorem id_lt_of_postorder (e : Element) : (e.postorder.map id).Pairwise (· < ·) →
    ∀ n ∈ e.preorder, ∀ m ∈ n.descendants, m.id < n.id := by
  refine Element.induction (M := fun e => (e.postorder.map id).Pairwise (· < ·) →
    ∀ n ∈ e.preorder, ∀ m ∈ n.descendants, m.id < n.id) (fun e ih h n hn m hm => ?_) e
  rw [preorder_eq] at hn
  rcases List.mem_cons.mp hn with rfl | hn
  · -- the element itself comes last
    rw [descendants_eq] at hm
    rw [postorder_eq, List.map_append, List.pairwise_append] at h
    exact h.2.2 m.id (List.mem_map_of_mem ((postorderAll_perm _).mem_iff.mpr hm)) n.id
      (List.mem_singleton.mpr rfl)
  · -- below a child the order is that of the child's own section
    obtain ⟨child, hchild, hn⟩ := mem_preorderAll.mp hn
    refine ih child hchild (h.sublist ?_) n hn m hm
    rw [postorder_eq e]
    exact ((postorder_section_of_mem hchild).sublist.trans (List.sublist_append_left _ _)).map id

end Element

namespace Draft

mutual

/-- How many elements are built. -/
def size : Draft → Nat
  | ⟨_, _, children, _⟩ => sizeAll children + 1

def sizeAll : List Draft → Nat
  | [] => 0
  | d :: rest => d.size + sizeAll rest

end

mutual

/-- **Building counts through a tree in postorder,** from `next` on. -/
theorem numbers_build (inherited : Option Locator) (next : NodeId) : ∀ d : Draft,
    (d.build inherited next).1.postorder.map Element.id = List.range' next d.size ∧
      (d.build inherited next).2 = next + d.size
  | ⟨tag, attributes, children, base⟩ => by
    obtain ⟨hids, hnext⟩ := numbers_buildAll (base.or inherited) next children
    simp only [build, Element.postorder, size, List.map_append, List.map_singleton, hids, hnext]
    exact ⟨(List.range'_1_concat ..).symm, Nat.add_assoc ..⟩

/-- Trees that are built one after the other are counted through one after the other. -/
theorem numbers_buildAll (inherited : Option Locator) (next : NodeId) : ∀ ds : List Draft,
    (Element.postorderAll (buildAll inherited next ds).1).map Element.id
        = List.range' next (sizeAll ds) ∧
      (buildAll inherited next ds).2 = next + sizeAll ds
  | [] => ⟨rfl, rfl⟩
  | d :: rest => by
    obtain ⟨hids, hnext⟩ := numbers_build inherited next d
    obtain ⟨hrest, hlast⟩ := numbers_buildAll inherited (d.build inherited next).2 rest
    rw [hnext] at hrest hlast
    simp only [buildAll, Element.postorderAll, sizeAll, List.map_append, hids, hrest, hlast, hnext]
    exact ⟨List.range'_append_1 .., Nat.add_assoc ..⟩

end

/-- **Building numbers a tree.** Wherever the counter stands, no two elements of what is built have
one number. -/
theorem numbered_build (d : Draft) (inherited : Option Locator) (next : NodeId) :
    (d.build inherited next).1.Numbered := by
  have hperm := (Element.postorder_perm (d.build inherited next).1).map Element.id
  rw [(numbers_build inherited next d).1] at hperm
  exact hperm.nodup_iff.mp List.nodup_range'

end Draft

end ObjectMarkup.Markup
