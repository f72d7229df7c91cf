import ObjectMarkup.Proofs.AttributeOutcomes

/-!
# Attributes in another order

An element that can be shown takes its attributes one after the other. Each of them may make a record
and settles something that other elements can ask for, so it has to be shown that the order does not
count. What is needed for two attributes to change places is that they have different names
(`Pass.affect_comm`), and that not both of them make records, which only instances do
(`Pass.effect_cases`). From there it is induction on the permutation (`compileEach_perm`).

What is left of the order when the attributes are done is the order of entries in what the pass keeps.
`Pass.Reorders` is the relation between two passes for which that is so, at one element. The elements
below are compiled alike in both of them, whatever is known of them already (`Reorders.process`), and
if the value of the element itself is made by look-ups only, it is the same (`process_reordered`).
-/

namespace ObjectMarkup

open Markup (Element NodeId)

/-! ### What an attribute does -/

/-- What an attribute does to a pass. -/
structure AttributeEffect where
  /-- What is known of the attribute from now on, if that is new. -/
  coercion? : Option Coercion
  /-- The value that the element takes. -/
  value? : Option Value
  store : Store

/-- What an attribute of an element does when the records are those that are given. -/
def Pass.effect (p : Pass) (c : Construction) (name raw : String) (s : Store) : AttributeEffect :=
  if c.schema.typeOf name = "string" then ⟨none, some (.string raw), s⟩
  else
    let key := AttributeKey.ofType name (c.schema.typeOf name) raw
    match Reading.ofType? key.type with
    | none => ⟨none, none, s⟩
    | some r =>
      let k := p.coercionFor key c.node.base r
      match k.outcome? with
      | some o => ⟨none, o.toOption, s⟩
      | none =>
        let run := Hook.exec (k.hooks p.environment) s
        ⟨some { k with outcome? := some (contain run.1) }, (contain run.1).toOption, run.2⟩

/-- The pass when an attribute has had its effect, reports and calls apart. -/
def Pass.affect (p : Pass) (id : NodeId) (key : AttributeKey) (f : AttributeEffect) : Pass :=
  { p with
    store := f.store
    coercions := match f.coercion? with
      | some k => p.coercions.insert key k
      | none => p.coercions
    constructions := match f.value? with
      | some v => p.constructions.modify id fun c => { c with values := c.values.insert key.name v }
      | none => p.constructions }

/-- An element that takes a value if there is one. -/
def Construction.takes (c : Construction) (name : String) (value? : Option Value) : Construction :=
  { c with values := match value? with
      | some v => c.values.insert name v
      | none => c.values }

theorem Construction.get?_takes (c : Construction) (name : String) (value? : Option Value)
    (other : String) : (c.takes name value?).values.get? other =
      if other = name then value?.or (c.values.get? name) else c.values.get? other := by
  cases value? with
  | some v => exact OrderedMap.get?_insert _ _ _ _
  | none =>
    show c.values.get? other = _
    split
    · next heq => rw [heq, Option.none_or]
    · rfl

section Affect

variable (p : Pass) (id : NodeId) (key : AttributeKey) (f : AttributeEffect)

/-- What is known of elements after an effect. -/
theorem Pass.get?_affect (other : NodeId) : (p.affect id key f).constructions.get? other =
    if other = id then (p.constructions.get? id).map (·.takes key.name f.value?)
    else p.constructions.get? other := by
  unfold affect
  cases f.value? with
  | some v => exact OrderedMap.get?_modify _ _ _ _
  | none =>
    by_cases heq : other = id
    · rw [if_pos heq, heq]
      exact (Option.map_id' ..).symm
    · rw [if_neg heq]

/-- What is known of attributes after an effect. -/
theorem Pass.get?_coercions_affect (asked : AttributeKey) :
    (p.affect id key f).coercions.get? asked =
      if asked = key then f.coercion?.or (p.coercions.get? key) else p.coercions.get? asked := by
  unfold affect
  cases f.coercion? with
  | some k => exact OrderedMap.get?_insert _ _ _ _
  | none =>
    by_cases heq : asked = key
    · rw [if_pos heq, heq, Option.none_or]
    · rw [if_neg heq]

end Affect

/-- The key of an attribute of an element. -/
def Construction.keyOf (c : Construction) (name raw : String) : AttributeKey :=
  .ofType name (c.schema.typeOf name) raw

/-- **Compiling an attribute** has its effect, and is remembered and may be reported. -/
theorem exec_compileAttribute_effect {p : Pass} (hb : p.Builtin) (c : Construction)
    (name raw : String) :
    ∃ calls diagnostics, Hook.exec (compileAttribute c name raw) p = (.ok (),
      { p.affect c.node.id (c.keyOf name raw) (p.effect c name raw p.store) with
        calls := calls, diagnostics := diagnostics }) := by
  obtain ⟨calls, hrun⟩ := exec_compileAttribute_builtin hb.catalog hb.sound.coercions c name raw
  rw [hrun]
  -- whatever an attribute comes to, it sets one value at most and makes one report at most
  have htake : ∀ (q : Pass) (o : Outcome Value), ∃ diagnostics, q.take c.node name o =
      { q with
        constructions := match o.toOption with
          | some v => q.constructions.modify c.node.id fun c =>
              { c with values := c.values.insert name v }
          | none => q.constructions
        diagnostics := diagnostics } := fun q o => by
    cases o with
    | ok v => exact ⟨_, rfl⟩
    | error e => exact ⟨_, rfl⟩
  rw [Pass.effect]
  by_cases hstring : c.schema.typeOf name = "string"
  · rw [if_pos hstring, if_pos hstring]
    exact ⟨_, _, rfl⟩
  · rw [if_neg hstring, if_neg hstring]
    simp only [Construction.keyOf]
    generalize hkey : AttributeKey.ofType name (c.schema.typeOf name) raw = key
    have hname : name = key.name := hkey ▸ rfl
    subst hname
    cases Reading.ofType? key.type with
    | none => exact ⟨_, _, rfl⟩
    | some r =>
      simp only
      generalize p.coercionFor key c.node.base r = k
      cases k.outcome? with
      -- settled before: the coercions stay, and so does the store
      | some o =>
        obtain ⟨diagnostics, htaken⟩ := htake p o
        exact ⟨_, diagnostics, congrArg (Prod.mk _) htaken⟩
      | none =>
        obtain ⟨diagnostics, htaken⟩ := htake
          { p.answer key k (Hook.exec (k.hooks p.environment) p.store) with calls := calls }
          (contain (Hook.exec (k.hooks p.environment) p.store).1)
        exact ⟨_, diagnostics, congrArg (Prod.mk _) htaken⟩

/-- **The effect of an attribute** is the same whatever records there are, and leaves them alone, or
else a constructor is called for an instance, which takes no record away. -/
theorem Pass.effect_cases {p : Pass} (hb : p.Builtin) (c : Construction) (name raw : String) :
    (∃ k v, ∀ s, p.effect c name raw s = ⟨k, v, s⟩) ∨
      Reading.ofType? (c.keyOf name raw).type = some .instanceOf ∧
        ∀ s, s.size ≤ (p.effect c name raw s).store.size := by
  unfold effect Construction.keyOf
  by_cases hstring : c.schema.typeOf name = "string"
  · exact Or.inl ⟨_, _, fun s => by rw [if_pos hstring]⟩
  · simp only [if_neg hstring]
    generalize AttributeKey.ofType name (c.schema.typeOf name) raw = key
    cases hr : Reading.ofType? key.type with
    | none => exact Or.inl ⟨_, _, fun _ => rfl⟩
    | some r =>
      have hkind := Pass.kind_coercionFor hb.catalog hb.sound.coercions hr c.node.base
      simp only
      generalize p.coercionFor key c.node.base r = k at hkind
      cases k.outcome? with
      | some o => exact Or.inl ⟨_, _, fun _ => rfl⟩
      | none =>
        -- of the hooks only those that call a constructor look at the store
        rcases Reading.hooks_cases p.environment hkind with ⟨ending, hends, -⟩ |
          ⟨maker, rfl, -, hasks⟩
        · exact Or.inl ⟨some { k with outcome? := some (contain ending) }, (contain ending).toOption,
            fun s => by simp only [hends s]⟩
        · refine Or.inr ⟨rfl, fun s => ?_⟩
          simp only [hasks s]
          exact p.environment.calls.size_le maker s

/-! ### The same but for an order -/

/-- What is known of an element, and the same in another order of the attributes. -/
structure Construction.Reorders (c d : Construction) : Prop where
  id : d.node.id = c.node.id
  tag : d.node.tag = c.node.tag
  base : d.node.base = c.node.base
  attribute? : ∀ name, d.node.attribute? name = c.node.attribute? name
  kind : d.kind = c.kind
  schema : d.schema = c.schema
  values : ∀ name, d.values.get? name = c.values.get? name
  children : d.children = c.children
  outcome? : d.outcome? = c.outcome?

namespace Construction.Reorders

variable {c d b : Construction}

theorem refl (c : Construction) : c.Reorders c :=
  ⟨rfl, rfl, rfl, fun _ => rfl, rfl, rfl, fun _ => rfl, rfl, rfl⟩

theorem trans (h : c.Reorders d) (h' : d.Reorders b) : c.Reorders b :=
  ⟨h'.id.trans h.id, h'.tag.trans h.tag, h'.base.trans h.base,
    fun name => (h'.attribute? name).trans (h.attribute? name), h'.kind.trans h.kind,
    h'.schema.trans h.schema, fun name => (h'.values name).trans (h.values name),
    h'.children.trans h.children, h'.outcome?.trans h.outcome?⟩

theorem symm (h : c.Reorders d) : d.Reorders c :=
  ⟨h.id.symm, h.tag.symm, h.base.symm, fun name => (h.attribute? name).symm, h.kind.symm,
    h.schema.symm, fun name => (h.values name).symm, h.children.symm, h.outcome?.symm⟩

theorem takes (h : c.Reorders d) (name : String) (value? : Option Value) :
    (c.takes name value?).Reorders (d.takes name value?) :=
  { h with values := fun other => by rw [get?_takes, get?_takes, h.values, h.values] }

end Construction.Reorders

/-- **A pass that is another one but for the order** in which the attributes of an element came. -/
structure Pass.Reorders (x : NodeId) (p q : Pass) : Prop where
  environment : q.environment = p.environment
  base : q.base = p.base
  released : q.released = p.released
  store : q.store = p.store
  coercions : ∀ key, q.coercions.get? key = p.coercions.get? key
  others : ∀ id, id ≠ x → q.constructions.get? id = p.constructions.get? id
  here : ∃ c d, p.constructions.get? x = some c ∧ q.constructions.get? x = some d ∧ c.Reorders d

namespace Pass.Reorders

variable {x : NodeId} {p q r : Pass}

theorem refl {c : Construction} (hc : p.constructions.get? x = some c) : p.Reorders x p :=
  ⟨rfl, rfl, rfl, rfl, fun _ => rfl, fun _ _ => rfl, c, c, hc, hc, .refl c⟩

theorem symm (h : p.Reorders x q) : q.Reorders x p := by
  obtain ⟨c, d, hc, hd, hsame⟩ := h.here
  exact ⟨h.environment.symm, h.base.symm, h.released.symm, h.store.symm,
    fun key => (h.coercions key).symm, fun id hid => (h.others id hid).symm, d, c, hd, hc, hsame.symm⟩

theorem trans (h : p.Reorders x q) (h' : q.Reorders x r) : p.Reorders x r := by
  obtain ⟨c, d, hc, hd, hsame⟩ := h.here
  obtain ⟨d', b, hd', hb, hsame'⟩ := h'.here
  cases hd.symm.trans hd'
  exact ⟨h'.environment.trans h.environment, h'.base.trans h.base, h'.released.trans h.released,
    h'.store.trans h.store, fun key => (h'.coercions key).trans (h.coercions key),
    fun id hid => (h'.others id hid).trans (h.others id hid), c, b, hc, hb, hsame.trans hsame'⟩

/-! ### Small steps -/

/-- Calls and reports are not looked at. -/
theorem frame (h : p.Reorders x q) (a b : List (HookCall × Bool)) (d d' : List Diagnostic) :
    Reorders x { p with calls := a, diagnostics := d } { q with calls := b, diagnostics := d' } :=
  { h with }

theorem pass (h : p.Reorders x q) (c c' : Construction) (hook : ElementHook) :
    Reorders x (p.pass c hook) (q.pass c' hook) :=
  { h with }

theorem report (h : p.Reorders x q) (d d' : Diagnostic) : Reorders x (p.report d) (q.report d') :=
  { h with }

theorem withStore (h : p.Reorders x q) {s s' : Store} (hs : s' = s) :
    Reorders x { p with store := s } { q with store := s' } :=
  { h with store := hs }

/-- What is known of an element may be changed in both passes in the same way. -/
theorem modify (h : p.Reorders x q) (id : NodeId) {f : Construction → Construction}
    (hf : ∀ c d, c.Reorders d → (f c).Reorders (f d)) :
    Reorders x (p.modifyConstruction id f) (q.modifyConstruction id f) where
  environment := h.environment
  base := h.base
  released := h.released
  store := h.store
  coercions := h.coercions
  others other hother := by
    simp only [modifyConstruction, OrderedMap.get?_modify]
    split
    · next heq => rw [h.others id (heq ▸ hother)]
    · exact h.others other hother
  -- at `x` the two constructions only have to be alike
  here := by
    obtain ⟨c, d, hc, hd, hsame⟩ := h.here
    simp only [modifyConstruction, OrderedMap.get?_modify]
    split
    · next heq =>
      subst heq
      exact ⟨f c, f d, congrArg (Option.map f) hc, congrArg (Option.map f) hd, hf c d hsame⟩
    · exact ⟨c, d, hc, hd, hsame⟩

theorem adopt (h : p.Reorders x q) (parent child : NodeId) :
    Reorders x (p.adopt parent child) (q.adopt parent child) :=
  h.modify parent fun _ _ hsame =>
    { hsame with children := congrArg (· ++ [child]) hsame.children }

theorem settle (h : p.Reorders x q) (id : NodeId) (o : Outcome Value) :
    Reorders x (p.settle id o) (q.settle id o) :=
  h.modify id fun _ _ hsame => { hsame with outcome? := rfl }

theorem start (h : p.Reorders x q) (r : Rule) {e : Element} (he : e.id ≠ x) :
    Reorders x (p.start r e) (q.start r e) where
  environment := h.environment
  base := h.base
  released := h.released
  store := h.store
  coercions := h.coercions
  others id hid := by
    simp only [Pass.start, OrderedMap.get?_insert]
    split
    · rfl
    · exact h.others id hid
  here := by
    -- it is another element that is begun
    simp only [Pass.start, OrderedMap.get?_insert, if_neg he.symm]
    exact h.here

/-- An attribute has the same effect in both passes. -/
theorem effect (h : p.Reorders x q) {c d : Construction} (hsame : c.Reorders d) (name raw : String) :
    q.effect d name raw = p.effect c name raw := by
  have hkeep : ∀ key r, q.coercionFor key d.node.base r = p.coercionFor key c.node.base r := by
    intro key r
    rw [Pass.coercionFor, Pass.coercionFor, h.coercions, h.base, hsame.base]
  funext s
  unfold Pass.effect
  simp only [hsame.schema, hkeep, h.environment]

theorem affect (h : p.Reorders x q) (id : NodeId) (key : AttributeKey) (f : AttributeEffect) :
    Reorders x (p.affect id key f) (q.affect id key f) where
  environment := h.environment
  base := h.base
  released := h.released
  store := rfl
  coercions asked := by rw [get?_coercions_affect, get?_coercions_affect, h.coercions, h.coercions]
  others other hother := by
    rw [get?_affect, get?_affect]
    split
    · next heq => rw [h.others id (heq ▸ hother)]
    · exact h.others other hother
  here := by
    obtain ⟨c, d, hc, hd, hsame⟩ := h.here
    rw [get?_affect, get?_affect]
    split
    · -- the attribute is one of the element itself, whose values are in another order
      next heq =>
      rw [← heq, hc, hd]
      exact ⟨_, _, rfl, rfl, hsame.takes key.name f.value?⟩
    · exact ⟨c, d, hc, hd, hsame⟩

/-- **An attribute** is compiled in both passes alike. -/
theorem compileAttribute (h : p.Reorders x q) (hp : p.Builtin) (hq : q.Builtin)
    {c d : Construction} (hsame : c.Reorders d) (name raw : String) :
    Reorders x (Hook.exec (ObjectMarkup.compileAttribute c name raw) p).2
      (Hook.exec (ObjectMarkup.compileAttribute d name raw) q).2 := by
  obtain ⟨calls, diagnostics, hrun⟩ := exec_compileAttribute_effect hp c name raw
  obtain ⟨calls', diagnostics', hrun'⟩ := exec_compileAttribute_effect hq d name raw
  have hkey : d.keyOf name raw = c.keyOf name raw := by
    rw [Construction.keyOf, Construction.keyOf, hsame.schema]
  rw [hrun, hrun', hsame.id, hkey, h.effect hsame, h.store]
  exact (h.affect c.node.id _ _).frame _ _ _ _

end Pass.Reorders

/-! ### Two attributes -/

section Swap

variable {p : Pass} {c k : Construction}

/-- What an attribute does is not changed by one with another name. -/
theorem Pass.effect_affect {key : AttributeKey} {name : String} (h : key.name ≠ name) (id : NodeId)
    (f : AttributeEffect) (c : Construction) (raw : String) :
    (p.affect id key f).effect c name raw = p.effect c name raw := by
  -- the effect depends on the coercion with this key, and the other attribute has another key
  have hkeep : ∀ base r, (p.affect id key f).coercionFor (c.keyOf name raw) base r
      = p.coercionFor (c.keyOf name raw) base r := by
    intro base r
    have hne : c.keyOf name raw ≠ key := fun heq => h (heq ▸ rfl)
    rw [coercionFor, coercionFor, get?_coercions_affect, if_neg hne]
    rfl
  have henv : (p.affect id key f).environment = p.environment := rfl
  unfold Construction.keyOf at hkeep
  unfold effect
  simp only [hkeep, henv]

/-- **Two effects under different names** can change places, if one of them leaves the records
alone. -/
theorem Pass.affect_comm {x : NodeId} (hk : p.constructions.get? x = some k)
    {a b : AttributeKey} (hab : a.name ≠ b.name) (known : Option Coercion) (value : Option Value)
    (s : Store) (g : AttributeEffect) :
    Reorders x ((p.affect x a ⟨known, value, s⟩).affect x b g)
      ((p.affect x b g).affect x a ⟨known, value, g.store⟩) where
  environment := rfl
  base := rfl
  released := rfl
  store := rfl
  coercions asked := by
    have hkeys : a ≠ b := fun heq => hab (congrArg AttributeKey.name heq)
    simp only [get?_coercions_affect, if_neg hkeys, if_neg hkeys.symm]
    -- two keys, so neither insertion can be seen under the other one
    by_cases ha : asked = a
    · rw [if_pos ha, if_neg (ha ▸ hkeys), if_pos ha]
    · rw [if_neg ha, if_neg ha]
  others id hid := by simp only [get?_affect, if_neg hid]
  here := by
    simp only [get?_affect, if_true, hk, Option.map_some]
    refine ⟨_, _, rfl, rfl, { Construction.Reorders.refl k with values := fun name => ?_ }⟩
    simp only [Construction.get?_takes, if_neg hab, if_neg hab.symm]
    -- and two names, so the values do not overwrite each other
    by_cases ha : name = a.name
    · rw [if_pos ha, if_neg (ha ▸ hab), if_pos ha]
    · rw [if_neg ha, if_neg ha]

/-- Compiling an attribute has its effect. -/
theorem reorders_affect (hb : p.Builtin) (hk : p.constructions.get? c.node.id = some k)
    (name raw : String) :
    Pass.Reorders c.node.id (p.affect c.node.id (c.keyOf name raw) (p.effect c name raw p.store))
      (Hook.exec (compileAttribute c name raw) p).2 := by
  obtain ⟨calls, diagnostics, hrun⟩ := exec_compileAttribute_effect hb c name raw
  have hrefl := (Pass.Reorders.refl hk).affect c.node.id (c.keyOf name raw)
    (p.effect c name raw p.store)
  rw [hrun]
  exact { hrefl with }

/-- Compiling two attributes has both effects. -/
theorem reorders_affect_affect (hb : p.Builtin) (hk : p.constructions.get? c.node.id = some k)
    {a b : String × String} (hab : a.1 ≠ b.1) :
    Pass.Reorders c.node.id
      ((p.affect c.node.id (c.keyOf a.1 a.2) (p.effect c a.1 a.2 p.store)).affect c.node.id
        (c.keyOf b.1 b.2) (p.effect c b.1 b.2 (p.effect c a.1 a.2 p.store).store))
      (Hook.exec (compileAttribute c b.1 b.2) (Hook.exec (compileAttribute c a.1 a.2) p).2).2 := by
  have hfirst := reorders_affect hb hk a.1 a.2
  obtain ⟨-, d, -, hd, -⟩ := hfirst.here
  have hsecond := reorders_affect (hb.lead ((leads_work c).compileAttribute a.1 a.2 p)) hd b.1 b.2
  -- the second attribute does the same, whether the first one is described or compiled
  have heffect := hfirst.effect (.refl c) b.1 b.2
  have hother : (c.keyOf a.1 a.2).name ≠ b.1 := hab
  rw [Pass.effect_affect hother] at heffect
  rw [heffect, hfirst.store] at hsecond
  exact (hfirst.affect c.node.id _ _).trans hsecond

/-- **Two attributes** with different names can be compiled in either order, if one of them is no
instance. -/
theorem compileAttribute_comm (hb : p.Builtin) (hk : p.constructions.get? c.node.id = some k)
    {a b : String × String} (hab : a.1 ≠ b.1)
    (hplain : Reading.ofType? (c.keyOf a.1 a.2).type ≠ some .instanceOf) :
    Pass.Reorders c.node.id
      (Hook.exec (compileAttribute c b.1 b.2) (Hook.exec (compileAttribute c a.1 a.2) p).2).2
      (Hook.exec (compileAttribute c a.1 a.2) (Hook.exec (compileAttribute c b.1 b.2) p).2).2 := by
  obtain ⟨known, value, heffect⟩ := (Pass.effect_cases hb c a.1 a.2).resolve_right
    fun h => hplain h.1
  have hab₁ := reorders_affect_affect hb hk hab
  have hba₁ := reorders_affect_affect hb hk (Ne.symm hab)
  simp only [heffect] at hab₁ hba₁
  exact hab₁.symm.trans ((Pass.affect_comm hk hab known value p.store _).trans hba₁)

end Swap

/-! ### All attributes -/

/-- Whether an attribute is declared to be an instance. -/
def Schema.IsInstance (s : Schema) (name : String) : Prop :=
  Reading.ofType? (Text.nameKey (s.typeOf name)) = some .instanceOf

section Attributes

variable {p : Pass} {c k : Construction}

/-- The attributes one after the other. -/
theorem exec_compileEach_cons (hb : p.Builtin) (c : Construction) (a : String × String)
    (rest : List (String × String)) :
    Hook.exec (compileEach c (a :: rest)) p
      = Hook.exec (compileEach c rest) (Hook.exec (compileAttribute c a.1 a.2) p).2 := by
  obtain ⟨_, _, hrun⟩ := exec_compileAttribute_effect hb c a.1 a.2
  rw [compileEach_cons, Hook.exec_bind_ok hrun, hrun]

/-- No attribute ends the element. -/
theorem compileEach_ends (c : Construction) (attributes : List (String × String)) {p : Pass}
    (hb : p.Builtin) : (Hook.exec (compileEach c attributes) p).1 = .ok () := by
  induction attributes generalizing p with
  | nil => rfl
  | cons a rest ih =>
    rw [exec_compileEach_cons hb]
    exact ih (hb.lead ((leads_work c).compileAttribute a.1 a.2 p))

/-- All attributes, with the hooks before and after them. -/
theorem exec_compileAttributes_each (hb : p.Builtin) {r : Rule} (hkind : c.kind = r.kind) :
    Hook.exec (compileAttributes c) p
      = (.ok (), (Hook.exec (compileEach c c.node.attributes.entries)
          (p.pass c .beforeAttributes)).2.pass c .afterAttributes) :=
  exec_compileAttributesBy (g := compileAttribute) hkind
    (Prod.ext (compileEach_ends c _ (hb.pass c .beforeAttributes)) rfl)

theorem Pass.Reorders.compileEach {x : NodeId} {d : Construction} (hsame : c.Reorders d)
    (attributes : List (String × String)) {p q : Pass} (h : p.Reorders x q) (hp : p.Builtin)
    (hq : q.Builtin) :
    Reorders x (Hook.exec (ObjectMarkup.compileEach c attributes) p).2
      (Hook.exec (ObjectMarkup.compileEach d attributes) q).2 := by
  induction attributes generalizing p q with
  | nil => exact h
  | cons a rest ih =>
    rw [exec_compileEach_cons hp, exec_compileEach_cons hq]
    exact ih (h.compileAttribute hp hq hsame a.1 a.2)
      (hp.lead ((leads_work c).compileAttribute a.1 a.2 p))
      (hq.lead ((leads_work d).compileAttribute a.1 a.2 q))

/-- **The attributes of an element** can be compiled in any order, if only one of them is an
instance. -/
theorem compileEach_perm {attributes attributes' : List (String × String)}
    (hperm : attributes.Perm attributes')
    (hone : ∀ name other, c.schema.IsInstance name → c.schema.IsInstance other → name = other)
    (hnodup : (attributes.map Prod.fst).Nodup) {p : Pass} (hb : p.Builtin)
    (hk : p.constructions.get? c.node.id = some k) :
    Pass.Reorders c.node.id (Hook.exec (compileEach c attributes) p).2
      (Hook.exec (compileEach c attributes') p).2 := by
  induction hperm generalizing p k with
  | nil => exact .refl hk
  -- the same attribute first, then the others from where it leads
  | cons a _ ih =>
    rw [exec_compileEach_cons hb, exec_compileEach_cons hb]
    obtain ⟨-, d, -, hd, -⟩ := (reorders_affect hb hk a.1 a.2).here
    exact ih (List.nodup_cons.mp hnodup).2
      (hb.lead ((leads_work c).compileAttribute a.1 a.2 p)) hd
  | swap a b rest =>
    have hba : b.1 ≠ a.1 := fun heq =>
      (List.nodup_cons.mp hnodup).1 (heq ▸ List.mem_cons_self)
    have hafter : ∀ a : String × String, (Hook.exec (compileAttribute c a.1 a.2) p).2.Builtin :=
      fun a => hb.lead ((leads_work c).compileAttribute a.1 a.2 p)
    -- one of the two is no instance, and both orders are the same if the other one is first
    have hcomm : Pass.Reorders c.node.id
        (Hook.exec (compileAttribute c a.1 a.2) (Hook.exec (compileAttribute c b.1 b.2) p).2).2
        (Hook.exec (compileAttribute c b.1 b.2) (Hook.exec (compileAttribute c a.1 a.2) p).2).2 := by
      by_cases hb' : c.schema.IsInstance b.1
      · exact (compileAttribute_comm hb hk hba.symm fun ha => hba (hone _ _ hb' ha)).symm
      · exact compileAttribute_comm hb hk hba hb'
    rw [exec_compileEach_cons hb, exec_compileEach_cons (hafter b), exec_compileEach_cons hb,
      exec_compileEach_cons (hafter a)]
    exact hcomm.compileEach (.refl c) rest
      ((hafter b).lead ((leads_work c).compileAttribute a.1 a.2 _))
      ((hafter a).lead ((leads_work c).compileAttribute b.1 b.2 _))
  | trans hfirst _ ih ih' =>
    exact (ih hnodup hb hk).trans (ih' ((hfirst.map Prod.fst).nodup_iff.mp hnodup) hb hk)

end Attributes

/-! ### The elements below -/

namespace Pass.Reorders

variable {x : NodeId} {p q : Pass}

theorem values (h : p.Reorders x q) {id : NodeId} (hid : id ≠ x) : q.values id = p.values id := by
  rw [Pass.values, Pass.values, h.others id hid]

/-- What is looked at in children does not depend on the order. -/
theorem seen (h : p.Reorders x q) (id : NodeId) :
    (q.childViews id).map ChildView.seen = (p.childViews id).map ChildView.seen := by
  -- what is seen of `x` is its outcome and its name attribute, and these are alike
  have hlook : ∀ id, (q.constructions.get? id).map (fun c => c.childView.seen)
      = (p.constructions.get? id).map fun c => c.childView.seen := by
    intro id
    by_cases hid : id = x
    · obtain ⟨c, d, hc, hd, hsame⟩ := h.here
      have hseen : d.childView.seen = c.childView.seen := by
        rw [Construction.childView, Construction.childView, ChildView.seen, ChildView.seen,
          ChildView.result?, ChildView.result?, hsame.outcome?]
        exact congrArg (·, _) (hsame.attribute? "name")
      rw [hid, hc, hd, Option.map_some, Option.map_some, hseen]
    · rw [h.others id hid]
  have hseen : ∀ (r : Pass) (ids : List NodeId),
      ((ids.filterMap r.constructions.get?).map Construction.childView).map ChildView.seen
        = ids.filterMap fun id => (r.constructions.get? id).map fun c => c.childView.seen := by
    intro r ids
    rw [List.map_map, List.map_filterMap]
    rfl
  have hchildren : ∀ ids : List NodeId,
      ((ids.filterMap q.constructions.get?).map Construction.childView).map ChildView.seen
        = ((ids.filterMap p.constructions.get?).map Construction.childView).map ChildView.seen :=
    fun ids => by simp only [hseen, hlook]
  unfold Pass.childViews Pass.children
  -- the children are listed in the same order, at `x` and elsewhere
  by_cases hid : id = x
  · obtain ⟨c, d, hc, hd, hsame⟩ := h.here
    rw [hid, hc, hd]
    simp only [hsame.children]
    exact hchildren c.children
  · rw [h.others id hid]
    cases p.constructions.get? id with
    | none => rfl
    | some c => exact hchildren c.children

/-- The attributes of another element, with the hooks before and after them. -/
theorem compileAttributes (h : p.Reorders x q) (hp : p.Builtin) (hq : q.Builtin)
    {c : Construction} {r : Rule} (hkind : c.kind = r.kind) :
    ∃ p' q', Hook.exec (ObjectMarkup.compileAttributes c) p = (.ok (), p') ∧
      Hook.exec (ObjectMarkup.compileAttributes c) q = (.ok (), q') ∧ p'.Reorders x q' := by
  refine ⟨_, _, exec_compileAttributes_each hp hkind, exec_compileAttributes_each hq hkind, ?_⟩
  exact ((h.pass c c .beforeAttributes).compileEach (.refl c) _ (hp.pass _ _)
    (hq.pass _ _)).pass _ _ _

/-- Another element gets the same value. -/
theorem build (h : p.Reorders x q) {c : Construction} {r : Rule} (hkind : c.kind = r.kind)
    (hschema : c.schema = r.schema c.node) (hid : c.node.id ≠ x) :
    ∃ v p' q', Hook.exec (ObjectMarkup.build c) p = (.ok v, p') ∧
      Hook.exec (ObjectMarkup.build c) q = (.ok v, q') ∧ p'.Reorders x q' := by
  have hmade : r.made c.node (q.values c.node.id) (q.childViews c.node.id) q.store
      = r.made c.node (p.values c.node.id) (p.childViews c.node.id) p.store := by
    rw [h.values hid, h.store, r.made_of_seen c.node _ (h.seen c.node.id)]
  have hrun' := exec_build_made (p := q) hkind hschema
  rw [hmade] at hrun'
  exact ⟨_, _, _, exec_build_made hkind hschema, hrun',
    ((h.pass c c .construct).pass c c .finish).withStore rfl⟩

/-- Looking another element up. -/
theorem lookup (h : p.Reorders x q) (hp : p.Builtin) (hq : q.Builtin) {e : Element}
    (he : e.id ≠ x) :
    (∃ error, p.lookup e = .error (.error error) ∧ q.lookup e = .error (.error error)) ∨
      ∃ c p' q', p.lookup e = .ok (c, p') ∧ q.lookup e = .ok (c, q') ∧ p'.Reorders x q' := by
  have hget := h.others e.id he
  cases hc : p.constructions.get? e.id with
  | some c =>
    rw [hc] at hget
    refine Or.inr ⟨c, p, q, ?_, ?_, h⟩
    · rw [Pass.lookup, hc]
    · rw [Pass.lookup, hget]
  -- looked up for the first time in both passes, with the kind of its tag
  | none =>
    rw [hc] at hget
    have hl := Pass.lookup_builtin hp.catalog hc
    have hl' := Pass.lookup_builtin hq.catalog hget
    cases hr : Rule.ofTag? e.tag with
    | none =>
      rw [hr] at hl hl'
      exact Or.inl ⟨_, hl, hl'⟩
    | some r =>
      rw [hr] at hl hl'
      exact Or.inr ⟨_, _, _, hl, hl', h.start r he⟩

theorem reportOutcome (h : p.Reorders x q) (child : Element) (o : Outcome Value) :
    Reorders x (p.reportOutcome child o) (q.reportOutcome child o) := by
  cases o with
  | ok v => exact h
  | error e => exact h.report _ _

/-- The phases of another element, if its children are visited in both passes alike. -/
theorem phases (h : p.Reorders x q) (hp : p.Builtin) (hq : q.Builtin) {c : Construction} {r : Rule}
    (hkind : c.kind = r.kind) (hschema : c.schema = r.schema c.node) (hid : c.node.id ≠ x)
    {parent : NodeId} {children : List Element}
    (hvisit : ∀ {p q : Pass}, p.Reorders x q → p.Builtin → q.Builtin →
      ∃ p' q', Hook.exec (ObjectMarkup.visit parent children) p = (.ok (), p') ∧
        Hook.exec (ObjectMarkup.visit parent children) q = (.ok (), q') ∧ p'.Reorders x q') :
    ∃ v p' q', Hook.exec (ObjectMarkup.phases c parent children) p = (.ok v, p') ∧
      Hook.exec (ObjectMarkup.phases c parent children) q = (.ok v, q') ∧ p'.Reorders x q' := by
  obtain ⟨p₁, q₁, hp₁, hq₁, h₁⟩ := h.compileAttributes hp hq hkind
  -- both passes are still of the built-in kinds when the children come
  have hb₁ := hp.lead ((leads_work c).compileAttributes p)
  have hb₁' := hq.lead ((leads_work c).compileAttributes q)
  rw [hp₁] at hb₁
  rw [hq₁] at hb₁'
  obtain ⟨p₂, q₂, hp₂, hq₂, h₂⟩ := hvisit h₁ hb₁ hb₁'
  obtain ⟨v, p₃, q₃, hp₃, hq₃, h₃⟩ := h₂.build hkind hschema hid
  refine ⟨v, p₃, q₃, ?_, ?_, h₃⟩
  · rw [ObjectMarkup.phases, Hook.exec_bind_ok hp₁, Hook.exec_bind_ok hp₂, hp₃]
  · rw [ObjectMarkup.phases, Hook.exec_bind_ok hq₁, Hook.exec_bind_ok hq₂, hq₃]

mutual

/-- **Another element** is processed in both passes alike. -/
theorem process : ∀ (e : Element) {p q : Pass}, p.Reorders x q → p.Builtin → q.Builtin → x ∉ e.ids →
    ∃ o p' q', ObjectMarkup.process e p = (o, p') ∧ ObjectMarkup.process e q = (o, q') ∧
      p'.Reorders x q'
  | ⟨id, tag, attributes, children, base⟩, p, q, h, hp, hq, hx => by
    rw [Element.ids_mk, List.mem_cons, not_or] at hx
    have hget := h.others id (Ne.symm hx.1)
    cases hc : p.constructions.get? id with
    | none =>
      rw [hc] at hget
      exact ⟨_, _, _, process_absent hc, process_absent hget, h⟩
    | some c =>
      rw [hc] at hget
      cases ho : c.outcome? with
      -- settled, or looked up for the first time: nothing is done in either pass
      | some o => exact ⟨_, _, _, process_settled hc ho, process_settled hget ho, h⟩
      | none =>
        -- the element is not `x`, so both passes have the same construction of it
        have hid : c.node.id ≠ x := fun heq => hx.1 ((hp.sound.node_id hc).symm.trans heq).symm
        obtain ⟨r, -, hkind, hschema⟩ := hp.rule hc
        obtain ⟨v, p', q', hrun, hrun', h'⟩ := h.phases hp hq hkind hschema hid
          fun h hp hq => visit id children h hp hq hx.2
        refine ⟨.ok v, p'.settle id (.ok v), q'.settle id (.ok v), ?_, ?_, h'.settle id _⟩
        · rw [process_run hc ho hp.released, hrun]
          rfl
        · rw [process_run hget ho hq.released, hrun']
          rfl

/-- Visits to other elements. -/
theorem visit (parent : NodeId) : ∀ (children : List Element) {p q : Pass}, p.Reorders x q →
    p.Builtin → q.Builtin → x ∉ Element.idsAll children →
    ∃ p' q', Hook.exec (ObjectMarkup.visit parent children) p = (.ok (), p') ∧
      Hook.exec (ObjectMarkup.visit parent children) q = (.ok (), q') ∧ p'.Reorders x q'
  | [], p, q, h, _, _, _ => ⟨p, q, rfl, rfl, h⟩
  | child :: rest, p, q, h, hp, hq, hx => by
    rw [Element.idsAll_cons, List.mem_append, not_or] at hx
    have hchild : child.id ≠ x := fun heq => hx.1 (heq ▸ Element.id_mem_ids child)
    rw [exec_visit_cons, exec_visit_cons]
    rcases h.lookup hp hq hchild with ⟨error, hl, hl'⟩ | ⟨c, p', q', hl, hl', h'⟩
    · -- nobody knows the child in either pass
      simp only [hl, hl']
      exact visit parent rest (h.report _ _) (hp.lead (Pass.leads_report [] _ _))
        (hq.lead (Pass.leads_report [] _ _)) hx.2
    · have hp' := hp.lead (Pass.leads_lookup hl)
      have hq' := hq.lead (Pass.leads_lookup hl')
      obtain ⟨o, p₁, q₁, hp₁, hq₁, h₁⟩ := process child h' hp' hq' hx.1
      -- what the child comes to is reported and adopted alike
      have hfound : Reorders x (visitFound parent child p') (visitFound parent child q') := by
        rw [hp'.visitFound_eq, hq'.visitFound_eq, hp₁, hq₁]
        exact (h₁.reportOutcome child o).adopt parent child.id
      simp only [hl, hl']
      exact visit parent rest hfound (hp'.visitFound parent child) (hq'.visitFound parent child)
        hx.2

end

end Pass.Reorders

/-! ### The element itself -/

/-- Look-ups do not depend on the order of entries. -/
theorem OrderedMap.get?_of_perm {κ α : Type} [DecidableEq κ] {m m' : OrderedMap κ α}
    (h : m'.entries.Perm m.entries) (key : κ) : m'.get? key = m.get? key := by
  refine Option.ext fun value => ⟨fun hget => ?_, fun hget => ?_⟩
  · exact get?_of_mem_entries (h.mem_iff.mp (mem_entries_of_get? hget))
  · exact get?_of_mem_entries (h.mem_iff.mpr (mem_entries_of_get? hget))

/-- The element with other attributes. -/
def Markup.Element.withAttributes (e : Element) (attributes : OrderedMap String String) : Element :=
  { e with attributes := attributes }

section Element

variable {p q : Pass} {r : Rule} {e : Element} {attributes : OrderedMap String String}

/-- Looking an element up comes to the same with its attributes in another order. -/
theorem Construction.reorders_start (hperm : attributes.entries.Perm e.attributes.entries)
    (hschema : r.schema (e.withAttributes attributes) = r.schema e) :
    (r.start e).Reorders (r.start (e.withAttributes attributes)) :=
  ⟨rfl, rfl, rfl, OrderedMap.get?_of_perm hperm, rfl, hschema, fun _ => rfl, rfl, rfl⟩

/-- The pass in which an element is known with its attributes in another order. -/
theorem Pass.reorders_start (hc : p.constructions.get? e.id = some (r.start e))
    (hperm : attributes.entries.Perm e.attributes.entries)
    (hschema : r.schema (e.withAttributes attributes) = r.schema e) :
    p.Reorders e.id (p.start r (e.withAttributes attributes)) where
  environment := rfl
  base := rfl
  released := rfl
  store := rfl
  coercions _ := rfl
  others _ hid := OrderedMap.get?_insert_of_ne _ hid _
  here := ⟨_, _, hc, OrderedMap.get?_insert_self _ _ _,
    Construction.reorders_start hperm hschema⟩

/-- It is a pass of the built-in kinds as well. -/
theorem Pass.Builtin.start_reordered (hb : p.Builtin)
    (hc : p.constructions.get? e.id = some (r.start e)) (attributes : OrderedMap String String) :
    (p.start r (e.withAttributes attributes)).Builtin := by
  have hkind : p.environment.catalog.elementKind e.tag = .ok r.kind :=
    (hb.sound.constructions e.id (r.start e) hc).node_kind
  refine ⟨⟨fun id c hget => ?_, hb.sound.coercions⟩, hb.catalog, hb.released⟩
  simp only [Pass.start, OrderedMap.get?_insert] at hget
  split at hget
  · next heq =>
    cases hget
    exact ⟨heq.symm, hkind, r.define_kind (e.withAttributes attributes)⟩
  · exact hb.sound.constructions id c hget

/-- All attributes in another order. -/
theorem Pass.Reorders.inOrder (hR : p.Reorders e.id q) (hb : p.Builtin) (hb' : q.Builtin)
    (hc : p.constructions.get? e.id = some (r.start e))
    (hperm : attributes.entries.Perm e.attributes.entries)
    (hschema : r.schema (e.withAttributes attributes) = r.schema e)
    (hone : ∀ name other, (r.schema e).IsInstance name → (r.schema e).IsInstance other →
      name = other) :
    ∃ q', Hook.exec (ObjectMarkup.compileEach (r.start (e.withAttributes attributes))
        attributes.entries) q = (.ok (), q') ∧ q'.Builtin ∧
      Reorders e.id (Hook.exec (ObjectMarkup.compileEach (r.start e) e.attributes.entries) p).2
        q' := by
  -- the order is changed first, and then the element
  have hinorder := compileEach_perm (c := r.start e) hperm.symm hone e.attributes.nodup hb hc
  have hother := hR.compileEach (Construction.reorders_start hperm hschema) attributes.entries hb hb'
  exact ⟨_, Prod.ext (compileEach_ends _ attributes.entries hb') rfl,
    hb'.lead ((leads_work (r.start (e.withAttributes attributes))).compileEach attributes.entries q),
    hinorder.trans hother⟩

/-- **The order of the attributes does not count** if only one of them is an instance and the value of
the element is made by look-ups: neither for what becomes of the element nor for the records. -/
theorem process_reordered (h : p.Ready e) (hb : p.Builtin)
    (hc : p.constructions.get? e.id = some (r.start e))
    (hperm : attributes.entries.Perm e.attributes.entries)
    (hschema : r.schema (e.withAttributes attributes) = r.schema e)
    (hone : ∀ name other, (r.schema e).IsInstance name → (r.schema e).IsInstance other →
      name = other)
    (hmade : ∀ {values values' : OrderedMap String Value} views s,
      (∀ name, values'.get? name = values.get? name) →
      r.made (e.withAttributes attributes) values' views s = r.made e values views s) :
    (process (e.withAttributes attributes) (p.start r (e.withAttributes attributes))).1
        = (process e p).1 ∧
      (process (e.withAttributes attributes) (p.start r (e.withAttributes attributes))).2.store
        = (process e p).2.store := by
  have hR := Pass.reorders_start hc hperm hschema
  have hb' := hb.start_reordered hc attributes
  have hc' : (p.start r (e.withAttributes attributes)).constructions.get? e.id
      = some (r.start (e.withAttributes attributes)) := OrderedMap.get?_insert_self _ _ _
  generalize p.start r (e.withAttributes attributes) = q at hR hb' hc' ⊢
  obtain ⟨p₁, p₂, hthrough⟩ := Pass.exists_goesThrough h hb hc
  -- the attributes
  obtain ⟨q₁, hq₁, hb₁', h₁⟩ := (hR.pass (r.start e) (r.start (e.withAttributes attributes))
    .beforeAttributes).inOrder (hb.pass _ _) (hb'.pass _ _) hc hperm hschema hone
  rw [hthrough.attributes] at h₁
  -- the children
  obtain ⟨p', q₂, hp', hq₂, h₂⟩ := (h₁.pass (r.start e) (r.start (e.withAttributes attributes))
    .afterAttributes).visit e.id e.children hthrough.builtin (hb₁'.pass _ _) hthrough.ready.parent
  rw [hthrough.children] at hp'
  cases hp'
  -- the value
  have hrun := processBy_eq_conclude (g := compileAttribute) (e := e.withAttributes attributes) hc'
    hb'.released hq₁ ((congrArg (Hook.exec · _) (visitBy_compileAttribute e.id e.children)).trans hq₂)
  rw [processBy_compileAttribute] at hrun
  obtain ⟨c, d, hpc, hqd, hcd⟩ := h₂.here
  have hmakes : q₂.makes r (e.withAttributes attributes) = p₂.makes r e := by
    calc q₂.makes r (e.withAttributes attributes)
        = r.made (e.withAttributes attributes) d.values (p₂.childViews e.id) p₂.store := by
          rw [Pass.makes, h₂.store, ← r.made_of_seen _ _ (h₂.seen e.id), ← Pass.values_eq hqd]
          rfl
      _ = r.made e c.values (p₂.childViews e.id) p₂.store := hmade _ _ hcd.values
      _ = p₂.makes r e := by rw [Pass.makes, Pass.values_eq hpc]
  rw [hthrough.ending, hrun, hmakes]
  exact ⟨rfl, congrArg Prod.snd hmakes⟩

end Element

end ObjectMarkup
