import ObjectMarkup.Config
import ObjectMarkup.Proofs.Spread

/-!
# Namespaces without records

A namespace is plain if all its paths lead to values without records and constructors. A
configuration cannot define any other (`Config.plain_apply`): what it writes down is a scalar, and
giving a plain value to a path keeps a namespace plain, whatever becomes of the path
(`Namespace.plain_define`).
-/

namespace ObjectMarkup

namespace Namespace

/-! ### Scopes -/

mutual

/-- An entry under which there are such values only. -/
def Entry.Holds (P : Value → Prop) : Entry → Prop
  | .value v => P v
  | .scope entries => HoldsAll P entries

/-- A scope in which there are such values only. -/
def HoldsAll (P : Value → Prop) : List (String × Entry) → Prop
  | [] => True
  | (_, e) :: rest => Entry.Holds P e ∧ HoldsAll P rest

end

variable {P : Value → Prop}

theorem holdsAll_iff {scope : Scope} : HoldsAll P scope ↔ ∀ e ∈ scope, e.2.Holds P := by
  induction scope with
  | nil => exact iff_of_true trivial fun _ h => absurd h List.not_mem_nil
  | cons e rest ih => rw [HoldsAll, ih, List.forall_mem_cons]

theorem HoldsAll.put {scope : Scope} (h : HoldsAll P scope) (part : String) {e : Entry}
    (he : e.Holds P) : HoldsAll P (OrderedMap.put part e scope) :=
  holdsAll_iff.mpr (OrderedMap.forall_mem_put (holdsAll_iff.mp h) he)

theorem HoldsAll.lookup {scope : Scope} (h : HoldsAll P scope) {part : String} {e : Entry}
    (he : scope.lookup part = some e) : e.Holds P := by
  obtain ⟨l₁, l₂, rfl, -⟩ := List.lookup_eq_some_iff.mp he
  exact holdsAll_iff.mp h (part, e) (List.mem_append_right _ List.mem_cons_self)

/-- What a path leads to holds nothing else. -/
theorem HoldsAll.find? {parts : List String} {scope : Scope} (h : HoldsAll P scope) {e : Entry}
    (he : Namespace.find? parts scope = some e) : e.Holds P := by
  fun_induction Namespace.find? parts scope with
  | case1 => cases he
  | case2 scope last => exact h.lookup he
  | case3 scope part rest _ inner hinner ih => exact ih (h.lookup hinner) he
  | case4 => cases he

/-- A value that is put at a path leaves the others as they are. -/
theorem HoldsAll.put? {replace : Bool} {v : Value} (hv : P v) {parts : List String}
    {scope scope' : Scope} (h : HoldsAll P scope)
    (hput : Namespace.put? replace v parts scope = some scope') : HoldsAll P scope' := by
  -- by the cases of `put?`: it refuses, puts the value here, or goes into a scope
  fun_induction Namespace.put? replace v parts scope generalizing scope' with
  | case1 => cases hput
  | case2 => cases hput
  | case3 => cases hput; exact h.put _ hv
  | case4 => cases hput
  | case5 => cases hput; exact h.put _ hv
  | case6 => cases hput
  | case7 _ _ _ _ _ hinner ih =>
    obtain ⟨scope'', hscope, rfl⟩ := Option.map_eq_some_iff.mp hput
    exact h.put _ (ih (h.lookup hinner) hscope)
  | case8 _ _ _ _ _ ih =>
    obtain ⟨scope'', hscope, rfl⟩ := Option.map_eq_some_iff.mp hput
    exact h.put _ (ih trivial hscope)

/-! ### Namespaces -/

/-- A path leads to such a value, if it leads to a value. -/
theorem HoldsAll.reflect {n : Namespace} (h : HoldsAll P n.root) {path : String} {v : Value}
    (hv : n.reflect path = .ok v) : P v := by
  unfold Namespace.reflect at hv
  split at hv
  · next w hw =>
    cases hv
    exact h.find? hw
  · cases hv
  · cases hv

/-- All paths lead to values without records and constructors. -/
def Plain (n : Namespace) : Prop :=
  HoldsAll Value.Plain n.root

theorem plain_empty : Namespace.empty.Plain :=
  trivial

theorem Plain.reflect {n : Namespace} (h : n.Plain) {path : String} {v : Value}
    (hv : n.reflect path = .ok v) : v.Plain :=
  HoldsAll.reflect h hv

/-- Giving a plain value to a path keeps a namespace plain. -/
theorem plain_define {n : Namespace} (h : n.Plain) (path : String) {v : Value} (hv : v.Plain)
    (replace : Bool) : (n.define path v replace).2.Plain := by
  unfold define
  split
  · exact h
  · split
    · next hput => exact HoldsAll.put? hv h hput
    · exact h

end Namespace

/-! ### Configurations -/

namespace Config

def Plain (c : Config) : Prop :=
  ∀ e ∈ c.symbols, e.2.Plain

theorem plain_valueOf (v : Kdl.Value) : (valueOf v).Plain := by
  cases v with
  | integer i =>
    rw [valueOf]
    split <;> exact trivial
  | _ => exact trivial

/-- The nodes are read one after the other. -/
theorem foldlM_cons_eq_ok {f : Config → Kdl.Node → Except ConfigError Config} {node : Kdl.Node}
    {rest : List Kdl.Node} {c c' : Config} :
    (node :: rest).foldlM f c = .ok c' ↔ ∃ c₁, f c node = .ok c₁ ∧ rest.foldlM f c₁ = .ok c' := by
  rw [List.foldlM_cons]
  constructor
  · intro h
    cases hstep : f c node with
    | error e =>
      rw [hstep] at h
      cases h
    | ok c₁ =>
      rw [hstep] at h
      exact ⟨c₁, rfl, h⟩
  · rintro ⟨c₁, hstep, hrest⟩
    rw [hstep]
    exact hrest

/-- **What reading keeps:** it holds after the value of a path was taken, after a base was set and
after a node was not known, if it held before. -/
structure KeptByReading (P : Config → Prop) : Prop where
  symbol : ∀ {c c' : Config} {node : Kdl.Node}, P c → c.withSymbol node = .ok c' → P c'
  base : ∀ {c : Config} (l : Locator), P c → P { c with base := some l }
  unknown : ∀ {c : Config} (name : String),
    P c → P { c with warnings := c.warnings ++ [.unknownNode name] }

namespace KeptByReading

variable {P : Config → Prop}

/-- Reading node after node keeps what each step keeps. -/
theorem foldlM {f : Config → Kdl.Node → Except ConfigError Config}
    (hf : ∀ {c c' node}, P c → f c node = .ok c' → P c') (nodes : List Kdl.Node) :
    ∀ {c c' : Config}, P c → nodes.foldlM f c = .ok c' → P c' := by
  induction nodes with
  | nil =>
    intro c c' hc h
    cases h
    exact hc
  | cons node rest ih =>
    intro c c' hc h
    obtain ⟨c₁, hstep, hrest⟩ := foldlM_cons_eq_ok.mp h
    exact ih (hf hc hstep) hrest

theorem withNode (hP : KeptByReading P) {domains : Locator.Domains} {c c' : Config}
    {node : Kdl.Node} (hc : P c) (h : c.withNode domains node = .ok c') : P c' := by
  unfold Config.withNode at h
  split at h
  · cases hbase : baseOf domains node with
    | error e => rw [hbase] at h; cases h
    | ok l =>
      rw [hbase] at h
      cases h
      exact hP.base l hc
  · split at h
    · exact foldlM hP.symbol _ hc h
    · cases h
      exact hP.unknown node.name hc

theorem read (hP : KeptByReading P) (hempty : P empty) {domains : Locator.Domains}
    {text : String} {c : Config} (h : Config.read domains text = .ok c) : P c := by
  unfold Config.read at h
  split at h
  · exact foldlM hP.withNode _ hempty h
  · cases h

end KeptByReading

/-- Taking the value of a path. -/
theorem withSymbol_eq_ok {c c' : Config} {node : Kdl.Node} (h : c.withSymbol node = .ok c') :
    ∃ value, c' = { c with
      symbols := c.symbols ++ [(node.name, valueOf value)]
      warnings := c.warnings ++
        if c.symbols.any (·.1 == node.name) then [.symbolRedefined node.name] else [] } := by
  unfold withSymbol at h
  cases hvalue : singleArgument node with
  | error e => rw [hvalue] at h; cases h
  | ok value =>
    rw [hvalue] at h
    cases h
    exact ⟨value, rfl⟩

theorem keptByReading_plain : KeptByReading Plain where
  symbol {c c' node} hc h := by
    obtain ⟨value, rfl⟩ := withSymbol_eq_ok h
    refine List.forall_mem_append.mpr ⟨hc, fun e he => ?_⟩
    rw [List.mem_singleton.mp he]
    exact plain_valueOf value
  base _ hc := hc
  unknown _ hc := hc

/-- **A configuration that is read** defines values without records and constructors only. -/
theorem plain_apply {domains : Locator.Domains} {text : String} {c : Config}
    (h : read domains text = .ok c) {n : Namespace} (hn : n.Plain) : (c.apply n).Plain := by
  have hc : c.Plain := keptByReading_plain.read (fun _ he => absurd he List.not_mem_nil) h
  unfold Plain at hc
  unfold apply
  revert hc
  induction c.symbols generalizing n with
  | nil => exact fun _ => hn
  | cons e rest ih =>
    intro hc
    obtain ⟨he, hrest⟩ := List.forall_mem_cons.mp hc
    exact ih (Namespace.plain_define hn e.1 he true) hrest

end Config

end ObjectMarkup
