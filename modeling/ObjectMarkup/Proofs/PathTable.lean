import ObjectMarkup.Proofs.PlainNamespaces

/-!
# Namespaces as tables of paths

A namespace nests scopes, and what can be asked of it are whole paths. `PathTable` has the values of
paths side by side and knows of no scopes: a path is given a value unless it would go on behind a
path with a value or end on the way to one. `Namespace.mirrors_defineAll` says that nothing that is
asked of a namespace, after however many definitions, tells the two apart.

All that can be found out about a path is its `Sight`. How a definition changes what is seen is
`Namespace.sight_of_put?`, and when it is refused is `Namespace.put?_eq_none_iff`; both hold in
every scope, by induction on the path. That a scope is seen exactly on the way to a value is then
the invariant (`Namespace.Shows`), since no scope is ever made without a value below it.

A definition may also be thought of as a walk that makes scopes as it goes and may find its way
blocked after it has made some (`Namespace.place`). It leaves nothing behind when it does: once a
scope was made, everything below is new, so nothing is in the way any more (`Namespace.place_eq`).
-/

namespace ObjectMarkup

/-- A path ends on the way to another one. -/
def EndsBefore (path other : List String) : Prop :=
  path <+: other ∧ path ≠ other

instance (path other : List String) : Decidable (EndsBefore path other) :=
  inferInstanceAs (Decidable (_ ∧ _))

theorem endsBefore_cons_iff {part : String} {path other : List String} :
    EndsBefore (part :: path) (part :: other) ↔ EndsBefore path other := by
  unfold EndsBefore
  rw [List.cons_prefix_cons, and_iff_right rfl, ne_eq, List.cons.injEq, and_iff_right rfl]

/-! ### Tables -/

/-- The values of paths, side by side. -/
abbrev PathTable := OrderedMap (List String) Value

namespace PathTable

/-- The path is on the way to one that has a value. -/
def Passes (m : PathTable) (path : List String) : Prop :=
  ∃ k ∈ m.keys, EndsBefore path k

instance (m : PathTable) (path : List String) : Decidable (m.Passes path) :=
  inferInstanceAs (Decidable (∃ k ∈ m.keys, EndsBefore path k))

/-- Whether a path may be given a value: its last part is not empty, no path with a value ends on
the way to it, it is not on the way to one itself, and if it has a value that may be replaced. -/
def Admits (m : PathTable) (path : List String) (replace : Bool) : Prop :=
  path.getLast? ≠ some "" ∧ (∀ k ∈ m.keys, ¬ EndsBefore k path) ∧ ¬ m.Passes path ∧
    (path ∈ m.keys → replace = true)

instance (m : PathTable) (path : List String) (replace : Bool) :
    Decidable (m.Admits path replace) :=
  inferInstanceAs (Decidable (_ ∧ _ ∧ _ ∧ _))

/-- Gives a value to a path, and changes nothing else. -/
def define (m : PathTable) (path : List String) (v : Value) (replace : Bool) : Bool × PathTable :=
  if m.Admits path replace then (true, m.insert path v) else (false, m)

end PathTable

namespace Namespace

/-! ### What can be seen of a path -/

/-- What there is at the end of a path. -/
inductive Sight where
  | nothing
  | scope
  | value (v : Value)

def Sight.of : Option Entry → Sight
  | none => .nothing
  | some (.scope _) => .scope
  | some (.value v) => .value v

/-- What is seen at the end of a path. -/
def sight (path : List String) (scope : Scope) : Sight :=
  .of (find? path scope)

theorem sight_singleton (last : String) (scope : Scope) :
    sight [last] scope = .of (scope.lookup last) := rfl

/-- Behind the first part the rest of the path is seen from the scope that it stands for. -/
theorem sight_cons_of_scope {part : String} {scope inner : Scope}
    (h : scope.lookup part = some (.scope inner)) {path : List String} (hpath : path ≠ []) :
    sight (part :: path) scope = sight path inner := by
  cases path with
  | nil => exact absurd rfl hpath
  | cons b rest => rw [sight, find?, h, sight]; exact List.cons_ne_nil b rest

/-- Behind a value there is nothing, and behind nothing neither. -/
theorem sight_cons_of_not_scope {part : String} {scope : Scope}
    (h : ∀ inner, scope.lookup part ≠ some (.scope inner)) {path : List String} (hpath : path ≠ []) :
    sight (part :: path) scope = .nothing := by
  cases path with
  | nil => exact absurd rfl hpath
  | cons b rest =>
    rw [sight, find?]
    · cases he : scope.lookup part with
      | none => rfl
      | some e =>
        cases e with
        | value w => rfl
        | scope inner => exact absurd he (h inner)
    · exact List.cons_ne_nil b rest

/-- Reading the value of a path, by what is seen of it. -/
theorem reflect_eq (n : Namespace) (path : String) :
    n.reflect path =
      match sight (parts path) n.root with
      | .value v => .ok v
      | .scope => .error (.typeMismatch path path "symbol")
      | .nothing => .error (.unresolved .symbol path) := by
  unfold reflect sight
  cases find? (parts path) n.root with
  | none => rfl
  | some e => cases e <;> rfl

theorem defined_iff (n : Namespace) {path : String} (hpath : path ≠ "") :
    n.defined path = true ↔ sight (parts path) n.root ≠ .nothing := by
  unfold defined sight
  rw [bne_iff_ne.mpr hpath, Bool.true_and]
  cases find? (parts path) n.root with
  | none => exact iff_of_false Bool.false_ne_true (fun h => h rfl)
  | some e => cases e <;> exact iff_of_true rfl nofun

/-- What is seen depends on what the first part stands for. -/
theorem sight_congr {part : String} {scope scope' : Scope}
    (h : scope'.lookup part = scope.lookup part) (path : List String) :
    sight (part :: path) scope' = sight (part :: path) scope := by
  cases path with
  | nil => rw [sight_singleton, sight_singleton, h]
  | cons b rest =>
    unfold sight
    rw [find?, find?, h]
    all_goals exact List.cons_ne_nil b rest

theorem sight_empty (path : List String) : sight path [] = .nothing := by
  cases path with
  | nil => rfl
  | cons part rest =>
    cases rest with
    | nil => rfl
    | cons b rest =>
      refine sight_cons_of_not_scope (fun inner h => ?_) (List.cons_ne_nil b rest)
      cases h

/-- **The scope under a part:** the rest of a path is seen from there as from above. A part that
stands for nothing has the empty one. -/
structure Under (part : String) (scope inner : Scope) : Prop where
  /-- The part stands for no value. -/
  no_value : ∀ v, sight [part] scope ≠ .value v
  same : ∀ path, path ≠ [] → sight (part :: path) scope = sight path inner

theorem under_of_scope {part : String} {scope inner : Scope}
    (h : scope.lookup part = some (.scope inner)) : Under part scope inner where
  no_value v hv := by
    rw [sight_singleton, h] at hv
    cases hv
  same _ hpath := sight_cons_of_scope h hpath

theorem under_of_none {part : String} {scope : Scope} (h : scope.lookup part = none) :
    Under part scope [] where
  no_value v hv := by
    rw [sight_singleton, h] at hv
    cases hv
  same path hpath := by
    rw [sight_empty, sight_cons_of_not_scope (fun inner hinner => ?_) hpath]
    rw [h] at hinner
    cases hinner

/-! ### When a path is given a value -/

/-- Why a path cannot be given a value: a value is on the way, or a scope or a value that may not be
replaced is at the end. -/
def Blocked (replace : Bool) (path : List String) (scope : Scope) : Prop :=
  (∃ q v, q ≠ [] ∧ EndsBefore q path ∧ sight q scope = .value v) ∨
    sight path scope = .scope ∨ ∃ v, sight path scope = .value v ∧ replace = false

/-- A path with one part has nothing on its way. -/
theorem blocked_singleton {replace : Bool} {last : String} {scope : Scope} :
    Blocked replace [last] scope ↔ sight [last] scope = .scope ∨
      ∃ v, sight [last] scope = .value v ∧ replace = false := by
  refine or_iff_right ?_
  rintro ⟨q, v, hq, ⟨hstart, hne⟩, -⟩
  rcases List.prefix_cons_iff.mp hstart with rfl | ⟨t, rfl, ht⟩
  · exact hq rfl
  · exact hne (by rw [List.prefix_nil.mp ht])

/-- What blocks a path is on the rest of it, seen from the scope under the first part. -/
theorem blocked_cons {replace : Bool} {part : String} {rest : List String} {scope inner : Scope}
    (h : Under part scope inner) (hrest : rest ≠ []) :
    Blocked replace (part :: rest) scope ↔ Blocked replace rest inner := by
  unfold Blocked
  rw [h.same rest hrest]
  refine or_congr_left ⟨?_, ?_⟩
  · rintro ⟨q, v, hq, hends, hv⟩
    -- the value in the way is in the inner scope, as the first part leads to a scope
    rcases List.prefix_cons_iff.mp hends.1 with rfl | ⟨t, rfl, -⟩
    · exact absurd rfl hq
    · by_cases ht : t = []
      · subst ht
        exact absurd hv (h.no_value v)
      · exact ⟨t, v, ht, endsBefore_cons_iff.mp hends, (h.same t ht).symm.trans hv⟩
  · rintro ⟨q, v, hq, hends, hv⟩
    exact ⟨part :: q, v, List.cons_ne_nil part q, endsBefore_cons_iff.mpr hends,
      (h.same q hq).trans hv⟩

/-- **A path is refused** exactly if it is blocked. -/
theorem put?_eq_none_iff {replace : Bool} {v : Value} {path : List String} {scope : Scope}
    (hpath : path ≠ []) : put? replace v path scope = none ↔ Blocked replace path scope := by
  fun_induction put? replace v path scope with
  | case1 => exact absurd rfl hpath
  -- a scope at the end of the path is not replaced
  | case2 scope last inner hlast =>
    refine iff_of_true rfl (blocked_singleton.mpr (Or.inl ?_))
    rw [sight_singleton, hlast]
    rfl
  | case3 scope last w hlast hreplace =>
    -- the value may be replaced
    refine iff_of_false (Option.some_ne_none _) fun hblocked => ?_
    rcases blocked_singleton.mp hblocked with h | ⟨_, -, hnot⟩
    · rw [sight_singleton, hlast] at h
      cases h
    · rw [hreplace] at hnot
      cases hnot
  -- the value stays, for it may not be replaced
  | case4 scope last w hlast hreplace =>
    refine iff_of_true rfl (blocked_singleton.mpr (Or.inr ⟨w, ?_, Bool.eq_false_iff.mpr hreplace⟩))
    rw [sight_singleton, hlast]
    rfl
  | case5 scope last hlast =>
    refine iff_of_false (Option.some_ne_none _) fun hblocked => ?_
    rcases blocked_singleton.mp hblocked with h | ⟨_, h, -⟩ <;>
      · rw [sight_singleton, hlast] at h
        cases h
  -- there is a value on the way
  | case6 part rest scope hrest w hpart =>
    refine iff_of_true rfl (Or.inl ⟨[part], w, List.cons_ne_nil part [], ⟨⟨rest, rfl⟩, ?_⟩, ?_⟩)
    · exact fun h => hrest (List.cons.inj h).2.symm
    · rw [sight_singleton, hpart]
      rfl
  -- otherwise it is up to the inner scope, old or new
  | case7 part rest scope hrest inner hpart ih =>
    have hne : rest ≠ [] := fun h => hrest h
    rw [Option.map_eq_none_iff, ih hne, blocked_cons (under_of_scope hpart) hne]
  | case8 part rest scope hrest hpart ih =>
    have hne : rest ≠ [] := fun h => hrest h
    rw [Option.map_eq_none_iff, ih hne, blocked_cons (under_of_none hpart) hne]

/-! ### What a definition changes -/

/-- What is seen after the end of a path was given a value. -/
theorem sight_put_value {last : String} {v : Value} {scope : Scope}
    (h : ∀ inner, scope.lookup last ≠ some (.scope inner)) {q : List String} (hq : q ≠ []) :
    sight q (OrderedMap.put last (.value v) scope)
      = if q = [last] then .value v else if q <+: [last] then .scope else sight q scope := by
  obtain ⟨a, rest, rfl⟩ := List.exists_cons_of_ne_nil hq
  by_cases ha : a = last
  · subst ha
    have hself := OrderedMap.lookup_put_self a (Entry.value v) scope
    cases rest with
    | nil => rw [if_pos rfl, sight_singleton, hself]; rfl
    | cons b rest =>
      -- there is nothing behind a value, and there was nothing before
      have hlong : ¬ (a :: b :: rest) <+: [a] := fun hstart => by
        have hlen := hstart.length_le
        simp at hlen
      have hne : a :: b :: rest ≠ [a] := fun heq => hlong (heq ▸ List.prefix_refl _)
      rw [if_neg hne, if_neg hlong, sight_cons_of_not_scope h (List.cons_ne_nil b rest)]
      refine sight_cons_of_not_scope (fun inner hinner => ?_) (List.cons_ne_nil b rest)
      rw [hself] at hinner
      cases hinner
  · -- another name in the same scope sees nothing of it
    have hother : ¬ (a :: rest) <+: [last] := fun hstart =>
      ha (List.cons_prefix_cons.mp hstart).1
    rw [if_neg (fun h => ha (List.cons.inj h).1), if_neg hother]
    exact sight_congr (OrderedMap.lookup_put_of_ne ha _ _) rest

/-- What is seen after the scope under a part has changed. -/
theorem sight_put_scope {part : String} {rest : List String} {v : Value}
    {scope inner inner' : Scope} (h : Under part scope inner) (hrest : rest ≠ [])
    (hinner : ∀ q, q ≠ [] → sight q inner'
      = if q = rest then .value v else if q <+: rest then .scope else sight q inner)
    {q : List String} (hq : q ≠ []) :
    sight q (OrderedMap.put part (.scope inner') scope)
      = if q = part :: rest then .value v
        else if q <+: part :: rest then .scope else sight q scope := by
  obtain ⟨a, q, rfl⟩ := List.exists_cons_of_ne_nil hq
  by_cases ha : a = part
  · subst ha
    have hself := OrderedMap.lookup_put_self a (Entry.scope inner') scope
    -- the path ends at the scope, or leads on inside it
    by_cases hnil : q = []
    · subst hnil
      rw [if_neg (fun h => hrest (List.cons.inj h).2.symm), if_pos ⟨rest, rfl⟩, sight_singleton,
        hself]
      rfl
    · rw [sight_cons_of_scope hself hnil, hinner q hnil, h.same q hnil]
      simp only [List.cons.injEq, true_and, List.cons_prefix_cons]
  · have hother : ¬ (a :: q) <+: part :: rest := fun hstart =>
      ha (List.cons_prefix_cons.mp hstart).1
    rw [if_neg (fun h => ha (List.cons.inj h).1), if_neg hother]
    exact sight_congr (OrderedMap.lookup_put_of_ne ha _ _) q

/-- **A definition** is seen at the end of its path, scopes are seen on the way to it, and everything
else is as it was. -/
theorem sight_of_put? {replace : Bool} {v : Value} {path : List String} {scope scope' : Scope}
    (h : put? replace v path scope = some scope') {q : List String} (hq : q ≠ []) :
    sight q scope'
      = if q = path then .value v else if q <+: path then .scope else sight q scope := by
  fun_induction put? replace v path scope generalizing scope' q with
  | case1 => cases h
  | case2 => cases h
  -- the end of the path: no scope is lost there
  | case3 scope last w hlast hreplace =>
    cases h
    refine sight_put_value (fun inner hinner => ?_) hq
    rw [hlast] at hinner
    cases hinner
  | case4 => cases h
  | case5 scope last hlast =>
    cases h
    refine sight_put_value (fun inner hinner => ?_) hq
    rw [hlast] at hinner
    cases hinner
  | case6 => cases h
  -- on the way: what is inside the scope is known by induction
  | case7 part rest scope hrest inner hpart ih =>
    obtain ⟨inner', hinner', rfl⟩ := Option.map_eq_some_iff.mp h
    exact sight_put_scope (under_of_scope hpart) (fun h => hrest h) (fun q hq => ih hinner' hq) hq
  | case8 part rest scope hrest hpart ih =>
    obtain ⟨inner', hinner', rfl⟩ := Option.map_eq_some_iff.mp h
    exact sight_put_scope (under_of_none hpart) (fun h => hrest h) (fun q hq => ih hinner' hq) hq

/-! ### Walking -/

/-- Goes along a path, makes a scope wherever there is nothing, and puts a value at the end. It stops
where the way is blocked, and what it has made is in the scope that it gives. -/
def place (replace : Bool) (v : Value) : List String → Scope → Bool × Scope
  | [], scope => (false, scope)
  | [last], scope =>
    match scope.lookup last with
    | some (.scope _) => (false, scope)
    | some (.value _) =>
      if replace then (true, OrderedMap.put last (.value v) scope) else (false, scope)
    | none => (true, OrderedMap.put last (.value v) scope)
  | part :: rest, scope =>
    match scope.lookup part with
    | some (.value _) => (false, scope)
    | some (.scope inner) =>
      let (done, inner) := place replace v rest inner
      (done, OrderedMap.put part (.scope inner) scope)
    | none =>
      let (done, inner) := place replace v rest []
      (done, OrderedMap.put part (.scope inner) scope)

/-- The definition by walking. -/
def walk (n : Namespace) (path : String) (v : Value) (replace : Bool) : Bool × Namespace :=
  if (parts path).getLast? = some "" then (false, n)
  else
    let (done, root) := place replace v (parts path) n.root
    (done, ⟨root⟩)

/-- Putting back what is there changes nothing. -/
theorem put_eq_self {part : String} {e : Entry} {scope : Scope} (h : scope.lookup part = some e) :
    OrderedMap.put part e scope = scope := by
  induction scope with
  | nil => cases h
  | cons entry rest ih =>
    obtain ⟨k, e'⟩ := entry
    rw [OrderedMap.put]
    -- by induction along the list, to the first entry of the name
    by_cases hk : k = part
    · subst hk
      rw [List.lookup_cons_self] at h
      cases h
      rw [if_pos rfl]
    · rw [if_neg hk, ih]
      rw [List.lookup_cons, beq_eq_false_iff_ne.mpr (Ne.symm hk)] at h
      exact h

/-- **A walk that is stopped leaves nothing behind.** -/
theorem place_eq (replace : Bool) (v : Value) (path : List String) (scope : Scope) :
    place replace v path scope
      = match put? replace v path scope with
        | some scope' => (true, scope')
        | none => (false, scope) := by
  fun_induction put? replace v path scope with
  | case1 => rfl
  | case2 scope last inner hlast => simp only [place, hlast]
  | case3 scope last w hlast hreplace => simp only [place, hlast, hreplace, if_true]
  | case4 scope last w hlast hreplace => simp only [place, hlast, hreplace]; rfl
  | case5 scope last hlast => simp only [place, hlast]
  | case6 part rest scope hrest w hpart => rw [place]; simp only [hpart]; exact hrest
  | case7 part rest scope hrest inner hpart ih =>
    rw [place]
    · simp only [hpart, ih]
      -- refused inside: the scope is put back as it was
      cases put? replace v rest inner with
      | some inner' => rfl
      | none => simp only [Option.map_none, put_eq_self hpart]
    · exact hrest
  | case8 part rest scope hrest hpart ih =>
    rw [place]
    · -- in a scope that was just made nothing is in the way
      have hfree : ¬ Blocked replace rest [] := by
        rintro (⟨q, w, -, -, hw⟩ | h | ⟨w, hw, -⟩)
        · rw [sight_empty] at hw
          cases hw
        · rw [sight_empty] at h
          cases h
        · rw [sight_empty] at hw
          cases hw
      obtain ⟨inner', hinner'⟩ := Option.ne_none_iff_exists'.mp
        fun hnone => hfree ((put?_eq_none_iff (v := v) (fun h => hrest h)).mp hnone)
      simp only [hpart, ih, hinner', Option.map_some]
    · exact hrest

theorem walk_eq_define (n : Namespace) (path : String) (v : Value) (replace : Bool) :
    n.walk path v replace = n.define path v replace := by
  unfold walk define
  split
  · rfl
  · simp only [place_eq]
    cases put? replace v (parts path) n.root <;> rfl

/-! ### A namespace and its table -/

/-- What is seen of a path in a table: its value, or that it is on the way to one. -/
def tableSight (m : PathTable) (path : List String) : Sight :=
  match m.get? path with
  | some v => .value v
  | none => if m.Passes path then .scope else .nothing

theorem tableSight_eq_value_iff {m : PathTable} {path : List String} {v : Value} :
    tableSight m path = .value v ↔ m.get? path = some v := by
  unfold tableSight
  cases m.get? path with
  | some w => exact ⟨fun h => congrArg some (Sight.value.inj h), fun h => congrArg _ (Option.some.inj h)⟩
  | none =>
    refine iff_of_false (fun h => ?_) nofun
    by_cases hp : m.Passes path
    · rw [if_pos hp] at h
      cases h
    · rw [if_neg hp] at h
      cases h

/-- **The invariant.** A scope shows of every path what the table shows, in which no path with a
value ends on the way to another one. -/
structure Shows (scope : Scope) (m : PathTable) : Prop where
  same : ∀ path, path ≠ [] → sight path scope = tableSight m path
  apart : ∀ k ∈ m.keys, ∀ k' ∈ m.keys, ¬ EndsBefore k k'
  nonempty : [] ∉ m.keys

theorem shows_empty : Shows [] OrderedMap.empty where
  same path _ := by
    rw [sight_empty, tableSight, OrderedMap.get?_empty]
    exact (if_neg fun ⟨_, hk, _⟩ => absurd hk List.not_mem_nil).symm
  apart _ hk := absurd hk List.not_mem_nil
  nonempty := List.not_mem_nil

namespace Shows

variable {scope scope' : Scope} {m : PathTable} {path : List String} {v : Value} {replace : Bool}

/-- **The table admits** what the namespace does not refuse. -/
theorem admits_iff (h : Shows scope m) (hpath : path ≠ []) (hlast : path.getLast? ≠ some "") :
    m.Admits path replace ↔ ¬ Blocked replace path scope := by
  have hvalue : ∀ {q : List String}, q ≠ [] → ((∃ w, sight q scope = .value w) ↔ q ∈ m.keys) := by
    intro q hq
    rw [OrderedMap.mem_keys_iff, Option.isSome_iff_exists, h.same q hq]
    exact exists_congr fun w => tableSight_eq_value_iff
  -- a value on the way
  have hway : (∃ q w, q ≠ [] ∧ EndsBefore q path ∧ sight q scope = .value w) ↔
      ∃ k ∈ m.keys, EndsBefore k path := by
    constructor
    · rintro ⟨q, w, hq, hends, hw⟩
      exact ⟨q, (hvalue hq).mp ⟨w, hw⟩, hends⟩
    · rintro ⟨k, hk, hends⟩
      have hne : k ≠ [] := fun hnil => h.nonempty (hnil ▸ hk)
      obtain ⟨w, hw⟩ := (hvalue hne).mpr hk
      exact ⟨k, w, hne, hends, hw⟩
  -- a scope at the end; a path with a value is never on the way to another one
  have hscope : sight path scope = .scope ↔ m.Passes path := by
    rw [h.same path hpath, tableSight]
    cases hget : m.get? path with
    | some w =>
      refine iff_of_false (fun heq => nomatch heq) fun ⟨k, hk, hends⟩ => ?_
      have hmem : path ∈ m.keys := by rw [OrderedMap.mem_keys_iff, hget]; rfl
      exact h.apart path hmem k hk hends
    | none =>
      by_cases hpasses : m.Passes path
      · exact iff_of_true (if_pos hpasses) hpasses
      · exact iff_of_false (by simp only [if_neg hpasses]; exact nofun) hpasses
  -- a value at the end, which may not be replaced
  have hend : (∃ w, sight path scope = .value w ∧ replace = false) ↔
      path ∈ m.keys ∧ replace = false := by
    rw [← hvalue hpath]
    exact exists_and_right
  unfold Blocked PathTable.Admits
  rw [hway, hscope, hend]
  constructor
  · -- the three ways to be blocked are the three things that are not admitted
    rintro ⟨-, hno, hpasses, hreplace⟩ (⟨k, hk, hends⟩ | hp | ⟨hmem, hfalse⟩)
    · exact hno k hk hends
    · exact hpasses hp
    · rw [hreplace hmem] at hfalse
      cases hfalse
  · intro hnot
    refine ⟨hlast, fun k hk hends => hnot (Or.inl ⟨k, hk, hends⟩),
      fun hp => hnot (Or.inr (Or.inl hp)), fun hmem => ?_⟩
    cases replace with
    | true => rfl
    | false => exact absurd (Or.inr (Or.inr ⟨hmem, rfl⟩)) hnot

/-- **A definition changes both alike.** -/
theorem put (h : Shows scope m) (hpath : path ≠ []) (hadmits : m.Admits path replace)
    (hput : put? replace v path scope = some scope') : Shows scope' (m.insert path v) := by
  obtain ⟨-, hno, hpasses, -⟩ := hadmits
  -- the new path, and those from before
  have hkeys : ∀ k, k ∈ (m.insert path v).keys ↔ k = path ∨ k ∈ m.keys := by
    intro k
    rw [OrderedMap.mem_keys_iff, OrderedMap.mem_keys_iff, OrderedMap.get?_insert]
    by_cases hk : k = path
    · rw [if_pos hk]
      exact iff_of_true rfl (Or.inl hk)
    · rw [if_neg hk, or_iff_right hk]
  refine ⟨fun q hq => ?same, ?apart, ?nonempty⟩
  case same =>
    rw [sight_of_put? hput hq, tableSight, OrderedMap.get?_insert]
    by_cases heq : q = path
    · rw [if_pos heq, if_pos heq]
    rw [if_neg heq, if_neg heq]
    by_cases hstart : q <+: path
    · -- on the way to the new value, where there is no other one
      have hget : m.get? q = none := Option.not_isSome_iff_eq_none.mp fun hsome =>
        hno q ((m.mem_keys_iff q).mpr hsome) ⟨hstart, heq⟩
      have hp : PathTable.Passes (m.insert path v) q :=
        ⟨path, (hkeys path).mpr (Or.inl rfl), hstart, heq⟩
      rw [if_pos hstart, hget]
      exact (if_pos hp).symm
    · -- elsewhere the new value changes nothing
      have hp : PathTable.Passes (m.insert path v) q ↔ m.Passes q := by
        constructor
        · rintro ⟨k, hk, hends⟩
          rcases (hkeys k).mp hk with rfl | hk
          · exact absurd hends.1 hstart
          · exact ⟨k, hk, hends⟩
        · rintro ⟨k, hk, hends⟩
          exact ⟨k, (hkeys k).mpr (Or.inr hk), hends⟩
      rw [if_neg hstart, h.same q hq, tableSight]
      simp only [hp]
  case apart =>
    intro k hk k' hk' hends
    rcases (hkeys k).mp hk with heq | hold <;> rcases (hkeys k').mp hk' with heq' | hold'
    · -- a path does not end before itself
      exact hends.2 (heq.trans heq'.symm)
    · exact hpasses ⟨k', hold', heq ▸ hends⟩
    · exact hno k hold (heq' ▸ hends)
    · exact h.apart k hold k' hold' hends
  case nonempty =>
    intro hnil
    rcases (hkeys []).mp hnil with heq | hmem
    · exact hpath heq.symm
    · exact h.nonempty hmem

end Shows

theorem parts_ne_nil (path : String) : parts path ≠ [] := by
  unfold parts
  rw [ne_eq, List.map_eq_nil_iff]
  exact List.splitOn_ne_nil '.' path.toList

/-- **A namespace mirrors a table:** whatever is asked of it is answered from the table. -/
structure Mirrors (n : Namespace) (m : PathTable) : Prop where
  /-- A path gets a value exactly if the table admits it. -/
  accepts : ∀ path v replace, (n.define path v replace).1 = true ↔ m.Admits (parts path) replace
  /-- What is refused leaves everything as it is, no matter how far it came. -/
  refused : ∀ path v replace, (n.define path v replace).1 = false → (n.walk path v replace).2 = n
  /-- A definition is a walk. -/
  walks : ∀ path v replace, n.walk path v replace = n.define path v replace
  reflects : ∀ path, n.reflect path =
    match m.get? (parts path) with
    | some v => .ok v
    | none =>
      if m.Passes (parts path) then .error (.typeMismatch path path "symbol")
      else .error (.unresolved .symbol path)
  defined : ∀ path, path ≠ "" →
    (n.defined path = true ↔ parts path ∈ m.keys ∨ m.Passes (parts path))
  /-- No path with a value ends on the way to another one. -/
  apart : ∀ k ∈ m.keys, ∀ k' ∈ m.keys, ¬ EndsBefore k k'

theorem define_eq (n : Namespace) {m : PathTable} (h : Shows n.root m) (path : String) (v : Value)
    (replace : Bool) :
    (n.define path v replace).1 = (m.define (parts path) v replace).1 ∧
      Shows (n.define path v replace).2.root (m.define (parts path) v replace).2 := by
  unfold define PathTable.define
  by_cases hlast : (parts path).getLast? = some ""
  · -- an empty last part is refused on both sides
    have hnot : ¬ m.Admits (parts path) replace := fun hadmits => hadmits.1 hlast
    rw [if_pos hlast, if_neg hnot]
    exact ⟨rfl, h⟩
  rw [if_neg hlast]
  by_cases hadmits : m.Admits (parts path) replace
  · have hfree := (h.admits_iff (parts_ne_nil path) hlast).mp hadmits
    obtain ⟨root, hroot⟩ := Option.ne_none_iff_exists'.mp
      fun hnone => hfree ((put?_eq_none_iff (v := v) (parts_ne_nil path)).mp hnone)
    rw [if_pos hadmits, hroot]
    exact ⟨rfl, h.put (parts_ne_nil path) hadmits hroot⟩
  · have hblocked := Classical.not_not.mp (mt (h.admits_iff (parts_ne_nil path) hlast).mpr hadmits)
    rw [if_neg hadmits, (put?_eq_none_iff (parts_ne_nil path)).mpr hblocked]
    exact ⟨rfl, h⟩

theorem Shows.mirrors {n : Namespace} {m : PathTable} (h : Shows n.root m) : Mirrors n m where
  accepts path v replace := by
    rw [(n.define_eq h path v replace).1, PathTable.define]
    by_cases hadmits : m.Admits (parts path) replace
    · exact iff_of_true (by rw [if_pos hadmits]) hadmits
    · exact iff_of_false (by rw [if_neg hadmits]; exact Bool.false_ne_true) hadmits
  refused path v replace hfalse := by
    rw [walk_eq_define]
    unfold define at hfalse ⊢
    split
    · rfl
    · next hlast =>
      rw [if_neg hlast] at hfalse
      cases hput : put? replace v (parts path) n.root with
      | none => rfl
      | some root =>
        rw [hput] at hfalse
        cases hfalse
  walks := n.walk_eq_define
  reflects path := by
    rw [reflect_eq, h.same _ (parts_ne_nil path), tableSight]
    cases m.get? (parts path) with
    | some v => rfl
    -- no value there: a scope if some path leads past, and else nothing
    | none => by_cases hp : m.Passes (parts path) <;> simp only [hp, if_true, if_false]
  defined path hpath := by
    rw [defined_iff n hpath, h.same _ (parts_ne_nil path), tableSight, OrderedMap.mem_keys_iff]
    cases m.get? (parts path) with
    | some v => exact iff_of_true nofun (Or.inl rfl)
    | none =>
      rw [or_iff_right (fun hsome => nomatch hsome)]
      by_cases hp : m.Passes (parts path)
      · exact iff_of_true (by simp only [hp, if_true]; exact nofun) hp
      · exact iff_of_false (by simp only [hp, if_false]; exact fun h => h rfl) hp
  apart := h.apart

/-! ### From the beginning -/

/-- What is to be defined. -/
structure Definition where
  path : String
  value : Value
  /-- Whether an earlier value may be replaced. -/
  replace : Bool

/-- The namespace after definitions, one after the other. -/
def defineAll (n : Namespace) (definitions : List Definition) : Namespace :=
  definitions.foldl (fun n d => (n.define d.path d.value d.replace).2) n

end Namespace

/-- The table after definitions, one after the other. -/
def PathTable.defineAll (m : PathTable) (definitions : List Namespace.Definition) : PathTable :=
  definitions.foldl (fun m d => (m.define (Namespace.parts d.path) d.value d.replace).2) m

namespace Namespace

theorem Shows.defineAll {n : Namespace} {m : PathTable} (h : Shows n.root m)
    (definitions : List Definition) :
    Shows (n.defineAll definitions).root (m.defineAll definitions) := by
  induction definitions generalizing n m with
  | nil => exact h
  | cons d rest ih => exact ih (n.define_eq h d.path d.value d.replace).2

/-- **A namespace is a table of paths.** After any definitions, from an empty namespace on, it
answers whatever it is asked as the table does that has undergone the same definitions. -/
theorem mirrors_defineAll (definitions : List Definition) :
    Mirrors (empty.defineAll definitions) (PathTable.defineAll .empty definitions) :=
  (Shows.defineAll shows_empty definitions).mirrors

end Namespace

end ObjectMarkup
