import Mathlib.Data.List.Induction
import ObjectMarkup.Proofs.PathTable

/-!
# What a configuration does to a namespace

A configuration lists values of paths, and applying it gives them to the paths one after the other.
A path that goes on behind one with a value, or ends on the way to one, is refused its value, so of
two paths that cross only one can have a value. `Config.settles_apply` says which one it is: the one
that is listed first, whatever is listed later for either. What has a value has the last one that is
listed for it.

The warnings know nothing of this. Reading a configuration warns of the paths that are listed more
than once, compared as a whole, and those are not the ones that are refused.

A path that was refused once is always refused, because what is in its way stays
(`Listed.has_iff_admits`). So the first entry of a path decides about all of its entries, and the
table that the namespace shows (`Namespace.Shows.defineAll`) is known from the list alone (`Listed`).
-/

namespace ObjectMarkup

/-- One of the two paths ends on the way to the other. -/
def Crosses (path other : String) : Prop :=
  EndsBefore (Namespace.parts path) (Namespace.parts other) ∨
    EndsBefore (Namespace.parts other) (Namespace.parts path)

instance (path other : String) : Decidable (Crosses path other) :=
  inferInstanceAs (Decidable (_ ∨ _))

/-- Paths are known by their parts. -/
theorem Namespace.parts_injective {path other : String} (h : parts path = parts other) :
    path = other := by
  have hparts : path.toList.splitOn '.' = other.toList.splitOn '.' :=
    List.map_injective_iff.mpr (fun _ _ => String.ofList_inj.mp) h
  calc path = String.ofList path.toList := String.ofList_toList.symm
    _ = String.ofList (List.intercalate ['.'] (path.toList.splitOn '.')) := by
      rw [List.intercalate_splitOn]
    _ = String.ofList other.toList := by rw [hparts, List.intercalate_splitOn]
    _ = other := String.ofList_toList

/-- The path has a value. -/
def Namespace.Holds (n : Namespace) (path : String) : Prop :=
  ∃ v, n.reflect path = .ok v

/-- Entries of a configuration. -/
abbrev Symbols := List (String × Value)

namespace Symbols

def paths (l : Symbols) : List String :=
  l.map Prod.fst

/-- The value that is listed last for a path. -/
def last? (l : Symbols) (path : String) : Option Value :=
  l.reverse.lookup path

/-- The paths that are listed before the first entry of a path. -/
def before (l : Symbols) (path : String) : List String :=
  l.paths.takeWhile (· ≠ path)

variable {l : Symbols} {path other : String} {v : Value}

@[simp] theorem paths_append_singleton (l : Symbols) (path : String) (v : Value) :
    paths (l ++ [(path, v)]) = l.paths ++ [path] :=
  List.map_append

/-- One more entry is the last one for its path and for no other. -/
theorem last?_append_singleton (l : Symbols) (path other : String) (v : Value) :
    last? (l ++ [(path, v)]) other = if other = path then some v else l.last? other := by
  rw [last?, List.reverse_append, List.reverse_singleton, List.singleton_append, List.lookup_cons]
  by_cases h : other = path
  · rw [if_pos h, beq_iff_eq.mpr h]
  · rw [if_neg h, beq_eq_false_iff_ne.mpr h]
    rfl

theorem before_subset (l : Symbols) (path : String) : l.before path ⊆ l.paths :=
  (List.takeWhile_prefix _).subset

theorem before_cons (e : String × Value) (l : Symbols) (path : String) :
    before (e :: l) path = if e.1 = path then [] else e.1 :: l.before path := by
  rw [before, paths, List.map_cons, List.takeWhile_cons]
  by_cases h : e.1 = path <;> simp [h, before, paths]

/-- What is added comes after the first entry of a path that is listed. -/
theorem before_append_of_mem (hpath : path ∈ l.paths) (e : String × Value) :
    before (l ++ [e]) path = l.before path := by
  induction l with
  | nil => cases hpath
  | cons first rest ih =>
    rw [List.cons_append, before_cons, before_cons]
    by_cases h : first.1 = path
    · rw [if_pos h, if_pos h]
    · rw [if_neg h, if_neg h, ih (List.mem_of_ne_of_mem (Ne.symm h) hpath)]

/-- Before the first entry of a new path there are all that are listed. -/
theorem before_append_of_not_mem (hpath : path ∉ l.paths) (v : Value) :
    before (l ++ [(path, v)]) path = l.paths := by
  have hall : ∀ other ∈ l.paths, decide (other ≠ path) = true := fun other hother =>
    decide_eq_true fun heq => hpath (heq ▸ hother)
  rw [before, paths_append_singleton, List.takeWhile_append_of_pos hall,
    List.takeWhile_cons_of_neg (by simp), List.append_nil]

end Symbols

/-! ### Tables -/

namespace PathTable

variable {m : PathTable} {path k : List String} {v : Value} {replace : Bool}

theorem mem_keys_define :
    k ∈ (m.define path v replace).2.keys ↔ k ∈ m.keys ∨ k = path ∧ m.Admits path replace := by
  unfold define
  by_cases h : m.Admits path replace
  · rw [if_pos h, OrderedMap.mem_keys_iff, OrderedMap.get?_insert, OrderedMap.mem_keys_iff]
    by_cases hk : k = path
    · rw [if_pos hk]
      exact iff_of_true rfl (Or.inr ⟨hk, h⟩)
    · rw [if_neg hk]
      exact (or_iff_left fun hnew => hk hnew.1).symm
  · rw [if_neg h]
    exact (or_iff_left fun hnew => h hnew.2).symm

/-- What else has a value keeps it. -/
theorem get?_define_of_ne (h : k ≠ path) : (m.define path v replace).2.get? k = m.get? k := by
  unfold define
  by_cases hadmits : m.Admits path replace
  · rw [if_pos hadmits, OrderedMap.get?_insert_of_ne m h]
  · rw [if_neg hadmits]

theorem get?_define_self (h : m.Admits path replace) :
    (m.define path v replace).2.get? path = some v := by
  rw [define, if_pos h, OrderedMap.get?_insert_self]

end PathTable

open Namespace (parts parts_injective)

/-- **What the table has** after the values that are listed were given to their paths, said of the
list. -/
structure Listed (l : Symbols) (m : PathTable) : Prop where
  listed : ∀ k ∈ m.keys, ∃ path ∈ l.paths, parts path = k
  named : ∀ k ∈ m.keys, k.getLast? ≠ some ""
  last : ∀ path, parts path ∈ m.keys → m.get? (parts path) = l.last? path
  has_iff : ∀ path ∈ l.paths, parts path ∈ m.keys ↔
    (parts path).getLast? ≠ some "" ∧
      ∀ other ∈ l.before path, parts other ∈ m.keys → ¬ Crosses other path

namespace Listed

variable {l : Symbols} {m : PathTable} {path other : String}

theorem nil : Listed [] .empty :=
  ⟨fun _ hk => absurd hk List.not_mem_nil, fun _ hk => absurd hk List.not_mem_nil,
    fun _ hk => absurd hk List.not_mem_nil, fun _ hpath => absurd hpath List.not_mem_nil⟩

theorem mem_paths (h : Listed l m) (hpath : parts path ∈ m.keys) : path ∈ l.paths := by
  obtain ⟨other, hother, heq⟩ := h.listed _ hpath
  exact parts_injective heq ▸ hother

/-- A path is admitted if none that crosses it has a value. -/
theorem admits_iff (h : Listed l m) :
    m.Admits (parts path) true ↔
      (parts path).getLast? ≠ some "" ∧
        ∀ other ∈ l.paths, parts other ∈ m.keys → ¬ Crosses other path := by
  -- a key is in the way if it ends inside the path, or the path inside the key
  refine and_congr_right fun _ => ⟨?_, ?_⟩
  · rintro ⟨hway, hpasses, -⟩ other - hother (hends | hends)
    · exact hway _ hother hends
    · exact hpasses ⟨_, hother, hends⟩
  · refine fun hfree => ⟨fun k hk hends => ?_, ?_, fun _ => rfl⟩
    · obtain ⟨other, hother, rfl⟩ := h.listed k hk
      exact hfree other hother hk (Or.inl hends)
    · rintro ⟨k, hk, hends⟩
      obtain ⟨other, hother, rfl⟩ := h.listed k hk
      exact hfree other hother hk (Or.inr hends)

/-- **The first entry of a path decides:** what was listed before is admitted if it has a value, and
is refused again if it was refused. -/
theorem has_iff_admits (h : Listed l m) (hapart : ∀ k ∈ m.keys, ∀ k' ∈ m.keys, ¬ EndsBefore k k')
    (hpath : path ∈ l.paths) : parts path ∈ m.keys ↔ m.Admits (parts path) true := by
  constructor
  · intro hhas
    refine h.admits_iff.mpr ⟨h.named _ hhas, fun other _ hother => ?_⟩
    rintro (hends | hends)
    · exact hapart _ hother _ hhas hends
    · exact hapart _ hhas _ hother hends
  · -- what is free of all that have values is free of those before it
    intro hadmits
    obtain ⟨hnamed, hfree⟩ := h.admits_iff.mp hadmits
    exact (h.has_iff path hpath).mpr
      ⟨hnamed, fun other hother => hfree other (l.before_subset path hother)⟩

/-- What is listed has a value after one more definition if it had one before. -/
theorem has_define_iff (h : Listed l m)
    (hapart : ∀ k ∈ m.keys, ∀ k' ∈ m.keys, ¬ EndsBefore k k') (v : Value)
    (hother : other ∈ l.paths) :
    parts other ∈ (m.define (parts path) v true).2.keys ↔ parts other ∈ m.keys := by
  rw [PathTable.mem_keys_define]
  refine or_iff_left_of_imp ?_
  -- a path that is admitted now and was listed before had a value already
  rintro ⟨heq, hadmits⟩
  obtain rfl := parts_injective heq
  exact (h.has_iff_admits hapart hother).mpr hadmits

theorem define (h : Listed l m) (hapart : ∀ k ∈ m.keys, ∀ k' ∈ m.keys, ¬ EndsBefore k k')
    (path : String) (v : Value) :
    Listed (l ++ [(path, v)]) (m.define (parts path) v true).2 where
  listed k hk := by
    rw [Symbols.paths_append_singleton]
    rcases PathTable.mem_keys_define.mp hk with hold | ⟨rfl, -⟩
    · obtain ⟨other, hother, heq⟩ := h.listed k hold
      exact ⟨other, List.mem_append_left _ hother, heq⟩
    · exact ⟨path, List.mem_append_right _ (List.mem_singleton_self path), rfl⟩
  named k hk := by
    rcases PathTable.mem_keys_define.mp hk with hold | ⟨rfl, hadmits⟩
    · exact h.named k hold
    · exact hadmits.1
  last other hother := by
    rw [Symbols.last?_append_singleton]
    by_cases heq : other = path
    · -- the value was taken, now or again
      subst heq
      have hadmits : m.Admits (parts other) true := by
        rcases PathTable.mem_keys_define.mp hother with hold | ⟨-, hadmits⟩
        · exact (h.has_iff_admits hapart (h.mem_paths hold)).mp hold
        · exact hadmits
      rw [if_pos rfl, PathTable.get?_define_self hadmits]
    · have hne : parts other ≠ parts path := fun hparts => heq (parts_injective hparts)
      have hold : parts other ∈ m.keys :=
        (PathTable.mem_keys_define.mp hother).resolve_right fun hnew => hne hnew.1
      rw [if_neg heq, PathTable.get?_define_of_ne hne, h.last other hold]
  has_iff other hother := by
    by_cases hlisted : other ∈ l.paths
    · -- nothing has changed for what was listed before
      rw [Symbols.before_append_of_mem hlisted, h.has_define_iff hapart v hlisted,
        h.has_iff other hlisted]
      refine and_congr_right fun _ => forall₂_congr fun before hbefore => ?_
      rw [h.has_define_iff hapart v (l.before_subset other hbefore)]
    · -- the first entry of its path
      rw [Symbols.paths_append_singleton, List.mem_append, or_iff_right hlisted] at hother
      obtain rfl := List.mem_singleton.mp hother
      have hnew : parts other ∉ m.keys := fun hhas => hlisted (h.mem_paths hhas)
      rw [Symbols.before_append_of_not_mem hlisted, PathTable.mem_keys_define, or_iff_right hnew,
        and_iff_right rfl, h.admits_iff]
      refine and_congr_right fun _ => forall₂_congr fun before hbefore => ?_
      rw [h.has_define_iff hapart v hbefore]

end Listed

/-! ### Applying -/

open Namespace (Definition Shows)

theorem Namespace.Shows.holds_iff {n : Namespace} {m : PathTable} (h : Shows n.root m)
    (path : String) : n.Holds path ↔ parts path ∈ m.keys := by
  unfold Holds
  rw [h.mirrors.reflects, OrderedMap.mem_keys_iff]
  cases m.get? (parts path) with
  | some v => exact iff_of_true ⟨v, rfl⟩ rfl
  | none =>
    refine iff_of_false (fun ⟨v, hv⟩ => ?_) Bool.false_ne_true
    by_cases hpasses : m.Passes (parts path)
    · rw [if_pos hpasses] at hv
      cases hv
    · rw [if_neg hpasses] at hv
      cases hv

namespace Symbols

/-- What applying the entries defines. -/
def definitions (l : Symbols) : List Definition :=
  l.map fun (path, v) => ⟨path, v, true⟩

/-- The table of what is listed. -/
def table (l : Symbols) : PathTable :=
  PathTable.defineAll .empty l.definitions

theorem shows_table (l : Symbols) : Shows (Namespace.empty.defineAll l.definitions).root l.table :=
  Shows.defineAll Namespace.shows_empty l.definitions

theorem listed_table (l : Symbols) : Listed l l.table := by
  induction l using List.reverseRecOn with
  | nil => exact .nil
  | append_singleton l e ih =>
    have hstep : table (l ++ [e]) = ((table l).define (parts e.1) e.2 true).2 := by
      rw [table, definitions, List.map_append, PathTable.defineAll, List.foldl_append]
      rfl
    rw [hstep]
    exact ih.define (shows_table l).apart e.1 e.2

end Symbols

namespace Config

open Symbols (paths last? before)

theorem apply_empty (c : Config) :
    c.apply .empty = Namespace.empty.defineAll (Symbols.definitions c.symbols) := by
  rw [apply, Namespace.defineAll, Symbols.definitions, List.foldl_map]

/-- **What applying a configuration comes to,** from an empty namespace on. -/
structure Settles (c : Config) (n : Namespace) : Prop where
  /-- What has a value has the last one that is listed for it. -/
  last : ∀ path v, n.reflect path = .ok v → last? c.symbols path = some v
  /-- A listed path has a value if its last part is not empty and it crosses no path with a value
  that is listed before it. -/
  holds_iff : ∀ path ∈ paths c.symbols, n.Holds path ↔
    (parts path).getLast? ≠ some "" ∧
      ∀ other ∈ before c.symbols path, n.Holds other → ¬ Crosses other path
  /-- All listed paths have values if and only if none ends in an empty part and no two cross. -/
  all_iff : (∀ path ∈ paths c.symbols, n.Holds path) ↔
    (∀ path ∈ paths c.symbols, (parts path).getLast? ≠ some "") ∧
      ∀ path ∈ paths c.symbols, ∀ other ∈ paths c.symbols, ¬ Crosses path other
  /-- A path on the way to one with a value is a scope. -/
  scope : ∀ path,
    (∃ other ∈ paths c.symbols, n.Holds other ∧ EndsBefore (parts path) (parts other)) →
      n.reflect path = .error (.typeMismatch path path "symbol")
  /-- Any other path without a value leads nowhere. -/
  nowhere : ∀ path, ¬ n.Holds path →
    ¬ (∃ other ∈ paths c.symbols, n.Holds other ∧ EndsBefore (parts path) (parts other)) →
      n.reflect path = .error (.unresolved .symbol path)
  /-- There is a warning about the paths that are listed more than once, and about no other. -/
  warned_iff : ∀ path, .symbolRedefined path ∈ c.warnings ↔ 2 ≤ (paths c.symbols).count path

theorem keptByReading_warned :
    KeptByReading fun c => ∀ path,
      .symbolRedefined path ∈ c.warnings ↔ 2 ≤ (paths c.symbols).count path where
  symbol {c c' node} hc h path := by
    obtain ⟨value, rfl⟩ := withSymbol_eq_ok h
    have hany : c.symbols.any (·.1 == node.name) = true ↔ node.name ∈ paths c.symbols := by
      simp [paths]
    rw [List.mem_append, hc path, Symbols.paths_append_singleton, List.count_append,
      List.count_singleton]
    by_cases hpath : node.name = path
    · -- one more entry, and a warning if there was one before
      subst hpath
      have hpos := List.count_pos_iff (a := node.name) (l := paths c.symbols)
      rw [if_pos (beq_self_eq_true _)]
      -- the second entry is the first to come with a warning, as it is the first to be counted
      -- twice
      by_cases hlisted : node.name ∈ paths c.symbols
      · rw [if_pos (hany.mpr hlisted)]
        exact iff_of_true (Or.inr (List.mem_singleton_self _))
          (Nat.succ_le_succ (hpos.mpr hlisted))
      · rw [if_neg (mt hany.mp hlisted), or_iff_left List.not_mem_nil,
          List.count_eq_zero_of_not_mem hlisted]
        decide
    · have hother : ∀ b : Bool, .symbolRedefined path ∉
          if b = true then [ConfigWarning.symbolRedefined node.name] else [] := by
        rintro (- | -) hmem
        · exact List.not_mem_nil hmem
        · exact hpath (ConfigWarning.symbolRedefined.inj (List.mem_singleton.mp hmem)).symm
      rw [or_iff_left (hother _), if_neg (by simpa using hpath)]
      rfl
  base _ hc := hc
  unknown {c} name hc path := by
    rw [List.mem_append, hc path, List.mem_singleton]
    exact or_iff_left nofun

/-- **Which configured symbols take effect:** the first ones among paths that cross, whether or not
there are warnings. -/
theorem settles_apply {domains : Locator.Domains} {text : String} {c : Config}
    (h : read domains text = .ok c) :
    c.Settles (c.apply .empty) := by
  have hlisted := Symbols.listed_table c.symbols
  have hshows := Symbols.shows_table c.symbols
  rw [← c.apply_empty] at hshows
  -- a path holds a value exactly if the table has it, and the table says when that is
  have hholds_iff : ∀ path ∈ paths c.symbols, (c.apply .empty).Holds path ↔
      (parts path).getLast? ≠ some "" ∧
        ∀ other ∈ before c.symbols path, (c.apply .empty).Holds other → ¬ Crosses other path := by
    intro path hpath
    simp only [hshows.holds_iff]
    exact hlisted.has_iff path hpath
  refine ⟨fun path v hv => ?last, hholds_iff, ⟨fun hall => ⟨?named, ?free⟩, ?all⟩, ?scope,
    ?nowhere, ?warned⟩
  case last =>
    have hmem : parts path ∈ (Symbols.table c.symbols).keys := (hshows.holds_iff path).mp ⟨v, hv⟩
    rw [hshows.mirrors.reflects] at hv
    rw [← hlisted.last path hmem]
    cases hget : (Symbols.table c.symbols).get? (parts path) with
    | some w =>
      rw [hget] at hv
      exact congrArg some (Except.ok.inj hv)
    | none =>
      rw [OrderedMap.mem_keys_iff, hget] at hmem
      cases hmem
  case named => exact fun path hpath => ((hholds_iff path hpath).mp (hall path hpath)).1
  case free =>
    -- in a table paths with values do not cross
    intro path hpath other hother
    have hmem := (hshows.holds_iff path).mp (hall path hpath)
    have hmem' := (hshows.holds_iff other).mp (hall other hother)
    rintro (hends | hends)
    · exact hshows.apart _ hmem _ hmem' hends
    · exact hshows.apart _ hmem' _ hmem hends
  case all =>
    rintro ⟨hnamed, hfree⟩ path hpath
    refine (hholds_iff path hpath).mpr ⟨hnamed path hpath, fun other hother _ => ?_⟩
    exact hfree other (Symbols.before_subset c.symbols path hother) path hpath
  case scope =>
    rintro path ⟨other, -, hother, hends⟩
    have hmem := (hshows.holds_iff other).mp hother
    have hpath : (Symbols.table c.symbols).get? (parts path) = none :=
      Option.not_isSome_iff_eq_none.mp fun hsome =>
        hshows.apart _ ((OrderedMap.mem_keys_iff _ _).mpr hsome) _ hmem hends
    have hpasses : (Symbols.table c.symbols).Passes (parts path) := ⟨_, hmem, hends⟩
    rw [hshows.mirrors.reflects, hpath]
    exact if_pos hpasses
  case nowhere =>
    intro path hpath hnone
    rw [hshows.holds_iff, OrderedMap.mem_keys_iff, Option.not_isSome_iff_eq_none] at hpath
    rw [hshows.mirrors.reflects, hpath]
    refine if_neg ?_
    rintro ⟨k, hk, hends⟩
    obtain ⟨other, hother, rfl⟩ := hlisted.listed k hk
    exact hnone ⟨other, hother, (hshows.holds_iff other).mpr hk, hends⟩
  case warned =>
    exact keptByReading_warned.read
      (fun _ => iff_of_false List.not_mem_nil (Nat.not_succ_le_zero 1)) h

/-- A path that goes on behind one that is listed before it is dropped, and nothing warns of it. -/
theorem settles_apply_behind :
    ∃ c, read .unmapped "symbols \x7b a one; a.b two \x7d" = .ok c ∧ c.warnings = [] ∧
      (c.apply .empty).reflect "a.b" = .error (.unresolved .symbol "a.b") := by
  have hread : (read .unmapped "symbols \x7b a one; a.b two \x7d").toOption.map
      (fun c => (paths c.symbols, c.warnings)) = some (["a", "a.b"], []) := by
    decide +kernel
  -- what was computed is turned into what the general statement asks for
  obtain ⟨c, hc, hpaths, hwarnings⟩ : ∃ c, read .unmapped "symbols \x7b a one; a.b two \x7d" = .ok c ∧
      paths c.symbols = ["a", "a.b"] ∧ c.warnings = [] := by
    cases hc : read .unmapped "symbols \x7b a one; a.b two \x7d" with
    | error e =>
      rw [hc] at hread
      cases hread
    | ok c =>
      rw [hc] at hread
      exact ⟨c, rfl, Prod.mk.inj (Option.some.inj hread)⟩
  have hsettles := settles_apply hc
  have ha : (c.apply .empty).Holds "a" := by
    refine (hsettles.holds_iff "a" (by rw [hpaths]; decide)).mpr ⟨by decide +kernel, ?_⟩
    rw [before, hpaths]
    exact fun _ hnone => absurd hnone List.not_mem_nil
  refine ⟨c, hc, hwarnings, hsettles.nowhere "a.b" ?_ ?_⟩
  · rw [hsettles.holds_iff "a.b" (by rw [hpaths]; decide), before, hpaths]
    exact fun hfree => hfree.2 "a" (by decide) ha (by decide +kernel)
  · rintro ⟨other, hother, -, hends⟩
    rw [hpaths] at hother
    revert other
    decide +kernel

end Config

end ObjectMarkup
