import ObjectMarkup.Proofs.ConfiguredSymbols

/-!
# What is defined and what resolves

A namespace can be asked of a path whether it leads anywhere, and what it leads to. Both go down the
same scopes, but the first has a guard of its own: the empty path is never defined. The second has no
such guard and takes the empty path for one empty part. No value is ever given to that part, since the
last part of a path with a value is not empty, but there can be a scope under it, as other parts may
be empty.

So the two agree of every path but this one. `Namespace.agrees_defineAll` says that they begin to
differ with the first definition of a path that begins with a dot and does not end with one. This
definition is never refused: whatever could be in its way begins with a dot as well
(`PathTable.Named.admits`). What it has made stays, so that how the empty path is seen can be read off
the definitions alone (`PathTable.Named.passes_defineAll`).
-/

namespace ObjectMarkup

/-! ### The first and the last part -/

section Parts

variable {s : List Char}

/-- The first part is empty if there is nothing before the first dot. -/
theorem head?_splitOn_eq_nil_iff :
    (s.splitOn '.').head? = some [] ↔ s = [] ∨ s.head? = some '.' := by
  cases s with
  | nil => exact iff_of_true rfl (Or.inl rfl)
  | cons c rest =>
    rw [List.splitOn_cons_eq_if_modifyHead]
    by_cases hc : c = '.'
    · exact iff_of_true (by simp [hc]) (Or.inr (congrArg some hc))
    · obtain ⟨first, others, hrest⟩ := List.exists_cons_of_ne_nil (List.splitOn_ne_nil '.' rest)
      simp [hrest, hc]

/-- The last part is empty if there is nothing behind the last dot. -/
theorem getLast?_splitOn_eq_nil_iff :
    (s.splitOn '.').getLast? = some [] ↔ s = [] ∨ s.getLast? = some '.' := by
  induction s with
  | nil => exact iff_of_true rfl (Or.inl rfl)
  | cons c rest ih =>
    obtain ⟨first, others, hrest⟩ := List.exists_cons_of_ne_nil (List.splitOn_ne_nil '.' rest)
    rw [List.splitOn_cons_eq_if_modifyHead]
    by_cases hc : c = '.'
    · -- there is one part more in front
      rw [if_pos (beq_iff_eq.mpr hc), hrest, List.getLast?_cons_cons, ← hrest, ih]
      cases rest <;> simp [hc]
    rw [if_neg (by simpa using hc), hrest, List.modifyHead_cons]
    cases others with
    | nil =>
      -- there is one part only, which is not empty any more
      have hone : rest = first := by
        have hjoin : List.intercalate ['.'] (rest.splitOn '.') = rest := List.intercalate_splitOn '.'
        rwa [hrest, List.intercalate_singleton, eq_comm] at hjoin
      refine iff_of_false (by simp) ?_
      rintro (h | h)
      · cases h
      · cases rest with
        | nil => exact hc (Option.some.inj h)
        | cons d rest =>
          rw [List.getLast?_cons_cons] at h
          have hempty := ih.mpr (Or.inr h)
          rw [hrest, ← hone] at hempty
          cases hempty
    -- more than one part: the last one is that of the rest
    | cons second others =>
      rw [List.getLast?_cons_cons]
      rw [hrest, List.getLast?_cons_cons] at ih
      rw [ih]
      cases rest with
      | nil => cases hrest
      | cons d rest => simp

end Parts

namespace Namespace

theorem head?_parts_eq_empty_iff (path : String) :
    (parts path).head? = some "" ↔ path = "" ∨ path.toList.head? = some '.' := by
  rw [parts, List.head?_map, ← String.toList_eq_nil_iff, ← head?_splitOn_eq_nil_iff]
  simp [Option.map_eq_some_iff]

theorem getLast?_parts_eq_empty_iff (path : String) :
    (parts path).getLast? = some "" ↔ path = "" ∨ path.toList.getLast? = some '.' := by
  rw [parts, List.getLast?_map, ← String.toList_eq_nil_iff, ← getLast?_splitOn_eq_nil_iff]
  simp [Option.map_eq_some_iff]

/-- The path begins with a dot and does not end with one, so that its first part is empty and its
last one is not. -/
def Definition.BehindDot (d : Definition) : Prop :=
  d.path.toList.head? = some '.' ∧ d.path.toList.getLast? ≠ some '.'

instance (d : Definition) : Decidable d.BehindDot :=
  inferInstanceAs (Decidable (_ ∧ _))

theorem Definition.behindDot_iff (d : Definition) :
    d.BehindDot ↔ (parts d.path).head? = some "" ∧ (parts d.path).getLast? ≠ some "" := by
  rw [head?_parts_eq_empty_iff, ne_eq, getLast?_parts_eq_empty_iff, BehindDot]
  constructor
  · rintro ⟨hfirst, hlast⟩
    have hne : d.path ≠ "" := fun h => by
      rw [h] at hfirst
      cases hfirst
    exact ⟨Or.inr hfirst, fun h => h.elim hne hlast⟩
  · rintro ⟨hfirst, hlast⟩
    exact ⟨hfirst.resolve_left fun h => hlast (Or.inl h), fun h => hlast (Or.inr h)⟩

end Namespace

/-! ### Paths with values that begin with an empty part -/

open Namespace (parts parts_ne_nil Definition)

/-- The first part of a path begins another one if that has the same first part and goes on. -/
theorem endsBefore_empty_iff {k : List String} :
    EndsBefore [""] k ↔ k.head? = some "" ∧ k ≠ [""] := by
  cases k with
  | nil => simp [EndsBefore]
  | cons first rest => simp [EndsBefore, List.cons_prefix_cons, eq_comm]

namespace PathTable

/-- Every path with a value has parts, and the last one is not empty. -/
def Named (m : PathTable) : Prop :=
  ∀ k ∈ m.keys, k ≠ [] ∧ k.getLast? ≠ some ""

namespace Named

variable {m : PathTable} {path : List String} {v : Value} {replace : Bool}

theorem empty : Named .empty :=
  fun _ hk => absurd hk List.not_mem_nil

theorem define (h : Named m) (hpath : path ≠ []) : Named (m.define path v replace).2 := by
  intro k hk
  rcases mem_keys_define.mp hk with hold | ⟨rfl, hadmits⟩
  · exact h k hold
  · exact ⟨hpath, hadmits.1⟩

/-- The empty path has no value. -/
theorem get?_empty_part (h : Named m) : m.get? [""] = none := by
  refine Option.not_isSome_iff_eq_none.mp fun hsome => ?_
  exact (h _ ((m.mem_keys_iff _).mpr hsome)).2 rfl

/-- The empty path is on the way to each path with a value that begins with an empty part. -/
theorem passes_iff (h : Named m) : m.Passes [""] ↔ ∃ k ∈ m.keys, k.head? = some "" := by
  refine exists_congr fun k => and_congr_right fun hk => ?_
  rw [endsBefore_empty_iff, and_iff_left_iff_imp]
  rintro - rfl
  exact (h _ hk).2 rfl

/-- **Nothing is in the way of the first path that begins with an empty part:** what is on its way, or
behind it, begins with an empty part as well. -/
theorem admits (h : Named m) (hnone : ¬ m.Passes [""]) (hfirst : path.head? = some "")
    (hlast : path.getLast? ≠ some "") : m.Admits path replace := by
  have hother : ∀ k ∈ m.keys, k.head? ≠ some "" := fun k hk heq =>
    hnone (h.passes_iff.mpr ⟨k, hk, heq⟩)
  refine ⟨hlast, fun k hk hends => ?_, ?_, fun hmem => absurd hfirst (hother path hmem)⟩
  · obtain ⟨first, rest, rfl⟩ := List.exists_cons_of_ne_nil (h k hk).1
    obtain ⟨more, rfl⟩ := hends.1
    exact hother _ hk hfirst
  · rintro ⟨k, hk, ⟨more, rfl⟩, -⟩
    refine hother _ hk ?_
    rw [List.head?_append, hfirst, Option.some_or]

/-- One definition more. -/
theorem passes_define (h : Named m) (d : Definition) :
    (m.define (parts d.path) d.value d.replace).2.Passes [""] ↔ m.Passes [""] ∨ d.BehindDot := by
  rw [(h.define (parts_ne_nil d.path)).passes_iff, d.behindDot_iff]
  constructor
  · rintro ⟨k, hk, hfirst⟩
    rcases mem_keys_define.mp hk with hold | ⟨rfl, hadmits⟩
    · exact Or.inl (h.passes_iff.mpr ⟨k, hold, hfirst⟩)
    · exact Or.inr ⟨hfirst, hadmits.1⟩
  · -- if nothing passes the empty part yet, the new path does, and nothing keeps it out
    intro hor
    by_cases hpasses : m.Passes [""]
    · obtain ⟨k, hk, hfirst⟩ := h.passes_iff.mp hpasses
      exact ⟨k, mem_keys_define.mpr (Or.inl hk), hfirst⟩
    · obtain ⟨hfirst, hlast⟩ := hor.resolve_left hpasses
      exact ⟨parts d.path, mem_keys_define.mpr (Or.inr ⟨rfl, h.admits hpasses hfirst hlast⟩), hfirst⟩

theorem defineAll (h : Named m) (definitions : List Definition) : Named (m.defineAll definitions) := by
  induction definitions generalizing m with
  | nil => exact h
  | cons d rest ih => exact ih (h.define (parts_ne_nil d.path))

/-- **The empty path is on the way to a value** just if a path was defined that begins with a dot and
does not end with one. -/
theorem passes_defineAll (h : Named m) (definitions : List Definition) :
    (m.defineAll definitions).Passes [""] ↔ m.Passes [""] ∨ ∃ d ∈ definitions, d.BehindDot := by
  induction definitions generalizing m with
  | nil => simp [PathTable.defineAll]
  | cons d rest ih =>
    have hstep : m.defineAll (d :: rest)
        = ((m.define (parts d.path) d.value d.replace).2).defineAll rest := rfl
    rw [hstep, ih (h.define (parts_ne_nil d.path)), h.passes_define, List.exists_mem_cons_iff, or_assoc]

end Named

end PathTable

namespace Namespace

/-! ### Two ways to ask of a path -/

/-- The path cannot be resolved. -/
def Unresolved (n : Namespace) (path : String) : Prop :=
  ∃ kind name, n.reflect path = .error (.unresolved kind name)

/-- A path is unresolved just if there is nothing at its end. -/
theorem unresolved_iff (n : Namespace) (path : String) :
    n.Unresolved path ↔ find? (parts path) n.root = none := by
  unfold Unresolved reflect
  cases find? (parts path) n.root with
  | none => exact iff_of_true ⟨_, _, rfl⟩ rfl
  | some e => cases e <;> exact iff_of_false nofun nofun

theorem defined_eq_false_iff (n : Namespace) (path : String) :
    n.defined path = false ↔ path = "" ∨ n.Unresolved path := by
  rw [unresolved_iff, defined, Bool.and_eq_false_iff, bne_eq_false_iff_eq,
    Option.isSome_eq_false_iff, Option.isNone_iff_eq_none]

/-- **How far the two agree** after some definitions. -/
structure Agrees (definitions : List Definition) (n : Namespace) : Prop where
  /-- A path is undefined just if it is unresolved. Only the empty path can be an exception, and is
  one from the first definition on of a path that begins with a dot and does not end with one. -/
  agrees_iff : ∀ path, (n.defined path = false ↔ n.Unresolved path) ↔
    ¬ (path = "" ∧ ∃ d ∈ definitions, d.BehindDot)
  /-- Any other path is defined just if it has a value or is said to name a scope. -/
  defined_iff : ∀ path, path ≠ "" → (n.defined path = true ↔
    (∃ v, n.reflect path = .ok v) ∨ n.reflect path = .error (.typeMismatch path path "symbol"))
  /-- The empty path is never defined. -/
  empty_undefined : n.defined "" = false
  /-- But it resolves to a scope, if one was made. -/
  empty_reflect : n.reflect "" =
    if ∃ d ∈ definitions, d.BehindDot then .error (.typeMismatch "" "" "symbol")
    else .error (.unresolved .symbol "")

/-- **Being defined and being resolved** after any definitions, from an empty namespace on. -/
theorem agrees_defineAll (definitions : List Definition) :
    Agrees definitions (empty.defineAll definitions) := by
  have hshows : Shows (empty.defineAll definitions).root (PathTable.defineAll .empty definitions) :=
    Shows.defineAll shows_empty definitions
  have hnamed := PathTable.Named.empty.defineAll definitions
  -- nothing is there at the beginning, so only the definitions count
  have hpasses : (PathTable.defineAll .empty definitions).Passes [""] ↔
      ∃ d ∈ definitions, d.BehindDot := by
    rw [PathTable.Named.empty.passes_defineAll, or_iff_right]
    exact fun ⟨_, hk, _⟩ => absurd hk List.not_mem_nil
  -- the empty path is the one where `reflect` may find a scope that `defined` denies
  have hempty : (empty.defineAll definitions).reflect "" =
      if ∃ d ∈ definitions, d.BehindDot then .error (.typeMismatch "" "" "symbol")
      else .error (.unresolved .symbol "") := by
    have hparts : parts "" = [""] := rfl
    rw [hshows.mirrors.reflects, hparts, hnamed.get?_empty_part]
    simp only [hpasses]
  refine
    { agrees_iff := fun path => ?agrees_iff
      defined_iff := fun path hpath => ?defined_iff
      empty_undefined := (defined_eq_false_iff _ _).mpr (Or.inl rfl)
      empty_reflect := hempty }
  case agrees_iff =>
    rw [defined_eq_false_iff]
    by_cases hpath : path = ""
    · subst hpath
      have hunresolved : (empty.defineAll definitions).Unresolved "" ↔
          ¬ ∃ d ∈ definitions, d.BehindDot := by
        unfold Unresolved
        rw [hempty]
        split
        · next h => exact iff_of_false nofun (not_not_intro h)
        · next h => exact iff_of_true ⟨_, _, rfl⟩ h
      rw [hunresolved]
      simp
    · simp [hpath]
  case defined_iff =>
    rw [← not_iff_not, Bool.not_eq_true, defined_eq_false_iff, or_iff_right hpath, unresolved_iff]
    unfold reflect
    cases find? (parts path) (empty.defineAll definitions).root with
    | none => simp
    | some e => cases e <;> simp

/-- **The empty path is an exception:** when `.x` was given a value, the empty path is undefined and
not unresolved. -/
theorem empty_path_disagrees :
    (empty.define ".x" (.bool true) true).1 = true ∧
      (empty.defineAll [⟨".x", .bool true, true⟩]).defined "" = false ∧
      ¬ (empty.defineAll [⟨".x", .bool true, true⟩]).Unresolved "" := by
  refine ⟨by decide +kernel, rfl, ?_⟩
  rw [unresolved_iff]
  decide +kernel

end Namespace

end ObjectMarkup
