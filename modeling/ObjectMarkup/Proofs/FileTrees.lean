import ObjectMarkup.Fetch.FileTree

/-!
# Paths in trees of files

What the file system of a tree has: exactly the files of the tree, each under the names on the way to
it (`disk_absolute_eq_ok_iff`). A relative path stands for its names behind those of the working directory
(`disk_relative_eq_ok_iff`, `canonical?_relative_eq_some_iff`). All of it is said of plain
names, that is, of any that do not stand for another place themselves.

The crux is `walk_eq_ok_iff`: whoever gets to the end of a path has passed through directories only,
since every directory on the way to a file or a directory exists too (`isDirectory_of_present`).
-/

namespace ObjectMarkup

/-- A name that stands for a file or a directory in the place where it is met. -/
structure FileName.Plain (name : FileName) : Prop where
  ne_nil : name ≠ []
  ne_dot : name ≠ [0x2E]
  ne_dots : name ≠ [0x2E, 0x2E]
  slash : 0x2F ∉ name
  zero : 0 ∉ name

instance (name : FileName) : Decidable name.Plain :=
  decidable_of_iff (name ≠ [] ∧ name ≠ [0x2E] ∧ name ≠ [0x2E, 0x2E] ∧ 0x2F ∉ name ∧ 0 ∉ name)
    ⟨fun ⟨h₁, h₂, h₃, h₄, h₅⟩ => ⟨h₁, h₂, h₃, h₄, h₅⟩,
      fun h => ⟨h.ne_nil, h.ne_dot, h.ne_dots, h.slash, h.zero⟩⟩

/-- The path from the working directory through the names. -/
def FileSystem.relative (names : List FileName) : List UInt8 :=
  [0x2F].intercalate names

theorem FileSystem.absolute_eq {names : List FileName} (h : names ≠ []) :
    absolute names = 0x2F :: relative names := by
  have hflat : ∀ (name : FileName) (rest : List FileName),
      (name :: rest).flatMap (fun name => 0x2F :: name) = 0x2F :: relative (name :: rest) := by
    intro name rest
    induction rest generalizing name with
    | nil => simp [relative]
    | cons next rest ih =>
      rw [List.flatMap_cons, ih, relative, relative, List.intercalate_cons_cons]
      simp
  cases names with
  | nil => exact absurd rfl h
  | cons name rest => exact hflat name rest

theorem FileSystem.zero_notMem_relative {names : List FileName} (h : ∀ n ∈ names, n.Plain) :
    0 ∉ relative names := by
  induction names with
  | nil => exact List.not_mem_nil
  | cons name rest ih =>
    obtain ⟨hname, hrest⟩ := List.forall_mem_cons.mp h
    cases rest with
    | nil => simpa [relative] using hname.zero
    | cons next rest =>
      have hback := ih hrest
      rw [relative] at hback ⊢
      rw [List.intercalate_cons_cons]
      simp [hname.zero, hback]

namespace FileTree

variable {t : FileTree} {here names found workingDirectory : List FileName} {bytes : List UInt8}

/-- Every directory on the way to something exists. -/
theorem isDirectory_of_present {name : FileName} {rest : List FileName}
    (h : t.present (here ++ name :: rest) = true) : t.isDirectory here = true := by
  have hfront : ∀ {path}, here ++ name :: rest <+: path → here <+: path :=
    (List.prefix_append here _).trans
  have hne : ∀ {path}, here ++ name :: rest <+: path → here ≠ path := by
    rintro path hpath rfl
    have hlength := hpath.length_le
    rw [List.length_append, List.length_cons] at hlength
    omega
  rw [isDirectory, Bool.or_eq_true, Bool.or_eq_true]
  rw [present, isDirectory, Bool.or_eq_true, Bool.or_eq_true, Bool.or_eq_true] at h
  -- present as a file, as the top, as a directory or above a file: each lies below `here`
  rcases h with hfile | (hempty | hdirectory) | hbelow
  · obtain ⟨bytes, hlookup⟩ := Option.isSome_iff_exists.mp hfile
    obtain ⟨before, after, hfiles, -⟩ := List.lookup_eq_some_iff.mp hlookup
    have hmem : (here ++ name :: rest, bytes) ∈ t.files := by simp [hfiles]
    refine Or.inr (List.any_eq_true.mpr ⟨_, hmem, ?_⟩)
    simp
  · simp at hempty
  · obtain ⟨path, hmem, hpath⟩ := List.any_eq_true.mp hdirectory
    have hpath := List.isPrefixOf_iff_prefix.mp hpath
    exact Or.inl (Or.inr (List.any_eq_true.mpr
      ⟨path, hmem, List.isPrefixOf_iff_prefix.mpr (hfront hpath)⟩))
  · obtain ⟨f, hmem, hf⟩ := List.any_eq_true.mp hbelow
    rw [Bool.and_eq_true] at hf
    have hpath := List.isPrefixOf_iff_prefix.mp hf.1
    refine Or.inr (List.any_eq_true.mpr ⟨f, hmem, ?_⟩)
    rw [Bool.and_eq_true]
    exact ⟨List.isPrefixOf_iff_prefix.mpr (hfront hpath), bne_iff_ne.mpr (hne hpath)⟩

/-- **A way along plain names** leads to the place that they name, if there is something. -/
theorem walk_eq_ok_iff (hne : names ≠ []) (hplain : ∀ n ∈ names, n.Plain) :
    t.walk here names = .ok found ↔ found = here ++ names ∧ t.present (here ++ names) = true := by
  induction names generalizing here with
  | nil => exact absurd rfl hne
  | cons name rest ih =>
    obtain ⟨hname, hrest⟩ := List.forall_mem_cons.mp hplain
    have hnext : here ++ name :: rest = here ++ [name] ++ rest := by simp
    -- one plain name takes one step down, from a directory to something present
    have hstep : t.walk here (name :: rest) = .ok found ↔ t.isDirectory here = true ∧
        t.present (here ++ [name]) = true ∧ t.walk (here ++ [name]) rest = .ok found := by
      rw [walk, if_neg (not_or.mpr ⟨hname.ne_nil, hname.ne_dot⟩), if_neg hname.ne_dots]
      cases t.isDirectory here <;> cases t.present (here ++ [name]) <;> simp
    rw [hstep]
    cases rest with
    | nil =>
      rw [walk]
      refine ⟨fun ⟨_, hpresent, hfound⟩ => ⟨(Except.ok.inj hfound).symm, hpresent⟩, ?_⟩
      exact fun ⟨hfound, hpresent⟩ =>
        ⟨isDirectory_of_present hpresent, hpresent, congrArg Except.ok hfound.symm⟩
    | cons next rest =>
      rw [ih (List.cons_ne_nil _ _) hrest, ← hnext]
      refine ⟨fun h => h.2.2, fun h => ⟨isDirectory_of_present h.2, ?_, h⟩⟩
      rw [hnext] at h
      rw [present, isDirectory_of_present h.2, Bool.or_true]

theorem follow_relative (hne : names ≠ []) (hplain : ∀ n ∈ names, n.Plain) :
    t.follow workingDirectory (FileSystem.relative names) = t.walk workingDirectory names := by
  have hzero := FileSystem.zero_notMem_relative hplain
  have hsplit : namesOf (FileSystem.relative names) = names :=
    List.splitOn_intercalate 0x2F (fun n hn => (hplain n hn).slash) hne
  -- the path begins with the first name, which has no slash
  obtain ⟨b, rest, hpath, hb⟩ : ∃ b rest, FileSystem.relative names = b :: rest ∧ b ≠ 0x2F := by
    obtain ⟨name, others, rfl⟩ := List.exists_cons_of_ne_nil hne
    have hname := hplain name List.mem_cons_self
    obtain ⟨b, back, rfl⟩ := List.exists_cons_of_ne_nil hname.ne_nil
    have hb : b ≠ 0x2F := fun heq => hname.slash (heq ▸ List.mem_cons_self)
    cases others with
    | nil => exact ⟨b, back, by simp [FileSystem.relative], hb⟩
    | cons next others =>
      refine ⟨b, back ++ [0x2F] ++ FileSystem.relative (next :: others), ?_, hb⟩
      rw [FileSystem.relative, List.intercalate_cons_cons]
      rfl
  unfold follow
  rw [if_neg (by simpa using hzero)]
  rw [hpath] at hsplit ⊢
  simp only [if_neg hb, hsplit]

theorem follow_absolute (hne : names ≠ []) (hplain : ∀ n ∈ names, n.Plain) :
    t.follow workingDirectory (FileSystem.absolute names) = t.walk [] names := by
  have hzero := FileSystem.zero_notMem_relative hplain
  have hsplit : namesOf (FileSystem.relative names) = names :=
    List.splitOn_intercalate 0x2F (fun n hn => (hplain n hn).slash) hne
  have hslash : namesOf (0x2F :: FileSystem.relative names) = [] :: names := by
    rw [namesOf, List.splitOn_cons_eq_if_modifyHead, if_pos (beq_self_eq_true _)]
    exact congrArg _ hsplit
  unfold follow
  rw [FileSystem.absolute_eq hne, if_neg (by simpa using hzero)]
  simp only [if_pos, hslash]
  rw [walk, if_neg (by simp [isDirectory]), if_pos (Or.inl rfl)]

/-- What is read under a path is the file in the place that it leads to. -/
theorem disk_eq_ok_iff_of_follow {path : List UInt8} (hne : names ≠ []) (hplain : ∀ n ∈ names, n.Plain)
    (hpath : t.follow workingDirectory path = t.walk here names) :
    (t.fileSystem workingDirectory).disk path = .ok bytes ↔
      t.files.lookup (here ++ names) = some bytes := by
  rw [fileSystem]
  simp only [hpath]
  constructor
  · intro h
    cases hwalk : t.walk here names with
    | error e =>
      rw [hwalk] at h
      cases h
    | ok found =>
      obtain ⟨rfl, -⟩ := (walk_eq_ok_iff hne hplain).mp hwalk
      rw [hwalk] at h
      simp only at h
      split at h
      · next hlookup =>
        cases h
        exact hlookup
      · cases h
  · intro h
    have hpresent : t.present (here ++ names) = true := by
      rw [present, h, Option.isSome_some, Bool.true_or]
    rw [(walk_eq_ok_iff hne hplain).mpr ⟨rfl, hpresent⟩]
    simp only [h]

/-- **The files of the tree** are all that can be read. -/
theorem disk_absolute_eq_ok_iff (hne : names ≠ []) (hplain : ∀ n ∈ names, n.Plain) :
    (t.fileSystem workingDirectory).disk (FileSystem.absolute names) = .ok bytes ↔
      t.files.lookup names = some bytes :=
  disk_eq_ok_iff_of_follow hne hplain (follow_absolute hne hplain)

theorem disk_relative_eq_ok_iff (hne : names ≠ []) (hplain : ∀ n ∈ names, n.Plain) :
    (t.fileSystem workingDirectory).disk (FileSystem.relative names) = .ok bytes ↔
      t.files.lookup (workingDirectory ++ names) = some bytes :=
  disk_eq_ok_iff_of_follow hne hplain (follow_relative hne hplain)

/-- **A relative path** stands for the names behind those of the working directory. -/
theorem canonical?_relative_eq_some_iff (hne : names ≠ []) (hplain : ∀ n ∈ names, n.Plain) :
    (t.fileSystem workingDirectory).canonical? (FileSystem.relative names) = some found ↔
      found = workingDirectory ++ names ∧ t.present (workingDirectory ++ names) = true := by
  rw [fileSystem]
  simp only [follow_relative hne hplain]
  rw [← walk_eq_ok_iff hne hplain]
  cases t.walk workingDirectory names <;> simp [Except.toOption]

end FileTree

end ObjectMarkup
