import ObjectMarkup.Proofs.Bases

/-!
# References that ignore the base

A reference that is read without a base has a scheme. With a base it need not name the same place:
a scheme that says nothing about where the place is does not make a reference absolute if the base
has the same one. `Locator.Absolute` says what the text behind the scheme has to look like, and
`Locator.resolve_against_bases` that this is the exact condition:

* An absolute reference names the same place from every base, and so does any other one from the bases
  with another scheme (`readAbsolute_eq_none`).
* A reference that is not absolute is read like one without a scheme from the bases with its own
  scheme. So it keeps the host of the base (`readAbsolute_staysWith`), and from one of two bases with
  different hosts it does not name the place that it names without a base (`exists_base_ne`).

The schemes with an authority fall into two groups that are read in different functions, `readRelative`
and `readFile`. What both say of a reference depends on the number of slashes in front of it, and these
are the cases of `slashes_cases`.
-/

namespace ObjectMarkup

namespace Locator

/-! ### Slashes in front -/

/-- How many slashes of either kind are in front of a text. -/
def slashes (s : List Char) : Nat :=
  (s.takeWhile isSlash).length

theorem two_le_slashes {c d : Char} {s : List Char} (hc : isSlash c = true) (hd : isSlash d = true) :
    2 ≤ slashes (c :: d :: s) := by
  simp [slashes, hc, hd]

/-- There are two slashes or more in front of a text, or one, or none. -/
theorem slashes_cases (s : List Char) :
    (∃ c d inner, s = c :: d :: inner ∧ isSlash c = true ∧ isSlash d = true ∧ 2 ≤ slashes s) ∨
    (∃ c rest, s = c :: rest ∧ isSlash c = true ∧ rest.head?.map isSlash ≠ some true ∧
      slashes s < 2 ∧ s.dropWhile isSlash = rest) ∨
    (s.head?.map isSlash ≠ some true ∧ slashes s < 2 ∧ s.dropWhile isSlash = s) := by
  -- the first two characters decide: both are slashes, only the first is, or not even that one
  match s with
  | [] => exact .inr (.inr ⟨nofun, Nat.two_pos, rfl⟩)
  | [c] =>
    cases hc : isSlash c with
    | false => exact .inr (.inr (by simp [slashes, hc]))
    | true => exact .inr (.inl ⟨c, [], rfl, hc, nofun, by simp [slashes, hc], by simp [hc]⟩)
  | c :: d :: inner =>
    cases hc : isSlash c with
    | false => exact .inr (.inr (by simp [slashes, hc]))
    | true =>
      cases hd : isSlash d with
      | false =>
        exact .inr (.inl ⟨c, d :: inner, rfl, hc, by simp [hd], by simp [slashes, hc, hd],
          by simp [hc, hd]⟩)
      | true => exact .inl ⟨c, d, inner, rfl, hc, hd, two_le_slashes hc hd⟩

/-- **What stands behind a scheme names a place on its own:** an authority, the drive of a file, or
anything at all under a scheme without authorities of its own. -/
def Complete (scheme rest : List Char) : Prop :=
  schemeClass scheme = .other ∨ 2 ≤ slashes rest ∨
    scheme = fileScheme ∧ startsWithDriveLetter (rest.dropWhile isSlash) = true

instance (scheme rest : List Char) : Decidable (Complete scheme rest) :=
  inferInstanceAs (Decidable (_ ∨ _ ∨ _))

/-- **A reference that is absolute:** it has a scheme, and behind it what names a place. -/
def Absolute (reference : String) : Prop :=
  ∃ s ∈ scanScheme? (cleaned reference.toList), Complete s.1 s.2

instance (reference : String) : Decidable (Absolute reference) :=
  inferInstanceAs (Decidable (∃ s ∈ scanScheme? (cleaned reference.toList), Complete s.1 s.2))

/-- The path begins with the letter of a drive. -/
def BeginsAtDrive (l : Locator) : Prop :=
  l.segmentList.head?.map isPlainDriveLetter = some true

theorem eq_fileScheme_of_class {scheme : List Char} (h : schemeClass scheme = .file) :
    scheme = fileScheme := by
  unfold schemeClass at h
  split at h
  · next hfile => exact String.ofList_inj.mp hfile
  all_goals cases h

/-! ### With a scheme of its own -/

section Reading

variable {domains : Domains} {reference : String} {scheme rest : List Char}
  {base : Option Locator} {b u : Locator}

theorem resolve_of_scheme (h : scanScheme? (cleaned reference.toList) = some (scheme, rest)) :
    resolve domains base reference = readAbsolute domains base scheme rest := by
  unfold resolve
  simp only [h]

/-- What is read without a base has a scheme. -/
theorem exists_scheme (h : resolve domains none reference = .ok u) :
    ∃ scheme rest, scanScheme? (cleaned reference.toList) = some (scheme, rest) ∧
      readAbsolute domains none scheme rest = .ok u := by
  cases hscan : scanScheme? (cleaned reference.toList) with
  | none =>
    unfold resolve at h
    simp only [hscan] at h
    cases h
  | some found => exact ⟨found.1, found.2, rfl, resolve_of_scheme hscan ▸ h⟩

theorem scheme_of_readAuthority (h : readAuthority domains scheme rest = .ok u) :
    u.scheme = scheme := by
  unfold readAuthority at h
  simp only [bind, Except.bind, pure, Except.pure, throw, throwThe, MonadExceptOf.throw] at h
  -- every way through that ends in a locator ends with its scheme
  repeat' split at h
  all_goals cases h <;> rfl

theorem scheme_of_readFileAuthority (h : readFileAuthority domains rest = .ok u) :
    u.scheme = fileScheme := by
  unfold readFileAuthority at h
  simp only [bind, Except.bind, pure, Except.pure] at h
  repeat' split at h
  all_goals cases h <;> rfl

/-! ### Files -/

theorem readFile_of_slashes {c d : Char} (hc : isSlash c = true) (hd : isSlash d = true) :
    readFile domains base (c :: d :: rest) = readFileAuthority domains rest := by
  simp only [readFile, hc, hd, if_true]

theorem readFile_of_slash {c : Char} (hc : isSlash c = true)
    (hrest : rest.head?.map isSlash ≠ some true) :
    readFile domains base (c :: rest) = .ok (readFile.rooted base rest) := by
  cases rest with
  | nil => simp only [readFile, hc, if_true]
  | cons d inner =>
    have hd : isSlash d = false := by simpa using hrest
    simp only [readFile, hc, hd, if_true, Bool.false_eq_true, if_false]

theorem readFile_none (hrest : rest.head?.map isSlash ≠ some true) :
    readFile domains none rest = .ok (fileLocator (.name []) [] rest) := by
  cases rest with
  | nil => rfl
  | cons c inner =>
    have hc : isSlash c = false := by simpa using hrest
    simp only [readFile, hc, Bool.false_eq_true, if_false]

/-- The letter of a drive begins neither a query nor a fragment. -/
theorem letter_of_startsWithDriveLetter {c : Char} (h : startsWithDriveLetter (c :: rest) = true) :
    c ≠ '?' ∧ c ≠ '#' := by
  unfold startsWithDriveLetter at h
  rw [Bool.and_eq_true] at h
  constructor <;> rintro rfl <;> exact absurd h.1 (by cases rest <;> simp [isDriveLetter, isLetter])

/-- The drive of a file does not depend on the base. -/
theorem readFile_of_drive (hfew : slashes rest < 2)
    (hdrive : startsWithDriveLetter (rest.dropWhile isSlash) = true) :
    readFile domains base rest = .ok (fileLocator (.name []) [] (rest.dropWhile isSlash)) := by
  obtain ⟨c, d, inner, -, -, -, hmany⟩ | ⟨c, tail, rfl, hc, hhead, -, hdrop⟩ | ⟨hhead, -, hdrop⟩ :=
    slashes_cases rest
  · omega
  · -- one slash: the drive letter behind it is the root, whatever the base is
    rw [hdrop] at hdrive ⊢
    rw [readFile_of_slash hc hhead]
    cases base with
    | none => rfl
    | some b => simp only [readFile.rooted, hdrive, if_true]
  · rw [hdrop] at hdrive ⊢
    cases base with
    | none => exact readFile_none hhead
    | some b =>
      cases rest with
      | nil => cases hdrive
      | cons c inner =>
        have hc : isSlash c = false := by simpa using hhead
        -- a drive letter is a letter, so the text starts with no query and no fragment
        obtain ⟨hquery, hfragment⟩ := letter_of_startsWithDriveLetter hdrive
        simp only [readFile, hc, hquery, hfragment, hdrive, Bool.false_eq_true, if_false, if_true]

/-- A file that is named completely is the same one from every base. -/
theorem readFile_eq_none (h : Complete fileScheme rest) :
    readFile domains base rest = readFile domains none rest := by
  obtain ⟨c, d, inner, rfl, hc, hd, -⟩ | hone :=
    slashes_cases rest
  · rw [readFile_of_slashes hc hd, readFile_of_slashes hc hd]
  · have hfew : slashes rest < 2 := by
      rcases hone with ⟨_, _, -, -, -, hfew, -⟩ | ⟨-, hfew, -⟩ <;> exact hfew
    obtain hother | hmany | ⟨-, hdrive⟩ := h
    · cases hother
    · omega
    · rw [readFile_of_drive hfew hdrive, readFile_of_drive hfew hdrive]

/-! ### Bases that do not matter -/

/-- **A base does not matter** if it has another scheme, or if the rest is complete. -/
theorem readAbsolute_eq_none (h : b.scheme ≠ scheme ∨ Complete scheme rest) :
    readAbsolute domains (some b) scheme rest = readAbsolute domains none scheme rest := by
  unfold readAbsolute
  cases hk : schemeClass scheme with
  | other => rfl
  | special port =>
    -- the base is not asked unless it has the scheme and an authority is missing
    have hfull : ¬ (b.scheme = scheme ∧ slashes rest < 2) := by
      rintro ⟨hscheme, hfew⟩
      rcases h with hother | hother | hmany | ⟨rfl, -⟩
      · exact hother hscheme
      · rw [hk] at hother
        cases hother
      · omega
      · cases hk
    simp only
    rw [if_neg]
    simpa [slashes] using hfull
  | file =>
    obtain rfl := eq_fileScheme_of_class hk
    -- only a base that is a file itself is asked for its host and drive
    by_cases hb : b.scheme = fileScheme
    · exact readFile_eq_none (h.resolve_left (not_not_intro hb))
    · simp [Option.filter, hb]

theorem scheme_of_readAbsolute (h : readAbsolute domains none scheme rest = .ok u) :
    u.scheme = scheme := by
  unfold readAbsolute at h
  split at h
  · next hk =>
    obtain rfl := eq_fileScheme_of_class hk
    -- a file has its scheme however many slashes come first
    obtain ⟨c, d, inner, rfl, hc, hd, -⟩ | ⟨c, tail, rfl, hc, hhead, -⟩ | ⟨hhead, -⟩ :=
      slashes_cases rest
    · exact scheme_of_readFileAuthority (readFile_of_slashes hc hd ▸ h)
    · rw [Option.filter_none, readFile_of_slash hc hhead] at h
      cases h
      rfl
    · rw [Option.filter_none, readFile_none hhead] at h
      cases h
      rfl
  · exact scheme_of_readAuthority h
  · split at h
    · exact scheme_of_readAuthority h
    · cases h
      rfl
    · cases h
      rfl

/-! ### Relative to a base -/

/-- The locator is within the reach of a base: it has the same scheme and the same host. -/
def StaysWith (b l : Locator) : Prop :=
  l.scheme = b.scheme ∧ hostOf l = hostOf b

/-- A relative reference that does not begin with an authority keeps that of the base. -/
theorem readRelative_staysWith (hfew : slashes rest < 2) :
    ∃ l, readRelative domains b rest = .ok l ∧ b.StaysWith l := by
  unfold readRelative
  split
  · exact ⟨_, rfl, rfl, rfl⟩
  · exact ⟨_, rfl, rfl, rfl⟩
  · exact ⟨_, rfl, rfl, rfl⟩
  · exact absurd (two_le_slashes rfl rfl) (Nat.not_le_of_lt hfew)
  · next c rest _ _ _ =>
    by_cases hc : isSlash c = true
    · have hrest : rest.head?.map isSlash ≠ some true := by
        -- a second slash would make two of them, and there are fewer
        intro hhead
        obtain ⟨d, inner, rfl⟩ : ∃ d inner, rest = d :: inner := by
          cases rest with
          | nil => cases hhead
          | cons d inner => exact ⟨d, inner, rfl⟩
        have hd : isSlash d = true := by simpa using hhead
        exact absurd (two_le_slashes hc hd) (Nat.not_le_of_lt hfew)
      rw [if_pos hc, if_neg hrest]
      exact ⟨_, rfl, rfl, rfl⟩
    · rw [if_neg hc]
      exact ⟨_, rfl, rfl, rfl⟩

/-- A file that is not named completely is on the host of the base, unless the base has a drive to
begin with. -/
theorem readFile_staysWith (hb : b.scheme = fileScheme) (hdrive : ¬ b.BeginsAtDrive)
    (hrest : ¬ Complete fileScheme rest) :
    ∃ l, readFile domains (some b) rest = .ok l ∧ b.StaysWith l := by
  -- a drive letter would make the text complete
  have hno : startsWithDriveLetter (rest.dropWhile isSlash) = false :=
    Bool.eq_false_iff.mpr fun h => hrest (.inr (.inr ⟨rfl, h⟩))
  obtain ⟨c, d, inner, -, -, -, hmany⟩ | ⟨c, tail, rfl, hc, hhead, -, hdrop⟩ | ⟨hhead, -, hdrop⟩ :=
    slashes_cases rest
  · exact absurd (.inr (.inl hmany)) hrest
  · rw [hdrop] at hno
    refine ⟨_, readFile_of_slash hc hhead, ?_⟩
    simp only [readFile.rooted, hno, Bool.false_eq_true, if_false]
    cases hsegments : b.segmentList.head? with
    | none => exact ⟨hb.symm, rfl⟩
    | some first =>
      -- the base does not begin at a drive, so the root is not taken from it
      have hfirst : isPlainDriveLetter first = false := by
        simpa [BeginsAtDrive, hsegments] using hdrive
      simp only [hfirst, Bool.false_eq_true, if_false]
      exact ⟨hb.symm, rfl⟩
  · rw [hdrop] at hno
    cases rest with
    | nil => exact ⟨_, rfl, rfl, rfl⟩
    | cons c inner =>
      have hc : isSlash c = false := by simpa using hhead
      simp only [readFile, hc, hno, Bool.false_eq_true, if_false]
      by_cases hquery : c = '?'
      · rw [if_pos hquery]
        exact ⟨_, rfl, rfl, rfl⟩
      by_cases hfragment : c = '#'
      · rw [if_neg hquery, if_pos hfragment]
        exact ⟨_, rfl, rfl, rfl⟩
      · rw [if_neg hquery, if_neg hfragment]
        exact ⟨_, rfl, hb.symm, rfl⟩

theorem slashes_lt_two (h : ¬ Complete scheme rest) : slashes rest < 2 :=
  Nat.lt_of_not_le fun hmany => h (.inr (.inl hmany))

/-- **A reference that is not absolute** stays with a base of its own scheme. -/
theorem readAbsolute_staysWith (hb : b.scheme = scheme) (hdrive : ¬ b.BeginsAtDrive)
    (hrest : ¬ Complete scheme rest) :
    ∃ l, readAbsolute domains (some b) scheme rest = .ok l ∧ b.StaysWith l := by
  have hfew := slashes_lt_two hrest
  unfold readAbsolute
  cases hk : schemeClass scheme with
  | other => exact absurd (.inl hk) hrest
  | special port =>
    simp only
    -- same scheme and fewer than two slashes: what is read is relative to the base
    rw [if_pos (by simpa [slashes, hb] using hfew)]
    exact readRelative_staysWith hfew
  | file =>
    obtain rfl := eq_fileScheme_of_class hk
    simp only [Option.filter_some, hb, beq_self_eq_true, if_true]
    exact readFile_staysWith hb hdrive hrest

/-- Its scheme might as well be left out. -/
theorem readAbsolute_eq_resolve (hb : b.scheme = scheme) (hflat : b.isFlat = false)
    (hrest : ¬ Complete scheme rest) (hreference : cleaned reference.toList = rest)
    (hscan : scanScheme? rest = none) :
    readAbsolute domains (some b) scheme rest = resolve domains (some b) reference := by
  have hfew := slashes_lt_two hrest
  unfold resolve
  simp only [hreference, hscan, hflat, Bool.false_eq_true, if_false]
  unfold readAbsolute
  cases hk : schemeClass scheme with
  | other => exact absurd (.inl hk) hrest
  | special port =>
    simp only [hb, hk]
    rw [if_pos (by simpa [slashes] using hfew)]
    -- without a scheme only a fragment has a case of its own, which comes to the same
    split
    · rfl
    · rw [if_neg nofun]
  | file =>
    obtain rfl := eq_fileScheme_of_class hk
    simp only [Option.filter_some, hb, beq_self_eq_true, if_true, hk]
    split <;> rfl

end Reading

/-! ### Bases that do matter -/

/-- The schemes with an authority or files. -/
def placedSchemes : List (List Char) :=
  ["file", "http", "https", "ws", "wss", "ftp"].map String.toList

theorem mem_placedSchemes {scheme : List Char} (h : schemeClass scheme ≠ .other) :
    scheme ∈ placedSchemes := by
  have hmem : ∀ s, String.ofList scheme = s → s ∈ ["file", "http", "https", "ws", "wss", "ftp"] →
      scheme ∈ placedSchemes := fun s heq hs => by
    rw [← String.toList_ofList (l := scheme), heq]
    exact List.mem_map_of_mem hs
  unfold schemeClass at h
  split at h
  all_goals first | exact hmem _ ‹_› (by simp) | exact absurd rfl h

/-- The place of a host with a short name. -/
def hostPlace (scheme : List Char) (host : Char) : Locator :=
  ⟨scheme, some (.ofHost (.name [host])), .segments [[]], none, none⟩

/-- The places are places: their texts are read as them, whatever international names stand for. -/
theorem parse_hostPlace (domains : Domains) {scheme : List Char} (h : scheme ∈ placedSchemes) :
    parse domains (hostPlace scheme 'a').text = .ok (hostPlace scheme 'a') ∧
      parse domains (hostPlace scheme 'b').text = .ok (hostPlace scheme 'b') := by
  simp only [placedSchemes, List.map, List.mem_cons, List.not_mem_nil, or_false] at h
  obtain rfl | rfl | rfl | rfl | rfl | rfl := h <;> exact ⟨rfl, rfl⟩

theorem not_beginsAtDrive_hostPlace (scheme : List Char) (host : Char) :
    ¬ (hostPlace scheme host).BeginsAtDrive := by
  simp [BeginsAtDrive, hostPlace, segmentList, isPlainDriveLetter, isDriveLetter]

/-- **A reference that is not absolute depends on the base:** it cannot stay with both of two hosts. -/
theorem exists_base_ne (domains : Domains) {scheme rest : List Char} (u : Locator)
    (hrest : ¬ Complete scheme rest) :
    ∃ text b, parse domains text = .ok b ∧ b.scheme = scheme ∧
      readAbsolute domains (some b) scheme rest ≠ .ok u := by
  have hscheme := mem_placedSchemes fun h => hrest (.inl h)
  by_contra hall
  -- if no base mattered, one place would be on both hosts
  obtain ⟨ha, hb⟩ := parse_hostPlace domains hscheme
  have hhost : ∀ host, parse domains (hostPlace scheme host).text = .ok (hostPlace scheme host) →
      hostOf u = .name [host] := by
    intro host hparse
    -- what is read against the base stays on its host
    have hstays : ∃ l, readAbsolute domains (some (hostPlace scheme host)) scheme rest = .ok l ∧
        (hostPlace scheme host).StaysWith l :=
      readAbsolute_staysWith rfl (not_beginsAtDrive_hostPlace scheme host) hrest
    have hu : readAbsolute domains (some (hostPlace scheme host)) scheme rest = .ok u := by
      by_contra hne
      exact hall ⟨_, _, hparse, rfl, hne⟩
    obtain ⟨l, hl, -, hsame⟩ := hstays
    cases hl.symm.trans hu
    exact hsame
  cases (hhost 'a' ha).symm.trans (hhost 'b' hb)

/-! ### Against any base -/

/-- **What a reference names against a base** if it names `u` without one. -/
structure AgainstBases (domains : Domains) (v : String) (u : Locator) : Prop where
  /-- It names the same place from every base with another scheme, and from every base at all if it is
  absolute. -/
  ignores : ∀ b : Locator, b.scheme ≠ u.scheme ∨ Absolute v → resolve domains (some b) v = .ok u
  /-- Otherwise it keeps scheme and host of the base, unless that begins with a drive. -/
  stays : ∀ b : Locator, b.scheme = u.scheme → ¬ Absolute v → ¬ b.BeginsAtDrive →
    ∃ l, resolve domains (some b) v = .ok l ∧ b.StaysWith l
  /-- It is read like what stands behind its scheme. -/
  relative : ∀ b : Locator, b.scheme = u.scheme → ¬ Absolute v → b.isFlat = false →
    ∀ r s, scanScheme? (cleaned v.toList) = some (s, cleaned r.toList) →
      scanScheme? (cleaned r.toList) = none →
      resolve domains (some b) v = resolve domains (some b) r
  /-- So the base does not matter just if the reference is absolute. -/
  ignores_iff :
    (∀ text b, parse domains text = .ok b → resolve domains (some b) v = .ok u) ↔ Absolute v
  /-- An image with that reference is what the fetcher has for the place that it names without a base,
  in every run over every document, unless the base has the same scheme and the reference is not
  absolute. -/
  loads : ∀ (environment : Environment) (document : Markup.Document) (base : Option Locator)
    (store : Store) (events : List Event), environment.domains = domains →
    let start := Compilation.unbegun environment document base store
    ∀ a ∈ (start.lookupsOfAll events).attributes, a.coercion.kind = Kind.image →
      Text.trimmed a.key.value = v →
      (∀ b, a.coercion.base = some b → b.scheme ≠ u.scheme ∨ Absolute v) →
      ((start.undergoAll events).pass.coerce a.coercion).1 = environment.load none a.key

/-- **Which references ignore the base** among those that need none. -/
theorem resolve_against_bases {domains : Domains} {v : String} {u : Locator}
    (h : resolve domains none v = .ok u) : AgainstBases domains v u := by
  obtain ⟨scheme, rest, hscan, hread⟩ := exists_scheme h
  obtain rfl := scheme_of_readAbsolute hread
  -- a reference with a scheme is read behind it, with or without a base
  have hv : ∀ base, resolve domains base v = readAbsolute domains base u.scheme rest := fun _ =>
    resolve_of_scheme hscan
  have habsolute : Absolute v ↔ Complete u.scheme rest := by
    simp [Absolute, hscan]
  have hignores : ∀ b : Locator, b.scheme ≠ u.scheme ∨ Absolute v →
      resolve domains (some b) v = .ok u := by
    intro b hb
    rw [hv, readAbsolute_eq_none (hb.imp_right habsolute.mp), hread]
  refine
    { ignores := hignores
      stays := fun b hb hno hdrive => ?stays
      relative := fun b hb hno hflat r s hr hnone => ?relative
      ignores_iff := ⟨fun hall => ?complete, fun habs _ b _ => hignores b (.inr habs)⟩
      loads := fun environment _ _ _ _ hdomains => ?loads }
  case stays =>
    rw [hv]
    exact readAbsolute_staysWith hb hdrive (habsolute.not.mp hno)
  case relative =>
    obtain ⟨-, hrest⟩ := Prod.mk.inj (Option.some.inj (hscan.symm.trans hr))
    rw [hv, readAbsolute_eq_resolve hb hflat (habsolute.not.mp hno) hrest.symm (hrest ▸ hnone)]
  -- a base that is ignored may be one of another host, and the reference is complete
  case complete =>
    by_contra hno
    obtain ⟨text, b, hparse, -, hne⟩ := exists_base_ne domains u (habsolute.not.mp hno)
    exact hne ((hv _).symm.trans (hall text b hparse))
  case loads =>
    intro start a ha hkind hvalue hb
    have hbase : resolve domains a.coercion.base v = resolve domains none v := by
      cases hcase : a.coercion.base with
      | none => rfl
      | some b => rw [hignores b (hb b hcase), h]
    have hload : environment.load a.coercion.base a.key = environment.load none a.key := by
      simp only [Environment.load, hdomains, hvalue, hbase]
    have hgives := Coercion.gives_image hkind environment
    rw [(a.kept ha).1, hload] at hgives
    exact a.fst_coerce ha hgives

/-- The file that a reference names without a base. -/
def cdnFile : Locator :=
  ⟨"http".toList, some (.ofHost (.name "cdn".toList)), .segments ["x.png".toList], none, none⟩

/-- **A reference that needs no base and depends on it:** no slashes follow its scheme, and a base with
the same scheme takes it for a path of its own. -/
theorem resolve_against_bases_http :
    resolve .unmapped none "http:cdn/x.png" = .ok cdnFile ∧ ¬ Absolute "http:cdn/x.png" ∧
      ∃ l, resolve .unmapped (some (hostPlace "http".toList 'a')) "http:cdn/x.png" = .ok l ∧
        (hostPlace "http".toList 'a').StaysWith l ∧ l ≠ cdnFile := by
  have hread : resolve .unmapped none "http:cdn/x.png" = .ok cdnFile := by decide +kernel
  have hno : ¬ Absolute "http:cdn/x.png" := by decide +kernel
  obtain ⟨l, hl, hstays⟩ := (resolve_against_bases hread).stays (hostPlace "http".toList 'a') rfl hno
    (not_beginsAtDrive_hostPlace _ _)
  refine ⟨hread, hno, l, hl, hstays, ?_⟩
  rintro rfl
  -- the two have different hosts
  exact absurd hstays.2 (by decide)

end Locator
end ObjectMarkup
