import ObjectMarkup.Value.Json

/-!
# White space in JSON texts

A JSON is written on one line or with a line for every item. `tight_texts` says that the two texts
differ in white space between their parts only: if it is taken out (`Json.tight`), which leaves
strings as they are, what remains of either is the text on one line.

So the scan has to know where strings begin and end in spite of what is escaped in them
(`tight_quoted`), and that numbers and words have neither quotes nor white space in them
(`Json.Solid`).
-/

namespace ObjectMarkup.Json

open Decimal (Binary64 Digits Layout)

/-- Where a scan is in a JSON text. -/
inductive Scan where
  | outside
  /-- In a string. -/
  | inside
  /-- In a string, behind a backslash. -/
  | escape

/-- White space of JSON. -/
def isSpace (c : Char) : Bool :=
  c == ' ' || c == '\n' || c == '\t' || c == '\r'

/-- What is left of a text without the white space outside of its strings. -/
def tight : Scan → List Char → List Char
  | _, [] => []
  | .outside, c :: rest =>
    if c = '"' then c :: tight .inside rest
    else if isSpace c then tight .outside rest
    else c :: tight .outside rest
  | .inside, c :: rest =>
    c :: tight (if c = '"' then .outside else if c = '\\' then .escape else .inside) rest
  | .escape, c :: rest => c :: tight .inside rest

/-! ### Numbers and words -/

/-- Neither a quote nor white space. -/
def isSolid (c : Char) : Bool :=
  c != '"' && !isSpace c

/-- A text without quotes and white space. -/
def Solid (s : List Char) : Prop :=
  ∀ c ∈ s, isSolid c = true

theorem solid_of_all {s : List Char} (h : s.all isSolid = true) : Solid s :=
  List.all_eq_true.mp h

theorem solid_append {s t : List Char} : Solid (s ++ t) ↔ Solid s ∧ Solid t :=
  List.forall_mem_append

theorem solid_cons {c : Char} {s : List Char} : Solid (c :: s) ↔ isSolid c = true ∧ Solid s :=
  List.forall_mem_cons

/-- The scan leaves such a text as it is. -/
theorem tight_solid {s : List Char} (h : Solid s) (rest : List Char) :
    tight .outside (s ++ rest) = s ++ tight .outside rest := by
  induction s with
  | nil => rfl
  | cons c s ih =>
    obtain ⟨hc, hs⟩ := solid_cons.mp h
    simp only [isSolid, Bool.and_eq_true, bne_iff_ne, Bool.not_eq_true'] at hc
    rw [List.cons_append, tight, if_neg hc.1, if_neg (by rw [hc.2]; exact Bool.false_ne_true), ih hs,
      List.cons_append]

theorem isSolid_of_isDigit {c : Char} (h : c.isDigit = true) : isSolid c = true := by
  have hne : ∀ d : Char, d.isDigit = false → c ≠ d := fun d hd heq => by
    rw [heq, hd] at h
    cases h
  simp [isSolid, isSpace, hne '"' rfl, hne ' ' rfl, hne '\n' rfl, hne '\t' rfl, hne '\r' rfl]

theorem solid_natText (n : Nat) : Solid (Decimal.natText n) :=
  fun _ hc => isSolid_of_isDigit (Nat.isDigit_of_mem_toDigits (by decide) (by decide) hc)

theorem solid_intText (i : Int) : Solid (Decimal.intText i) := by
  rw [Decimal.intText]
  split
  · exact solid_cons.mpr ⟨by decide, solid_natText _⟩
  · exact solid_natText _

theorem solid_null : Solid ['n', 'u', 'l', 'l'] :=
  solid_of_all (by decide)

theorem solid_bool (b : Bool) : Solid (compact (.bool b)) := by
  apply solid_of_all
  cases b <;> decide

/-- The digits that are written come from a grid, whatever the search for the grid comes to. -/
theorem solid_shortest (tie : Decimal.Tie) (x : Binary64.Scaled) :
    Solid (Decimal.shortest tie x).digits := by
  have hgrid : ∀ n power, Solid (Digits.ofGrid n power).digits := by
    intro n power c hc
    have hc : c ∈ ((Nat.toDigits 10 n).reverse.dropWhile (· == '0')).reverse := hc
    have hmem := (List.dropWhile_suffix _).subset (List.mem_reverse.mp hc)
    exact isSolid_of_isDigit
      (Nat.isDigit_of_mem_toDigits (by decide) (by decide) (List.mem_reverse.mp hmem))
  have hsearch : ∀ (b : Decimal.Basin) tries power,
      Solid (Decimal.Basin.shortest b tie tries power).digits := by
    intro b tries
    induction tries with
    | zero => exact fun power => hgrid _ _
    | succ tries ih =>
      intro power
      rw [Decimal.Basin.shortest]
      split
      · exact hgrid _ _
      · exact ih _
  exact hsearch _ _ _

theorem solid_replicate_zero (n : Nat) : Solid (List.replicate n '0') := by
  intro c hc
  rw [(List.mem_replicate.mp hc).2]
  decide

theorem solid_positional {d : Digits} {tail : List Char} (hd : Solid d.digits)
    (htail : Solid tail) : Solid (d.positional tail) := by
  rw [Digits.positional]
  split
  · refine solid_cons.mpr ⟨by decide, solid_cons.mpr ⟨by decide, ?_⟩⟩
    exact solid_append.mpr ⟨solid_replicate_zero _, hd⟩
  · dsimp only
    split
    · exact solid_append.mpr ⟨solid_append.mpr ⟨hd, solid_replicate_zero _⟩, htail⟩
    · refine solid_append.mpr ⟨fun c hc => hd c (List.mem_of_mem_take hc), ?_⟩
      exact solid_cons.mpr ⟨by decide, fun c hc => hd c (List.mem_of_mem_drop hc)⟩

theorem solid_scientific {d : Digits} (hd : Solid d.digits) : Solid d.scientific := by
  have hdrop : Solid (d.digits.drop 1) := fun c hc => hd c (List.mem_of_mem_drop hc)
  have hsign : isSolid (if d.exponent < 0 then '-' else '+') = true := by split <;> decide
  have hexponent : Solid ('e' :: (if d.exponent < 0 then '-' else '+')
      :: Decimal.natText d.exponent.natAbs) :=
    solid_cons.mpr ⟨by decide, solid_cons.mpr ⟨hsign, solid_natText _⟩⟩
  rw [Digits.scientific]
  refine solid_append.mpr ⟨solid_append.mpr ⟨fun c hc => hd c (List.mem_of_mem_take hc), ?_⟩,
    hexponent⟩
  cases hrest : d.digits.drop 1 with
  | nil => exact fun _ hc => absurd hc List.not_mem_nil
  | cons first rest => exact solid_cons.mpr ⟨by decide, hrest ▸ hdrop⟩

theorem solid_floatText (x : Binary64) : Solid (floatText.text x) := by
  have hsign : Solid (if x.negative then ['-'] else []) := by
    apply solid_of_all
    split <;> decide
  have htail : Solid ['.', '0'] := solid_of_all (by decide)
  rw [Layout.text]
  split
  · next m _ =>
    refine solid_append.mpr ⟨hsign, ?_⟩
    rw [Layout.finite]
    split
    · exact solid_cons.mpr ⟨by decide, htail⟩
    · -- which of the two layouts is taken makes no difference
      simp only
      split
      · exact solid_positional (solid_shortest _ _) htail
      · exact solid_scientific (solid_shortest _ _)
  · -- what is no finite number is written as `null`
    split
    · exact solid_null
    · exact solid_null

/-! ### Strings -/

/-- The digits of an escaped control are none that a scan would stop at. -/
theorem hexDigit_ne (n : Nat) (h : n < 16) : hexDigit n ≠ '"' ∧ hexDigit n ≠ '\\' := by
  have hall : ∀ n < 16, hexDigit n ≠ '"' ∧ hexDigit n ≠ '\\' := by decide
  exact hall n h

/-- A character in a string stays, and the scan stays in the string. -/
theorem tight_escaped (c : Char) (rest : List Char) :
    tight .inside (escaped c ++ rest) = escaped c ++ tight .inside rest := by
  -- a backslash and the character behind it are left as they are
  have hpair : ∀ d s, tight .inside ('\\' :: d :: s) = '\\' :: d :: tight .inside s :=
    fun _ _ => rfl
  have hplain : ∀ d s, d ≠ '"' ∧ d ≠ '\\' → tight .inside (d :: s) = d :: tight .inside s :=
    fun d s h => by rw [tight, if_neg h.1, if_neg h.2]
  unfold escaped
  simp only
  split
  · exact hpair _ _
  next hquote =>
  split
  · exact hpair _ _
  next hbackslash =>
  -- the five controls with letters of their own
  iterate 5
    split
    · exact hpair _ _
  split
  · -- the four digits of a control
    simp only [List.cons_append, List.nil_append]
    rw [hpair, hplain '0' _ (by decide), hplain '0' _ (by decide),
      hplain _ _ (hexDigit_ne _ (by omega)), hplain _ _ (hexDigit_ne _ (by omega))]
  · exact hplain _ _ ⟨hquote, hbackslash⟩

/-- **A string stays as it is,** and the scan leaves it at its end. -/
theorem tight_quoted (s : String) (rest : List Char) :
    tight .outside (quoted s ++ rest) = quoted s ++ tight .outside rest := by
  have hinside : ∀ cs : List Char, tight .inside (cs.flatMap escaped ++ ('"' :: rest))
      = cs.flatMap escaped ++ ('"' :: tight .outside rest) := by
    intro cs
    induction cs with
    | nil => rfl
    | cons c cs ih =>
      rw [List.flatMap_cons, List.append_assoc, List.append_assoc, tight_escaped, ih]
  have hquoted : ∀ t, quoted s ++ t = '"' :: (s.toList.flatMap escaped ++ ('"' :: t)) := by
    intro t
    simp [quoted]
  calc tight .outside (quoted s ++ rest)
      = '"' :: tight .inside (s.toList.flatMap escaped ++ ('"' :: rest)) := by rw [hquoted]; rfl
    _ = quoted s ++ tight .outside rest := by rw [hinside, hquoted]

/-! ### Texts -/

/-- What stands between the parts is left as it is. -/
theorem tight_mark {c : Char} (h : isSolid c = true) (rest : List Char) :
    tight .outside (c :: rest) = c :: tight .outside rest :=
  tight_solid (s := [c]) (fun _ hd => List.mem_singleton.mp hd ▸ h) rest

theorem tight_space (rest : List Char) : tight .outside (' ' :: rest) = tight .outside rest := rfl

/-- A new line is taken out. -/
theorem tight_newLine (level : Nat) (rest : List Char) :
    tight .outside (newLine level ++ rest) = tight .outside rest := by
  have hblanks : ∀ n, tight .outside (List.replicate n ' ' ++ rest) = tight .outside rest := by
    intro n
    induction n with
    | zero => rfl
    | succ n ih => exact ih
  exact hblanks (2 * level)

mutual

/-- **The text with lines is the one without,** but for white space. -/
theorem tight_pretty : ∀ (j : Json) (level : Nat) (rest : List Char),
    tight .outside (pretty level j ++ rest) = compact j ++ tight .outside rest
  | .null, level, rest => tight_solid solid_null rest
  | .bool b, level, rest => by
    rw [pretty]
    exact tight_solid (solid_bool b) rest
  | .integer i, level, rest => tight_solid (solid_intText i) rest
  | .float x, level, rest => tight_solid (solid_floatText x) rest
  | .string s, level, rest => tight_quoted s rest
  | .array [], level, rest => rfl
  | .object [], level, rest => rfl
  | .array (j :: items), level, rest => by
    have hitems := tight_prettyItems (j :: items) (level + 1)
    simp only [pretty, compact, List.cons_append, List.append_assoc, List.nil_append]
    rw [tight_mark (by decide), hitems, tight_newLine, tight_mark (by decide)]
  | .object (e :: entries), level, rest => by
    have hentries := tight_prettyEntries (e :: entries) (level + 1)
    simp only [pretty, compact, List.cons_append, List.append_assoc, List.nil_append]
    rw [tight_mark (by decide), hentries, tight_newLine, tight_mark (by decide)]

theorem tight_prettyItems : ∀ (items : List Json) (level : Nat) (rest : List Char),
    tight .outside (prettyItems level items ++ rest) = compactItems items ++ tight .outside rest
  | [], level, rest => rfl
  | [j], level, rest => by
    rw [prettyItems, List.append_assoc, tight_newLine, tight_pretty, compactItems]
  | j :: j' :: items, level, rest => by
    have hrest := tight_prettyItems (j' :: items) level
    simp only [prettyItems, compactItems, List.append_assoc, List.cons_append] at hrest ⊢
    rw [tight_newLine, tight_pretty, tight_mark (by decide), hrest]

theorem tight_prettyEntries : ∀ (entries : List (String × Json)) (level : Nat) (rest : List Char),
    tight .outside (prettyEntries level entries ++ rest)
      = compactEntries entries ++ tight .outside rest
  | [], level, rest => rfl
  | [(name, j)], level, rest => by
    have hpretty := tight_pretty j level rest
    simp only [prettyEntries, compactEntries, List.append_assoc, List.cons_append]
    rw [tight_newLine, tight_quoted, tight_mark (by decide), tight_space, hpretty]
  | (name, j) :: e :: entries, level, rest => by
    have hpretty := tight_pretty j level
    have hrest := tight_prettyEntries (e :: entries) level
    simp only [prettyEntries, compactEntries, List.append_assoc, List.cons_append] at hrest ⊢
    rw [tight_newLine, tight_quoted, tight_mark (by decide), tight_space, hpretty,
      tight_mark (by decide), hrest]

end

/-- What is taken out is not there any more. -/
theorem tight_tight (scan : Scan) (s : List Char) : tight scan (tight scan s) = tight scan s := by
  induction s generalizing scan with
  | nil => cases scan <;> rfl
  | cons c rest ih =>
    cases scan with
    | outside =>
      rw [tight]
      by_cases hquote : c = '"'
      · rw [if_pos hquote, tight, if_pos hquote, ih]
      · rw [if_neg hquote]
        by_cases hspace : isSpace c = true
        · rw [if_pos hspace, ih]
        · rw [if_neg hspace, tight, if_neg hquote, if_neg hspace, ih]
    | inside => rw [tight, tight, ih]
    | escape => rw [tight, tight, ih]

/-- **The two texts of a JSON differ in white space only,** and that stands outside of strings: there
is none in the text on one line, and the other text comes to it when it is taken out. -/
theorem tight_texts (j : Json) :
    tight .outside j.compactText.toList = j.compactText.toList ∧
      tight .outside j.prettyText.toList = j.compactText.toList := by
  have hpretty : tight .outside (pretty 0 j) = compact j := by
    have h := tight_pretty j 0 []
    rwa [List.append_nil, tight, List.append_nil] at h
  simp only [compactText, prettyText, String.toList_ofList]
  exact ⟨by rw [← hpretty, tight_tight], hpretty⟩

end ObjectMarkup.Json
