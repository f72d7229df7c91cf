import Mathlib.Data.List.TakeWhile
import ObjectMarkup.Proofs.Names

/-!
# Spellings of a name

The key of a name forgets the blanks around it and the case of its letters. Other parts of a compile
forget only one of the two: a query compares tags in the case of ASCII letters, and a scalar element
lower-cases its tag without trimming it. Both are finer than keys:

* `nameKey_lowercase`: lower-casing a name keeps its key. The blanks around it stay where they are
  (`lower_between`), because a blank is neither cased nor passed over when the form of a capital
  sigma is decided (`meetsCased_append_blank`).
* `nameKey_eq_of_sameIgnoringAsciiCase`: names that differ in the case of ASCII letters have one
  key. In ASCII without blanks at the ends it is the other way round too
  (`sameIgnoringAsciiCase_of_plain`).
-/

namespace ObjectMarkup.Text

/-! ### Blanks around a text -/

/-- What lower-casing does with blanks: nothing. -/
structure Inert (c : Char) : Prop where
  lowered : Lowered c
  not_ignorable : inRanges caseIgnorableRanges c.toNat = false
  not_cased : inRanges casedRanges c.toNat = false

instance (c : Char) : Decidable (Inert c) :=
  decidable_of_iff
    (Lowered c ∧ inRanges caseIgnorableRanges c.toNat = false ∧ inRanges casedRanges c.toNat = false)
    ⟨fun h => ⟨h.1, h.2.1, h.2.2⟩, fun h => ⟨h.lowered, h.not_ignorable, h.not_cased⟩⟩

/-- A character whose number lies in ranges has one of the numbers in them. -/
theorem exists_of_inRanges {ranges : List (Nat × Nat)} {c : Char}
    (h : inRanges ranges c.toNat = true) :
    ∃ r ∈ ranges, ∃ i < r.2 + 1 - r.1, c = Char.ofNat (r.1 + i) := by
  obtain ⟨r, hr, hin⟩ := List.any_eq_true.mp h
  rw [Bool.and_eq_true, decide_eq_true_eq, decide_eq_true_eq] at hin
  refine ⟨r, hr, c.toNat - r.1, by omega, ?_⟩
  rw [Nat.add_sub_cancel' hin.1, Char.ofNat_toNat]

theorem inert_of_isBlank {c : Char} (h : isBlank c = true) : Inert c := by
  have hall : ∀ r ∈ blankRanges, ∀ i < r.2 + 1 - r.1, Inert (Char.ofNat (r.1 + i)) := by
    decide +kernel
  obtain ⟨r, hr, i, hi, rfl⟩ := exists_of_inRanges h
  exact hall r hr i hi

/-- Blanks that follow do not matter for whether a cased character comes first. -/
theorem meetsCased_append_blank (s : List Char) {blanks : List Char}
    (h : ∀ c ∈ blanks, isBlank c = true) : meetsCased (s ++ blanks) = meetsCased s := by
  induction s with
  | nil =>
    cases blanks with
    | nil => rfl
    | cons c rest =>
      -- a blank is not passed over, and it is not cased
      have hc := inert_of_isBlank (h c List.mem_cons_self)
      simp only [meetsCased, List.nil_append, List.dropWhile_cons, hc.not_ignorable,
        Bool.false_eq_true, if_false, hc.not_cased, List.dropWhile_nil]
  | cons c rest ih =>
    simp only [meetsCased, List.cons_append, List.dropWhile_cons] at ih ⊢
    -- a character that is passed over leaves the question to the rest, any other answers it
    cases inRanges caseIgnorableRanges c.toNat with
    | true => exact ih
    | false => rfl

theorem lowerSigma_blank (before after : List Char) {front back : List Char}
    (hfront : ∀ c ∈ front, isBlank c = true) (hback : ∀ c ∈ back, isBlank c = true) :
    lowerSigma (before ++ front) (after ++ back) = lowerSigma before after := by
  rw [lowerSigma, meetsCased_append_blank before hfront, meetsCased_append_blank after hback,
    lowerSigma]

/-- Blanks are not changed, wherever they stand. -/
theorem lowerAfter_blank {before blanks : List Char} (h : ∀ c ∈ blanks, isBlank c = true) :
    lowerAfter before blanks = blanks :=
  lowerAfter_eq_self fun c hc => (inert_of_isBlank (h c hc)).lowered

/-- A text between blanks is lower-cased as it is on its own. -/
theorem lowerAfter_between (before s : List Char) {front back : List Char}
    (hfront : ∀ c ∈ front, isBlank c = true) (hback : ∀ c ∈ back, isBlank c = true) :
    lowerAfter (before ++ front) (s ++ back) = lowerAfter before s ++ back := by
  induction s generalizing before with
  | nil => exact lowerAfter_blank hback
  | cons c rest ih =>
    have hform : formIn (before ++ front) c (rest ++ back) = formIn before c rest := by
      rw [formIn, formIn, lowerSigma_blank before rest hfront hback]
    rw [List.cons_append, lowerAfter_cons, lowerAfter_cons, hform, List.append_assoc]
    exact congrArg _ (ih (c :: before))

theorem lowerAfter_blank_append {before blanks : List Char} (h : ∀ c ∈ blanks, isBlank c = true)
    (s : List Char) :
    lowerAfter before (blanks ++ s) = blanks ++ lowerAfter (blanks.reverse ++ before) s := by
  induction blanks generalizing before with
  | nil => rfl
  | cons c rest ih =>
    obtain ⟨hc, hrest⟩ := List.forall_mem_cons.mp h
    have hlowered := (inert_of_isBlank hc).lowered
    -- a blank is its own lower case, wherever it stands
    have hform : formIn before c (rest ++ s) = [c] := by
      rw [formIn, if_neg hlowered.ne_sigma, hlowered.form]
    rw [List.cons_append, lowerAfter_cons, hform, ih hrest, List.reverse_cons, List.append_assoc]
    rfl

/-- **Lower-casing leaves the blanks around a text where they are.** -/
theorem lower_between (s : List Char) {front back : List Char}
    (hfront : ∀ c ∈ front, isBlank c = true) (hback : ∀ c ∈ back, isBlank c = true) :
    lower (front ++ (s ++ back)) = front ++ (lower s ++ back) := by
  have hreverse : ∀ c ∈ front.reverse, isBlank c = true :=
    fun c hc => hfront c (List.mem_reverse.mp hc)
  calc lower (front ++ (s ++ back))
      = front ++ lowerAfter (front.reverse ++ []) (s ++ back) := lowerAfter_blank_append hfront _
    _ = front ++ lowerAfter ([] ++ front.reverse) (s ++ back) := by
        rw [List.append_nil, List.nil_append]
    _ = front ++ (lower s ++ back) := congrArg _ (lowerAfter_between [] s hreverse hback)

/-- A text is what trimming leaves of it, between blanks. -/
theorem exists_trim (s : List Char) : ∃ front back : List Char,
    (∀ c ∈ front, isBlank c = true) ∧ (∀ c ∈ back, isBlank c = true) ∧
      s = front ++ (trim s ++ back) := by
  have hfront := List.takeWhile_append_dropWhile (p := isBlank) (l := s)
  have hback := List.takeWhile_append_dropWhile (p := isBlank) (l := (trimStart s).reverse)
  refine ⟨s.takeWhile isBlank, ((trimStart s).reverse.takeWhile isBlank).reverse,
    fun c hc => List.mem_takeWhile_imp hc,
    fun c hc => List.mem_takeWhile_imp (List.mem_reverse.mp hc), ?_⟩
  -- the blanks in front, then those at the end of what is left
  calc s = s.takeWhile isBlank ++ trimStart s := hfront.symm
    _ = s.takeWhile isBlank ++ (((trimStart s).reverse.takeWhile isBlank ++
          (trimStart s).reverse.dropWhile isBlank).reverse) := by rw [hback, List.reverse_reverse]
    _ = _ := by rw [List.reverse_append]; rfl

/-- Trimming takes blanks away from around a text that has none at its ends. -/
theorem trim_between {s front back : List Char} (hs : Bare s)
    (hfront : ∀ c ∈ front, isBlank c = true) (hback : ∀ c ∈ back, isBlank c = true) :
    trim (front ++ (s ++ back)) = s := by
  have hreverse : ∀ c ∈ back.reverse, isBlank c = true :=
    fun c hc => hback c (List.mem_reverse.mp hc)
  rw [trim, trimStart, List.dropWhile_append_of_pos hfront, trimEnd]
  -- Nothing between the blanks is one run of blanks. Otherwise the first and last character stop
  -- them.
  cases s with
  | nil =>
    rw [List.nil_append, List.dropWhile_eq_nil_iff.mpr hback]
    rfl
  | cons c rest =>
    rw [List.cons_append, List.dropWhile_cons, if_neg (by simp [hs.head c rfl]),
      ← List.cons_append, List.reverse_append, List.dropWhile_append_of_pos hreverse,
      dropWhile_isBlank_of_head (by rw [List.head?_reverse]; exact hs.last), List.reverse_reverse]

/-- It does not matter whether a text is trimmed or lower-cased first. -/
theorem trim_lower (s : List Char) : trim (lower s) = lower (trim s) := by
  obtain ⟨front, back, hfront, hback, hs⟩ := exists_trim s
  conv => lhs; rw [hs]
  rw [lower_between _ hfront hback]
  exact trim_between (bare_trim s).lowerAfter hfront hback

/-- **Lower-casing a name keeps its key.** -/
@[simp] theorem nameKey_lowercase (s : String) : nameKey (lowercase s) = nameKey s := by
  apply String.toList_inj.mp
  calc (nameKey (lowercase s)).toList
      = lower (trim (lower s.toList)) := by rw [toList_nameKey, toList_lowercase]
    _ = lower (lower (trim s.toList)) := congrArg lower (trim_lower _)
    _ = lower (trim s.toList) := lower_lower _
    _ = (nameKey s).toList := (toList_nameKey s).symm

/-! ### The case of ASCII letters -/

/-- A character is its own ASCII lower-case form, or a capital letter of ASCII. -/
theorem toLower_cases (c : Char) : c.toLower = c ∨ ∃ i < 26, c = Char.ofNat (0x41 + i) := by
  by_cases h : 0x41 ≤ c.toNat ∧ c.toNat ≤ 0x5A
  · refine .inr ⟨c.toNat - 0x41, by omega, ?_⟩
    rw [Nat.add_sub_cancel' h.1, Char.ofNat_toNat]
  · exact .inl (dif_neg h)

/-- What is the same for every capital letter of ASCII and its small letter is so for every
character. -/
theorem toLower_induction {P : Char → Char → Prop} (hsame : ∀ c, P c c)
    (hcapital : ∀ i < 26, P (Char.ofNat (0x41 + i)) (Char.ofNat (0x41 + i)).toLower) (c : Char) :
    P c c.toLower := by
  obtain h | ⟨i, hi, rfl⟩ := toLower_cases c
  · rw [h]
    exact hsame c
  · exact hcapital i hi

theorem isBlank_toLower (c : Char) : isBlank c.toLower = isBlank c :=
  toLower_induction (P := fun c d => isBlank d = isBlank c) (fun _ => rfl) (by decide +kernel) c

theorem ignorable_toLower (c : Char) :
    inRanges caseIgnorableRanges c.toLower.toNat = inRanges caseIgnorableRanges c.toNat :=
  toLower_induction (P := fun c d =>
    inRanges caseIgnorableRanges d.toNat = inRanges caseIgnorableRanges c.toNat)
    (fun _ => rfl) (by decide +kernel) c

theorem cased_toLower (c : Char) :
    inRanges casedRanges c.toLower.toNat = inRanges casedRanges c.toNat :=
  toLower_induction (P := fun c d => inRanges casedRanges d.toNat = inRanges casedRanges c.toNat)
    (fun _ => rfl) (by decide +kernel) c

theorem toLower_eq_capitalSigma (c : Char) : c.toLower = capitalSigma ↔ c = capitalSigma :=
  toLower_induction (P := fun c d => d = capitalSigma ↔ c = capitalSigma) (fun _ => Iff.rfl)
    (by decide +kernel) c

theorem lowerChar_toLower (c : Char) : lowerChar c.toLower = lowerChar c :=
  toLower_induction (P := fun c d => lowerChar d = lowerChar c) (fun _ => rfl) (by decide +kernel) c

theorem dropWhile_map_toLower {p : Char → Bool} (hp : ∀ c : Char, p c.toLower = p c)
    (s : List Char) : (s.map Char.toLower).dropWhile p = (s.dropWhile p).map Char.toLower := by
  have hcomp : p ∘ Char.toLower = p := funext hp
  rw [List.dropWhile_map, hcomp]

theorem trim_map_toLower (s : List Char) : trim (s.map Char.toLower) = (trim s).map Char.toLower := by
  rw [trim, trimStart, trimEnd, dropWhile_map_toLower isBlank_toLower, ← List.map_reverse,
    dropWhile_map_toLower isBlank_toLower, ← List.map_reverse]
  rfl

theorem meetsCased_map_toLower (s : List Char) : meetsCased (s.map Char.toLower) = meetsCased s := by
  rw [meetsCased, meetsCased, dropWhile_map_toLower ignorable_toLower]
  cases s.dropWhile fun c => inRanges caseIgnorableRanges c.toNat with
  | nil => rfl
  | cons c rest => exact cased_toLower c

theorem lowerAfter_map_toLower (before s : List Char) :
    lowerAfter (before.map Char.toLower) (s.map Char.toLower) = lowerAfter before s := by
  induction s generalizing before with
  | nil => rfl
  | cons c rest ih =>
    have hform : formIn (before.map Char.toLower) c.toLower (rest.map Char.toLower) =
        formIn before c rest := by
      simp only [formIn, toLower_eq_capitalSigma, lowerChar_toLower, lowerSigma,
        meetsCased_map_toLower]
    rw [List.map_cons, lowerAfter_cons, lowerAfter_cons, hform]
    exact congrArg _ (ih (c :: before))

/-- The case of ASCII letters does not show in keys. -/
theorem nameKey_asciiLower (s : String) : nameKey (asciiLower s) = nameKey s := by
  apply String.toList_inj.mp
  rw [toList_nameKey, toList_nameKey, asciiLower, String.toList_ofList, trim_map_toLower]
  exact lowerAfter_map_toLower [] (trim s.toList)

/-- **Names that differ in the case of ASCII letters have one key.** -/
theorem nameKey_eq_of_sameIgnoringAsciiCase {s t : String} (h : sameIgnoringAsciiCase s t = true) :
    nameKey s = nameKey t := by
  have heq : asciiLower s = asciiLower t := eq_of_beq h
  rw [← nameKey_asciiLower s, heq, nameKey_asciiLower]

/-- A name of ASCII characters without blanks at the ends. -/
structure Plain (s : String) : Prop where
  bare : Bare s.toList
  ascii : ∀ c ∈ s.toList, c.toNat < 0x80

theorem lowerChar_of_ascii {c : Char} (h : c.toNat < 0x80) :
    c ≠ capitalSigma ∧ lowerChar c = [c.toLower] := by
  have hall : ∀ n < 0x80, Char.ofNat n ≠ capitalSigma ∧
      lowerChar (Char.ofNat n) = [(Char.ofNat n).toLower] := by
    decide +kernel
  have hc := hall c.toNat h
  rwa [Char.ofNat_toNat] at hc

theorem lowerAfter_of_ascii {before s : List Char} (h : ∀ c ∈ s, c.toNat < 0x80) :
    lowerAfter before s = s.map Char.toLower := by
  induction s generalizing before with
  | nil => rfl
  | cons c rest ih =>
    obtain ⟨hc, hrest⟩ := List.forall_mem_cons.mp h
    obtain ⟨hsigma, hform⟩ := lowerChar_of_ascii hc
    rw [lowerAfter_cons, formIn, if_neg hsigma, hform, ih hrest]
    rfl

/-- The key of a plain name differs in the case of letters at most. -/
theorem Plain.nameKey_eq {s : String} (h : Plain s) : nameKey s = asciiLower s := by
  apply String.toList_inj.mp
  rw [toList_nameKey, h.bare.trim_eq, asciiLower, String.toList_ofList]
  exact lowerAfter_of_ascii h.ascii

/-- Plain names with one key differ in the case of ASCII letters at most. -/
theorem sameIgnoringAsciiCase_of_plain {s t : String} (hs : Plain s) (ht : Plain t)
    (h : nameKey s = nameKey t) : sameIgnoringAsciiCase s t = true := by
  rw [hs.nameKey_eq, ht.nameKey_eq] at h
  exact beq_iff_eq.mpr h

end ObjectMarkup.Text
