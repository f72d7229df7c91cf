import ObjectMarkup.Text.Lowercase

/-!
# Keys of names

`nameKey_nameKey`: the key of a name is its own key. So it makes no difference whether a name is
looked up or its key.

The crux is that the lower-case forms in the table have none themselves. The table is made of runs,
and two runs either have the forms of one apart from the other or, where they overlap, take every
second code point, the forms of one the code points that the other leaves out (`CaseRun.apart`).
-/

namespace ObjectMarkup.Text

/-! ### The table -/

/-- Whether no form of the first run is covered by the second one. -/
def CaseRun.apart (r s : CaseRun) : Bool :=
  Nat.blt (r.target + (r.last - r.first)) s.first || (Nat.blt s.last r.target ||
    (s.step == 2 && ((r.step == 2 || r.first == r.last) && (r.target + s.first) % 2 == 1)))

/-- The forms of a run are characters, no blank ones, and none is the capital I with a dot. -/
def CaseRun.Proper (r : CaseRun) : Prop :=
  (r.step = 1 ∨ r.step = 2) ∧
    (r.target + (r.last - r.first) < 0xD800 ∨
      (0xDFFF < r.target ∧ r.target + (r.last - r.first) < 0x110000)) ∧
    (r.target + (r.last - r.first) < 0x130 ∨ 0x130 < r.target) ∧
    ∀ b ∈ blankRanges, r.target + (r.last - r.first) < b.1 ∨ b.2 < r.target

instance (r : CaseRun) : Decidable r.Proper :=
  inferInstanceAs (Decidable (_ ∧ _))

theorem all_apart_lowerRuns : (lowerRuns.all fun r => lowerRuns.all r.apart) = true := by
  decide +kernel

theorem apart_lowerRuns {r s : CaseRun} (hr : r ∈ lowerRuns) (hs : s ∈ lowerRuns) :
    (r.target + (r.last - r.first) < s.first ∨ s.last < r.target) ∨
      (s.step = 2 ∧ (r.step = 2 ∨ r.first = r.last) ∧ (r.target + s.first) % 2 = 1) := by
  have hapart := List.all_eq_true.mp (List.all_eq_true.mp all_apart_lowerRuns r hr) s hs
  simpa [CaseRun.apart, Nat.blt_eq, or_assoc] using hapart

theorem proper_lowerRuns : ∀ r ∈ lowerRuns, r.Proper := by
  decide +kernel

/-- **A code point with a form has one that is lower case,** and it is a proper character. -/
theorem lowerCode_target {r : CaseRun} (hr : r ∈ lowerRuns) {code : Nat}
    (h : r.covers code = true) : lowerCode (r.target + (code - r.first)) = r.target + (code - r.first) := by
  rw [lowerCode]
  split
  · next s hs =>
    -- the form would be covered by a run, which is apart from the run of the code point
    have hcovers := List.find?_some hs
    have hapart := apart_lowerRuns hr (List.mem_of_find?_eq_some hs)
    obtain ⟨hstep, -⟩ := proper_lowerRuns r hr
    simp only [CaseRun.covers, Bool.and_eq_true, decide_eq_true_eq, beq_iff_eq] at h hcovers
    obtain ⟨⟨hfirst, hlast⟩, hmod⟩ := h
    obtain ⟨⟨hfirst', hlast'⟩, hmod'⟩ := hcovers
    obtain (habove | hbelow) | ⟨hs2, hr2, hodd⟩ := hapart
    · omega
    · omega
    · -- the two runs overlap, and the form is of the wrong parity for the second one
      rw [hs2] at hmod'
      rcases hr2 with hr2 | hr2
      · rw [hr2] at hmod
        omega
      · omega
  · rfl

/-- A code point that has a form, or one that has none. -/
theorem lowerCode_cases (code : Nat) :
    (∃ r ∈ lowerRuns, r.covers code = true ∧ lowerCode code = r.target + (code - r.first)) ∨
      lowerCode code = code := by
  rw [lowerCode]
  split
  · next r hr =>
    have hcovers := List.find?_some hr
    exact .inl ⟨r, List.mem_of_find?_eq_some hr, hcovers, rfl⟩
  · exact .inr rfl

/-! ### Characters -/

/-- A character that lower-casing leaves alone. -/
structure Lowered (c : Char) : Prop where
  form : lowerChar c = [c]
  ne_sigma : c ≠ capitalSigma

instance (c : Char) : Decidable (Lowered c) :=
  decidable_of_iff (lowerChar c = [c] ∧ c ≠ capitalSigma) ⟨fun h => ⟨h.1, h.2⟩, fun h => ⟨h.1, h.2⟩⟩

theorem toNat_ofNat {n : Nat} (h : n < 0xD800 ∨ (0xDFFF < n ∧ n < 0x110000)) :
    (Char.ofNat n).toNat = n := by
  have hvalid : n.isValidChar := h
  rw [Char.ofNat, dif_pos hvalid]
  rfl

/-- What a character becomes is lower case, and blank only if it was so before. -/
theorem lowered_of_mem_lowerChar {c d : Char} (hc : c ≠ capitalSigma) (hd : d ∈ lowerChar c) :
    Lowered d ∧ (isBlank c = false → isBlank d = false) := by
  rw [lowerChar] at hd
  split at hd
  · -- the capital I with a dot
    have hi : Lowered 'i' ∧ isBlank 'i' = false := by decide +kernel
    have hdot : Lowered (Char.ofNat 0x307) ∧ isBlank (Char.ofNat 0x307) = false := by decide +kernel
    obtain rfl | hd := List.mem_cons.mp hd
    · exact ⟨hi.1, fun _ => hi.2⟩
    · obtain rfl := List.mem_singleton.mp hd
      exact ⟨hdot.1, fun _ => hdot.2⟩
  next hdot =>
  obtain rfl := List.mem_singleton.mp hd
  obtain ⟨r, hr, hcovers, hform⟩ | hform := lowerCode_cases c.toNat
  · obtain ⟨-, hvalid, hne, hblank⟩ := proper_lowerRuns r hr
    have hfix := lowerCode_target hr hcovers
    simp only [CaseRun.covers, Bool.and_eq_true, decide_eq_true_eq] at hcovers
    have hnat : (Char.ofNat (lowerCode c.toNat)).toNat = r.target + (c.toNat - r.first) := by
      rw [hform]
      exact toNat_ofNat (by omega)
    refine ⟨⟨?_, fun hsigma => ?_⟩, fun _ => ?_⟩
    · rw [lowerChar, if_neg (by rw [hnat]; omega), hnat, hfix, hform]
    · -- the capital sigma has a form of its own
      rw [hsigma] at hnat
      rw [← hnat] at hfix
      exact absurd hfix (by decide +kernel)
    · -- the forms of a run lie before or behind every range of blanks
      rw [isBlank, hnat, inRanges, List.any_eq_false]
      intro b hb
      have hbeside := hblank b hb
      simp only [Bool.and_eq_true, decide_eq_true_eq]
      omega
  · -- no run covers the character, so it is its own form
    rw [hform, Char.ofNat_toNat]
    refine ⟨⟨?_, hc⟩, id⟩
    rw [lowerChar, if_neg hdot, hform, Char.ofNat_toNat]

/-- So is what a capital sigma becomes, whatever stands around it. -/
theorem lowered_lowerSigma (before after : List Char) :
    Lowered (lowerSigma before after) ∧ isBlank (lowerSigma before after) = false := by
  rw [lowerSigma]
  split
  · decide +kernel
  · decide +kernel

/-- What becomes of a character in a text. -/
def formIn (before : List Char) (c : Char) (rest : List Char) : List Char :=
  if c = capitalSigma then [lowerSigma before rest] else lowerChar c

theorem lowerAfter_cons (before : List Char) (c : Char) (rest : List Char) :
    lowerAfter before (c :: rest) = formIn before c rest ++ lowerAfter (c :: before) rest := rfl

theorem lowered_of_mem_formIn {before rest : List Char} {c d : Char}
    (hd : d ∈ formIn before c rest) : Lowered d ∧ (isBlank c = false → isBlank d = false) := by
  rw [formIn] at hd
  split at hd
  · obtain rfl := List.mem_singleton.mp hd
    obtain ⟨hlowered, hblank⟩ := lowered_lowerSigma before rest
    exact ⟨hlowered, fun _ => hblank⟩
  · next hc => exact lowered_of_mem_lowerChar hc hd

theorem formIn_ne_nil (before : List Char) (c : Char) (rest : List Char) :
    formIn before c rest ≠ [] := by
  rw [formIn, lowerChar]
  split
  · exact List.cons_ne_nil _ _
  · split <;> exact List.cons_ne_nil _ _

/-! ### Texts -/

theorem lowered_of_mem_lowerAfter {before s : List Char} {d : Char}
    (hd : d ∈ lowerAfter before s) : Lowered d := by
  induction s generalizing before with
  | nil => exact absurd hd List.not_mem_nil
  | cons c rest ih =>
    rw [lowerAfter_cons] at hd
    rcases List.mem_append.mp hd with hd | hd
    · exact (lowered_of_mem_formIn hd).1
    · exact ih hd

/-- A text of lower-case characters stays as it is. -/
theorem lowerAfter_eq_self {before s : List Char} (h : ∀ c ∈ s, Lowered c) :
    lowerAfter before s = s := by
  induction s generalizing before with
  | nil => rfl
  | cons c rest ih =>
    obtain ⟨hc, hrest⟩ := List.forall_mem_cons.mp h
    rw [lowerAfter_cons, ih hrest, formIn, if_neg hc.ne_sigma, hc.form, List.singleton_append]

theorem lower_lower (s : List Char) : lower (lower s) = lower s :=
  lowerAfter_eq_self fun _ => lowered_of_mem_lowerAfter

/-- No blank stands at either end. -/
structure Bare (s : List Char) : Prop where
  head : ∀ c ∈ s.head?, isBlank c = false
  last : ∀ c ∈ s.getLast?, isBlank c = false

theorem dropWhile_isBlank_of_head {s : List Char} (h : ∀ c ∈ s.head?, isBlank c = false) :
    s.dropWhile isBlank = s := by
  cases s with
  | nil => rfl
  | cons c rest => exact trimStart_of_not_isBlank (h c rfl)

theorem Bare.trim_eq {s : List Char} (h : Bare s) : trim s = s := by
  have hreverse : ∀ c ∈ s.reverse.head?, isBlank c = false := by
    rw [List.head?_reverse]
    exact h.last
  rw [trim, trimStart, dropWhile_isBlank_of_head h.head, trimEnd,
    dropWhile_isBlank_of_head hreverse, List.reverse_reverse]

theorem head_trimStart (s : List Char) : ∀ c ∈ (trimStart s).head?, isBlank c = false := by
  intro c hc
  obtain ⟨rest, hrest⟩ := List.head?_eq_some_iff.mp hc
  exact not_isBlank_of_trimStart hrest

/-- Trimming leaves no blank at either end. -/
theorem bare_trim (s : List Char) : Bare (trim s) := by
  refine ⟨fun c hc => ?_, fun c hc => ?_⟩
  · -- the end that is cut off leaves the front as it is
    obtain ⟨blanks, hblanks⟩ := List.dropWhile_suffix (l := (trimStart s).reverse) isBlank
    have hfront : trimStart s = trim s ++ blanks.reverse := by
      rw [← List.reverse_reverse (trimStart s), ← hblanks, List.reverse_append]
      rfl
    refine head_trimStart s c ?_
    rw [hfront, List.head?_append, hc]
    rfl
  · rw [trim, trimEnd, List.getLast?_reverse] at hc
    exact head_trimStart (trimStart s).reverse c hc

/-- Lower-casing brings no blank to an end that has none. -/
theorem Bare.lowerAfter {before s : List Char} (h : Bare s) : Bare (lowerAfter before s) := by
  refine ⟨fun d hd => ?_, fun d hd => ?_⟩
  · cases s with
    | nil => cases hd
    | cons c rest =>
      obtain ⟨e, form, hform⟩ := List.exists_cons_of_ne_nil (formIn_ne_nil before c rest)
      rw [lowerAfter_cons, hform] at hd
      cases hd
      have hmem : d ∈ formIn before c rest := by rw [hform]; exact List.mem_cons_self
      exact (lowered_of_mem_formIn hmem).2 (h.head c rfl)
  · have hlast := h.last
    clear h
    induction s generalizing before with
    | nil => cases hd
    | cons c rest ih =>
      rw [lowerAfter_cons, List.getLast?_append] at hd
      cases rest with
      | nil =>
        have hmem : d ∈ formIn before c [] := List.mem_of_getLast? (by simpa [Text.lowerAfter] using hd)
        exact (lowered_of_mem_formIn hmem).2 (hlast c rfl)
      | cons c' rest =>
        -- the last character stands in the rest, which becomes something
        have hne : (Text.lowerAfter (c :: before) (c' :: rest)).getLast?.isSome := by
          rw [List.getLast?_isSome, lowerAfter_cons]
          exact List.append_ne_nil_of_left_ne_nil (formIn_ne_nil _ _ _) _
        obtain ⟨e, he⟩ := Option.isSome_iff_exists.mp hne
        rw [he, Option.some_or] at hd
        refine ih (he.trans hd) fun x hx => hlast x ?_
        rwa [List.getLast?_cons_cons]

/-- **The key of a name is its own key.** -/
@[simp] theorem nameKey_nameKey (s : String) : nameKey (nameKey s) = nameKey s := by
  apply String.toList_inj.mp
  calc (nameKey (nameKey s)).toList
      = lower (trim (lower (trim s.toList))) := by rw [toList_nameKey, toList_nameKey]
    _ = lower (lower (trim s.toList)) := congrArg lower (bare_trim s.toList).lowerAfter.trim_eq
    _ = lower (trim s.toList) := lower_lower _
    _ = (nameKey s).toList := (toList_nameKey s).symm

end ObjectMarkup.Text
