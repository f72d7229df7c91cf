import ObjectMarkup.Kind.Scalar
import ObjectMarkup.Proofs.NumberPrefix
import ObjectMarkup.Proofs.Spelling

/-!
# The items of a list

A list is written with commas between its items. `readItems_laws` says what is kept when it is read:

* Reading is compositional: where a comma stands, the items before it and those behind it are read
  on their own (`readItems_append`).
* An item that is read as text has something in it, has no comma and no blanks at its ends, and a
  number among the items is finite (`isItem_of_mem`).
* Nothing is lost: texts with blanks around them that are put together with commas are read as what
  they are one by one (`readItems_joined`), and a text that writes no finite number is read as
  itself (`readItem_text`).

What writes a number is said by the grammar of numbers, `NumberText.Valid`. The words `inf`,
`infinity` and `nan` are not in it (`not_writes_word`), and numbers that are too large for a finite
one are not finite, so all of them are read as texts.
-/

namespace ObjectMarkup.Kind

open Decimal (Binary64 Numeral NumberText Sign)

/-! ### One item -/

/-- The item is the text of a number, from its first character to its last. -/
def Writes (item : List Char) (x : Binary64) : Prop :=
  ∃ n : NumberText, n.Valid ∧ n.text = item ∧ n.numeral.value n.sign.negative = x

/-- The item writes no finite number. -/
def WritesNoNumber (item : List Char) : Prop :=
  ∀ x, Writes item x → x.isFinite = false

/-- A number without digits is not finite. -/
theorem not_isFinite_of_specialNumber {negative : Bool} {word : List Char} {x : Binary64}
    (h : Decimal.specialNumber negative word = some x) : x.isFinite = false := by
  unfold Decimal.specialNumber at h
  split at h
  · rw [← Option.some.inj h, Binary64.infinity, Binary64.isFinite,
      Binary64.magnitude_ofMagnitude Binary64.infinityMagnitude_lt_signBit]
    exact decide_eq_false (Nat.lt_irrefl _)
  · split at h
    · rw [← Option.some.inj h]
      decide
    · cases h

/-- What is read as a finite number is the text of one. -/
theorem writes_of_readNumber {item : List Char} {x : Binary64}
    (h : Decimal.readNumber item = some x) (hx : x.isFinite = true) : Writes item x := by
  obtain ⟨sign, body, rfl, hsplit, -⟩ := Decimal.exists_splitSign item
  rw [Decimal.readNumber, hsplit] at h
  dsimp only at h
  split at h
  · next m hscan =>
    obtain ⟨n, hvalid, rfl, hbody, rfl⟩ := NumberText.exists_of_scan hscan sign
    rw [List.append_nil] at hbody
    exact ⟨n, hvalid, by rw [NumberText.text, hbody], Option.some.inj h⟩
  · -- what is no number text reads as an infinity or as no number at all
    rw [not_isFinite_of_specialNumber h] at hx
    cases hx

theorem readNumber_of_writes {item : List Char} {x : Binary64} (h : Writes item x) :
    Decimal.readNumber item = some x := by
  obtain ⟨n, hvalid, rfl, rfl⟩ := h
  exact NumberText.readNumber_text hvalid

/-- **The text of a finite number** is read as the number. -/
theorem readItem_number {item : List Char} {x : Binary64} (h : Writes item x)
    (hx : x.isFinite = true) : readItem item = .float x := by
  rw [readItem, readNumber_of_writes h]
  exact if_pos hx

/-- **Any other text** is read as itself. -/
theorem readItem_text {item : List Char} (h : WritesNoNumber item) :
    readItem item = .string (String.ofList item) := by
  rw [readItem]
  cases hread : Decimal.readNumber item with
  | none => rfl
  | some x =>
    refine if_neg fun hx => ?_
    rw [h x (writes_of_readNumber hread hx)] at hx
    cases hx

/-- A character whose lower case begins one of the words is a letter. -/
theorem ne_mark_of_toLower {c : Char} (h : c.toLower = 'i' ∨ c.toLower = 'n') :
    c.isDigit = false ∧ c ≠ '.' ∧ c ≠ '+' ∧ c ≠ '-' := by
  have hcapital : ∀ i < 26, (Char.ofNat (0x41 + i)).isDigit = false ∧ Char.ofNat (0x41 + i) ≠ '.' ∧
      Char.ofNat (0x41 + i) ≠ '+' ∧ Char.ofNat (0x41 + i) ≠ '-' := by decide
  rcases Text.toLower_cases c with hsame | ⟨i, hi, rfl⟩
  · rw [hsame] at h
    rcases h with rfl | rfl <;> decide
  · exact hcapital i hi

/-- The words for numbers without digits, in lower case. -/
def specialWords : List (List Char) :=
  [['i', 'n', 'f'], ['i', 'n', 'f', 'i', 'n', 'i', 't', 'y'], ['n', 'a', 'n']]

/-- **A word for a number without digits,** in any letter case, is not the text of a number. -/
theorem not_writes_word (sign : Sign) {word : List Char}
    (h : word.map Char.toLower ∈ specialWords) (x : Binary64) : ¬ Writes (sign.text ++ word) x := by
  rintro ⟨n, hvalid, htext, -⟩
  -- a word begins with a letter, and what stands behind the sign of a number does not
  obtain ⟨c, rest, rfl, hc⟩ : ∃ c rest, word = c :: rest ∧ (c.toLower = 'i' ∨ c.toLower = 'n') := by
    cases word with
    | nil => simp [specialWords] at h
    | cons c rest =>
      refine ⟨c, rest, rfl, ?_⟩
      simp only [specialWords, List.map_cons, List.mem_cons, List.cons.injEq, List.not_mem_nil,
        or_false] at h
      rcases h with ⟨hc, -⟩ | ⟨hc, -⟩ | ⟨hc, -⟩
      · exact .inl hc
      · exact .inl hc
      · exact .inr hc
  obtain ⟨hdigit, hpoint, hplus, hminus⟩ := ne_mark_of_toLower hc
  -- the sign is split off in one way, so the body of the number would be the word
  have hbody : n.body = c :: rest := by
    have hleft : Decimal.splitSign (n.sign.text ++ n.body) = (n.sign.negative, n.body) :=
      Decimal.splitSign_text n.sign fun _ => by simpa using hvalid.head_ne_sign []
    have hright : Decimal.splitSign (sign.text ++ c :: rest) = (sign.negative, c :: rest) :=
      Decimal.splitSign_text sign fun _ d hd => Option.some.inj hd ▸ ⟨hplus, hminus⟩
    rw [← NumberText.text, htext, hright] at hleft
    exact (Prod.mk.inj hleft).2.symm
  have hbegins := hvalid.beginsNumber []
  rw [hbody, List.append_nil] at hbegins
  exact hbegins.head_ne hdigit hpoint c rfl rfl

/-! ### All items -/

/-- **Reading is compositional.** -/
theorem readItems_append (a b : List Char) :
    readItems (a ++ ',' :: b) = readItems a ++ readItems b := by
  rw [readItems, List.splitOn_append_cons_self, List.map_append, List.filter_append, List.map_append,
    readItems, readItems]

/-- What an item of a list can be: a finite number, or a text that has something in it, no comma and
no blanks at its ends. -/
inductive IsItem : Value → Prop where
  | number {x : Binary64} (finite : x.isFinite = true) : IsItem (.float x)
  | text {s : List Char} (nonempty : s ≠ []) (bare : Text.Bare s) (whole : ',' ∉ s) :
    IsItem (.string (String.ofList s))

theorem isItem_readItem {item : List Char} (hne : item ≠ []) (hbare : Text.Bare item)
    (hwhole : ',' ∉ item) : IsItem (readItem item) := by
  rw [readItem]
  cases Decimal.readNumber item with
  | none => exact .text hne hbare hwhole
  | some x =>
    dsimp only
    split
    · next hx => exact .number hx
    · exact .text hne hbare hwhole

/-- No piece of a text that is split has a comma. -/
theorem comma_notMem_of_mem_splitOn (raw : List Char) : ∀ piece ∈ raw.splitOn ',', ',' ∉ piece := by
  induction raw with
  | nil => simp
  | cons c rest ih =>
    rw [List.splitOn_cons_eq_if_modifyHead]
    split
    · exact List.forall_mem_cons.mpr ⟨List.not_mem_nil, ih⟩
    · next hc =>
      -- the character is put in front of the first piece
      cases hpieces : rest.splitOn ',' with
      | nil => exact List.forall_mem_nil _
      | cons first others =>
        rw [hpieces] at ih
        obtain ⟨hfirst, hothers⟩ := List.forall_mem_cons.mp ih
        refine List.forall_mem_cons.mpr ⟨fun hmem => ?_, hothers⟩
        rcases List.mem_cons.mp hmem with heq | hmem
        · exact hc (beq_iff_eq.mpr heq.symm)
        · exact hfirst hmem

/-- Trimming takes characters away and brings none. -/
theorem mem_of_mem_trim {c : Char} {s : List Char} (h : c ∈ Text.trim s) : c ∈ s := by
  obtain ⟨front, back, -, -, hs⟩ := Text.exists_trim s
  rw [hs]
  exact List.mem_append_right _ (List.mem_append_left _ h)

theorem isItem_of_mem {raw : List Char} {v : Value} (h : v ∈ readItems raw) : IsItem v := by
  obtain ⟨item, hitem, rfl⟩ := List.mem_map.mp h
  obtain ⟨hitem, hne⟩ := List.mem_filter.mp hitem
  obtain ⟨piece, hpiece, rfl⟩ := List.mem_map.mp hitem
  refine isItem_readItem (by simpa using hne) (Text.bare_trim piece) fun hcomma => ?_
  exact comma_notMem_of_mem_splitOn raw piece hpiece (mem_of_mem_trim hcomma)

/-! ### Lists that are written -/

/-- An item as it stands in the text of a list, with blanks around it. -/
structure WrittenItem where
  front : List Char
  item : List Char
  back : List Char
  front_blank : ∀ c ∈ front, Text.isBlank c = true
  back_blank : ∀ c ∈ back, Text.isBlank c = true
  nonempty : item ≠ []
  bare : Text.Bare item
  whole : ',' ∉ item

namespace WrittenItem

def text (w : WrittenItem) : List Char :=
  w.front ++ (w.item ++ w.back)

theorem trim_text (w : WrittenItem) : Text.trim w.text = w.item :=
  Text.trim_between w.bare w.front_blank w.back_blank

/-- A comma is not blank, so there is none around the item either. -/
theorem comma_notMem_text (w : WrittenItem) : ',' ∉ w.text := by
  have hcomma : Text.isBlank ',' = false := by decide
  have hnot : ∀ {blanks : List Char}, (∀ c ∈ blanks, Text.isBlank c = true) → ',' ∉ blanks :=
    fun h hmem => Bool.false_ne_true (hcomma.symm.trans (h _ hmem))
  simp only [text, List.mem_append, not_or]
  exact ⟨hnot w.front_blank, w.whole, hnot w.back_blank⟩

end WrittenItem

/-- The text of a list, with commas between the items. -/
def joined (written : List WrittenItem) : List Char :=
  List.intercalate [','] (written.map WrittenItem.text)

/-- **A list is read as what its items are one by one.** -/
theorem readItems_joined (written : List WrittenItem) :
    readItems (joined written) = written.map fun w => readItem w.item := by
  cases written with
  | nil => rfl
  | cons first rest =>
    have hsplit : (joined (first :: rest)).splitOn ',' = (first :: rest).map WrittenItem.text := by
      refine List.splitOn_intercalate ',' (fun piece hpiece => ?_) (by simp)
      obtain ⟨w, -, rfl⟩ := List.mem_map.mp hpiece
      exact w.comma_notMem_text
    have htrim : ((first :: rest).map WrittenItem.text).map Text.trim
        = (first :: rest).map WrittenItem.item := by
      rw [List.map_map]
      exact List.map_congr_left fun w _ => w.trim_text
    -- no item is empty, so dropping the empty ones drops nothing
    have hkept : ((first :: rest).map WrittenItem.item).filter (!·.isEmpty)
        = (first :: rest).map WrittenItem.item := by
      refine List.filter_eq_self.mpr fun item hitem => ?_
      obtain ⟨w, -, rfl⟩ := List.mem_map.mp hitem
      simpa using w.nonempty
    rw [readItems, hsplit, htrim, hkept, List.map_map]
    rfl

/-- **What is kept when a list is read.** Where a comma stands the two sides are read on their own; an
item is a finite number or a text without comma and without blanks around it; and items that are put
together with commas and blanks are read one by one, a text that writes no finite number as itself. So
it is with the words for infinity and for what is no number. -/
theorem readItems_laws (a b : List Char) (written : List WrittenItem) :
    readItems (a ++ ',' :: b) = readItems a ++ readItems b ∧
      (∀ v ∈ readItems a, IsItem v) ∧
      (readItems (joined written) = written.map fun w => readItem w.item) ∧
      ((∀ w ∈ written, WritesNoNumber w.item) →
        readItems (joined written) = written.map fun w => .string (String.ofList w.item)) ∧
      (∀ item x, Writes item x → x.isFinite = true → readItem item = .float x) ∧
      ∀ (sign : Sign) (word : List Char), word.map Char.toLower ∈ specialWords →
        readItem (sign.text ++ word) = .string (String.ofList (sign.text ++ word)) := by
  refine ⟨readItems_append a b, fun v => isItem_of_mem, readItems_joined written, fun h => ?_,
    fun item x => readItem_number, fun sign word h => ?_⟩
  · rw [readItems_joined]
    exact List.map_congr_left fun w hw => readItem_text (h w hw)
  · exact readItem_text fun x hx => absurd hx (not_writes_word sign h x)

/-- A text and a word for infinity, with blanks around them. -/
def blurredItems : List WrittenItem :=
  [⟨[' '], ['b', 'l', 'u', 'r'], ['\t'], List.forall_mem_singleton.mpr rfl,
      List.forall_mem_singleton.mpr rfl, List.cons_ne_nil _ _,
      ⟨fun _ h => Option.some.inj h ▸ rfl, fun _ h => Option.some.inj h ▸ rfl⟩, by decide⟩,
    ⟨[], ['-', 'I', 'n', 'f'], [' '], List.forall_mem_nil _, List.forall_mem_singleton.mpr rfl,
      List.cons_ne_nil _ _,
      ⟨fun _ h => Option.some.inj h ▸ rfl, fun _ h => Option.some.inj h ▸ rfl⟩, by decide⟩]

/-- Neither is a number, so both are read as they are. -/
theorem readItems_laws_blurred :
    readItems "1,,0.5".toList = readItems ['1'] ++ readItems [',', '0', '.', '5'] ∧
      (∀ w ∈ blurredItems, WritesNoNumber w.item) ∧
      joined blurredItems = " blur\t,-Inf ".toList ∧
      readItems (joined blurredItems) = [.string "blur", .string "-Inf"] := by
  have hblurred : ∀ w ∈ blurredItems, WritesNoNumber w.item := by
    refine List.forall_mem_cons.mpr ⟨fun x hx => ?_, List.forall_mem_singleton.mpr fun x hx => ?_⟩
    · have hnone : Decimal.readNumber ['b', 'l', 'u', 'r'] = none := by decide
      exact absurd ((readNumber_of_writes hx).symm.trans hnone) (Option.some_ne_none x)
    · have hword : ¬ Writes (Decimal.Sign.minus.text ++ ['I', 'n', 'f']) x :=
        not_writes_word .minus (by decide) x
      exact absurd hx hword
  obtain ⟨happend, -, -, hread, -⟩ := readItems_laws ['1'] [',', '0', '.', '5'] blurredItems
  exact ⟨happend, hblurred, by decide, hread hblurred⟩

end ObjectMarkup.Kind
