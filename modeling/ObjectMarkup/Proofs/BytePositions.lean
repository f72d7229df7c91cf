import ObjectMarkup.Decimal.Integer
import ObjectMarkup.Locator.Percent

/-!
# Byte positions in front of numbers

A number stands at the beginning of a text, behind blanks and a sign: `SignedText` says where these
end, and there is one way only to divide a text like that (`SignedText.divides_iff`).

A text can also be divided by counting its bytes. Then a position can be wrong: there is none beyond
the end of the text, and none inside a character (`Text.splitAtByte?`). But where a number is looked
for only ASCII characters are passed over, and these can be told by their one byte from all that may
stand in their place (`Text.byteIs_append`). So the positions behind them are right, and what is
counted in bytes is what is counted in characters (`Decimal.digitsAt?_append`).
-/

namespace ObjectMarkup

open Locator (utf8Bytes)

namespace Text

/-! ### Where a class of characters ends -/

section Stop

variable {α : Type} {p : α → Bool} {s t : List α}

/-- Items of a class up to one that is not of it are all that are taken. -/
theorem takeWhile_append_stop (hs : ∀ c ∈ s, p c = true) (ht : ∀ c ∈ t.head?, p c = false) :
    (s ++ t).takeWhile p = s := by
  rw [List.takeWhile_append_of_pos hs]
  cases t with
  | nil => exact List.append_nil s
  | cons c t =>
    have hc : ¬ p c = true := by
      rw [ht c rfl]
      exact Bool.false_ne_true
    rw [List.takeWhile_cons_of_neg hc, List.append_nil]

theorem dropWhile_append_stop (hs : ∀ c ∈ s, p c = true) (ht : ∀ c ∈ t.head?, p c = false) :
    (s ++ t).dropWhile p = t := by
  rw [List.dropWhile_append_of_pos hs]
  cases t with
  | nil => rfl
  | cons c t =>
    refine List.dropWhile_cons_of_neg ?_
    rw [ht c rfl]
    exact Bool.false_ne_true

/-- What is left does not begin with an item of the class. -/
theorem head?_dropWhile (s : List α) : ∀ c ∈ (s.dropWhile p).head?, p c = false := by
  intro c hc
  have hne : s.dropWhile p ≠ [] := fun hnil => by
    rw [hnil] at hc
    cases hc
  rw [List.head?_eq_some_head hne] at hc
  obtain rfl := Option.some.inj hc
  simpa using List.head_dropWhile_not p hne

end Stop

/-! ### Cutting at a byte -/

/-- **Cuts a text at a byte position.** There is no such position beyond the end of the text, or
inside a character. -/
def splitAtByte? : List Char → Nat → Option (List Char × List Char)
  | s, 0 => some ([], s)
  | [], _ + 1 => none
  | c :: s, n + 1 =>
    if c.utf8Size ≤ n + 1 then
      (splitAtByte? s (n + 1 - c.utf8Size)).map fun (before, after) => (c :: before, after)
    else none

theorem utf8Bytes_append (s t : List Char) : utf8Bytes (s ++ t) = utf8Bytes s ++ utf8Bytes t :=
  List.flatMap_append

theorem length_utf8Bytes_cons (c : Char) (s : List Char) :
    (utf8Bytes (c :: s)).length = c.utf8Size + (utf8Bytes s).length := by
  rw [utf8Bytes, List.flatMap_cons, List.length_append, String.length_utf8EncodeChar]
  rfl

/-- **The position behind a beginning of the text** is where it can be cut. -/
theorem splitAtByte?_append (s t : List Char) :
    splitAtByte? (s ++ t) (utf8Bytes s).length = some (s, t) := by
  induction s with
  | nil => rw [utf8Bytes, List.flatMap_nil, List.length_nil, List.nil_append, splitAtByte?]
  | cons c s ih =>
    obtain ⟨n, hn⟩ : ∃ n, c.utf8Size + (utf8Bytes s).length = n + 1 :=
      Nat.exists_eq_succ_of_ne_zero (by have := c.utf8Size_pos; omega)
    have hrest : n + 1 - c.utf8Size = (utf8Bytes s).length := by omega
    rw [length_utf8Bytes_cons, hn, List.cons_append, splitAtByte?, if_pos (by omega), hrest, ih]
    rfl

/-- **There is no other position:** what is cut off in front has as many bytes as it was asked for. -/
theorem eq_append_of_splitAtByte? {s before after : List Char} {n : Nat}
    (h : splitAtByte? s n = some (before, after)) :
    s = before ++ after ∧ (utf8Bytes before).length = n := by
  fun_induction splitAtByte? s n generalizing before with
  | case1 s =>
    obtain ⟨rfl, rfl⟩ := Prod.mk.inj (Option.some.inj h)
    exact ⟨rfl, rfl⟩
  | case2 => cases h
  | case3 c s n hsize ih =>
    obtain ⟨⟨first, rest⟩, hsplit, he⟩ := Option.map_eq_some_iff.mp h
    obtain ⟨rfl, rfl⟩ := Prod.mk.inj he
    obtain ⟨rfl, hlength⟩ := ih hsplit
    refine ⟨rfl, ?_⟩
    -- the first character takes its own bytes off the position
    rw [length_utf8Bytes_cons, hlength]
    omega
  | case4 => cases h

/-! ### Bytes of ASCII characters -/

/-- A character of one byte. -/
def IsAscii (c : Char) : Prop :=
  c.toNat < 128

instance (c : Char) : Decidable (IsAscii c) :=
  inferInstanceAs (Decidable (c.toNat < 128))

/-- **The first byte of a character** is the character, if that is ASCII and has no other byte, and
belongs to no ASCII character otherwise. -/
theorem utf8EncodeChar_cases (c : Char) :
    (IsAscii c ∧ String.utf8EncodeChar c = [c.toUInt8] ∧ c.toUInt8.toNat = c.toNat) ∨
      ¬ IsAscii c ∧ ∃ b rest, String.utf8EncodeChar c = b :: rest ∧ 128 ≤ b.toNat := by
  by_cases h : IsAscii c
  · have hsize : c.utf8Size = 1 :=
      Char.utf8Size_eq_one_iff.mpr (UInt32.le_iff_toNat_le.mpr (Nat.le_of_lt_succ h))
    have hlt : c.toNat < 256 := Nat.lt_trans h (by decide)
    exact Or.inl ⟨h, String.utf8EncodeChar_eq_singleton hsize, Nat.mod_eq_of_lt hlt⟩
  · have hc : ¬ c.val.toNat ≤ 127 := fun hle => h (Nat.lt_succ_of_le hle)
    have hbyte : ∀ n : Nat, 128 ≤ n → n < 256 → 128 ≤ (UInt8.ofNat n).toNat := by
      intro n hlow hhigh
      rwa [UInt8.toNat_ofNat_of_lt' hhigh]
    refine Or.inr ⟨h, ?_⟩
    rw [String.utf8EncodeChar]
    simp only [if_neg hc]
    -- two, three or four bytes: the first of them has its high bit set each time
    split
    · exact ⟨_, _, rfl, hbyte _ (by omega) (by omega)⟩
    split
    · exact ⟨_, _, rfl, hbyte _ (by omega) (by omega)⟩
    · exact ⟨_, _, rfl, hbyte _ (by omega) (by omega)⟩

theorem length_utf8Bytes_ascii {s : List Char} (h : ∀ c ∈ s, IsAscii c) :
    (utf8Bytes s).length = s.length := by
  induction s with
  | nil => rfl
  | cons c s ih =>
    obtain ⟨hc, hs⟩ := List.forall_mem_cons.mp h
    have hsize : c.utf8Size = 1 :=
      Char.utf8Size_eq_one_iff.mpr (UInt32.le_iff_toNat_le.mpr (Nat.le_of_lt_succ hc))
    rw [length_utf8Bytes_cons, hsize, ih hs, List.length_cons, Nat.add_comm]

/-- Behind ASCII characters the position is farther by their number. -/
theorem length_utf8Bytes_append_ascii (p : List Char) {t : List Char}
    (ht : ∀ c ∈ t, IsAscii c) :
    (utf8Bytes (p ++ t)).length = (utf8Bytes p).length + t.length := by
  rw [utf8Bytes_append, List.length_append, length_utf8Bytes_ascii ht]

/-- Whether the byte at a position is that of an ASCII character; at the end there is none. -/
def byteIs (bytes : List UInt8) (position : Nat) (d : Char) : Bool :=
  bytes[position]? == some d.toUInt8

/-- **An ASCII character is told by its byte:** the byte behind a beginning of the text is that of
the character exactly if the text goes on with it. -/
theorem byteIs_append (s : List Char) {d : Char} (hd : IsAscii d) (t : List Char) :
    byteIs (utf8Bytes (s ++ t)) (utf8Bytes s).length d = (t.head? == some d) := by
  rw [byteIs, utf8Bytes_append, List.getElem?_append_right (Nat.le_refl _), Nat.sub_self,
    ← List.head?_eq_getElem?, Bool.eq_iff_iff, beq_iff_eq, beq_iff_eq]
  cases t with
  | nil => exact iff_of_false nofun nofun
  | cons c t =>
    have hd' : d.toUInt8.toNat = d.toNat := Nat.mod_eq_of_lt (Nat.lt_trans hd (by decide))
    rw [utf8Bytes, List.flatMap_cons, List.head?_cons, Option.some_inj]
    -- a byte of a longer character is never the byte of an ASCII one
    rcases utf8EncodeChar_cases c with ⟨-, hbytes, hc⟩ | ⟨hc, b, rest, hbytes, hb⟩
    · rw [hbytes, List.singleton_append, List.head?_cons, Option.some_inj, ← UInt8.toNat_inj, hc, hd']
      exact Char.toNat_inj
    · rw [hbytes, List.cons_append, List.head?_cons, Option.some_inj]
      refine iff_of_false (fun heq => ?_) (fun heq => hc (heq ▸ hd))
      rw [heq, hd'] at hb
      exact Nat.not_lt_of_le hb hd

end Text

namespace Decimal

open Text (IsAscii splitAtByte?)

/-! ### Counting digits -/

def isDigitByte (b : UInt8) : Bool :=
  decide ('0'.toUInt8 ≤ b) && decide (b ≤ '9'.toUInt8)

/-- The number of digits from a byte position on. The position may be the end, but not beyond it. -/
def digitsAt? (bytes : List UInt8) (start : Nat) : Option Nat :=
  if start ≤ bytes.length then some ((bytes.drop start).takeWhile isDigitByte).length else none

theorem isAscii_of_isDigit {c : Char} (h : c.isDigit = true) : IsAscii c := by
  have hbounds : '0'.val ≤ c.val ∧ c.val ≤ '9'.val := by
    simpa only [Char.isDigit, Bool.and_eq_true, decide_eq_true_eq] using h
  exact Nat.lt_of_le_of_lt (UInt32.le_iff_toNat_le.mp hbounds.2) (by decide)

theorem isDigitByte_toUInt8 {c : Char} (h : c.toUInt8.toNat = c.toNat) :
    isDigitByte c.toUInt8 = c.isDigit := by
  rw [isDigitByte, Char.isDigit, Bool.eq_iff_iff]
  simp only [Bool.and_eq_true, decide_eq_true_eq, UInt8.le_iff_toNat_le, UInt32.le_iff_toNat_le, h]
  rfl

/-- Counting digits in bytes is counting them in characters: what follows them does not begin like
a digit. -/
theorem length_takeWhile_isDigitByte (s : List Char) :
    ((utf8Bytes s).takeWhile isDigitByte).length = (s.takeWhile Char.isDigit).length := by
  induction s with
  | nil => rfl
  | cons c s ih =>
    rw [utf8Bytes, List.flatMap_cons]
    rcases Text.utf8EncodeChar_cases c with ⟨-, hbytes, hc⟩ | ⟨hc, b, rest, hbytes, hb⟩
    · rw [hbytes, List.singleton_append, List.takeWhile_cons, List.takeWhile_cons,
        isDigitByte_toUInt8 hc]
      split
      · exact congrArg Nat.succ ih
      · rfl
    · -- outside ASCII the character is no digit, and its first byte is none either
      have hdigit : ¬ c.isDigit = true := fun h => hc (isAscii_of_isDigit h)
      have hbyte : ¬ isDigitByte b = true := by
        simp only [isDigitByte, Bool.and_eq_true, decide_eq_true_eq, UInt8.le_iff_toNat_le]
        exact fun h => absurd h.2 (Nat.not_le_of_lt (Nat.lt_of_lt_of_le (by decide) hb))
      rw [hbytes, List.cons_append, List.takeWhile_cons_of_neg hbyte,
        List.takeWhile_cons_of_neg hdigit]
      rfl

/-- **The digits behind a beginning of the text** are counted from its end. -/
theorem digitsAt?_append (s t : List Char) :
    digitsAt? (utf8Bytes (s ++ t)) (utf8Bytes s).length = some (t.takeWhile Char.isDigit).length := by
  rw [digitsAt?, Text.utf8Bytes_append, if_pos (by rw [List.length_append]; omega), List.drop_left,
    length_takeWhile_isDigitByte]

/-- The digits behind a beginning of the text and more ASCII characters. -/
theorem digitsAt?_append_ascii (p : List Char) {t : List Char} (ht : ∀ c ∈ t, IsAscii c)
    (rest : List Char) :
    digitsAt? (utf8Bytes (p ++ (t ++ rest))) ((utf8Bytes p).length + t.length)
      = some (rest.takeWhile Char.isDigit).length := by
  rw [← Text.length_utf8Bytes_append_ascii p ht, ← List.append_assoc, digitsAt?_append]

/-! ### Blanks and a sign in front -/

theorem splitSign_of_head {s : List Char} (h : ∀ c ∈ s.head?, c ≠ '+' ∧ c ≠ '-') :
    splitSign s = (false, s) := by
  unfold splitSign
  split
  · exact absurd rfl (h '-' rfl).2
  · exact absurd rfl (h '+' rfl).1
  · rfl

inductive Sign where
  | absent
  | plus
  | minus
  deriving DecidableEq, Repr

def Sign.text : Sign → List Char
  | .absent => []
  | .plus => ['+']
  | .minus => ['-']

theorem Sign.ascii (sign : Sign) : ∀ c ∈ sign.text, IsAscii c := by
  cases sign with
  | absent => exact List.forall_mem_nil _
  | plus => exact List.forall_mem_singleton.mpr (by decide)
  | minus => exact List.forall_mem_singleton.mpr (by decide)

def Sign.negative (sign : Sign) : Bool :=
  sign == .minus

/-- What is taken off is a sign, or nothing where none stands. -/
theorem exists_splitSign (s : List Char) :
    ∃ (sign : Sign) (body : List Char), s = sign.text ++ body ∧ splitSign s = (sign.negative, body) ∧
      (sign = .absent → ∀ c ∈ body.head?, c ≠ '+' ∧ c ≠ '-') := by
  unfold splitSign
  split
  · next body => exact ⟨.minus, body, rfl, rfl, nofun⟩
  · next body => exact ⟨.plus, body, rfl, rfl, nofun⟩
  · next hminus hplus =>
    -- neither sign matched, so the text does not start with one
    refine ⟨.absent, s, rfl, rfl, fun _ c hc => ?_⟩
    obtain ⟨rest, rfl⟩ := List.head?_eq_some_iff.mp hc
    exact ⟨fun heq => hplus rest (heq ▸ rfl), fun heq => hminus rest (heq ▸ rfl)⟩

/-- A sign is taken off, and where none stands nothing. -/
theorem splitSign_text (sign : Sign) {body : List Char}
    (h : sign = .absent → ∀ c ∈ body.head?, c ≠ '+' ∧ c ≠ '-') :
    splitSign (sign.text ++ body) = (sign.negative, body) := by
  cases sign with
  | plus | minus => rfl
  | absent => exact splitSign_of_head (h rfl)

/-- A text divided into blanks, a sign and the rest. -/
structure SignedText where
  blanks : List Char
  sign : Sign
  body : List Char

/-- **How a text is divided:** the blanks end where something else begins, and a sign that stands
there is taken. -/
structure SignedText.Divides (p : SignedText) (s : List Char) : Prop where
  text : p.blanks ++ (p.sign.text ++ p.body) = s
  blanks : ∀ c ∈ p.blanks, Text.isBlank c = true
  start : ∀ c ∈ (p.sign.text ++ p.body).head?, Text.isBlank c = false
  sign : p.sign = .absent → ∀ c ∈ p.body.head?, c ≠ '+' ∧ c ≠ '-'

namespace SignedText

/-- The one way to divide a text. -/
def of (s : List Char) : SignedText :=
  match Text.trimStart s with
  | '+' :: body => ⟨s.takeWhile Text.isBlank, .plus, body⟩
  | '-' :: body => ⟨s.takeWhile Text.isBlank, .minus, body⟩
  | body => ⟨s.takeWhile Text.isBlank, .absent, body⟩

variable {p : SignedText} {s : List Char}

theorem divides_of (s : List Char) : (of s).Divides s := by
  have htext : s.takeWhile Text.isBlank ++ Text.trimStart s = s := List.takeWhile_append_dropWhile
  have hblanks : ∀ c ∈ s.takeWhile Text.isBlank, Text.isBlank c = true :=
    List.all_eq_true.mp List.all_takeWhile
  have hstart : ∀ c ∈ (Text.trimStart s).head?, Text.isBlank c = false := Text.head?_dropWhile s
  unfold of
  split
  · next body heq =>
    rw [heq] at htext hstart
    exact ⟨htext, hblanks, hstart, nofun⟩
  · next body heq =>
    rw [heq] at htext hstart
    exact ⟨htext, hblanks, hstart, nofun⟩
  · next hplus hminus =>
    refine ⟨htext, hblanks, hstart, fun _ c hc => ?_⟩
    obtain ⟨rest, hrest⟩ := List.head?_eq_some_iff.mp hc
    exact ⟨fun heq => hplus rest (heq ▸ hrest), fun heq => hminus rest (heq ▸ hrest)⟩

namespace Divides

/-- The blanks are trimmed. -/
theorem trimStart_eq (h : p.Divides s) : Text.trimStart s = p.sign.text ++ p.body := by
  rw [← h.text]
  exact Text.dropWhile_append_stop h.blanks h.start

/-- The sign is split off. -/
theorem splitSign_eq (h : p.Divides s) :
    splitSign (p.sign.text ++ p.body) = (p.sign.negative, p.body) :=
  splitSign_text p.sign h.sign

theorem eq_of (h : p.Divides s) : p = of s := by
  have hblanks : s.takeWhile Text.isBlank = p.blanks := by
    rw [← h.text]
    exact Text.takeWhile_append_stop h.blanks h.start
  have hstart := h.trimStart_eq
  obtain ⟨blanks, sign, body⟩ := p
  unfold of
  rw [hblanks]
  cases sign with
  | plus | minus => rw [hstart]; rfl
  | absent =>
    have hsign := h.sign rfl
    rw [hstart]
    -- no sign was split off, and `body` starts with none that `of` could split off
    change _ = match body with
      | '+' :: body => _
      | '-' :: body => _
      | body => _
    split
    · exact absurd rfl (hsign '+' rfl).1
    · exact absurd rfl (hsign '-' rfl).2
    · rfl

end Divides

/-- **There is one way to divide a text.** -/
theorem divides_iff : p.Divides s ↔ p = of s :=
  ⟨Divides.eq_of, fun h => h ▸ divides_of s⟩

end SignedText

/-! ### The sign by its byte -/

/-- Takes an optional sign off by its byte: whether it is a minus, and the rest. -/
def splitSignAt? (s : List Char) : Option (Bool × List Char) :=
  if Text.byteIs (utf8Bytes s) 0 '-' then (splitAtByte? s 1).map fun (_, rest) => (true, rest)
  else if Text.byteIs (utf8Bytes s) 0 '+' then
    (splitAtByte? s 1).map fun (_, rest) => (false, rest)
  else some (false, s)

/-- Behind an ASCII character a text can be cut. -/
theorem splitAtByte?_one {d : Char} (hd : IsAscii d) (rest : List Char) :
    splitAtByte? (d :: rest) 1 = some ([d], rest) := by
  have hsplit := Text.splitAtByte?_append [d] rest
  rwa [Text.length_utf8Bytes_ascii (List.forall_mem_singleton.mpr hd)] at hsplit

/-- **A sign has one byte,** so it can be taken off. -/
theorem splitSignAt?_eq (s : List Char) : splitSignAt? s = some (splitSign s) := by
  have hfirst : ∀ {d : Char}, IsAscii d → Text.byteIs (utf8Bytes s) 0 d = (s.head? == some d) :=
    fun hd => Text.byteIs_append [] hd s
  have hminus : IsAscii '-' := by decide
  have hplus : IsAscii '+' := by decide
  rw [splitSignAt?, hfirst hminus, hfirst hplus]
  by_cases hm : s.head? = some '-'
  · obtain ⟨rest, rfl⟩ := List.head?_eq_some_iff.mp hm
    rw [if_pos (beq_iff_eq.mpr hm), splitAtByte?_one hminus]
    rfl
  -- the sign is one byte wide, so byte one is where the rest starts
  rw [if_neg (fun h => hm (beq_iff_eq.mp h))]
  by_cases hp : s.head? = some '+'
  · obtain ⟨rest, rfl⟩ := List.head?_eq_some_iff.mp hp
    rw [if_pos (beq_iff_eq.mpr hp), splitAtByte?_one hplus]
    rfl
  · rw [if_neg (fun h => hp (beq_iff_eq.mp h)), splitSign_of_head]
    exact fun c hc => ⟨fun heq => hp (heq ▸ hc), fun heq => hm (heq ▸ hc)⟩

end Decimal

end ObjectMarkup
