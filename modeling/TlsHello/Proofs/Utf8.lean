/-
The check for UTF-8 decides exactly the encodings of texts.

A text is a list of characters and its encoding the encodings of its
characters one after the other; what one character is as bytes
(`String.utf8EncodeChar`) is a formula in the value of the character. The
check knows no values, only ranges of bytes. Between the two stands a
grammar, `Leads`: which ranges belong behind which lead byte.

# The shape of the argument

The table of the check is the grammar (`leads_of_followers?`). A lead byte
and one byte in each of its ranges are the encoding of a character, which
is put together from them (`exists_char_of_leads`), and the encoding of
every character is of that form (`spelled`): both by the number of bytes,
in linear arithmetic over the value. From there on only characters are
left. At an index inside the text the check either finds a character and
how long it is, or no character begins there (`exists_followersAt?`), and
it asks for no byte behind the end to find out. Encodings are prefix-free
(`encodeChar_append_inj`), so the character found is the only way to go
on, and by induction along the walk the check is right from every index
on.
-/
import Mathlib.Data.List.Forall2
import TlsHello.Text.Utf8

namespace TlsHello.Utf8

/-- A text as bytes, character by character. -/
def encode (text : List Char) : Bytes := text.flatMap String.utf8EncodeChar

-- ======================================================== the grammar

/-- One byte in each range. -/
def LieIn (ranges : List ByteRange) (bs : Bytes) : Prop :=
  List.Forall₂ (fun range b => range.contains b = true) ranges bs

/-- Lead bytes, each with the ranges of the bytes that belong behind it. -/
inductive Leads (lead : UInt8) : List ByteRange → Prop
  | one (h : lead.toNat < 0x80) : Leads lead []
  | two (h : 0xc2 ≤ lead.toNat) (h' : lead.toNat < 0xe0) : Leads lead [continuation]
  | threeFirst (h : lead.toNat = 0xe0) : Leads lead [⟨0xa0, 0xbf⟩, continuation]
  | threeSurrogate (h : lead.toNat = 0xed) : Leads lead [⟨0x80, 0x9f⟩, continuation]
  | three (h : 0xe0 < lead.toNat) (h' : lead.toNat < 0xf0) (hne : lead.toNat ≠ 0xed) :
      Leads lead [continuation, continuation]
  | fourFirst (h : lead.toNat = 0xf0) : Leads lead [⟨0x90, 0xbf⟩, continuation, continuation]
  | four (h : 0xf0 < lead.toNat) (h' : lead.toNat < 0xf4) :
      Leads lead [continuation, continuation, continuation]
  | fourLast (h : lead.toNat = 0xf4) : Leads lead [⟨0x80, 0x8f⟩, continuation, continuation]

theorem contains_iff {r : ByteRange} {b : UInt8} :
    r.contains b = true ↔ r.first.toNat ≤ b.toNat ∧ b.toNat ≤ r.last.toNat := by
  unfold ByteRange.contains
  rw [Bool.and_eq_true, decide_eq_true_iff, decide_eq_true_iff, UInt8.le_iff_toNat_le,
    UInt8.le_iff_toNat_le]

-- The table of the check says what the grammar says.

theorem leads_of_followers? {lead : UInt8} {ranges : List ByteRange}
    (h : followers? lead = some ranges) : Leads lead ranges := by
  unfold followers? at h
  simp only [UInt8.lt_iff_toNat_lt, ← UInt8.toNat_inj, UInt8.reduceToNat] at h
  by_cases h₁ : lead.toNat < 0x80
  · rw [if_pos h₁] at h
    cases h
    exact .one h₁
  rw [if_neg h₁] at h
  by_cases h₂ : lead.toNat < 0xc2
  · rw [if_pos h₂] at h
    cases h
  rw [if_neg h₂] at h
  by_cases h₃ : lead.toNat < 0xe0
  · rw [if_pos h₃] at h
    cases h
    exact .two (by omega) h₃
  rw [if_neg h₃] at h
  by_cases h₄ : lead.toNat = 0xe0
  · rw [if_pos h₄] at h
    cases h
    exact .threeFirst h₄
  rw [if_neg h₄] at h
  by_cases h₅ : lead.toNat = 0xed
  · rw [if_pos h₅] at h
    cases h
    exact .threeSurrogate h₅
  rw [if_neg h₅] at h
  by_cases h₆ : lead.toNat < 0xf0
  · rw [if_pos h₆] at h
    cases h
    exact .three (by omega) h₆ h₅
  rw [if_neg h₆] at h
  by_cases h₇ : lead.toNat = 0xf0
  · rw [if_pos h₇] at h
    cases h
    exact .fourFirst h₇
  rw [if_neg h₇] at h
  by_cases h₈ : lead.toNat < 0xf4
  · rw [if_pos h₈] at h
    cases h
    exact .four (by omega) h₈
  rw [if_neg h₈] at h
  by_cases h₉ : lead.toNat = 0xf4
  · rw [if_pos h₉] at h
    cases h
    exact .fourLast h₉
  rw [if_neg h₉] at h
  cases h

theorem followers?_of_leads {lead : UInt8} {ranges : List ByteRange} (h : Leads lead ranges) :
    followers? lead = some ranges := by
  unfold followers?
  simp only [UInt8.lt_iff_toNat_lt, ← UInt8.toNat_inj, UInt8.reduceToNat]
  cases h with
  | one h => exact if_pos h
  | two h h' => rw [if_neg (by omega), if_neg (by omega), if_pos h']
  | threeFirst h => rw [h]; rfl
  | threeSurrogate h => rw [h]; rfl
  | three h h' hne =>
      rw [if_neg (by omega), if_neg (by omega), if_neg (by omega), if_neg (by omega),
        if_neg hne, if_pos h']
  | fourFirst h => rw [h]; rfl
  | four h h' =>
      rw [if_neg (by omega), if_neg (by omega), if_neg (by omega), if_neg (by omega),
        if_neg (by omega), if_neg (by omega), if_neg (by omega), if_pos h']
  | fourLast h => rw [h]; rfl

-- ============================================= the formula, by length

section Formula

variable {c : Char}

theorem encodeChar_one (h : c.toNat ≤ 0x7f) :
    String.utf8EncodeChar c = [UInt8.ofNat c.toNat] := by
  unfold String.utf8EncodeChar
  rw [Char.toNat_val]
  exact if_pos h

theorem encodeChar_two (h : 0x7f < c.toNat) (h' : c.toNat ≤ 0x7ff) :
    String.utf8EncodeChar c
      = [UInt8.ofNat (c.toNat / 64 % 32 + 0xc0), UInt8.ofNat (c.toNat % 64 + 0x80)] := by
  unfold String.utf8EncodeChar
  rw [Char.toNat_val]
  dsimp only
  rw [if_neg (by omega), if_pos h']

theorem encodeChar_three (h : 0x7ff < c.toNat) (h' : c.toNat ≤ 0xffff) :
    String.utf8EncodeChar c
      = [UInt8.ofNat (c.toNat / 4096 % 16 + 0xe0), UInt8.ofNat (c.toNat / 64 % 64 + 0x80),
          UInt8.ofNat (c.toNat % 64 + 0x80)] := by
  unfold String.utf8EncodeChar
  rw [Char.toNat_val]
  dsimp only
  rw [if_neg (by omega), if_neg (by omega), if_pos h']

theorem encodeChar_four (h : 0xffff < c.toNat) :
    String.utf8EncodeChar c
      = [UInt8.ofNat (c.toNat / 262144 % 8 + 0xf0), UInt8.ofNat (c.toNat / 4096 % 64 + 0x80),
          UInt8.ofNat (c.toNat / 64 % 64 + 0x80), UInt8.ofNat (c.toNat % 64 + 0x80)] := by
  unfold String.utf8EncodeChar
  rw [Char.toNat_val]
  dsimp only
  rw [if_neg (by omega), if_neg (by omega), if_neg (by omega)]

end Formula

-- ==================================== from the ranges to a character

/-- A value outside the surrogates and up to the last is a character's. -/
theorem exists_char {v : Nat} (h : v.isValidChar) : ∃ c : Char, c.toNat = v :=
  ⟨Char.ofNatAux v h, rfl⟩

theorem ofNat_eq {b : UInt8} {n : Nat} (h : n = b.toNat) : UInt8.ofNat n = b := by
  rw [h, UInt8.ofNat_toNat]

theorem contains_continuation_iff {b : UInt8} :
    continuation.contains b = true ↔ 0x80 ≤ b.toNat ∧ b.toNat ≤ 0xbf := contains_iff

section Bytes

variable {a b b' b'' : UInt8}

theorem exists_encodeChar_one (ha : a.toNat < 0x80) : ∃ c, String.utf8EncodeChar c = [a] := by
  obtain ⟨c, hc⟩ := exists_char (v := a.toNat) (by unfold Nat.isValidChar; omega)
  exact ⟨c, by rw [encodeChar_one (by omega), hc, ofNat_eq rfl]⟩

theorem exists_encodeChar_two (ha : 0xc2 ≤ a.toNat) (ha' : a.toNat < 0xe0)
    (hb : continuation.contains b = true) : ∃ c, String.utf8EncodeChar c = [a, b] := by
  rw [contains_continuation_iff] at hb
  obtain ⟨c, hc⟩ := exists_char (v := 64 * (a.toNat - 0xc0) + (b.toNat - 0x80)) (by
    unfold Nat.isValidChar; omega)
  refine ⟨c, ?_⟩
  rw [encodeChar_two (by omega) (by omega), hc, ofNat_eq (b := a) (by omega),
    ofNat_eq (b := b) (by omega)]

/-- Neither an overlong form nor a surrogate. -/
theorem exists_encodeChar_three (ha : 0xe0 ≤ a.toNat) (ha' : a.toNat < 0xf0)
    (hb : continuation.contains b = true) (hb' : continuation.contains b' = true)
    (hlong : a.toNat = 0xe0 → 0xa0 ≤ b.toNat) (hscalar : a.toNat = 0xed → b.toNat < 0xa0) :
    ∃ c, String.utf8EncodeChar c = [a, b, b'] := by
  rw [contains_continuation_iff] at hb hb'
  obtain ⟨c, hc⟩ := exists_char
    (v := 4096 * (a.toNat - 0xe0) + 64 * (b.toNat - 0x80) + (b'.toNat - 0x80)) (by
      unfold Nat.isValidChar; omega)
  refine ⟨c, ?_⟩
  rw [encodeChar_three (by omega) (by omega), hc, ofNat_eq (b := a) (by omega),
    ofNat_eq (b := b) (by omega), ofNat_eq (b := b') (by omega)]

/-- Neither an overlong form nor a value past the last. -/
theorem exists_encodeChar_four (ha : 0xf0 ≤ a.toNat) (ha' : a.toNat ≤ 0xf4)
    (hb : continuation.contains b = true) (hb' : continuation.contains b' = true)
    (hb'' : continuation.contains b'' = true)
    (hlong : a.toNat = 0xf0 → 0x90 ≤ b.toNat) (hlast : a.toNat = 0xf4 → b.toNat < 0x90) :
    ∃ c, String.utf8EncodeChar c = [a, b, b', b''] := by
  rw [contains_continuation_iff] at hb hb' hb''
  obtain ⟨c, hc⟩ := exists_char
    (v := 262144 * (a.toNat - 0xf0) + 4096 * (b.toNat - 0x80) + 64 * (b'.toNat - 0x80)
      + (b''.toNat - 0x80)) (by
      unfold Nat.isValidChar; omega)
  refine ⟨c, ?_⟩
  rw [encodeChar_four (by omega), hc, ofNat_eq (b := a) (by omega), ofNat_eq (b := b) (by omega),
    ofNat_eq (b := b') (by omega), ofNat_eq (b := b'') (by omega)]

end Bytes

/-- The bounds of a range that lies inside the continuation bytes. -/
theorem contains_continuation_of {r : ByteRange} {b : UInt8} (hfirst : 0x80 ≤ r.first.toNat)
    (hlast : r.last.toNat ≤ 0xbf) (hb : r.contains b = true) :
    continuation.contains b = true := by
  rw [contains_iff] at hb
  rw [contains_continuation_iff]
  omega

/-- A lead byte and a byte in each of its ranges are a character. -/
theorem exists_char_of_leads {lead : UInt8} {ranges : List ByteRange} {bs : Bytes}
    (hlead : Leads lead ranges) (hbs : LieIn ranges bs) :
    ∃ c, String.utf8EncodeChar c = lead :: bs := by
  cases hlead with
  | one h =>
      cases hbs
      exact exists_encodeChar_one h
  | two h h' =>
      obtain _ | ⟨hb, _ | _⟩ := hbs
      exact exists_encodeChar_two h h' hb
  | threeFirst h =>
      obtain _ | ⟨hb, _ | ⟨hb', _ | _⟩⟩ := hbs
      have hrange := contains_iff.1 hb
      have hb := contains_continuation_of (by decide) (by decide) hb
      exact exists_encodeChar_three (by omega) (by omega) hb hb' (fun _ => hrange.1) (by omega)
  | threeSurrogate h =>
      obtain _ | ⟨hb, _ | ⟨hb', _ | _⟩⟩ := hbs
      have hrange := contains_iff.1 hb
      have hb := contains_continuation_of (by decide) (by decide) hb
      exact exists_encodeChar_three (by omega) (by omega) hb hb' (by omega)
        (fun _ => Nat.lt_succ_of_le hrange.2)
  | three h h' hne =>
      obtain _ | ⟨hb, _ | ⟨hb', _ | _⟩⟩ := hbs
      exact exists_encodeChar_three (by omega) h' hb hb' (by omega) (by omega)
  | fourFirst h =>
      obtain _ | ⟨hb, _ | ⟨hb', _ | ⟨hb'', _ | _⟩⟩⟩ := hbs
      have hrange := contains_iff.1 hb
      have hb := contains_continuation_of (by decide) (by decide) hb
      exact exists_encodeChar_four (by omega) (by omega) hb hb' hb'' (fun _ => hrange.1) (by omega)
  | four h h' =>
      obtain _ | ⟨hb, _ | ⟨hb', _ | ⟨hb'', _ | _⟩⟩⟩ := hbs
      exact exists_encodeChar_four (by omega) (by omega) hb hb' hb'' (by omega) (by omega)
  | fourLast h =>
      obtain _ | ⟨hb, _ | ⟨hb', _ | ⟨hb'', _ | _⟩⟩⟩ := hbs
      have hrange := contains_iff.1 hb
      have hb := contains_continuation_of (by decide) (by decide) hb
      exact exists_encodeChar_four (by omega) (by omega) hb hb' hb'' (by omega)
        (fun _ => Nat.lt_succ_of_le hrange.2)

-- ==================================== from a character to the ranges

theorem toNat_ofNat_of_lt {n : Nat} (h : n < 256) : (UInt8.ofNat n).toNat = n := by
  rw [UInt8.toNat_ofNat', Nat.mod_eq_of_lt h]

theorem contains_ofNat {r : ByteRange} {n : Nat} (h : r.first.toNat ≤ n) (h' : n ≤ r.last.toNat) :
    r.contains (.ofNat n) = true := by
  have hlast := r.last.toNat_lt
  rw [contains_iff, toNat_ofNat_of_lt (by omega)]
  exact ⟨h, h'⟩

/-- Six bits of a value and the mark of a continuation byte. -/
theorem continuation_contains (n : Nat) :
    continuation.contains (.ofNat (n % 64 + 0x80)) = true := by
  apply contains_ofNat
  · show 0x80 ≤ n % 64 + 0x80
    omega
  · show n % 64 + 0x80 ≤ 0xbf
    omega

/-- A character is encoded as a lead byte and one byte in each of the
ranges that belong behind it. -/
inductive Spelled (c : Char) : Prop
  | intro (lead : UInt8) (ranges : List ByteRange) (bs : Bytes) (hlead : Leads lead ranges)
      (hbs : LieIn ranges bs) (eq : String.utf8EncodeChar c = lead :: bs)

section Spelling

variable {c : Char}

theorem spelled_one (h : c.toNat ≤ 0x7f) : Spelled c := by
  have hlead : (UInt8.ofNat c.toNat).toNat = c.toNat := toNat_ofNat_of_lt (by omega)
  exact ⟨_, _, _, .one (by omega), .nil, encodeChar_one h⟩

theorem spelled_two (h : 0x7f < c.toNat) (h' : c.toNat ≤ 0x7ff) : Spelled c := by
  have hlead : (UInt8.ofNat (c.toNat / 64 % 32 + 0xc0)).toNat = c.toNat / 64 % 32 + 0xc0 :=
    toNat_ofNat_of_lt (by omega)
  exact ⟨_, _, _, .two (by omega) (by omega), .cons (continuation_contains _) .nil,
    encodeChar_two h h'⟩

theorem spelled_three (h : 0x7ff < c.toNat) (h' : c.toNat ≤ 0xffff) : Spelled c := by
  have hv : c.toNat < 0xd800 ∨ 0xdfff < c.toNat ∧ c.toNat < 0x110000 := c.valid
  have hlead : (UInt8.ofNat (c.toNat / 4096 % 16 + 0xe0)).toNat = c.toNat / 4096 + 0xe0 := by
    rw [toNat_ofNat_of_lt (by omega)]
    omega
  have hthird := continuation_contains c.toNat
  by_cases hfirst : c.toNat / 4096 = 0
  · refine ⟨_, _, _, .threeFirst (by omega), .cons (contains_ofNat ?_ ?_) (.cons hthird .nil),
      encodeChar_three h h'⟩
    · show 0xa0 ≤ c.toNat / 64 % 64 + 0x80
      omega
    · show c.toNat / 64 % 64 + 0x80 ≤ 0xbf
      omega
  by_cases hsurrogate : c.toNat / 4096 = 0xd
  · refine ⟨_, _, _, .threeSurrogate (by omega), .cons (contains_ofNat ?_ ?_) (.cons hthird .nil),
      encodeChar_three h h'⟩
    · show 0x80 ≤ c.toNat / 64 % 64 + 0x80
      omega
    · show c.toNat / 64 % 64 + 0x80 ≤ 0x9f
      omega
  · exact ⟨_, _, _, .three (by omega) (by omega) (by omega),
      .cons (continuation_contains _) (.cons hthird .nil), encodeChar_three h h'⟩

theorem spelled_four (h : 0xffff < c.toNat) : Spelled c := by
  have hv : c.toNat < 0xd800 ∨ 0xdfff < c.toNat ∧ c.toNat < 0x110000 := c.valid
  have hlead : (UInt8.ofNat (c.toNat / 262144 % 8 + 0xf0)).toNat = c.toNat / 262144 + 0xf0 := by
    rw [toNat_ofNat_of_lt (by omega)]
    omega
  have hrest : LieIn [continuation, continuation]
      [.ofNat (c.toNat / 64 % 64 + 0x80), .ofNat (c.toNat % 64 + 0x80)] :=
    .cons (continuation_contains _) (.cons (continuation_contains _) .nil)
  by_cases hfirst : c.toNat / 262144 = 0
  · refine ⟨_, _, _, .fourFirst (by omega), .cons (contains_ofNat ?_ ?_) hrest,
      encodeChar_four h⟩
    · show 0x90 ≤ c.toNat / 4096 % 64 + 0x80
      omega
    · show c.toNat / 4096 % 64 + 0x80 ≤ 0xbf
      omega
  by_cases hlast : c.toNat / 262144 = 4
  · refine ⟨_, _, _, .fourLast (by omega), .cons (contains_ofNat ?_ ?_) hrest,
      encodeChar_four h⟩
    · show 0x80 ≤ c.toNat / 4096 % 64 + 0x80
      omega
    · show c.toNat / 4096 % 64 + 0x80 ≤ 0x8f
      omega
  · exact ⟨_, _, _, .four (by omega) (by omega), .cons (continuation_contains _) hrest,
      encodeChar_four h⟩

end Spelling

theorem spelled (c : Char) : Spelled c := by
  by_cases h₁ : c.toNat ≤ 0x7f
  · exact spelled_one h₁
  by_cases h₂ : c.toNat ≤ 0x7ff
  · exact spelled_two (by omega) h₂
  by_cases h₃ : c.toNat ≤ 0xffff
  · exact spelled_three (by omega) h₃
  · exact spelled_four (by omega)

-- ======================================= one character after the other

/-- An encoding is no front of another, so a byte string begins with one
character at most. -/
theorem encodeChar_append_inj {c c' : Char} {rest rest' : Bytes}
    (h : String.utf8EncodeChar c ++ rest = String.utf8EncodeChar c' ++ rest') :
    c = c' ∧ rest = rest' := by
  have hdecode := ByteArray.utf8DecodeChar?_utf8EncodeChar_append (b := rest.toByteArray) (c := c)
  rw [← List.toByteArray_append, h, List.toByteArray_append,
    ByteArray.utf8DecodeChar?_utf8EncodeChar_append] at hdecode
  have hc := (Option.some.inj hdecode).symm
  subst hc
  exact ⟨rfl, List.append_cancel_left h⟩

theorem encode_cons (c : Char) (text : List Char) :
    encode (c :: text) = String.utf8EncodeChar c ++ encode text := List.flatMap_cons

theorem encode_cons_ne_nil (c : Char) (text : List Char) : encode (c :: text) ≠ [] := by
  obtain ⟨lead, ranges, bs, -, -, hc⟩ := spelled c
  rw [encode_cons, hc]
  exact List.cons_ne_nil _ _

/-- A text can be told from its encoding. -/
theorem encode_inj {text text' : List Char} (h : encode text = encode text') : text = text' := by
  induction text generalizing text' with
  | nil =>
      cases text' with
      | nil => rfl
      | cons c' text' => exact absurd h.symm (encode_cons_ne_nil c' text')
  | cons c text ih =>
      cases text' with
      | nil => exact absurd h (encode_cons_ne_nil c text)
      | cons c' text' =>
          rw [encode_cons, encode_cons] at h
          obtain ⟨rfl, htext⟩ := encodeChar_append_inj h
          rw [ih htext]

-- ==================================================== the walk by index

section Walk

variable {text : Array UInt8} {i : Nat}

/-- A byte that is there is read. -/
theorem byteAt_of_drop {b : UInt8} {rest : Bytes} (h : text.toList.drop i = b :: rest) :
    byteAt text i = .ok b := by
  have hb : text[i]? = some b := by
    rw [← Array.getElem?_toList, ← Nat.add_zero i, ← List.getElem?_drop, h]
    rfl
  rw [byteAt, hb]

theorem drop_add {bs rest : Bytes} {n : Nat} (h : text.toList.drop i = bs ++ rest)
    (hn : bs.length = n) : text.toList.drop (i + n) = rest := by
  rw [← List.drop_drop, h, List.drop_left' hn]

theorem drop_succ {b : UInt8} {rest : Bytes} (h : text.toList.drop i = b :: rest) :
    text.toList.drop (i + 1) = rest := by
  rw [← List.drop_drop, h]
  rfl

/-- Bytes that are there are compared with their ranges. -/
theorem lieIn_of_drop {ranges : List ByteRange} {bs rest : Bytes}
    (h : text.toList.drop i = bs ++ rest) (hlength : bs.length = ranges.length) :
    ∃ v, lieIn text i ranges = .ok v ∧ (v = true ↔ LieIn ranges bs) := by
  induction ranges generalizing i bs with
  | nil =>
      obtain rfl := List.eq_nil_of_length_eq_zero hlength
      exact ⟨true, rfl, iff_of_true rfl .nil⟩
  | cons range ranges ih =>
      obtain ⟨b, bs, rfl⟩ := List.exists_cons_of_length_eq_add_one hlength
      obtain ⟨v, hv, hiff⟩ := ih (drop_succ h) (Nat.succ.inj hlength)
      unfold LieIn at hiff ⊢
      rw [List.forall₂_cons, ← hiff]
      have hrun : lieIn text i (range :: ranges)
          = if range.contains b = true then lieIn text (i + 1) ranges else .ok false := by
        rw [lieIn, byteAt_of_drop h]
        rfl
      rw [hrun]
      by_cases hb : range.contains b = true
      · rw [if_pos hb]
        exact ⟨v, hv, (and_iff_right hb).symm⟩
      · rw [if_neg hb]
        exact ⟨false, rfl, iff_of_false Bool.false_ne_true (fun h => hb h.1)⟩

/-- What stands at an index: a character with so many bytes behind its
lead byte, or no character. -/
inductive Found (text : Array UInt8) (i : Nat) : Option Nat → Prop
  | character (c : Char) (n : Nat)
      (h : String.utf8EncodeChar c ++ text.toList.drop (i + n + 1) = text.toList.drop i) :
      Found text i (some n)
  | none (h : ∀ c rest, String.utf8EncodeChar c ++ rest ≠ text.toList.drop i) : Found text i none

/-- A character in front is in the table: its lead byte, and behind it
a byte in each range. -/
theorem exists_ranges_of_encodeChar {lead : UInt8} {after rest : Bytes} {c : Char}
    (h : String.utf8EncodeChar c ++ rest = lead :: after) :
    ∃ ranges bs, followers? lead = some ranges ∧ LieIn ranges bs ∧ bs ++ rest = after := by
  obtain ⟨lead', ranges, bs, hlead, hbs, hc⟩ := spelled c
  rw [hc, List.cons_append] at h
  obtain ⟨rfl, hafter⟩ := List.cons.inj h
  exact ⟨ranges, bs, followers?_of_leads hlead, hbs, hafter⟩

/-- A byte that leads nothing is no character. -/
theorem followersAt?_of_none {lead : UInt8} {after : Bytes}
    (h : text.toList.drop i = lead :: after) (hlead : followers? lead = none) :
    followersAt? text i = .ok none := by
  unfold followersAt?
  rw [byteAt_of_drop h]
  simp only [bind, Except.bind, hlead]
  rfl

/-- Behind a lead byte the rest of the character is looked at, if the
text is that long. -/
theorem followersAt?_of_some {lead : UInt8} {after : Bytes} {ranges : List ByteRange}
    (h : text.toList.drop i = lead :: after) (hlead : followers? lead = some ranges) :
    followersAt? text i
      = if after.length < ranges.length then .ok none
        else (lieIn text (i + 1) ranges).map (fun v => if v then some ranges.length else none) := by
  have hsize : text.size - i = after.length + 1 := by
    rw [← Array.length_toList, ← List.length_drop, h, List.length_cons]
  unfold followersAt?
  rw [byteAt_of_drop h, hsize]
  simp only [bind, Except.bind, hlead, pure, Except.pure, Nat.add_lt_add_iff_right]
  split
  · rfl
  · cases lieIn text (i + 1) ranges with
    | error e => rfl
    | ok v => cases v <;> rfl

/-- At an index inside the text the check sees what stands there. -/
theorem exists_followersAt? (hi : i < text.size) :
    ∃ found, followersAt? text i = .ok found ∧ Found text i found := by
  obtain ⟨lead, after, hdrop⟩ : ∃ lead after, text.toList.drop i = lead :: after :=
    ⟨_, _, List.drop_eq_getElem_cons (by simpa using hi)⟩
  cases hlead : followers? lead with
  | none =>
      refine ⟨none, followersAt?_of_none hdrop hlead, .none ?_⟩
      intro c rest h
      obtain ⟨ranges, bs, hranges, -⟩ := exists_ranges_of_encodeChar (h.trans hdrop)
      rw [hlead] at hranges
      cases hranges
  | some ranges =>
      have hrun := followersAt?_of_some hdrop hlead
      -- a character here would have its bytes in these ranges
      have hchar : ∀ c rest, String.utf8EncodeChar c ++ rest = text.toList.drop i →
          ∃ bs, LieIn ranges bs ∧ bs ++ rest = after := by
        intro c rest h
        obtain ⟨ranges', bs, hranges, hbs, hafter⟩ := exists_ranges_of_encodeChar (h.trans hdrop)
        obtain rfl := Option.some.inj (hranges.symm.trans hlead)
        exact ⟨bs, hbs, hafter⟩
      by_cases hshort : after.length < ranges.length
      · rw [if_pos hshort] at hrun
        refine ⟨none, hrun, .none ?_⟩
        intro c rest h
        obtain ⟨bs, hbs, rfl⟩ := hchar c rest h
        have hlength := List.Forall₂.length_eq hbs
        rw [List.length_append] at hshort
        omega
      · rw [if_neg hshort] at hrun
        have hafter : text.toList.drop (i + 1)
            = after.take ranges.length ++ after.drop ranges.length := by
          rw [List.take_append_drop]
          exact drop_succ hdrop
        have hlength := List.length_take_of_le (Nat.le_of_not_lt hshort)
        obtain ⟨v, hv, hiff⟩ := lieIn_of_drop hafter hlength
        rw [hv] at hrun
        refine ⟨_, hrun, ?_⟩
        cases v with
        | true =>
            obtain ⟨c, hc⟩ := exists_char_of_leads (leads_of_followers? hlead) (hiff.1 rfl)
            apply Found.character c
            rw [Nat.add_right_comm, drop_add hafter hlength, hdrop, hc, List.cons_append,
              List.take_append_drop]
        | false =>
            apply Found.none
            intro c rest h
            obtain ⟨bs, hbs, rfl⟩ := hchar c rest h
            rw [List.take_left' (List.Forall₂.length_eq hbs).symm] at hiff
            exact Bool.false_ne_true (hiff.2 hbs)

/-- Inside the text something is left to be encoded. -/
theorem exists_cons_of_encode {chars : List Char} (hi : i < text.size)
    (h : encode chars = text.toList.drop i) : ∃ c rest, chars = c :: rest := by
  apply List.exists_cons_of_ne_nil
  rintro rfl
  rw [List.drop_eq_getElem_cons (by simpa using hi)] at h
  cases h

/-- From every index on the check is right about what is still there. -/
theorem exists_checkFrom (text : Array UInt8) (i : Nat) :
    ∃ v, checkFrom text i = .ok v
      ∧ (v = true ↔ ∃ chars, encode chars = text.toList.drop i) := by
  fun_induction checkFrom text i with
  | case1 i hi n hfound ih =>
      obtain ⟨v, hv, hiff⟩ := ih
      refine ⟨v, hv, hiff.trans ?_⟩
      obtain ⟨found, hsees, hstands⟩ := exists_followersAt? hi
      obtain rfl := Except.ok.inj (hsees.symm.trans hfound)
      cases hstands with
      | character c n h =>
          constructor
          · rintro ⟨chars, hchars⟩
            exact ⟨c :: chars, by rw [encode_cons, hchars, h]⟩
          · rintro ⟨chars, hchars⟩
            obtain ⟨c', chars, rfl⟩ := exists_cons_of_encode hi hchars
            -- the first character is the one found, as no other begins here
            rw [encode_cons, ← h] at hchars
            exact ⟨chars, (encodeChar_append_inj hchars).2⟩
  | case2 i hi hfound =>
      refine ⟨false, rfl, iff_of_false Bool.false_ne_true ?_⟩
      obtain ⟨found, hsees, hstands⟩ := exists_followersAt? hi
      obtain rfl := Except.ok.inj (hsees.symm.trans hfound)
      cases hstands with
      | none h =>
          rintro ⟨chars, hchars⟩
          obtain ⟨c, chars, rfl⟩ := exists_cons_of_encode hi hchars
          exact h c (encode chars) hchars
  | case3 i hi e herror =>
      obtain ⟨found, hsees, -⟩ := exists_followersAt? hi
      rw [herror] at hsees
      cases hsees
  | case4 i hi =>
      refine ⟨true, rfl, iff_of_true rfl ⟨[], ?_⟩⟩
      rw [List.drop_of_length_le (by simpa using hi)]
      rfl

end Walk

-- ============================================================ the check

/-- No byte behind the last is asked for. -/
theorem check_eq (bs : Bytes) : check bs = .ok (isValid bs) := by
  obtain ⟨v, hv, -⟩ := exists_checkFrom bs.toArray 0
  have hcheck : check bs = .ok v := hv
  rw [isValid, hcheck]

theorem isValid_iff {bs : Bytes} : isValid bs = true ↔ ∃ text, encode text = bs := by
  obtain ⟨v, hv, hiff⟩ := exists_checkFrom bs.toArray 0
  obtain rfl := Except.ok.inj (hv.symm.trans (check_eq bs))
  exact hiff

/-- The check comes to an end without asking for a byte behind the last,
and says of every byte string whether it is the encoding of a text. That
text is then the only one. -/
theorem check_decides (bs : Bytes) :
    check bs = .ok (isValid bs)
      ∧ (isValid bs = true ↔ ∃ text : List Char, encode text = bs)
      ∧ ∀ text text' : List Char, encode text = bs → encode text' = bs → text = text' := by
  refine ⟨check_eq bs, isValid_iff, ?_⟩
  intro text text' h h'
  exact encode_inj (h.trans h'.symm)

/-- The euro sign, in three bytes and from nothing else. -/
theorem check_decides_euro :
    isValid [0xe2, 0x82, 0xac] = true
      ∧ ∀ text : List Char, encode text = [0xe2, 0x82, 0xac] → text = ['€'] := by
  have heuro : encode ['€'] = [0xe2, 0x82, 0xac] := by decide
  obtain ⟨-, hvalid, honly⟩ := check_decides [0xe2, 0x82, 0xac]
  exact ⟨hvalid.2 ⟨_, heuro⟩, fun text h => honly text _ h heuro⟩

end TlsHello.Utf8
