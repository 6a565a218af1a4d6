/-
Texts in a row.

A byte string can be cut in two anywhere, also inside a character. This
file says what the check makes of the halves: a half that is text does not
count. What is in front of it or behind it is checked as it would be alone,
so nothing that is wrong with a byte string is mended by text next to it,
and a text that is cut falls into two texts or into two strings neither of
which is one.

# The shape of the argument

The check goes forward only, and text in front of it is gone through
character by character, since a byte string begins with one character at
most (`exists_of_text_append`). Text behind is another matter. The bytes in
front of it may be no text, and may end in a character that is not
complete and still asks for bytes. What it asks for are continuation bytes
(`continuation_of_cut`), and no character begins with one
(`head_not_continuation`). So the text behind begins where a character
begins, by induction along the characters of the whole
(`exists_of_append_text`).
-/
import TlsHello.Proofs.Utf8

namespace TlsHello.Utf8

variable {a b rest : Bytes} {lead first : UInt8} {ranges : List ByteRange}
  {text front back : List Char} {c : Char}

-- ============================================= lead and continuation bytes

/-- No byte is both: what leads a character is in no range behind one. -/
theorem not_continuation_of_leads (h : Leads lead ranges) :
    continuation.contains lead = false := by
  rw [Bool.eq_false_iff, Ne, contains_continuation_iff]
  cases h <;> omega

theorem range_of_leads (h : Leads lead ranges) :
    ∀ r ∈ ranges, 0x80 ≤ r.first.toNat ∧ r.last.toNat ≤ 0xbf := by
  cases h <;> decide

/-- All bytes behind a lead byte are continuation bytes. -/
theorem continuation_of_lieIn (hlead : Leads lead ranges) (h : LieIn ranges b) :
    ∀ x ∈ b, continuation.contains x = true := by
  have hranges := range_of_leads hlead
  clear hlead
  induction h with
  | nil => exact List.forall_mem_nil _
  | @cons range x ranges b hx _ ih =>
      obtain ⟨hrange, hranges⟩ := List.forall_mem_cons.1 hranges
      exact List.forall_mem_cons.2 ⟨contains_continuation_of hrange.1 hrange.2 hx, ih hranges⟩

/-- Where a character is cut, a continuation byte comes next. -/
theorem continuation_of_cut (h : String.utf8EncodeChar c = a ++ first :: rest) (ha : a ≠ []) :
    continuation.contains first = true := by
  obtain ⟨lead, ranges, bs, hlead, hbs, hc⟩ := spelled c
  obtain ⟨x, a, rfl⟩ := List.exists_cons_of_ne_nil ha
  obtain ⟨-, hbehind⟩ := List.cons.inj (hc.symm.trans h)
  exact continuation_of_lieIn hlead hbs first (by simp [hbehind])

/-- A text does not begin with a continuation byte. -/
theorem head_not_continuation (h : encode text = first :: rest) :
    continuation.contains first = false := by
  cases text with
  | nil => cases h
  | cons c text =>
      obtain ⟨lead, ranges, bs, hlead, -, hc⟩ := spelled c
      rw [encode_cons, hc, List.cons_append] at h
      obtain ⟨rfl, -⟩ := List.cons.inj h
      exact not_continuation_of_leads hlead

-- ===================================================== one of two is text

theorem encode_append (front back : List Char) :
    encode (front ++ back) = encode front ++ encode back := List.flatMap_append

/-- What stands behind a text in a text is a text. -/
theorem exists_of_text_append (h : encode text = encode front ++ b) : ∃ back, encode back = b := by
  induction front generalizing text with
  | nil => exact ⟨text, h⟩
  | cons c front ih =>
      cases text with
      | nil => exact absurd (List.append_eq_nil_iff.1 h.symm).1 (encode_cons_ne_nil c front)
      | cons c' text =>
          rw [encode_cons, encode_cons, List.append_assoc] at h
          exact ih (encodeChar_append_inj h).2

/-- What stands in front of a text in a text is a text. -/
theorem exists_of_append_text (h : encode text = a ++ encode back) :
    ∃ front, encode front = a := by
  induction text generalizing a with
  | nil => exact ⟨[], (List.append_eq_nil_iff.1 h.symm).1.symm⟩
  | cons c text ih =>
      rw [encode_cons] at h
      rcases List.append_eq_append_iff.1 h with ⟨between, ha, hrest⟩ | ⟨between, hc, hback⟩
      · -- the first character ends before the text behind begins
        obtain ⟨front, hfront⟩ := ih hrest
        exact ⟨c :: front, by rw [encode_cons, hfront, ha]⟩
      · -- it reaches up to the text behind; cut by it, it would be continued there
        cases between with
        | nil =>
            have hchar : encode [c] = String.utf8EncodeChar c := List.append_nil _
            exact ⟨[c], by rw [hchar, hc, List.append_nil]⟩
        | cons first between =>
            by_cases hempty : a = []
            · exact ⟨[], hempty.symm⟩
            · have hcut := continuation_of_cut hc hempty
              rw [head_not_continuation hback] at hcut
              cases hcut

-- ============================================================== the check

theorem isValid_append_of_left (h : isValid a = true) (b : Bytes) :
    isValid (a ++ b) = isValid b := by
  obtain ⟨front, rfl⟩ := isValid_iff.1 h
  rw [Bool.eq_iff_iff, isValid_iff, isValid_iff]
  constructor
  · rintro ⟨text, htext⟩
    exact exists_of_text_append htext
  · rintro ⟨back, rfl⟩
    exact ⟨front ++ back, encode_append front back⟩

theorem isValid_append_of_right (h : isValid b = true) (a : Bytes) :
    isValid (a ++ b) = isValid a := by
  obtain ⟨back, rfl⟩ := isValid_iff.1 h
  rw [Bool.eq_iff_iff, isValid_iff, isValid_iff]
  constructor
  · rintro ⟨text, htext⟩
    exact exists_of_append_text htext
  · rintro ⟨front, rfl⟩
    exact ⟨front ++ back, encode_append front back⟩

/-- Next to text the check is the check of the rest. So two texts in a row
are a text, no text around a byte string makes it one, and the halves of a
text are both text or neither of them is. -/
theorem isValid_append (a b : Bytes) :
    (isValid a = true → isValid (a ++ b) = isValid b)
      ∧ (isValid b = true → isValid (a ++ b) = isValid a)
      ∧ (isValid a = true → isValid b = true → isValid (a ++ b) = true)
      ∧ (isValid a = false → ∀ front back, isValid front = true → isValid back = true →
          isValid (front ++ a ++ back) = false)
      ∧ (isValid (a ++ b) = true → isValid a = isValid b) := by
  refine ⟨fun ha => isValid_append_of_left ha b, fun hb => isValid_append_of_right hb a, ?_, ?_, ?_⟩
  · intro ha hb
    rw [isValid_append_of_left ha, hb]
  · intro ha front back hfront hback
    rw [isValid_append_of_right hback, isValid_append_of_left hfront, ha]
  · intro hab
    -- if one half is text, the other is what the whole is
    have hleft : isValid a = true → isValid b = true := fun ha => by
      rw [← isValid_append_of_left ha b, hab]
    have hright : isValid b = true → isValid a = true := fun hb => by
      rw [← isValid_append_of_right hb a, hab]
    exact Bool.eq_iff_iff.2 ⟨hleft, hright⟩

/-- The first two bytes of the euro sign ask for a third; the text behind
them does not give it. The third one does, and then neither half is text. -/
theorem isValid_append_euro :
    isValid ([0xe2, 0x82] ++ [0x61]) = false
      ∧ isValid ([0xc3, 0xa4] ++ [0xe2, 0x82] ++ [0x61]) = false
      ∧ isValid [0xe2, 0x82] = isValid [0xac]
      ∧ isValid ([0xe2, 0x82, 0xac] ++ [0x61]) = true := by
  obtain ⟨-, hright, -, haround, -⟩ := isValid_append [0xe2, 0x82] [0x61]
  obtain ⟨-, -, -, -, hhalves⟩ := isValid_append [0xe2, 0x82] [0xac]
  obtain ⟨-, -, hboth, -, -⟩ := isValid_append [0xe2, 0x82, 0xac] [0x61]
  have hcut : isValid [0xe2, 0x82] = false := by decide +kernel
  have hletter : isValid [0x61] = true := by decide +kernel
  refine ⟨?_, ?_, ?_, ?_⟩
  · rw [hright hletter, hcut]
  · exact haround hcut [0xc3, 0xa4] [0x61] (by decide +kernel) hletter
  · exact hhalves (by decide +kernel)
  · exact hboth (by decide +kernel) hletter

end TlsHello.Utf8
