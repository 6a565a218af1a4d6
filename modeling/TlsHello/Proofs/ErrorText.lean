/-
What an error's text tells.

A text is all that a log keeps of an error. This file says that nothing is
lost by it: from the text the error can be told, its kind and everything
its kind carries. What a record has besides, members that its kind does not
use, is not in the text, and records of no kind all have the same one
(`ErrorRecord.Alike`).

Two things could stand in the way. A text with a number in it goes through
a buffer, which would cut a text that is too long; it is large enough for
the longest numbers there are (`DecodeError.message_eq_text`). And the name
of a field may be any text at all, one with digits, blanks or null
characters in it, or none; so it must not be taken for another kind's text.

# The shape of the argument

A text is a front that is the same for all errors of a kind and the details
behind it. No front, and not the word for no kind either, goes on with
another, so equal texts have equal fronts (`front_eq_of_append_eq`): they
are of one kind and have equal details. The details are one text at most or
numbers, the only pair of which is parted by a blank, which is no digit
(`repr_pair_inj`). For the buffer, all but the name of a field is written
in characters of one byte each that are no end mark (`Plain`), so a length
is a number of bytes, and a number of 64 bits has twenty digits at most.
-/
import TlsHello.Error
import Mathlib.Data.List.Infix

namespace TlsHello

-- ================================================ statement vocabulary

/-- Two records have the same to say. -/
inductive ErrorRecord.Alike (r r' : ErrorRecord) : Prop
  /-- Neither is of a kind there is. -/
  | noKind (hr : 3 < r.kind) (hr' : 3 < r'.kind)
  | inputTooShort (hr : r.kind = 0) (hr' : r'.kind = 0)
      (needed : r.needed = r'.needed) (available : r.available = r'.available)
  | unexpectedContentType (hr : r.kind = 1) (hr' : r'.kind = 1) (actual : r.actual = r'.actual)
  | unexpectedHandshakeType (hr : r.kind = 2) (hr' : r'.kind = 2) (actual : r.actual = r'.actual)
  | truncated (hr : r.kind = 3) (hr' : r'.kind = 3) (field : r.field = r'.field)

-- ============================================================ plain text

/-- Characters of one byte each, and none of them an end mark. -/
def Plain (text : String) : Prop :=
  ∀ c ∈ text.toList, c.val ≤ 127 ∧ c ≠ endMark

theorem Plain.append {s t : String} (hs : Plain s) (ht : Plain t) : Plain (s ++ t) := by
  unfold Plain
  rw [String.toList_append]
  exact List.forall_mem_append.2 ⟨hs, ht⟩

/-- The length of a plain text is its number of bytes. -/
theorem Plain.utf8ByteSize_eq {text : String} (h : Plain text) :
    text.utf8ByteSize = text.length := by
  induction text using String.push_induction with
  | empty => rfl
  | push text c ih =>
      unfold Plain at h
      rw [String.toList_push] at h
      obtain ⟨htext, hc⟩ := List.forall_mem_append.1 h
      have hsize : c.utf8Size = 1 := Char.utf8Size_eq_one_iff.2 (hc c List.mem_cons_self).1
      rw [String.utf8ByteSize_push, String.length_push, ih htext, hsize]

/-- A plain text comes out of a buffer with room for it and its end mark. -/
theorem Plain.throughBuffer_eq {text : String} {size : Nat} (h : Plain text)
    (hsize : text.length < size) : throughBuffer size text = text := by
  have hfits : text.toList.length ≤ size - 1 := by
    rw [String.length_toList]
    omega
  have hmarks : ∀ c ∈ text.toList, decide (c ≠ endMark) = true := fun c hc =>
    decide_eq_true (h c hc).2
  unfold throughBuffer
  rw [List.take_of_length_le hfits, List.takeWhile_append_of_pos hmarks]
  simp

-- ======================================================= numbers as text

theorem isDigit_of_mem_repr {n : Nat} {c : Char} (h : c ∈ n.repr.toList) : c.isDigit = true := by
  rw [Nat.toList_repr] at h
  exact Nat.isDigit_of_mem_toDigits (by decide) (by decide) h

theorem plain_repr (n : Nat) : Plain n.repr := by
  intro c hc
  obtain ⟨hlow, hhigh⟩ := Char.isDigit_iff_toNat.1 (isDigit_of_mem_repr hc)
  have hval : c.toNat ≤ 127 := hhigh.trans (by decide)
  refine ⟨hval, ?_⟩
  rintro rfl
  exact absurd hlow (by decide)

/-- A number of 64 bits has twenty digits at most. -/
theorem length_repr_le (n : UInt64) : n.toNat.repr.length ≤ 20 := by
  rw [Nat.length_repr_le_iff (by decide)]
  exact n.toNat_lt.trans (by decide)

/-- A number can be read back from its digits. -/
theorem eq_of_repr_eq {m n : Nat} (h : m.repr = n.repr) : m = n := by
  rw [← String.toList_inj, Nat.toList_repr, Nat.toList_repr] at h
  rw [← @Nat.ofDigitChars_ten_toDigits m, ← @Nat.ofDigitChars_ten_toDigits n, h]

/-- Two numbers in a text can be told, since a blank is no digit. -/
theorem repr_pair_inj {m n m' n' : Nat}
    (h : m.repr ++ " bytes, have " ++ n.repr = m'.repr ++ " bytes, have " ++ n'.repr) :
    m = m' ∧ n = n' := by
  have hdigits : ∀ k l : Nat,
      (k.repr ++ " bytes, have " ++ l.repr).toList.takeWhile Char.isDigit = k.repr.toList := by
    intro k l
    rw [String.append_assoc, String.toList_append, String.toList_append,
      List.takeWhile_append_of_pos fun c hc => isDigit_of_mem_repr hc]
    exact List.append_nil _
  have hm : m = m' := by
    apply eq_of_repr_eq
    rw [← String.toList_inj, ← hdigits m n, ← hdigits m' n', h]
  rw [hm, String.append_right_inj] at h
  exact ⟨hm, eq_of_repr_eq h⟩

theorem plain_digitChar : ∀ i < 16, (Nat.digitChar i).val ≤ 127 ∧ Nat.digitChar i ≠ endMark := by
  decide

theorem digitChar_inj : ∀ i < 16, ∀ j < 16, Nat.digitChar i = Nat.digitChar j → i = j := by
  decide

theorem length_hexByte (b : UInt8) : (hexByte b).length = 2 := by
  simp [hexByte]

theorem plain_hexByte (b : UInt8) : Plain (hexByte b) := by
  have hb := b.toNat_lt
  unfold Plain hexByte
  rw [String.toList_ofList, List.forall_mem_cons, List.forall_mem_singleton]
  exact ⟨plain_digitChar _ (by omega), plain_digitChar _ (by omega)⟩

/-- A byte can be told from its two digits. -/
theorem hexByte_inj {b b' : UInt8} (h : hexByte b = hexByte b') : b = b' := by
  have hb := b.toNat_lt
  have hb' := b'.toNat_lt
  obtain ⟨hhigh, hlow⟩ := List.cons.inj (String.ofList_inj.1 h)
  have hsixteens := digitChar_inj _ (by omega) _ (by omega) hhigh
  have hones := digitChar_inj _ (by omega) _ (by omega) (List.cons.inj hlow).1
  apply UInt8.toNat.inj
  omega

-- ==================================================== fronts and details

namespace DecodeError

/-- What the texts of all errors of a kind begin with. -/
def front : DecodeError → String
  | inputTooShort .. => "buffer too short: need "
  | unexpectedContentType _ => "unexpected content type: expected 0x16 (Handshake), got 0x"
  | unexpectedHandshakeType _ => "unexpected handshake type: expected 0x01 (ClientHello), got 0x"
  | truncated _ => "truncated "

/-- What is behind the front. -/
def details : DecodeError → String
  | inputTooShort needed available => needed.toNat.repr ++ " bytes, have " ++ available.toNat.repr
  | unexpectedContentType actual => hexByte actual
  | unexpectedHandshakeType actual => hexByte actual
  | truncated field => field

/-- What a text can begin with, be it of a kind or of none. -/
def fronts : List String :=
  [(inputTooShort 0 0).front, (unexpectedContentType 0).front, (unexpectedHandshakeType 0).front,
    (truncated "").front, "unknown"]

theorem text_eq (e : DecodeError) : e.text = e.front ++ e.details := by
  cases e with
  | inputTooShort needed available =>
      have hassoc : ∀ s a t b : String, s ++ a ++ t ++ b = s ++ (a ++ t ++ b) := by
        intro s a t b
        rw [String.append_assoc, String.append_assoc, String.append_assoc]
      exact hassoc _ _ _ _
  | _ => rfl

theorem front_mem (e : DecodeError) : e.front ∈ fronts := by
  cases e <;> simp [front, fronts]

/-- None of them goes on with another. -/
theorem fronts_apart : ∀ s ∈ fronts, ∀ t ∈ fronts, s.toList <+: t.toList → s = t := by
  unfold fronts
  decide

/-- Two texts that are equal begin alike, whatever is behind. -/
theorem front_eq_of_append_eq {s t u v : String} (hs : s ∈ fronts) (ht : t ∈ fronts)
    (h : s ++ u = t ++ v) : s = t := by
  have hleft : s.toList <+: (s ++ u).toList := by
    rw [String.toList_append]
    exact List.prefix_append s.toList u.toList
  have hright : t.toList <+: (s ++ u).toList := by
    rw [h, String.toList_append]
    exact List.prefix_append t.toList v.toList
  rcases List.prefix_or_prefix_of_prefix hleft hright with hst | hts
  · exact fronts_apart s hs t ht hst
  · exact (fronts_apart t ht s hs hts).symm

/-- Errors with one text are one error. -/
theorem text_inj {e e' : DecodeError} (h : e.text = e'.text) : e = e' := by
  rw [text_eq, text_eq] at h
  have hfront : e.front = e'.front := front_eq_of_append_eq e.front_mem e'.front_mem h
  rw [hfront, String.append_right_inj] at h
  -- two kinds have two fronts, so a case is left for each kind
  cases e <;> cases e' <;> simp only [front, String.reduceEq] at hfront
  case inputTooShort needed available needed' available' =>
      obtain ⟨hneeded, havailable⟩ := repr_pair_inj h
      rw [UInt64.toNat.inj hneeded, UInt64.toNat.inj havailable]
  case unexpectedContentType => rw [hexByte_inj h]
  case unexpectedHandshakeType => rw [hexByte_inj h]
  case truncated => exact congrArg truncated h

/-- No error has the text of a record of no kind. -/
theorem text_ne_unknown (e : DecodeError) : e.text ≠ "unknown" := by
  intro h
  have hunknown : e.front ++ e.details = "unknown" ++ "" := by rw [← text_eq, h]; rfl
  have hfront := front_eq_of_append_eq e.front_mem (by decide) hunknown
  cases e <;> simp [front] at hfront

-- ============================================================ the buffer

variable {e : DecodeError}

theorem plain_front (e : DecodeError) : Plain e.front := by
  cases e <;> simp [front, Plain, endMark]

theorem message_eq_throughBuffer (h : ∀ field, e ≠ truncated field) :
    e.message = throughBuffer bufferSize e.text := by
  cases e with
  | truncated field => exact absurd rfl (h field)
  | _ => rfl

/-- Everything but the name of a field is plain. -/
theorem plain_text (h : ∀ field, e ≠ truncated field) : Plain e.text := by
  have hdetails : Plain e.details := by
    cases e with
    | inputTooShort needed available =>
        have hbetween : Plain " bytes, have " := by simp [Plain, endMark]
        exact ((plain_repr _).append hbetween).append (plain_repr _)
    | unexpectedContentType actual => exact plain_hexByte actual
    | unexpectedHandshakeType actual => exact plain_hexByte actual
    | truncated field => exact absurd rfl (h field)
  rw [text_eq]
  exact e.plain_front.append hdetails

/-- Everything but the name of a field is short: with two numbers of twenty
digits a text has 76 characters. -/
theorem length_text_lt (h : ∀ field, e ≠ truncated field) : e.text.length < bufferSize := by
  rw [text_eq, String.length_append]
  cases e with
  | inputTooShort needed available =>
      have hfront : "buffer too short: need ".length = 23 := rfl
      have hbetween : " bytes, have ".length = 13 := rfl
      have hneeded := length_repr_le needed
      have havailable := length_repr_le available
      simp only [front, details, String.length_append, bufferSize]
      omega
  | unexpectedContentType actual =>
      have hfront : "unexpected content type: expected 0x16 (Handshake), got 0x".length = 58 := rfl
      simp only [front, details, length_hexByte, bufferSize]
      omega
  | unexpectedHandshakeType actual =>
      have hfront : "unexpected handshake type: expected 0x01 (ClientHello), got 0x".length = 62 := rfl
      simp only [front, details, length_hexByte, bufferSize]
      omega
  | truncated field => exact absurd rfl (h field)

/-- The buffer cuts nothing off. -/
theorem message_eq_text (e : DecodeError) : e.message = e.text := by
  by_cases h : ∃ field, e = truncated field
  · obtain ⟨field, rfl⟩ := h
    rfl
  · rw [not_exists] at h
    rw [message_eq_throughBuffer h]
    exact (plain_text h).throughBuffer_eq (length_text_lt h)

end DecodeError

-- =========================================================== the records

namespace ErrorRecord

variable {r r' : ErrorRecord}

theorem cause?_eq_none_iff : r.cause? = none ↔ 3 < r.kind := by
  have hkind : 3 < r.kind ↔ r.kind ≠ 0 ∧ r.kind ≠ 1 ∧ r.kind ≠ 2 ∧ r.kind ≠ 3 := by
    simp only [UInt8.lt_iff_toNat_lt, ne_eq, ← UInt8.toNat_inj, UInt8.toNat_ofNat]
    omega
  rw [hkind]
  unfold cause?
  split <;> simp_all

theorem cause?_eq_inputTooShort_iff {needed available : UInt64} :
    r.cause? = some (.inputTooShort needed available)
      ↔ r.kind = 0 ∧ r.needed = needed ∧ r.available = available := by
  unfold cause?
  split <;> simp_all

theorem cause?_eq_unexpectedContentType_iff {actual : UInt8} :
    r.cause? = some (.unexpectedContentType actual) ↔ r.kind = 1 ∧ r.actual = actual := by
  unfold cause?
  split <;> simp_all

theorem cause?_eq_unexpectedHandshakeType_iff {actual : UInt8} :
    r.cause? = some (.unexpectedHandshakeType actual) ↔ r.kind = 2 ∧ r.actual = actual := by
  unfold cause?
  split <;> simp_all

theorem cause?_eq_truncated_iff {field : String} :
    r.cause? = some (.truncated field) ↔ r.kind = 3 ∧ r.field = field := by
  unfold cause?
  split <;> simp_all

/-- Records that have the same to say are those with the same cause. -/
theorem alike_iff : r.Alike r' ↔ r.cause? = r'.cause? := by
  constructor
  · intro h
    cases h with
    | noKind hr hr' => rw [cause?_eq_none_iff.2 hr, cause?_eq_none_iff.2 hr']
    | inputTooShort hr hr' needed available =>
        rw [cause?_eq_inputTooShort_iff.2 ⟨hr, needed, available⟩,
          cause?_eq_inputTooShort_iff.2 ⟨hr', rfl, rfl⟩]
    | unexpectedContentType hr hr' actual =>
        rw [cause?_eq_unexpectedContentType_iff.2 ⟨hr, actual⟩,
          cause?_eq_unexpectedContentType_iff.2 ⟨hr', rfl⟩]
    | unexpectedHandshakeType hr hr' actual =>
        rw [cause?_eq_unexpectedHandshakeType_iff.2 ⟨hr, actual⟩,
          cause?_eq_unexpectedHandshakeType_iff.2 ⟨hr', rfl⟩]
    | truncated hr hr' field =>
        rw [cause?_eq_truncated_iff.2 ⟨hr, field⟩, cause?_eq_truncated_iff.2 ⟨hr', rfl⟩]
  · intro h
    cases hcause : r'.cause? with
    | none => exact .noKind (cause?_eq_none_iff.1 (h.trans hcause)) (cause?_eq_none_iff.1 hcause)
    | some e =>
        rw [hcause] at h
        cases e with
        | inputTooShort needed available =>
            obtain ⟨hr, rfl, rfl⟩ := cause?_eq_inputTooShort_iff.1 h
            obtain ⟨hr', hneeded, havailable⟩ := cause?_eq_inputTooShort_iff.1 hcause
            exact .inputTooShort hr hr' hneeded.symm havailable.symm
        | unexpectedContentType actual =>
            obtain ⟨hr, rfl⟩ := cause?_eq_unexpectedContentType_iff.1 h
            obtain ⟨hr', hactual⟩ := cause?_eq_unexpectedContentType_iff.1 hcause
            exact .unexpectedContentType hr hr' hactual.symm
        | unexpectedHandshakeType actual =>
            obtain ⟨hr, rfl⟩ := cause?_eq_unexpectedHandshakeType_iff.1 h
            obtain ⟨hr', hactual⟩ := cause?_eq_unexpectedHandshakeType_iff.1 hcause
            exact .unexpectedHandshakeType hr hr' hactual.symm
        | truncated field =>
            obtain ⟨hr, rfl⟩ := cause?_eq_truncated_iff.1 h
            obtain ⟨hr', hfield⟩ := cause?_eq_truncated_iff.1 hcause
            exact .truncated hr hr' hfield.symm

theorem message_of_cause? {e : DecodeError} (h : r.cause? = some e) : r.message = e.text := by
  rw [message, h]
  exact e.message_eq_text

theorem message_of_no_cause (h : r.cause? = none) : r.message = "unknown" := by
  rw [message, h]
  rfl

/-- Records with the same text are those with the same cause. -/
theorem message_eq_iff : r.message = r'.message ↔ r.cause? = r'.cause? := by
  constructor
  · intro h
    cases hr : r.cause? with
    | none =>
        rw [message_of_no_cause hr] at h
        cases hr' : r'.cause? with
        | none => rfl
        | some e' => exact absurd (message_of_cause? hr' ▸ h.symm) e'.text_ne_unknown
    | some e =>
        rw [message_of_cause? hr] at h
        cases hr' : r'.cause? with
        | none => exact absurd (message_of_no_cause hr' ▸ h) e.text_ne_unknown
        | some e' =>
            rw [message_of_cause? hr'] at h
            rw [DecodeError.text_inj h]
  · intro h
    rw [message, message, h]

end ErrorRecord

/-- The text of a record tells its kind and what its kind carries, and
nothing else. No text is cut off by the buffer: the longest that goes
through it fits it with its end mark. So errors that are made as such, and
not put together member by member, can be told by their texts. -/
theorem message_tells_cause :
    (∀ r r' : ErrorRecord, r.message = r'.message ↔ r.Alike r')
    ∧ (∀ (r : ErrorRecord) (e : DecodeError), r.cause? = some e →
        r.message = e.text
        ∧ ((∀ field, e ≠ .truncated field) → e.text.utf8ByteSize + 1 ≤ DecodeError.bufferSize))
    ∧ ∀ e e' : DecodeError, e.toRecord.message = e'.toRecord.message ↔ e.toRecord = e'.toRecord := by
  refine ⟨?_, ?_, ?_⟩
  · intro r r'
    rw [ErrorRecord.message_eq_iff, ErrorRecord.alike_iff]
  · intro r e hcause
    refine ⟨ErrorRecord.message_of_cause? hcause, ?_⟩
    intro hkind
    rw [(DecodeError.plain_text hkind).utf8ByteSize_eq]
    exact DecodeError.length_text_lt hkind
  · intro e e'
    constructor
    · intro h
      rw [ErrorRecord.message_eq_iff, ErrorRecord.cause?_toRecord, ErrorRecord.cause?_toRecord] at h
      rw [Option.some.inj h]
    · intro h
      rw [h]

/-- The longest numbers, in a record that holds more than they need; two
kinds that do not exist; a field that a null character goes through. -/
theorem message_tells_cause_longest :
    ErrorRecord.message ⟨0, 0xffffffffffffffff, 0xffffffffffffffff, 7, "server name"⟩
        = (DecodeError.inputTooShort 0xffffffffffffffff 0xffffffffffffffff).toRecord.message
      ∧ (DecodeError.inputTooShort 0xffffffffffffffff 0xffffffffffffffff).text.utf8ByteSize + 1
        ≤ DecodeError.bufferSize
      ∧ ErrorRecord.message ⟨4, 5, 2, 0, ""⟩ = ErrorRecord.message ⟨255, 0, 0, 0, "random"⟩
      ∧ ErrorRecord.message ⟨3, 0, 0, 0, "a\x00b"⟩ ≠ ErrorRecord.message ⟨3, 0, 0, 0, "a"⟩
      ∧ (DecodeError.truncated "").toRecord.message ≠ (DecodeError.truncated " ").toRecord.message := by
  obtain ⟨halike, hfits, hmade⟩ := message_tells_cause
  refine ⟨?_, ?_, ?_, ?_, ?_⟩
  · exact (halike _ _).2 (.inputTooShort rfl rfl rfl rfl)
  · have hcause : (DecodeError.inputTooShort 0xffffffffffffffff 0xffffffffffffffff).toRecord.cause?
        = some (.inputTooShort 0xffffffffffffffff 0xffffffffffffffff) := rfl
    exact (hfits _ _ hcause).2 (by simp)
  · exact (halike _ _).2 (.noKind (by decide) (by decide))
  · intro h
    have hsame := (halike _ _).1 h
    rw [ErrorRecord.alike_iff] at hsame
    simp [ErrorRecord.cause?] at hsame
  · intro h
    have hsame := (hmade _ _).1 h
    simp [DecodeError.toRecord] at hsame

end TlsHello
