/-
Records around messages.

A record puts five bytes in front of a message: a content type, two bytes
of version that nobody looks at, and the length of the message. So there is
little that a record can do to a message. If its header is complete, of the
right type and tells the truth about the bytes that are there, then what
the record is decoded to is what the message in it is decoded to, value or
error; in the three other cases the error is the header's.

`RecordOutcome` lists the four cases without reading anything, and
`ofRecord_refines` says that decoding a record is what it lists. That takes
in a record whose message ends early although the input goes on, and one
with no message in it at all.

# The shape of the argument

A complete record has a payload that can be cut out of the input
(`payload?`), and that payload is what the reader takes
(`recordPayload_of_payload?`). Whether it is complete is decided by the
header in closed form, so the cases of an input are gone through once
(`ofRecord_cases`).
-/
import TlsHello.Proofs.Prefix

namespace TlsHello.Hello

variable {input message : Bytes} {outcome : Except DecodeError Hello} {h : Hello}

-- ==================================================== complete or not

/-- The payload of the record at the front of the input, if the record is
complete. -/
def payload? (input : Bytes) : Option Bytes :=
  if 5 ≤ input.length ∧ input.head? = some recordType
      ∧ 5 + recordLength input ≤ input.length then
    some ((input.drop 5).take (recordLength input))
  else none

theorem recordPayload_of_payload? (h : payload? input = some message) :
    recordPayload input = .ok message := by
  unfold payload? at h
  split at h
  next hcomplete =>
    obtain ⟨hheader, hhead, hcomplete⟩ := hcomplete
    obtain ⟨major, minor, rest, rfl, hrest⟩ := exists_header hhead hheader
    rw [recordLength_cons, List.length_cons, List.length_cons, List.length_cons] at hcomplete
    rw [recordPayload_run major minor rest hrest, if_neg (by omega)]
    exact congrArg Except.ok (Option.some.inj h)
  next => cases h

/-- A complete record is decoded as its payload is. -/
theorem ofRecord_of_payload? (h : payload? input = some message) :
    ofRecord input = ofHandshake message := by
  rw [ofRecord, recordPayload_of_payload? h]
  rfl

theorem ofRecord_of_cut (hheader : 5 ≤ input.length) (hhead : input.head? = some recordType)
    (hcut : input.length < 5 + recordLength input) :
    ofRecord input = .error (.truncated "record payload") := by
  obtain ⟨major, minor, rest, rfl, hrest⟩ := exists_header hhead hheader
  rw [recordLength_cons, List.length_cons, List.length_cons, List.length_cons] at hcut
  have hrun := recordPayload_run major minor rest hrest
  rw [if_pos (by omega)] at hrun
  exact ofRecord_of_error hrun

/-- What the header decides about an input to be read as a record. -/
theorem ofRecord_cases (input : Bytes) :
    (input.length < 5 ∧ ofRecord input = .error (.inputTooShort 5 (.ofNat input.length)))
    ∨ (∃ x, 5 ≤ input.length ∧ input.head? = some x ∧ x ≠ recordType
        ∧ ofRecord input = .error (.unexpectedContentType x))
    ∨ (5 ≤ input.length ∧ input.head? = some recordType
        ∧ input.length < 5 + recordLength input
        ∧ ofRecord input = .error (.truncated "record payload"))
    ∨ ∃ message, payload? input = some message ∧ ofRecord input = ofHandshake message := by
  by_cases hshort : input.length < 5
  · exact .inl ⟨hshort, ofRecord_of_error (recordPayload_of_short input hshort)⟩
  have hheader : 5 ≤ input.length := Nat.le_of_not_lt hshort
  cases hhead : input.head? with
  | none =>
      rw [List.head?_eq_none_iff.1 hhead] at hheader
      cases hheader
  | some x =>
      by_cases hx : x = recordType
      · subst hx
        by_cases hcut : input.length < 5 + recordLength input
        · exact .inr (.inr (.inl ⟨hheader, rfl, hcut, ofRecord_of_cut hheader hhead hcut⟩))
        · have hpayload : payload? input = some _ :=
            if_pos ⟨hheader, hhead, Nat.le_of_not_lt hcut⟩
          exact .inr (.inr (.inr ⟨_, hpayload, ofRecord_of_payload? hpayload⟩))
      · exact .inr (.inl ⟨x, hheader, rfl, hx, ofRecord_of_ne hheader hhead hx⟩)

theorem ofRecord_frameRecord (h : message.length < 256 ^ 2) (major minor : UInt8) :
    ofRecord (frameRecord major minor message) = ofHandshake message := by
  rw [← List.append_nil (frameRecord major minor message), ofRecord_frameRecord_append h]

-- ======================================================= the four cases

/-- How an input is answered that is to be a record: three ways in which
the header is wrong, and the answer to the message in the record. -/
inductive RecordOutcome (input : Bytes) : Except DecodeError Hello → Prop
  | short (hlength : input.length < 5) :
      RecordOutcome input (.error (.inputTooShort 5 (.ofNat input.length)))
  | content {x : UInt8} (hlength : 5 ≤ input.length) (hhead : input.head? = some x)
      (hx : x ≠ 0x16) : RecordOutcome input (.error (.unexpectedContentType x))
  | cut (hlength : 5 ≤ input.length) (hhead : input.head? = some 0x16)
      (hdeclared : input.length - 5 < recordLength input) :
      RecordOutcome input (.error (.truncated "record payload"))
  | message {message trailing : Bytes} {major minor : UInt8} (hfits : message.length < 256 ^ 2)
      (hinput : 0x16 :: major :: minor :: (Bytes.vector 2 message ++ trailing) = input) :
      RecordOutcome input (ofHandshake message)

theorem recordOutcome_ofRecord (input : Bytes) : RecordOutcome input (ofRecord input) := by
  rcases ofRecord_cases input with ⟨hshort, he⟩ | ⟨x, hheader, hhead, hx, he⟩
    | ⟨hheader, hhead, hcut, he⟩ | ⟨message, hmessage, he⟩
  · rw [he]
    exact .short hshort
  · rw [he]
    exact .content hheader hhead hx
  · rw [he]
    exact .cut hheader hhead (by omega)
  · rw [he]
    obtain ⟨hfits, major, minor, trailing, hinput⟩ :=
      recordPayload_eq_ok_iff.1 (recordPayload_of_payload? hmessage)
    exact .message hfits hinput

theorem RecordOutcome.eq (houtcome : RecordOutcome input outcome) : ofRecord input = outcome := by
  cases houtcome with
  | short hlength => exact ofRecord_of_error (recordPayload_of_short input hlength)
  | content hlength hhead hx => exact ofRecord_of_ne hlength hhead hx
  | cut hlength hhead hdeclared => exact ofRecord_of_cut hlength hhead (by omega)
  | @message message trailing major minor hfits hinput =>
      rw [← hinput]
      exact ofRecord_frameRecord_append hfits major minor trailing

/-- A record is decoded to what the message in it is decoded to, error or
value; if there is no such message, the header is the reason. So a record
is accepted exactly when it is one around a message that is accepted. -/
theorem ofRecord_refines :
    (∀ (message : Bytes) (major minor : UInt8) (trailing : Bytes), message.length < 256 ^ 2 →
      ofRecord (0x16 :: major :: minor :: (Bytes.vector 2 message ++ trailing))
        = ofHandshake message)
    ∧ (∀ (input : Bytes) (outcome : Except DecodeError Hello),
        ofRecord input = outcome ↔ RecordOutcome input outcome)
    ∧ ∀ (input : Bytes) (h : Hello), ofRecord input = .ok h
        ↔ ∃ (message : Bytes) (major minor : UInt8) (trailing : Bytes),
            message.length < 256 ^ 2
            ∧ 0x16 :: major :: minor :: (Bytes.vector 2 message ++ trailing) = input
            ∧ ofHandshake message = .ok h := by
  refine ⟨fun message major minor trailing hfits => ?_, fun input outcome => ?_,
    fun input h => ofRecord_eq_ok_iff⟩
  · exact ofRecord_frameRecord_append hfits major minor trailing
  · constructor
    · intro h
      rw [← h]
      exact recordOutcome_ofRecord input
    · exact RecordOutcome.eq

/-- A record with nothing in it is refused as an empty message is, although
a message seems to follow; one that ends early is refused for that. -/
theorem ofRecord_refines_empty :
    ofRecord [0x16, 0x03, 0x01, 0x00, 0x00, 0x01, 0x00] = ofHandshake []
    ∧ ofRecord [0x16, 0x03, 0x01, 0x00, 0x02, 0x01] = .error (.truncated "record payload") := by
  obtain ⟨hwrapped, houtcome, -⟩ := ofRecord_refines
  refine ⟨hwrapped [] 0x03 0x01 [0x01, 0x00] (by decide), (houtcome _ _).2 ?_⟩
  exact .cut (by decide) rfl (by decide)

end TlsHello.Hello
