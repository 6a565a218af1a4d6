/-
Why a ClientHello is refused.

There are four causes, and each carries what its message says: how many
bytes were needed, the byte that was found, or the name of the field in
which the input ended. `DecodeError` is that; every decoder of the
library fails with one.

`ErrorRecord` is the flat form in which an error is stored beside
others: a number for the kind and all the members that any kind uses. A
record holds more than an error does (members its kind does not use,
kinds that do not exist), so it is compared member by member, while its
text depends on the cause alone.
-/

namespace TlsHello

/-- What stopped a decoder. -/
inductive DecodeError where
  /-- The whole input is shorter than anything of its kind can be. -/
  | inputTooShort (needed available : UInt64)
  /-- The record is of another content type than a handshake. -/
  | unexpectedContentType (actual : UInt8)
  /-- The handshake message is of another type than a ClientHello. -/
  | unexpectedHandshakeType (actual : UInt8)
  /-- The input, or the enclosing field, ended inside the named field. -/
  | truncated (field : String)
deriving Repr, DecidableEq

/-- A byte as two lower-case hexadecimal digits. -/
def hexByte (b : UInt8) : String :=
  String.ofList [Nat.digitChar (b.toNat / 16), Nat.digitChar (b.toNat % 16)]

/-- What ends a text in a buffer: the null character. -/
def endMark : Char := '\x00'

/-- What is read back from a buffer of `size` characters that a text was
written into: of the text and the end mark behind what there is room for,
everything in front of the first end mark. -/
def throughBuffer (size : Nat) (text : String) : String :=
  String.ofList ((text.toList.take (size - 1) ++ [endMark]).takeWhile (· ≠ endMark))

namespace DecodeError

/-- The kind of an error, as a word. -/
def kindName : DecodeError → String
  | inputTooShort .. => "input_too_short"
  | unexpectedContentType _ => "unexpected_content_type"
  | unexpectedHandshakeType _ => "unexpected_handshake_type"
  | truncated _ => "truncated"

/-- What there is to say of an error: its kind with everything the kind
carries. -/
def text : DecodeError → String
  | inputTooShort needed available =>
      "buffer too short: need " ++ needed.toNat.repr
        ++ " bytes, have " ++ available.toNat.repr
  | unexpectedContentType actual =>
      "unexpected content type: expected 0x16 (Handshake), got 0x" ++ hexByte actual
  | unexpectedHandshakeType actual =>
      "unexpected handshake type: expected 0x01 (ClientHello), got 0x" ++ hexByte actual
  | truncated field => "truncated " ++ field

/-- How long a text with a number in it can be, its end mark included. -/
def bufferSize : Nat := 96

/-- The text of an error. A text with a number is put into a buffer; the
name of a field, which may be of any length, is not. -/
def message (e : DecodeError) : String :=
  match e with
  | truncated _ => e.text
  | _ => throughBuffer bufferSize e.text

end DecodeError

-- ========================================================= the flat form

/-- An error as a number for its kind and the members of all kinds. -/
structure ErrorRecord where
  kind : UInt8 := 3
  needed : UInt64 := 0
  available : UInt64 := 0
  actual : UInt8 := 0
  field : String := ""
deriving Repr, DecidableEq, Inhabited

namespace DecodeError

/-- The record of an error; members that its kind does not use are zero
or empty. -/
def toRecord : DecodeError → ErrorRecord
  | inputTooShort needed available => { kind := 0, needed, available }
  | unexpectedContentType actual => { kind := 1, actual }
  | unexpectedHandshakeType actual => { kind := 2, actual }
  | truncated field => { kind := 3, field }

end DecodeError

namespace ErrorRecord

/-- The error that a record stands for; none if its kind is no kind. -/
def cause? (r : ErrorRecord) : Option DecodeError :=
  match r.kind with
  | 0 => some (.inputTooShort r.needed r.available)
  | 1 => some (.unexpectedContentType r.actual)
  | 2 => some (.unexpectedHandshakeType r.actual)
  | 3 => some (.truncated r.field)
  | _ => none

/-- The word for a record's kind, `unknown` where there is none. -/
def kindName (r : ErrorRecord) : String :=
  (r.cause?.map DecodeError.kindName).getD "unknown"

/-- The text of a record: that of its cause, `unknown` without one. -/
def message (r : ErrorRecord) : String :=
  (r.cause?.map DecodeError.message).getD "unknown"

@[simp] theorem cause?_toRecord (e : DecodeError) : e.toRecord.cause? = some e := by
  cases e <;> rfl

@[simp] theorem kindName_toRecord (e : DecodeError) : e.toRecord.kindName = e.kindName := by
  simp [kindName]

@[simp] theorem message_toRecord (e : DecodeError) : e.toRecord.message = e.message := by
  simp [message]

end ErrorRecord

end TlsHello
