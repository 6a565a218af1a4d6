/-
Strict UTF-8.

The encoding of a character is a lead byte and as many further bytes as
the lead byte asks for. All further bytes lie between 0x80 and 0xbf, but
after some lead bytes the first of them is held to a narrower range:
that is what rules out overlong forms (0xe0, 0xf0), surrogates (0xed)
and code points past the last (0xf4).

A text is checked by index, character by character. The check sees
whether the text ends inside a character before it asks for the bytes of
that character. To ask for a byte behind the end is an error of its own
(`byteAt`), which the check would hand on, so that none is ever asked for
is a fact about the check and not about how bytes are asked for.
-/
import TlsHello.Bytes

namespace TlsHello.Utf8

/-- A range of byte values, both ends included. -/
structure ByteRange where
  first : UInt8
  last : UInt8
deriving DecidableEq, Repr

/-- The byte lies in the range. -/
def ByteRange.contains (r : ByteRange) (b : UInt8) : Bool :=
  r.first ≤ b && b ≤ r.last

/-- Any continuation byte. -/
def continuation : ByteRange := ⟨0x80, 0xbf⟩

/-- The ranges of the bytes that have to follow a lead byte; none if the
byte begins no character. -/
def followers? (lead : UInt8) : Option (List ByteRange) :=
  if lead < 0x80 then some []
  else if lead < 0xc2 then none
  else if lead < 0xe0 then some [continuation]
  else if lead = 0xe0 then some [⟨0xa0, 0xbf⟩, continuation]
  else if lead = 0xed then some [⟨0x80, 0x9f⟩, continuation]
  else if lead < 0xf0 then some [continuation, continuation]
  else if lead = 0xf0 then some [⟨0x90, 0xbf⟩, continuation, continuation]
  else if lead < 0xf4 then some [continuation, continuation, continuation]
  else if lead = 0xf4 then some [⟨0x80, 0x8f⟩, continuation, continuation]
  else none

-- ================================================ bytes asked for by index

/-- A byte was asked for at an index behind the end. -/
structure OutOfBounds where
  index : Nat
deriving DecidableEq, Repr

/-- The byte at an index. -/
def byteAt (text : Array UInt8) (i : Nat) : Except OutOfBounds UInt8 :=
  match text[i]? with
  | some b => .ok b
  | none => .error ⟨i⟩

/-- The bytes from an index on lie in the ranges, one in each. Nothing is
asked for behind the first that does not. -/
def lieIn (text : Array UInt8) : (i : Nat) → List ByteRange → Except OutOfBounds Bool
  | _, [] => .ok true
  | i, range :: ranges => do
      if range.contains (← byteAt text i) then lieIn text (i + 1) ranges else return false

/-- How many bytes the character at an index has besides its lead byte;
nothing if no character is there, or not all of it. -/
def followersAt? (text : Array UInt8) (i : Nat) : Except OutOfBounds (Option Nat) := do
  match followers? (← byteAt text i) with
  | none => return none
  | some ranges =>
      if text.size - i < ranges.length + 1 then return none
      if ← lieIn text (i + 1) ranges then return some ranges.length else return none

/-- The text is whole characters from an index on. -/
def checkFrom (text : Array UInt8) (i : Nat) : Except OutOfBounds Bool :=
  if i < text.size then
    match followersAt? text i with
    | .ok (some n) => checkFrom text (i + n + 1)
    | .ok none => .ok false
    | .error e => .error e
  else .ok true
termination_by text.size - i

/-- Goes through the bytes from the first to the last. -/
def check (bs : Bytes) : Except OutOfBounds Bool := checkFrom bs.toArray 0

/-- The bytes are the UTF-8 encoding of some text. -/
def isValid (bs : Bytes) : Bool :=
  match check bs with
  | .ok valid => valid
  | .error _ => false

end TlsHello.Utf8
