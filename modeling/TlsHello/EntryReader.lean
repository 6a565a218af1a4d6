/-
Lists, read entry by entry and field by field.

A list is read by a loop: while enough bytes are left for another entry
to be tried, one is read, each of its fields under its own name, and then
dealt with. What is enough depends on the list. For some it is a single
byte, so the list has to end with an entry; for others it is an entry's
header, and what is shorter is ignored.

The test ahead of the loop and the reads inside it are separate things,
and so are their failures: a field may have a name that no error ever
says, because the test has already seen its bytes.

While a list is read, GREASE that is met is noted (`Scan`), and the note
stays when a later entry turns out to be cut off.
-/
import TlsHello.Entry
import TlsHello.Grease
import TlsHello.Reader

namespace TlsHello

/-- Work that may fail, and that notes on the way whether GREASE was met.
What was noted before a failure stays noted. -/
abbrev Scan (α : Type) := ExceptT DecodeError (StateM Bool) α

namespace Scan

/-- What the work comes to when GREASE was or was not met before it, and
whether GREASE is met by its end. -/
def outcome (work : Scan α) (sawGrease : Bool) : Except DecodeError (α × Bool) :=
  match work.run.run sawGrease with
  | (.ok a, sawGrease) => .ok (a, sawGrease)
  | (.error e, _) => .error e

end Scan

/-- Keeps an entry. GREASE that is to be dropped is noted instead. -/
def Entry.keep (dropsGrease : Bool) (entry : Entry) : Scan (Option Entry) := do
  if dropsGrease && isGrease entry.tag then
    set true
    return none
  return some entry

/-- How the entries of a list are read. An entry uses up bytes, so the
loop over a list ends. -/
structure EntryReader where
  /-- An entry is tried while so many bytes are left. -/
  least : Nat
  read : Reader Entry
  shortens : ∀ {unread rest : Bytes} {e : Entry},
    read.run unread = .ok (e, rest) → rest.length < unread.length

namespace EntryReader

/-- Entries that are 16-bit values, tried while one is left. -/
def word (field : String) : EntryReader where
  least := 2
  read := do
    let value ← Reader.uint 2 field
    return { tag := .ofNat value }
  shortens h := by
    obtain ⟨value, between, hvalue, h⟩ := Reader.bind_eq_ok_iff.1 h
    obtain ⟨-, rfl⟩ := Reader.pure_eq_ok_iff.1 h
    have hlength := Reader.length_of_uint hvalue
    omega

/-- Entries that are data with a length of one byte, tried while a byte
is left. -/
def untagged (lengthField dataField : String) : EntryReader where
  least := 1
  read := do
    let payload ← Reader.vector 1 lengthField dataField
    return { payload }
  shortens h := by
    obtain ⟨payload, between, hpayload, h⟩ := Reader.bind_eq_ok_iff.1 h
    obtain ⟨-, rfl⟩ := Reader.pure_eq_ok_iff.1 h
    have hlength := Reader.length_of_vector hpayload
    omega

/-- Entries that are a tag and data, with a length of two bytes between
them. -/
def tagged (least tagBytes : Nat) (tagField lengthField dataField : String) : EntryReader where
  least
  read := do
    let tag ← Reader.uint tagBytes tagField
    let payload ← Reader.vector 2 lengthField dataField
    return { tag := .ofNat tag, payload }
  shortens h := by
    obtain ⟨tag, behindTag, htag, h⟩ := Reader.bind_eq_ok_iff.1 h
    obtain ⟨payload, between, hpayload, h⟩ := Reader.bind_eq_ok_iff.1 h
    obtain ⟨-, rfl⟩ := Reader.pure_eq_ok_iff.1 h
    have htagLength := Reader.length_of_uint htag
    have hlength := Reader.length_of_vector hpayload
    omega

/-- Reads entries while there are any, and deals with each. What comes of
them is put on top of what is already `done`, the last of it first. -/
def loop (reader : EntryReader) (visit : Entry → Scan (Option α)) (done : List α)
    (unread : Bytes) : Scan (List α) :=
  if Bytes.hasAtLeast reader.least unread then
    match _ : reader.read.run unread with
    | .ok (e, rest) => do
        let kept ← visit e
        reader.loop visit (kept.toList ++ done) rest
    | .error error => throw error
  else return done.reverse
termination_by unread.length
decreasing_by exact reader.shortens ‹_›

/-- Reads a list to its end: what comes of its entries, in their order. -/
def each (reader : EntryReader) (visit : Entry → Scan (Option α)) (list : Bytes) :
    Scan (List α) :=
  reader.loop visit [] list

end EntryReader

end TlsHello
