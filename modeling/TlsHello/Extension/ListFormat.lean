/-
How the seven list types write their lists.

All of them begin with the length of the list, in one byte or two, and
then hold entries of one shape; `ListKind.format` is the table. What
follows the declared list is ignored. `ListKind.extension` is what a list
of entries means.
-/
import TlsHello.Entry
import TlsHello.Extension.Basic

namespace TlsHello

/-- The form of a list in an extension's body. -/
structure ListFormat where
  /-- What the list is called in errors. -/
  label : String
  /-- The width of the list's length. -/
  lengthBytes : Nat
  /-- The shape of its entries. -/
  shape : EntryShape
  /-- Entries with a GREASE tag are dropped. -/
  dropsGrease : Bool
deriving DecidableEq, Repr

namespace ListFormat

/-- The name of the list's length field. -/
def lengthField (format : ListFormat) : String := format.label ++ " length"

/-- The name of the list itself. -/
def dataField (format : ListFormat) : String := format.label ++ " data"

end ListFormat

namespace ListKind

/-- The forms of the seven lists. -/
def format : ListKind → ListFormat
  | serverName => ⟨"SNI list", 2, { tagBytes := 1, lengthBytes := 2 }, false⟩
  | supportedGroups => ⟨"supported groups", 2, .word, true⟩
  | signatureAlgorithms => ⟨"signature algorithms", 2, .word, false⟩
  | alpn => ⟨"ALPN list", 2, { tagBytes := 0, lengthBytes := 1 }, false⟩
  | supportedVersions => ⟨"supported versions", 1, .word, true⟩
  | pskModes => ⟨"PSK modes", 1, { tagBytes := 1, lengthBytes := 0 }, false⟩
  | keyShare => ⟨"key share list", 2, .tagged, true⟩

/-- The extension that a list of entries means. -/
def extension : ListKind → List Entry → Extension
  | serverName, entries => .serverNames (entries.map fun e => ⟨e.tag.toUInt8, e.payload⟩)
  | supportedGroups, entries => .supportedGroups (entries.map Entry.tag)
  | signatureAlgorithms, entries => .signatureAlgorithms (entries.map Entry.tag)
  | alpn, entries => .alpnProtocols (entries.map Entry.payload)
  | supportedVersions, entries => .supportedVersions (entries.map Entry.tag)
  | pskModes, entries => .pskModes (entries.map fun e => e.tag.toUInt8)
  | keyShare, entries => .keyShareGroups (entries.map Entry.tag)

@[simp] theorem typeId_extension (kind : ListKind) (entries : List Entry) :
    (kind.extension entries).typeId = kind.id := by
  cases kind <;> rfl

end ListKind

end TlsHello
