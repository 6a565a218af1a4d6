/-
Decoding one extension from its type and body.

A body with a list is read in two parts: the length and the list that it
declares, then the list, by a loop over its entries that knows each of
their fields by name (`ListKind.read`). Bodies of other types are kept.

The result says beside the extension whether decoding it met a GREASE
value: the type itself, or an entry that was dropped. An extension of
GREASE type is never looked into, and no type with a list is one.
-/
import TlsHello.EntryReader
import TlsHello.Extension.ListFormat

namespace TlsHello

/-- An extension, and whether decoding it met a GREASE value. -/
structure Decoded where
  extension : Extension
  sawGrease : Bool := false
deriving DecidableEq, Repr

namespace ListKind

/-- The bytes of the list that a body declares. -/
def listOf (kind : ListKind) (body : Bytes) : Except DecodeError Bytes :=
  let format := kind.format
  Prod.fst <$>
    (Reader.vector format.lengthBytes format.lengthField format.dataField).run body

/-- Decodes a list whose entries are read like this. -/
def readEntries (kind : ListKind) (reader : EntryReader) (list : Bytes) : Scan Extension := do
  return kind.extension (← reader.each (Entry.keep kind.format.dropsGrease) list)

/-- Decodes a list, entry by entry. Modes are single bytes, which are
kept as they are. -/
def read (kind : ListKind) (list : Bytes) : Scan Extension :=
  match kind with
  | serverName =>
      kind.readEntries (.tagged 1 1 "SNI name type" "SNI name length" "SNI name") list
  | supportedGroups => kind.readEntries (.word "supported group") list
  | signatureAlgorithms => kind.readEntries (.word "signature algorithm") list
  | alpn => kind.readEntries (.untagged "ALPN protocol length" "ALPN protocol") list
  | supportedVersions => kind.readEntries (.word "supported version") list
  | pskModes => return .pskModes list
  | keyShare =>
      kind.readEntries
        (.tagged 4 2 "key share group" "key share key length" "key share key data") list

/-- Decodes a list by itself. -/
def decodeList (kind : ListKind) (list : Bytes) : Except DecodeError Decoded := do
  let (extension, sawGrease) ← (kind.read list).outcome false
  return { extension, sawGrease }

/-- Decodes the list in a body. -/
def decode (kind : ListKind) (body : Bytes) : Except DecodeError Decoded := do
  kind.decodeList (← kind.listOf body)

end ListKind

namespace Extension

/-- Decodes the body of an extension of the given type. -/
def decode (typeId : UInt16) (body : Bytes) : Except DecodeError Decoded :=
  match ExtensionType.ofId? typeId with
  | some (.list kind) => kind.decode body
  | some .renegotiationInfo => .ok { extension := .renegotiationInfo body }
  | none => .ok { extension := .unknown typeId body, sawGrease := isGrease typeId }

/-- Decodes an extension on the wire: the tag is its type and the
payload its body. -/
def ofEntry (entry : Entry) : Except DecodeError Decoded :=
  decode entry.tag entry.payload

end Extension

end TlsHello
