/-
The extension types this library knows by number and name.

Eight of them. Seven carry a list and are taken apart (`ListKind`); the
eighth, renegotiation_info, is known only so that its body can be asked
for. Every other number, GREASE or not, is unknown. The names are a table
of their own.
-/
import TlsHello.Grease

namespace TlsHello

/-- An extension type whose body is a list. -/
inductive ListKind where
  | serverName
  | supportedGroups
  | signatureAlgorithms
  | alpn
  | supportedVersions
  | pskModes
  | keyShare
deriving DecidableEq, Repr

/-- An extension type with a name. -/
inductive ExtensionType where
  | list (kind : ListKind)
  | renegotiationInfo
deriving DecidableEq, Repr

namespace ListKind

/-- The number of a type on the wire. -/
def id : ListKind → UInt16
  | serverName => 0x0000
  | supportedGroups => 0x000a
  | signatureAlgorithms => 0x000d
  | alpn => 0x0010
  | supportedVersions => 0x002b
  | pskModes => 0x002d
  | keyShare => 0x0033

/-- The numbers of the types with a list are these seven. -/
theorem mem_ids_iff {id : UInt16} :
    id ∈ [0x0000, 0x000a, 0x000d, 0x0010, 0x002b, 0x002d, 0x0033]
      ↔ ∃ kind : ListKind, kind.id = id := by
  constructor
  · intro h
    simp only [List.mem_cons, List.not_mem_nil, or_false] at h
    rcases h with rfl | rfl | rfl | rfl | rfl | rfl | rfl
    · exact ⟨.serverName, rfl⟩
    · exact ⟨.supportedGroups, rfl⟩
    · exact ⟨.signatureAlgorithms, rfl⟩
    · exact ⟨.alpn, rfl⟩
    · exact ⟨.supportedVersions, rfl⟩
    · exact ⟨.pskModes, rfl⟩
    · exact ⟨.keyShare, rfl⟩
  · intro ⟨kind, h⟩
    subst h
    cases kind <;> decide

end ListKind

namespace ExtensionType

/-- The number of a type on the wire. -/
def id : ExtensionType → UInt16
  | list kind => kind.id
  | renegotiationInfo => 0xff01

/-- All eight types. -/
def all : List ExtensionType :=
  [list .serverName, list .supportedGroups, list .signatureAlgorithms, list .alpn,
    list .supportedVersions, list .pskModes, list .keyShare, renegotiationInfo]

/-- The type with a number, if it is one of the eight. -/
def ofId? (id : UInt16) : Option ExtensionType :=
  all.find? fun type => type.id == id

/-- The name that is registered for a number, if it is known. -/
def nameOfId (id : UInt16) : String :=
  if id = 0x0000 then "server_name"
  else if id = 0x000a then "supported_groups"
  else if id = 0x000d then "signature_algorithms"
  else if id = 0x0010 then "application_layer_protocol_negotiation"
  else if id = 0x002b then "supported_versions"
  else if id = 0x002d then "psk_key_exchange_modes"
  else if id = 0x0033 then "key_share"
  else if id = 0xff01 then "renegotiation_info"
  else "unknown"

-- ============================================= numbers and types agree

theorem ofId?_id (type : ExtensionType) : ofId? type.id = some type := by
  rcases type with kind | _
  · cases kind <;> decide
  · decide

/-- A number finds a type exactly when it is that type's number. -/
theorem ofId?_eq_some_iff {id : UInt16} {type : ExtensionType} :
    ofId? id = some type ↔ type.id = id := by
  constructor
  · intro h
    simpa using List.find?_some h
  · intro h
    subst h
    exact ofId?_id type

/-- The numbers of the types with a name are these eight. -/
theorem mem_ids_iff {id : UInt16} :
    id ∈ [0x0000, 0x000a, 0x000d, 0x0010, 0x002b, 0x002d, 0x0033, 0xff01]
      ↔ ∃ type : ExtensionType, type.id = id := by
  have happend : [0x0000, 0x000a, 0x000d, 0x0010, 0x002b, 0x002d, 0x0033, 0xff01]
      = [0x0000, 0x000a, 0x000d, 0x0010, 0x002b, 0x002d, 0x0033] ++ [renegotiationInfo.id] := rfl
  rw [happend, List.mem_append, ListKind.mem_ids_iff, List.mem_singleton]
  constructor
  · rintro (⟨kind, h⟩ | rfl)
    · exact ⟨.list kind, h⟩
    · exact ⟨.renegotiationInfo, rfl⟩
  · rintro ⟨kind | _, rfl⟩
    · exact .inl ⟨kind, rfl⟩
    · exact .inr rfl

/-- None of the numbers is a GREASE value. -/
theorem isGrease_id (type : ExtensionType) : isGrease type.id = false := by
  rcases type with kind | _
  · cases kind <;> decide
  · decide

end ExtensionType

end TlsHello
