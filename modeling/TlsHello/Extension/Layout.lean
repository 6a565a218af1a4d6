/-
How an extension can be written.

The same list has many forms on the wire: it may hold GREASE, leave
bytes over at its end, and be followed by bytes that nobody reads.
`ExtensionLayout` is an extension with all of that, `extension` and
`hasGrease` are what it means, and `toEntry` is what is written. Decoding
what is written gives what is meant (`ofEntry_toEntry`).

Of all layouts of an extension one has nothing to spare
(`Extension.layout`): no GREASE, no bytes left over, none after the
list, and empty keys.
-/
import TlsHello.Proofs.ListWalk

namespace TlsHello

/-- An extension as it is laid out on the wire. -/
inductive ExtensionLayout where
  /-- An extension without a list: its type and its body. -/
  | plain (typeId : UInt16) (body : Bytes)
  /-- A list, and the bytes after the list. -/
  | list (kind : ListKind) (tiling : Tiling) (after : Bytes)
deriving DecidableEq, Repr

namespace ExtensionLayout

/-- The number of the extension's type. -/
def typeId : ExtensionLayout → UInt16
  | plain typeId _ => typeId
  | list kind _ _ => kind.id

/-- The body as it is written. -/
def body : ExtensionLayout → Bytes
  | plain _ body => body
  | list kind tiling after =>
      Bytes.vector kind.format.lengthBytes (kind.format.shape.encode tiling) ++ after

/-- The extension as it is written: its type and its body. -/
def toEntry (x : ExtensionLayout) : Entry :=
  { tag := x.typeId, payload := x.body }

/-- Everything has room where it is written. A type with a list has one,
and its leftover is harmless and begins no entry. -/
inductive WellFormed : ExtensionLayout → Prop where
  | plain {typeId : UInt16} {body : Bytes}
      (not_list : ∀ kind : ListKind, kind.id ≠ typeId)
      (body_fits : body.length < 256 ^ 2) : WellFormed (.plain typeId body)
  | list {kind : ListKind} {tiling : Tiling} {after : Bytes}
      (entries_fit : ∀ e ∈ tiling.entries, kind.format.shape.Fits e)
      (no_entry_left : kind.format.shape.first? tiling.leftover = none)
      (harmless : kind.cutField? tiling.leftover = none)
      (list_fits :
        (kind.format.shape.encode tiling).length < 256 ^ kind.format.lengthBytes)
      (body_fits : (list kind tiling after).body.length < 256 ^ 2) :
      WellFormed (.list kind tiling after)

/-- The extension that is meant. -/
def extension : ExtensionLayout → Extension
  | plain typeId body =>
      if typeId = ExtensionType.renegotiationInfo.id then .renegotiationInfo body
      else .unknown typeId body
  | list kind tiling _ =>
      kind.extension (tiling.entries.filter fun e =>
        !(kind.format.dropsGrease && isGrease e.tag))

/-- A GREASE value stands where one is looked for: as the type, or as
the tag of an entry where the format drops them. -/
def hasGrease : ExtensionLayout → Bool
  | plain typeId _ => isGrease typeId
  | list kind tiling _ =>
      kind.format.dropsGrease && tiling.entries.any fun e => isGrease e.tag

/-- Decoding a well-formed extension gives what it means. -/
theorem ofEntry_toEntry {x : ExtensionLayout} (h : x.WellFormed) :
    Extension.ofEntry x.toEntry = .ok ⟨x.extension, x.hasGrease⟩ := by
  cases h with
  | @plain typeId body not_list _ =>
      simp only [Extension.ofEntry, toEntry, ExtensionLayout.typeId, ExtensionLayout.body,
        Extension.decode, extension, hasGrease]
      cases hid : ExtensionType.ofId? typeId with
      | none =>
          have : typeId ≠ ExtensionType.renegotiationInfo.id := by
            intro h
            subst h
            rw [ExtensionType.ofId?_id] at hid
            cases hid
          simp [this]
      | some type =>
          have hid := ExtensionType.ofId?_eq_some_iff.1 hid
          rcases type with kind | _
          · exact absurd hid (not_list kind)
          · simp [← hid, ExtensionType.isGrease_id]
  | @list kind tiling after entries_fit no_entry_left harmless list_fits _ =>
      have htype : ExtensionType.ofId? kind.id = some (.list kind) :=
        ExtensionType.ofId?_id (.list kind)
      have hlist : kind.listOf (list kind tiling after).body
          = .ok (kind.format.shape.encode tiling) := by
        simp only [ListKind.listOf, body, Reader.vector_eq_ok_iff.2 ⟨list_fits, rfl⟩]
        rfl
      simp only [Extension.ofEntry, toEntry, typeId, Extension.decode, htype, ListKind.decode, hlist]
      change kind.decodeList (kind.format.shape.encode tiling) = _
      rw [ListKind.decodeList_eq, EntryShape.tile_encode entries_fit no_entry_left, harmless,
        ListKind.decodeEntries_eq]
      rfl

end ExtensionLayout

namespace Extension

/-- The layout of an extension with nothing to spare. -/
def layout : Extension → ExtensionLayout
  | serverNames names =>
      .list .serverName ⟨names.map fun n => ⟨n.nameType.toUInt16, n.name⟩, []⟩ []
  | alpnProtocols protocols => .list .alpn ⟨protocols.map fun p => ⟨0, p⟩, []⟩ []
  | supportedVersions versions => .list .supportedVersions ⟨versions.map fun v => ⟨v, []⟩, []⟩ []
  | supportedGroups groups => .list .supportedGroups ⟨groups.map fun g => ⟨g, []⟩, []⟩ []
  | signatureAlgorithms algorithms =>
      .list .signatureAlgorithms ⟨algorithms.map fun a => ⟨a, []⟩, []⟩ []
  | keyShareGroups groups => .list .keyShare ⟨groups.map fun g => ⟨g, []⟩, []⟩ []
  | pskModes modes => .list .pskModes ⟨modes.map fun m => ⟨m.toUInt16, []⟩, []⟩ []
  | renegotiationInfo body => .plain ExtensionType.renegotiationInfo.id body
  | unknown typeId body => .plain typeId body

@[simp] theorem typeId_layout (x : Extension) : x.layout.typeId = x.typeId := by
  cases x <;> rfl

end Extension

end TlsHello
