/-
Whatever can be described is decoded to what was described.

The bytes of a description are written out type by type, each with its
own widths. `ofHandshake_description` says that decoding agrees with
that: every description in range is decoded to the contents it names,
without the GREASE among them but with a note of it, whatever follows
the message.

# The shape of the argument

Descriptions are written by cases, layouts by a table. So a description
is taken to a layout once (`ExtensionDescription.layout`), where the
bytes are seen to be the same, and from there on there is one case: a
list of entries that is tiled as it was written. Layouts are decoded to
what they mean (`HelloLayout.ofHandshake_message`), and the meanings are
compared by cases again.
-/
import TlsHello.Proofs.Description
import TlsHello.Proofs.Framing

namespace TlsHello

-- ================================================ lists, by shape and by hand

namespace EntryShape

-- A tag of one byte is kept as a 16-bit value.

theorem tag_of_byte_lt (b : UInt8) : b.toUInt16.toNat < 256 ^ 1 := by
  rw [UInt8.toNat_toUInt16]
  exact b.toNat_lt

theorem ofNat_tag_of_byte (b : UInt8) : UInt8.ofNat b.toUInt16.toNat = b := by
  rw [UInt8.toNat_toUInt16, UInt8.ofNat_toNat]

theorem fits_of_mem_words {vs : List UInt16} {e : Entry}
    (he : e ∈ vs.map fun v => (⟨v, []⟩ : Entry)) : word.Fits e := by
  obtain ⟨v, -, rfl⟩ := List.mem_map.1 he
  exact ⟨v.toNat_lt, Nat.one_pos⟩

theorem encode_eq (shape : EntryShape) (entries : List Entry) (leftover : Bytes) :
    shape.encode ⟨entries, leftover⟩ = entries.flatMap shape.encodeEntry ++ leftover := rfl

theorem encode_words (vs : List UInt16) (leftover : Bytes) :
    word.encode ⟨vs.map fun v => ⟨v, []⟩, leftover⟩
      = vs.flatMap (fun v => Bytes.ofNat 2 v.toNat) ++ leftover := by
  rw [encode_eq, List.flatMap_map]
  congr 2

theorem encode_names (names : List ServerName) :
    encode { tagBytes := 1, lengthBytes := 2 }
        ⟨names.map fun n => ⟨n.nameType.toUInt16, n.name⟩, []⟩
      = names.flatMap fun n => n.nameType :: Bytes.vector 2 n.name := by
  rw [encode_eq, List.flatMap_map, List.append_nil]
  congr 1
  funext n
  show UInt8.ofNat n.nameType.toUInt16.toNat :: _ = _
  rw [ofNat_tag_of_byte]
  rfl

theorem encode_protocols (protocols : List Bytes) :
    encode { tagBytes := 0, lengthBytes := 1 } ⟨protocols.map fun p => ⟨0, p⟩, []⟩
      = protocols.flatMap (Bytes.vector 1) := by
  rw [encode_eq, List.flatMap_map, List.append_nil]
  rfl

theorem encode_modes (modes : Bytes) :
    encode { tagBytes := 1, lengthBytes := 0 } ⟨modes.map fun m => ⟨m.toUInt16, []⟩, []⟩
      = modes := by
  rw [← tile_modes, encode_tile]

theorem encode_shares (shares : List KeyShare) (leftover : Bytes) :
    tagged.encode ⟨shares.map fun s => ⟨s.group, s.key⟩, leftover⟩
      = shares.flatMap (fun s => Bytes.ofNat 2 s.group.toNat ++ Bytes.vector 2 s.key)
        ++ leftover := by
  rw [encode_eq, List.flatMap_map]
  rfl

end EntryShape

-- ====================================================== layouts, decoded

theorem ExtensionLayout.WellFormed.body_length_lt {x : ExtensionLayout} (h : x.WellFormed) :
    x.body.length < 256 ^ 2 := by
  cases h with
  | plain _ body_fits => exact body_fits
  | list _ _ _ _ body_fits => exact body_fits

namespace HelloLayout

variable {l : HelloLayout}

theorem suites_toRaw (h : l.WellFormed) : l.toRaw.suites = l.suites := by
  have htile : RawHello.suiteShape.tile l.toRaw.cipherSuites
      = ⟨l.suites.map fun suite => ⟨suite, []⟩, l.suitesLeftover⟩ := by
    apply EntryShape.tile_encode
    · intro e he
      exact EntryShape.fits_of_mem_words he
    · exact EntryShape.first?_eq_none_of_short h.suitesLeftover_short
  rw [RawHello.suites, htile, List.map_map]
  exact List.map_id l.suites

/-- The block of a layout as entries. -/
def blockTiling (l : HelloLayout) : Option Tiling :=
  l.block.map fun b => ⟨b.extensions.map ExtensionLayout.toEntry, b.leftover⟩

theorem entries_blockTiling (l : HelloLayout) :
    (l.blockTiling.getD ⟨[], []⟩).entries = l.extensions.map ExtensionLayout.toEntry := by
  unfold blockTiling extensions
  cases l.block <;> rfl

theorem leftover_blockTiling (h : l.WellFormed) :
    ∀ t ∈ l.blockTiling, t.leftover.length < 4 := by
  intro t ht
  obtain ⟨b, hb, rfl⟩ := Option.map_eq_some_iff.1 ht
  exact h.leftover_short b hb

theorem extensionTiling_toRaw (h : l.WellFormed) :
    l.toRaw.extensionTiling = l.blockTiling.getD ⟨[], []⟩ := by
  refine RawHello.extensionTiling_eq ?_ ?_ (leftover_blockTiling h)
  · unfold toRaw blockTiling
    rw [Option.map_map]
    rfl
  · intro t ht e he
    obtain ⟨b, hb, rfl⟩ := Option.map_eq_some_iff.1 ht
    obtain ⟨x, hx, rfl⟩ := List.mem_map.1 he
    have hmem : x ∈ l.extensions := by
      unfold extensions
      rw [hb]
      exact hx
    exact (h.extensions_wellFormed x hmem).body_length_lt

/-- A well-formed layout is decoded to what it means, whatever follows
the message. -/
theorem ofHandshake_message (h : l.WellFormed) (trailing : Bytes) :
    Hello.ofHandshake (l.message ++ trailing) = .ok l.hello := by
  rw [Hello.ofHandshake_eq_ok_iff]
  refine ⟨l.toRaw, l.after, trailing, h.fields_fit, ?_, h.body_fits, rfl, ?_⟩
  · intro hnone
    exact h.after_short (Option.map_eq_none_iff.1 hnone)
  rw [RawHello.decode_eq_ok_iff]
  rw [extensionTiling_toRaw h, entries_blockTiling]
  refine ⟨RawHello.leftover_getD_lt (leftover_blockTiling h),
    l.extensions.map fun x => ⟨x.extension, x.hasGrease⟩, ?_, ?_⟩
  · rw [List.forall₂_map_left_iff, List.forall₂_map_right_iff, List.forall₂_same]
    intro x hx
    exact ExtensionLayout.ofEntry_toEntry (h.extensions_wellFormed x hx)
  · unfold RawHello.helloWith hello
    rw [suites_toRaw h, List.map_map, List.any_map]
    rfl

end HelloLayout

-- ============================================== a description as a layout

namespace ExtensionDescription

variable {x : ExtensionDescription}

/-- The layout with the same contents and the same bytes. -/
def layout : ExtensionDescription → ExtensionLayout
  | plain typeId body => .plain typeId body
  | serverNames names after =>
      .list .serverName ⟨names.map fun n => ⟨n.nameType.toUInt16, n.name⟩, []⟩ after
  | supportedGroups groups dangling after =>
      .list .supportedGroups ⟨groups.map fun v => ⟨v, []⟩, dangling.toList⟩ after
  | signatureAlgorithms algorithms dangling after =>
      .list .signatureAlgorithms ⟨algorithms.map fun v => ⟨v, []⟩, dangling.toList⟩ after
  | alpnProtocols protocols after => .list .alpn ⟨protocols.map fun p => ⟨0, p⟩, []⟩ after
  | supportedVersions versions dangling after =>
      .list .supportedVersions ⟨versions.map fun v => ⟨v, []⟩, dangling.toList⟩ after
  | pskModes modes after => .list .pskModes ⟨modes.map fun m => ⟨m.toUInt16, []⟩, []⟩ after
  | keyShares shares dangling after =>
      .list .keyShare ⟨shares.map fun s => ⟨s.group, s.key⟩, dangling⟩ after

theorem typeId_layout (x : ExtensionDescription) : x.layout.typeId = x.typeId := by
  cases x <;> rfl

/-- A layout's list is the one that was written by hand. -/
theorem encode_layout {kind : ListKind} {tiling : Tiling} {after : Bytes}
    (h : x.layout = .list kind tiling after) :
    kind.format.shape.encode tiling = x.list ∧ kind.format.lengthBytes = x.lengthBytes
      ∧ after = x.after := by
  cases x with
  | plain typeId body => cases h
  | serverNames names after => cases h; exact ⟨EntryShape.encode_names names, rfl, rfl⟩
  | supportedGroups groups dangling after =>
      cases h; exact ⟨EntryShape.encode_words groups _, rfl, rfl⟩
  | signatureAlgorithms algorithms dangling after =>
      cases h; exact ⟨EntryShape.encode_words algorithms _, rfl, rfl⟩
  | alpnProtocols protocols after =>
      cases h; exact ⟨EntryShape.encode_protocols protocols, rfl, rfl⟩
  | supportedVersions versions dangling after =>
      cases h; exact ⟨EntryShape.encode_words versions _, rfl, rfl⟩
  | pskModes modes after => cases h; exact ⟨EntryShape.encode_modes modes, rfl, rfl⟩
  | keyShares shares dangling after =>
      cases h; exact ⟨EntryShape.encode_shares shares dangling, rfl, rfl⟩

theorem body_layout (x : ExtensionDescription) : x.layout.body = x.body := by
  cases hx : x.layout with
  | plain typeId body =>
      cases x with
      | plain => cases hx; rfl
      | _ => cases hx
  | list kind tiling after =>
      obtain ⟨hlist, hwidth, hafter⟩ := encode_layout hx
      rw [ExtensionLayout.body, hlist, hwidth, hafter]
      cases x with
      | plain => cases hx
      | _ => rfl

theorem hasGrease_layout (x : ExtensionDescription) : x.layout.hasGrease = x.hasGrease := by
  cases x with
  | plain => rfl
  | _ => simp [layout, ExtensionLayout.hasGrease, hasGrease, ListKind.format, Function.comp_def]

theorem extension_layout (x : ExtensionDescription) : x.layout.extension = x.extension := by
  cases x with
  | plain => rfl
  | _ =>
    simp [layout, ExtensionLayout.extension, extension, ListKind.format, ListKind.extension,
      List.filter_map, Function.comp_def]

/-- What is written in a list can be read off it again: its entries fit,
and what dangles behind them is neither another entry nor an error. -/
theorem layout_readable {kind : ListKind} {tiling : Tiling} {after : Bytes}
    (h : x.layout = .list kind tiling after) (hx : x.ContentsInRange) :
    (∀ e ∈ tiling.entries, kind.format.shape.Fits e)
      ∧ kind.format.shape.first? tiling.leftover = none
      ∧ kind.cutField? tiling.leftover = none := by
  have hdangling (dangling : Option UInt8) : dangling.toList.length < 2 :=
    Nat.lt_succ_of_le Option.length_toList_le
  -- only words and key shares tolerate bytes that dangle behind them
  cases x with
  | plain typeId body => cases h
  | serverNames names after =>
      cases h
      refine ⟨?_, EntryShape.first?_nil _, rfl⟩
      intro e he
      obtain ⟨n, hn, rfl⟩ := List.mem_map.1 he
      exact ⟨EntryShape.tag_of_byte_lt n.nameType, hx n hn⟩
  | supportedGroups groups dangling after =>
      cases h
      refine ⟨?_, EntryShape.first?_eq_none_of_short (hdangling dangling), rfl⟩
      intro e he
      exact EntryShape.fits_of_mem_words he
  | signatureAlgorithms algorithms dangling after =>
      cases h
      refine ⟨?_, EntryShape.first?_eq_none_of_short (hdangling dangling), rfl⟩
      intro e he
      exact EntryShape.fits_of_mem_words he
  | alpnProtocols protocols after =>
      cases h
      refine ⟨?_, EntryShape.first?_nil _, rfl⟩
      intro e he
      obtain ⟨p, hp, rfl⟩ := List.mem_map.1 he
      exact ⟨Nat.one_pos, hx p hp⟩
  | supportedVersions versions dangling after =>
      cases h
      refine ⟨?_, EntryShape.first?_eq_none_of_short (hdangling dangling), rfl⟩
      intro e he
      exact EntryShape.fits_of_mem_words he
  | pskModes modes after =>
      cases h
      refine ⟨?_, EntryShape.first?_nil _, rfl⟩
      intro e he
      obtain ⟨m, -, rfl⟩ := List.mem_map.1 he
      exact ⟨EntryShape.tag_of_byte_lt m, Nat.one_pos⟩
  | keyShares shares dangling after =>
      cases h
      refine ⟨?_, EntryShape.first?_eq_none_of_short hx.2, if_pos hx.2⟩
      intro e he
      obtain ⟨s, hs, rfl⟩ := List.mem_map.1 he
      exact ⟨s.group.toNat_lt, hx.1 s hs⟩

theorem wellFormed_layout (hx : x.InRange) : x.layout.WellFormed := by
  have hbody : x.layout.body.length < 256 ^ 2 := by
    rw [body_layout]
    exact hx.body
  cases h : x.layout with
  | plain typeId body =>
      rw [h] at hbody
      refine .plain ?_ hbody
      cases x with
      | plain =>
          cases h
          intro kind hkind
          exact hx.contents (ListKind.mem_ids_iff.2 ⟨kind, hkind⟩)
      | _ => cases h
  | list kind tiling after =>
      obtain ⟨hfits, hnone, hharmless⟩ := layout_readable h hx.contents
      obtain ⟨hlist, hwidth, -⟩ := encode_layout h
      refine .list hfits hnone hharmless ?_ (h ▸ hbody)
      rw [hlist, hwidth]
      exact hx.list

end ExtensionDescription

namespace BodyTail

variable {t : BodyTail}

/-- The block of extensions, laid out. -/
def blockLayout : BodyTail → Option BlockLayout
  | short _ => none
  | block extensions leftover _ =>
      some { extensions := extensions.map ExtensionDescription.layout, leftover }

/-- The bytes behind everything that is read. -/
def after : BodyTail → Bytes
  | short after => after
  | block _ _ after => after

/-- The block of extensions is written the same way. -/
theorem encode_block (extensions : List ExtensionDescription) (leftover : Bytes) :
    RawHello.extensionShape.encode
        ⟨(extensions.map ExtensionDescription.layout).map ExtensionLayout.toEntry, leftover⟩
      = blockBytes extensions leftover := by
  rw [EntryShape.encode_eq, List.map_map, List.flatMap_map]
  unfold blockBytes
  congr 2
  funext x
  show Bytes.ofNat 2 x.layout.typeId.toNat ++ Bytes.vector 2 x.layout.body = _
  rw [ExtensionDescription.typeId_layout, ExtensionDescription.body_layout]

theorem inRange_of_mem {x : ExtensionDescription} (h : t.InRange) (hx : x ∈ t.extensions) :
    x.InRange := by
  cases t with
  | short after => cases hx
  | block extensions leftover after => exact h.1 x hx

theorem leftover_short (h : t.InRange) : ∀ b ∈ t.blockLayout, b.leftover.length < 4 := by
  intro b hb
  cases t with
  | short after => cases hb
  | block extensions leftover after => cases hb; exact h.2.1

theorem after_short (h : t.InRange) (hnone : t.blockLayout = none) : t.after.length < 2 := by
  cases t with
  | short after => exact h
  | block extensions leftover after => cases hnone

end BodyTail

namespace HelloDescription

variable {d : HelloDescription}

/-- The layout with the same contents and the same bytes. -/
def layout (d : HelloDescription) : HelloLayout where
  legacyVersion := d.legacyVersion
  random := d.random
  sessionId := d.sessionId
  suites := d.suites
  suitesLeftover := d.suitesDangling.toList
  compressionMethods := d.compressionMethods
  block := d.tail.blockLayout
  after := d.tail.after

theorem suites_layout (d : HelloDescription) :
    d.layout.toRaw.cipherSuites = d.suiteBytes :=
  EntryShape.encode_words d.suites d.suitesDangling.toList

theorem extensions_layout (d : HelloDescription) :
    d.layout.extensions = d.tail.extensions.map ExtensionDescription.layout := by
  unfold HelloLayout.extensions layout
  cases d.tail <;> rfl

theorem extensionBlock_layout {extensions : List ExtensionDescription} {leftover after : Bytes}
    (h : d.tail = .block extensions leftover after) :
    d.layout.toRaw.extensionBlock = some (BodyTail.blockBytes extensions leftover) := by
  unfold HelloLayout.toRaw layout
  rw [h, ← BodyTail.encode_block]
  rfl

theorem extensionBlock_layout_short {after : Bytes} (h : d.tail = .short after) :
    d.layout.toRaw.extensionBlock = none := by
  unfold HelloLayout.toRaw layout
  rw [h]
  rfl

theorem body_layout (d : HelloDescription) : d.layout.body = d.body := by
  have htail : (d.layout.toRaw.extensionBlock.map (Bytes.vector 2)).getD [] ++ d.tail.after
      = d.tail.bytes := by
    cases h : d.tail with
    | short after => rw [extensionBlock_layout_short h]; rfl
    | block extensions leftover after => rw [extensionBlock_layout h]; rfl
  unfold HelloLayout.body RawHello.encode body
  simp only [List.append_assoc]
  rw [suites_layout, ← htail]
  rfl

theorem message_layout (d : HelloDescription) : d.layout.message = d.message := by
  show Hello.handshakeType :: Bytes.vector 3 d.layout.body = _
  rw [body_layout]
  rfl

theorem hello_layout (d : HelloDescription) : d.layout.hello = d.hello := by
  unfold HelloLayout.hello hello
  rw [extensions_layout, List.map_map, List.any_map]
  have hextension :
      ExtensionLayout.extension ∘ ExtensionDescription.layout = ExtensionDescription.extension :=
    funext ExtensionDescription.extension_layout
  have hgrease :
      ExtensionLayout.hasGrease ∘ ExtensionDescription.layout = ExtensionDescription.hasGrease :=
    funext ExtensionDescription.hasGrease_layout
  rw [hextension, hgrease]
  rfl

theorem fits_layout (hd : d.InRange) : d.layout.toRaw.Fits := by
  refine ⟨hd.random, hd.sessionId, ?_, hd.compressionMethods, ?_⟩
  · rw [suites_layout]
    exact hd.suites
  · intro block hblock
    have htail := hd.tail
    cases h : d.tail with
    | short after =>
        rw [extensionBlock_layout_short h] at hblock
        cases hblock
    | block extensions leftover after =>
        rw [extensionBlock_layout h] at hblock
        cases hblock
        rw [h] at htail
        exact htail.2.2

theorem wellFormed_layout (hd : d.InRange) : d.layout.WellFormed where
  fields_fit := fits_layout hd
  extensions_wellFormed := by
    intro x hx
    rw [extensions_layout] at hx
    obtain ⟨y, hy, rfl⟩ := List.mem_map.1 hx
    exact ExtensionDescription.wellFormed_layout (BodyTail.inRange_of_mem hd.tail hy)
  suitesLeftover_short := Nat.lt_succ_of_le Option.length_toList_le
  leftover_short := BodyTail.leftover_short hd.tail
  after_short := BodyTail.after_short hd.tail
  body_fits := by
    rw [body_layout]
    exact hd.body

end HelloDescription

/-- Decoding gives back what was described, whatever follows the
message. -/
theorem ofHandshake_description (d : HelloDescription) (hd : d.InRange) (trailing : Bytes) :
    Hello.ofHandshake (d.message ++ trailing) = .ok d.hello := by
  have h := HelloLayout.ofHandshake_message (HelloDescription.wellFormed_layout hd) trailing
  rw [HelloDescription.message_layout, HelloDescription.hello_layout] at h
  exact h

/-- A hello with every kind of extension, with GREASE wherever it is
looked for, and with bytes to step over wherever there may be any. -/
def HelloDescription.crowded : HelloDescription where
  legacyVersion := 0x0303
  random := List.replicate 32 0x5a
  sessionId := [0x1a, 0x1a]
  suites := [0x0a0a, 0x1301, 0x1302]
  suitesDangling := some 0x2a
  compressionMethods := [0]
  tail :=
    .block
      [.plain 0x3a3a [0x00], .plain 0xff01 [0x00],
        .serverNames [⟨0, [0x61, 0x2e, 0x62]⟩] [0x00],
        .supportedGroups [0x4a4a, 0x001d] (some 0x00) [0x17],
        .signatureAlgorithms [0x5a5a, 0x0403] (some 0x04) [0x01],
        .alpnProtocols [[0x68, 0x32]] [0x02],
        .supportedVersions [0x6a6a, 0x0304] (some 0x03) [0x03],
        .pskModes [0x01] [0x00],
        .keyShares [⟨0x7a7a, [0x00]⟩, ⟨0x001d, [0x8a, 0x8a]⟩] [0x00, 0x1d, 0x00] [0x00]]
      [0x00, 0x2b, 0x00] [0xff, 0xff]

theorem ofHandshake_crowded :
    Hello.ofHandshake (HelloDescription.crowded.message ++ [0x01, 0x00]) = .ok
      { legacyVersion := 0x0303
        random := List.replicate 32 0x5a
        sessionId := [0x1a, 0x1a]
        cipherSuites := [0x1301, 0x1302]
        compressionMethods := [0]
        extensions :=
          [.unknown 0x3a3a [0x00], .renegotiationInfo [0x00],
            .serverNames [⟨0, [0x61, 0x2e, 0x62]⟩], .supportedGroups [0x001d],
            .signatureAlgorithms [0x5a5a, 0x0403], .alpnProtocols [[0x68, 0x32]],
            .supportedVersions [0x0304], .pskModes [0x01], .keyShareGroups [0x001d]]
        hasGrease := true } := by
  have h := ofHandshake_description HelloDescription.crowded (by decide +kernel) [0x01, 0x00]
  exact h

end TlsHello
