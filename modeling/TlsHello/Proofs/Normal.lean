/-
The normal form of a hello.

A decoded hello has lost what decoding steps over: GREASE, the keys of
key shares, bytes that dangle and bytes behind a list. Written again with
nothing to spare it is a message of its own (`Hello.description`), and
`ofHandshake_encode` says that this message always exists and says the
same: every length has room, and decoding it gives the hello back, but
for the GREASE, of which only that among the extension types is left.

# The shape of the argument

Nothing that decoding returns is longer, written again, than what it was
read from. That is seen entry by entry (`length_list_description`): an
entry that is kept takes up no more than it did, and one that is dropped
nothing. So every list still has room at the width of its length, and so
has the block of extensions, whose entries are compared one by one
(`length_flatMap_le`).

That the message means the same needs two facts about what was decoded.
Lists without GREASE have none to lose a second time, and an extension
that was not looked into has none of the types that are.
-/
import Mathlib.Data.List.Flatten
import TlsHello.Proofs.Grease
import TlsHello.Proofs.RoundTrip

namespace TlsHello

theorem Bytes.length_ofWords (vs : List UInt16) : (ofWords vs none).length = 2 * vs.length := by
  simp [ofWords, List.length_flatMap, Nat.mul_comm]

-- ====================================================== written again

/-- An extension with nothing to spare. -/
def Extension.description : Extension → ExtensionDescription
  | serverNames names => .serverNames names []
  | alpnProtocols protocols => .alpnProtocols protocols []
  | supportedVersions versions => .supportedVersions versions none []
  | supportedGroups groups => .supportedGroups groups none []
  | signatureAlgorithms algorithms => .signatureAlgorithms algorithms none []
  | keyShareGroups groups => .keyShares (groups.map fun g => ⟨g, []⟩) [] []
  | pskModes modes => .pskModes modes []
  | renegotiationInfo body => .plain 0xff01 body
  | unknown typeId body => .plain typeId body

/-- A hello with nothing to spare. Its block of extensions is there even
if it is empty. -/
def Hello.description (h : Hello) : HelloDescription where
  legacyVersion := h.legacyVersion
  random := h.random
  sessionId := h.sessionId
  suites := h.cipherSuites
  suitesDangling := none
  compressionMethods := h.compressionMethods
  tail := .block (h.extensions.map Extension.description) [] []

/-- The description is written as the hello is encoded. -/
theorem Hello.encode_eq_message (h : Hello) : h.encode = h.description.message := by
  have hextension (x : Extension) : x.description.layout = x.layout := by
    cases x with
    | keyShareGroups groups =>
        show ExtensionLayout.list _ ⟨(groups.map _).map _, []⟩ [] = _
        rw [List.map_map]
        rfl
    | _ => rfl
  have hlayout : h.description.layout = h.layout := by
    unfold HelloDescription.layout description layout BodyTail.blockLayout
    dsimp only
    rw [List.map_map, show ExtensionDescription.layout ∘ Extension.description = Extension.layout
      from funext hextension]
    rfl
  rw [← HelloDescription.message_layout, hlayout]
  rfl

-- ======================================================= one extension

namespace ListKind

variable {kind : ListKind} {entries : List Entry}

/-- What an entry means, written again: a key share has lost its key. -/
def rewritten : ListKind → Entry → Bytes
  | serverName, e => e.tag.toUInt8 :: Bytes.vector 2 e.payload
  | alpn, e => Bytes.vector 1 e.payload
  | pskModes, e => [e.tag.toUInt8]
  | keyShare, e => Bytes.ofNat 2 e.tag.toNat ++ Bytes.vector 2 []
  | supportedGroups, e | signatureAlgorithms, e | supportedVersions, e =>
      Bytes.ofNat 2 e.tag.toNat

theorem list_description (kind : ListKind) (entries : List Entry) :
    (kind.extension entries).description.list = entries.flatMap kind.rewritten := by
  cases kind with
  | serverName => exact List.flatMap_map _ _ _
  | alpn => exact List.flatMap_map _ _ _
  | pskModes => exact List.map_eq_flatMap
  | keyShare =>
      show ((entries.map _).map _).flatMap _ ++ [] = _
      rw [List.map_map, List.append_nil]
      exact List.flatMap_map _ _ _
  | supportedGroups | signatureAlgorithms | supportedVersions =>
      exact (List.append_nil _).trans (List.flatMap_map _ _ _)

/-- No entry is longer when it is written again. -/
theorem length_rewritten_le (kind : ListKind) (e : Entry) :
    (kind.rewritten e).length ≤ (kind.format.shape.encodeEntry e).length := by
  unfold EntryShape.encodeEntry
  cases kind <;>
    simp only [rewritten, format, Bytes.vector, EntryShape.word, EntryShape.tagged,
      List.length_append, List.length_cons, List.length_nil, Bytes.length_ofNat] <;>
    omega

theorem length_list_description (kind : ListKind) (entries : List Entry) :
    (kind.extension entries).description.list.length
      ≤ (entries.flatMap kind.format.shape.encodeEntry).length := by
  rw [list_description]
  exact length_flatMap_le (List.forall₂_same.2 fun e _ => length_rewritten_le kind e)

theorem length_body_description (kind : ListKind) (entries : List Entry) :
    (kind.extension entries).description.body.length
      = kind.format.lengthBytes + (kind.extension entries).description.list.length := by
  cases kind <;> simp [extension, Extension.description, ExtensionDescription.body, Bytes.vector,
    ExtensionDescription.lengthBytes, ExtensionDescription.after, format]

theorem lengthBytes_description (kind : ListKind) (entries : List Entry) :
    (kind.extension entries).description.lengthBytes = kind.format.lengthBytes := by
  cases kind <;> rfl

theorem contentsInRange_description (h : ∀ e ∈ entries, kind.format.shape.Fits e) :
    (kind.extension entries).description.ContentsInRange := by
  cases kind with
  | serverName => exact List.forall_mem_map.2 fun e he => (h e he).2
  | alpn => exact List.forall_mem_map.2 fun e he => (h e he).2
  | keyShare =>
      refine ⟨?_, Nat.zero_lt_succ 3⟩
      intro s hs
      obtain ⟨g, -, rfl⟩ := List.mem_map.1 hs
      exact Nat.pow_pos (by decide)
  | supportedGroups | signatureAlgorithms | supportedVersions | pskModes => trivial

/-- Entries without GREASE mean, written again, what they mean. -/
theorem extension_description
    (h : ∀ e ∈ entries, (kind.format.dropsGrease && isGrease e.tag) = false) :
    (kind.extension entries).description.extension = kind.extension entries := by
  -- where GREASE is dropped, the tags have none
  have htags (hdrops : kind.format.dropsGrease = true) :
      (entries.map Entry.tag).filter (fun v => !isGrease v) = entries.map Entry.tag := by
    refine List.filter_eq_self.2 (List.forall_mem_map.2 fun e he => ?_)
    have hgrease := h e he
    rw [hdrops, Bool.true_and] at hgrease
    rw [hgrease]
    rfl
  cases kind with
  | supportedGroups => exact congrArg Extension.supportedGroups (htags rfl)
  | supportedVersions => exact congrArg Extension.supportedVersions (htags rfl)
  | keyShare =>
      refine congrArg Extension.keyShareGroups (Eq.trans ?_ (htags rfl))
      rw [List.map_map]
      exact congrArg (List.filter _) (List.map_id _)
  | serverName | alpn | signatureAlgorithms | pskModes => rfl

end ListKind

namespace Extension

variable {e : Entry} {d : Decoded}

/-- The extension can be written again in `n` bytes, and means then what
it is. -/
structure Normal (x : Extension) (n : Nat) : Prop where
  inRange : x.description.InRange
  length_le : x.description.body.length ≤ n
  extension_eq : x.description.extension = x

/-- A list extension that was accepted, written again: what is kept of
its entries takes up no more than all of them and what is left over. -/
theorem normal_of_decode {kind : ListKind} {body : Bytes} (hlength : body.length < 256 ^ 2)
    (h : kind.decode body = .ok d) : d.extension.Normal body.length := by
  obtain ⟨list, after, hlist, hbody, -, rfl⟩ := ListKind.decode_eq_ok_iff.1 h
  rw [ListKind.decodeEntries_eq]
  have hkept : ∀ e ∈ (kind.format.shape.tile list).entries.filter
      (fun e => !(kind.format.dropsGrease && isGrease e.tag)),
      kind.format.shape.Fits e ∧ (kind.format.dropsGrease && isGrease e.tag) = false := by
    intro e he
    obtain ⟨hmem, hkeep⟩ := List.mem_filter.1 he
    rw [Bool.not_eq_true'] at hkeep
    exact ⟨EntryShape.fits_of_mem_tile hmem, hkeep⟩
  have hsublist := (List.filter_sublist (l := (kind.format.shape.tile list).entries)
    (p := fun e => !(kind.format.dropsGrease && isGrease e.tag))).flatMap
      kind.format.shape.encodeEntry
  generalize (kind.format.shape.tile list).entries.filter _ = kept at hkept hsublist
  have hle : (kind.extension kept).description.list.length ≤ list.length := by
    have htile := congrArg List.length (EntryShape.encode_tile kind.format.shape list)
    rw [EntryShape.encode, List.length_append] at htile
    have hkeptle := hsublist.length_le
    have hwritten := ListKind.length_list_description kind kept
    omega
  have hbodylength : (kind.extension kept).description.body.length ≤ body.length := by
    rw [ListKind.length_body_description, ← hbody, List.length_append, Bytes.vector,
      List.length_append, Bytes.length_ofNat]
    omega
  refine ⟨⟨?_, ?_, ?_⟩, hbodylength, ?_⟩
  · exact ListKind.contentsInRange_description fun e he => (hkept e he).1
  · rw [ListKind.lengthBytes_description]
    exact Nat.lt_of_le_of_lt hle hlist
  · exact Nat.lt_of_le_of_lt hbodylength hlength
  · exact ListKind.extension_description fun e he => (hkept e he).2

/-- What is decoded can be written again, no longer than it was. -/
theorem normal_of_ofEntry (hpayload : e.payload.length < 256 ^ 2) (h : ofEntry e = .ok d) :
    d.extension.Normal e.payload.length := by
  rcases ofEntry_cases e with ⟨kind, -, hdecode⟩ | ⟨-, hdecode⟩ | ⟨htag, hdecode⟩
  · exact normal_of_decode hpayload (hdecode.symm.trans h)
  · rw [h] at hdecode
    cases hdecode
    have htype : (0xff01 : UInt16) ∉ [0x0000, 0x000a, 0x000d, 0x0010, 0x002b, 0x002d, 0x0033] := by
      decide
    exact ⟨⟨htype, Nat.pow_pos (by decide), hpayload⟩, Nat.le_refl _, rfl⟩
  · rw [h] at hdecode
    cases hdecode
    refine ⟨⟨fun hmem => ?_, Nat.pow_pos (by decide), hpayload⟩, Nat.le_refl _, ?_⟩
    · obtain ⟨kind, hkind⟩ := ListKind.mem_ids_iff.1 hmem
      exact htag (.list kind) hkind
    · exact if_neg fun hid => htag .renegotiationInfo hid.symm

theorem any_isGrease_of_filter_eq {vs : List UInt16}
    (h : vs.filter (fun v => !isGrease v) = vs) : vs.any isGrease = false := by
  refine List.any_eq_false.2 fun v hv => ?_
  have hkeep := List.filter_eq_self.1 h v hv
  rw [Bool.not_eq_true'] at hkeep
  exact Bool.eq_false_iff.1 hkeep

/-- Of the GREASE in an extension only that of its type is left. -/
theorem Normal.hasGrease_iff {x : Extension} {n : Nat} (hx : x.Normal n) :
    x.description.hasGrease = true
      ↔ ∃ typeId body, x = .unknown typeId body ∧ isGrease typeId = true := by
  have hnone (h : x.description.hasGrease = false)
      (hunknown : ∀ typeId body, x ≠ .unknown typeId body) :
      x.description.hasGrease = true
        ↔ ∃ typeId body, x = .unknown typeId body ∧ isGrease typeId = true := by
    refine iff_of_false (by rw [h]; exact Bool.false_ne_true) ?_
    intro ⟨typeId, body, hx, _⟩
    exact hunknown typeId body hx
  have hfixed := hx.extension_eq
  cases x with
  | unknown typeId body =>
      refine ⟨fun h => ⟨typeId, body, rfl, h⟩, fun ⟨_, _, hx, h⟩ => ?_⟩
      cases hx
      exact h
  | supportedVersions vs =>
      exact hnone (any_isGrease_of_filter_eq (supportedVersions.inj hfixed)) nofun
  | supportedGroups vs =>
      exact hnone (any_isGrease_of_filter_eq (supportedGroups.inj hfixed)) nofun
  | keyShareGroups vs =>
      have hgroups : (vs.map fun g => (⟨g, []⟩ : KeyShare)).map KeyShare.group = vs := by
        rw [List.map_map]
        exact List.map_id vs
      have hvs := keyShareGroups.inj hfixed
      rw [hgroups] at hvs
      refine hnone ?_ nofun
      show List.any ((vs.map _).map _) isGrease = false
      rw [hgroups]
      exact any_isGrease_of_filter_eq hvs
  | serverNames | alpnProtocols | signatureAlgorithms | pskModes => exact hnone rfl nofun
  | renegotiationInfo body => exact hnone (ExtensionType.isGrease_id .renegotiationInfo) nofun

end Extension

-- ============================================================ the hello

namespace Dissection

variable {s : Dissection} {input : Bytes} {h : Hello}

/-- The entries of the block have room in it. -/
theorem Splits.length_entries_lt (hs : s.Splits input) :
    (s.entries.flatMap Entry.bytes).length < 256 ^ 2 := by
  unfold entries
  cases hblock : s.block with
  | none => exact Nat.pow_pos (by decide)
  | some block =>
      have hlt := hs.block block hblock
      rw [Tiling.bytes, List.length_append] at hlt
      exact Nat.lt_of_le_of_lt (Nat.le_add_right _ _) hlt

/-- No extension, written again, is longer than the entry it was read
from. -/
theorem Splits.length_description_le (hs : s.Splits input)
    (hdecode : Hello.ofHandshake input = .ok h) :
    List.Forall₂ (fun x e => 4 + x.description.body.length ≤ e.bytes.length)
      h.extensions s.entries := by
  have hentries := (List.forall₂_and_left _ _).2 ⟨hs.payloads, (hs.describes hdecode).extensions⟩
  refine hentries.flip.imp fun x e ⟨hpayload, sawGrease, hx⟩ => ?_
  rw [Entry.length_bytes]
  exact Nat.add_le_add_left (Extension.normal_of_ofEntry hpayload hx).length_le 4

end Dissection

namespace Hello

variable {input : Bytes} {h : Hello}

theorem normal_of_mem (hdecode : ofHandshake input = .ok h) {x : Extension}
    (hx : x ∈ h.extensions) : ∃ n, x.Normal n := by
  obtain ⟨s, hs⟩ := Dissection.exists_splits hdecode
  obtain ⟨e, he, d, hed, rfl⟩ := hs.of_mem_extensions hdecode hx
  exact ⟨_, Extension.normal_of_ofEntry (hs.payloads e he) hed⟩

/-- The extensions, written again, have room in their block: entry by
entry they take up no more than what was sent. -/
theorem length_blockBytes_lt (hdecode : ofHandshake input = .ok h) :
    (BodyTail.blockBytes (h.extensions.map Extension.description) []).length < 256 ^ 2 := by
  obtain ⟨s, hs⟩ := Dissection.exists_splits hdecode
  refine Nat.lt_of_le_of_lt ?_ hs.length_entries_lt
  rw [BodyTail.blockBytes, List.append_nil]
  apply length_flatMap_le
  rw [List.forall₂_map_left_iff]
  refine (hs.length_description_le hdecode).imp fun x e hle => ?_
  rw [List.length_append, Bytes.length_vector, Bytes.length_ofNat]
  omega

theorem length_suiteBytes_description (h : Hello) :
    h.description.suiteBytes.length = 2 * h.cipherSuites.length :=
  Bytes.length_ofWords h.cipherSuites

/-- The cipher suites that are kept have room where all of them had. -/
theorem length_suiteBytes_lt (hdecode : ofHandshake input = .ok h) :
    h.description.suiteBytes.length < 256 ^ 2 := by
  obtain ⟨s, hs⟩ := Dissection.exists_splits hdecode
  have hsent := hs.cipherSuites
  have hkept := List.length_filter_le (fun v => !isGrease v) (Bytes.words s.cipherSuites)
  rw [Bytes.length_words] at hkept
  rw [length_suiteBytes_description, (hs.describes hdecode).cipherSuites]
  omega

/-- Every length of a decoded hello has room when it is written again. -/
theorem inRange_description (hdecode : ofHandshake input = .ok h) : h.description.InRange := by
  obtain ⟨s, hs⟩ := Dissection.exists_splits hdecode
  have hdescribes := hs.describes hdecode
  have hrandom : h.random.length = 32 := by rw [hdescribes.random, hs.random]
  have hid : h.sessionId.length < 256 ^ 1 := by rw [hdescribes.sessionId]; exact hs.sessionId
  have hmethods : h.compressionMethods.length < 256 ^ 1 := by
    rw [hdescribes.compressionMethods]
    exact hs.compressionMethods
  have hsuites := length_suiteBytes_lt hdecode
  have hblock := length_blockBytes_lt hdecode
  refine ⟨hrandom, hid, hsuites, hmethods, ⟨?_, Nat.zero_lt_succ 3, hblock⟩, ?_⟩
  · rw [List.forall_mem_map]
    intro x hx
    obtain ⟨n, hnormal⟩ := normal_of_mem hdecode hx
    exact hnormal.inRange
  · -- the fields ahead of the block are too short to matter
    show (Bytes.ofNat 2 _ ++ (h.random ++ (Bytes.vector 1 h.sessionId
      ++ (Bytes.vector 2 h.description.suiteBytes ++ (Bytes.vector 1 h.compressionMethods
        ++ (Bytes.vector 2 (BodyTail.blockBytes (h.extensions.map Extension.description) [])
          ++ [])))))).length < _
    simp only [List.length_append, Bytes.length_ofNat, Bytes.length_vector, List.length_nil]
    omega

/-- A decoded hello means, written again, what it is, but for the note of
GREASE. -/
theorem hello_description (hdecode : ofHandshake input = .ok h) :
    h.description.hello
      = { h with hasGrease := h.extensions.any fun x => x.description.hasGrease } := by
  obtain ⟨s, hs⟩ := Dissection.exists_splits hdecode
  have hsuites : h.cipherSuites.filter (fun v => !isGrease v) = h.cipherSuites := by
    rw [(hs.describes hdecode).cipherSuites, List.filter_filter]
    simp only [Bool.and_self]
  have hextensions : (h.extensions.map Extension.description).map ExtensionDescription.extension
      = h.extensions := by
    rw [List.map_map]
    refine (List.map_congr_left fun x hx => ?_).trans (List.map_id _)
    obtain ⟨n, hnormal⟩ := normal_of_mem hdecode hx
    exact hnormal.extension_eq
  have hnone := Extension.any_isGrease_of_filter_eq hsuites
  show Hello.mk _ _ _ (h.cipherSuites.filter _) _
    ((h.extensions.map Extension.description).map ExtensionDescription.extension)
    (h.cipherSuites.any isGrease || (h.extensions.map Extension.description).any _) = _
  rw [hsuites, hextensions, hnone, Bool.false_or, List.any_map]
  rfl

theorem any_hasGrease_iff (hdecode : ofHandshake input = .ok h) :
    (h.extensions.any fun x => x.description.hasGrease) = true
      ↔ ∃ typeId body, .unknown typeId body ∈ h.extensions ∧ isGrease typeId = true := by
  rw [List.any_eq_true]
  constructor
  · intro ⟨x, hx, hgrease⟩
    obtain ⟨n, hnormal⟩ := normal_of_mem hdecode hx
    obtain ⟨typeId, body, rfl, htype⟩ := hnormal.hasGrease_iff.1 hgrease
    exact ⟨typeId, body, hx, htype⟩
  · intro ⟨typeId, body, hx, htype⟩
    exact ⟨_, hx, htype⟩

end Hello

/-- A decoded hello can be written again, with room for every length, and
decoding what was written gives it back. Of the GREASE only that among
the extension types is met a second time. -/
theorem ofHandshake_encode (input : Bytes) (h : Hello) (hdecode : Hello.ofHandshake input = .ok h) :
    h.encode = h.description.message ∧ h.description.InRange
    ∧ ∃ h', Hello.ofHandshake h.encode = .ok h'
        ∧ h'.legacyVersion = h.legacyVersion ∧ h'.random = h.random
        ∧ h'.sessionId = h.sessionId ∧ h'.cipherSuites = h.cipherSuites
        ∧ h'.compressionMethods = h.compressionMethods ∧ h'.extensions = h.extensions
        ∧ (h'.hasGrease = true
          ↔ ∃ typeId body, .unknown typeId body ∈ h.extensions ∧ isGrease typeId = true) := by
  have hrange := Hello.inRange_description hdecode
  have hagain := HelloLayout.ofHandshake_message (HelloDescription.wellFormed_layout hrange) []
  rw [HelloDescription.message_layout, HelloDescription.hello_layout,
    Hello.hello_description hdecode, List.append_nil, ← Hello.encode_eq_message] at hagain
  exact ⟨h.encode_eq_message, hrange, _, hagain, rfl, rfl, rfl, rfl, rfl, rfl,
    Hello.any_hasGrease_iff hdecode⟩

/-- The sample had GREASE among its versions alone, which is not written
again. -/
theorem ofHandshake_encode_sample :
    Hello.sample.encode = Hello.sample.description.message ∧ Hello.sample.description.InRange
    ∧ ∃ h', Hello.ofHandshake Hello.sample.encode = .ok h'
        ∧ h'.extensions = Hello.sample.extensions ∧ h'.hasGrease = false := by
  obtain ⟨hencode, hrange, h', hagain, -, -, -, -, -, hextensions, hgrease⟩ :=
    ofHandshake_encode Dissection.sample.bytes Hello.sample (by decide +kernel)
  refine ⟨hencode, hrange, h', hagain, hextensions, Bool.eq_false_iff.2 fun h => ?_⟩
  obtain ⟨typeId, body, hmem, -⟩ := hgrease.1 h
  simp [Hello.sample] at hmem

end TlsHello
