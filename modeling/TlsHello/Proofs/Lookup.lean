/-
What is found by type.

The extensions of a hello are asked for by type. The message can be asked
too, before anything in it is decoded: its entries carry their types. This
file says that the two answers are the same. A type that is taken apart is
not found by its body any more; of every other type the first body that is
found is the first that was sent, whole; and renegotiation_info is there
exactly when it was sent (`Dissection.FoundByType`).

# The shape of the argument

The search is over what the extensions have become, so what one extension
answers is put beside what its entry answers (`bodyOf?_of_ofEntry`). For a
list that takes a fact about decoding: an extension is left unknown only if
its type is none of the eight. Extensions that are put together by hand
need not be so, and there the two answers can differ. Two searches that get
the same answers, one by one, find the same (`findSome?_eq_of_forall₂`).
-/
import TlsHello.Proofs.Dissection

namespace TlsHello

-- ============================================== a search through entries

namespace Entry

/-- The payload, if the entry has the given tag. -/
def payloadOf? (tag : UInt16) (e : Entry) : Option Bytes :=
  if e.tag = tag then some e.payload else none

variable {tag : UInt16} {payload : Bytes} {e : Entry} {entries : List Entry}

theorem payloadOf?_eq_some_iff : e.payloadOf? tag = some payload ↔ e = ⟨tag, payload⟩ := by
  obtain ⟨tag', payload'⟩ := e
  unfold payloadOf?
  split
  next htag =>
    subst htag
    rw [Option.some.injEq, mk.injEq, and_iff_right rfl]
  next htag => exact iff_of_false nofun fun he => htag (congrArg Entry.tag he)

theorem payloadOf?_eq_none_iff : e.payloadOf? tag = none ↔ e.tag ≠ tag := by
  unfold payloadOf?
  split
  next htag => exact iff_of_false nofun fun hne => hne htag
  next htag => exact iff_of_true rfl htag

/-- What is found among entries is the payload of the first with the tag. -/
theorem findSome?_payloadOf?_eq_some_iff :
    entries.findSome? (payloadOf? tag) = some payload
      ↔ ∃ front rest, entries = front ++ ⟨tag, payload⟩ :: rest ∧ ∀ x ∈ front, x.tag ≠ tag := by
  simp only [List.findSome?_eq_some_iff, payloadOf?_eq_some_iff, payloadOf?_eq_none_iff]
  refine ⟨fun ⟨front, x, rest, hentries, hx, hfront⟩ => ⟨front, rest, hx ▸ hentries, hfront⟩,
    fun ⟨front, rest, hentries, hfront⟩ => ⟨front, _, rest, hentries, rfl, hfront⟩⟩

theorem findSome?_payloadOf?_eq_none_iff :
    entries.findSome? (payloadOf? tag) = none ↔ ∀ x ∈ entries, x.tag ≠ tag := by
  simp only [List.findSome?_eq_none_iff, payloadOf?_eq_none_iff]

end Entry

-- ========================================================= one extension

/-- A list that was taken apart is not found by its body. -/
theorem ListKind.bodyOf?_extension (kind : ListKind) (entries : List Entry) (typeId : UInt16) :
    (kind.extension entries).bodyOf? typeId = none := by
  cases kind <;> rfl

namespace Extension

variable {e : Entry} {d : Decoded} {typeId : UInt16} {body : Bytes}

/-- An extension is found under no type but its own. -/
theorem typeId_of_bodyOf? {x : Extension} (h : x.bodyOf? typeId = some body) :
    x.typeId = typeId := by
  cases x with
  | renegotiationInfo bytes =>
      simp only [bodyOf?] at h
      split at h
      next htype => exact htype.symm
      next => cases h
  | unknown id bytes =>
      simp only [bodyOf?] at h
      split at h
      next htype => exact htype
      next => cases h
  | serverNames | alpnProtocols | supportedVersions | supportedGroups | signatureAlgorithms
  | keyShareGroups | pskModes => cases h

theorem bodyOf?_of_typeId_ne {x : Extension} (h : x.typeId ≠ typeId) : x.bodyOf? typeId = none := by
  rw [Option.eq_none_iff_forall_ne_some]
  intro body hbody
  exact h (typeId_of_bodyOf? hbody)

/-- Under a type with a list nothing is found: what was decoded with that
type was taken apart. -/
theorem bodyOf?_id_of_ofEntry (kind : ListKind) (h : ofEntry e = .ok d) :
    d.extension.bodyOf? kind.id = none := by
  by_cases htag : e.tag = kind.id
  · rw [ofEntry_of_list kind htag] at h
    obtain ⟨entries, hextension⟩ := ListKind.exists_extension_of_decode h
    rw [hextension]
    exact kind.bodyOf?_extension entries kind.id
  · apply bodyOf?_of_typeId_ne
    rw [typeId_of_ofEntry h]
    exact htag

/-- Under a type without a list an extension answers what its entry
does. -/
theorem bodyOf?_of_ofEntry (hplain : ∀ kind : ListKind, kind.id ≠ typeId)
    (h : ofEntry e = .ok d) : d.extension.bodyOf? typeId = e.payloadOf? typeId := by
  by_cases htag : e.tag = typeId
  · subst htag
    rw [Entry.payloadOf?_eq_some_iff.2 rfl]
    rcases ofEntry_cases e with ⟨kind, hkind, -⟩ | ⟨htype, hdecode⟩ | ⟨-, hdecode⟩
    · exact absurd hkind.symm (hplain kind)
    · rw [← Except.ok.inj (hdecode.symm.trans h)]
      exact if_pos htype
    · rw [← Except.ok.inj (hdecode.symm.trans h)]
      exact if_pos rfl
  · rw [Entry.payloadOf?_eq_none_iff.2 htag]
    apply bodyOf?_of_typeId_ne
    rw [typeId_of_ofEntry h]
    exact htag

/-- What was decoded is renegotiation_info exactly if it is found as
that. A hello put together by hand may hold something else under its
type. -/
theorem renegotiationInfo?_of_ofEntry (h : ofEntry e = .ok d) :
    d.extension.renegotiationInfo? = d.extension.bodyOf? 0xff01 := by
  rcases ofEntry_cases e with ⟨kind, htag, hdecode⟩ | ⟨-, hdecode⟩ | ⟨htag, hdecode⟩
  · obtain ⟨entries, hextension⟩ := ListKind.exists_extension_of_decode (hdecode.symm.trans h)
    rw [hextension]
    cases kind <;> rfl
  · rw [← Except.ok.inj (hdecode.symm.trans h)]
    rfl
  · rw [← Except.ok.inj (hdecode.symm.trans h)]
    exact (if_neg fun hid => htag .renegotiationInfo hid.symm).symm

end Extension

-- ============================================================ the message

/-- What a hello finds by type is what its message holds. -/
structure Dissection.FoundByType (s : Dissection) (h : Hello) : Prop where
  /-- No type that is taken apart is found. -/
  list : ∀ typeId ∈ [0x0000, 0x000a, 0x000d, 0x0010, 0x002b, 0x002d, 0x0033],
    h.extensions.body? typeId = none
  /-- Of any other type the first on the wire is found, whole. -/
  first : ∀ typeId ∉ [0x0000, 0x000a, 0x000d, 0x0010, 0x002b, 0x002d, 0x0033], ∀ body,
    h.extensions.body? typeId = some body
      ↔ ∃ front rest, s.entries = front ++ ⟨typeId, body⟩ :: rest
          ∧ ∀ e ∈ front, e.tag ≠ typeId
  /-- Nothing is found exactly if nothing was sent. -/
  absent : ∀ typeId ∉ [0x0000, 0x000a, 0x000d, 0x0010, 0x002b, 0x002d, 0x0033],
    h.extensions.body? typeId = none ↔ ∀ e ∈ s.entries, e.tag ≠ typeId
  renegotiationInfo :
    h.extensions.hasRenegotiationInfo = true ↔ ∃ e ∈ s.entries, e.tag = 0xff01
  renegotiationInfo_body? :
    h.extensions.hasRenegotiationInfo = true ↔ (h.extensions.body? 0xff01).isSome = true

namespace Dissection

variable {s : Dissection} {input : Bytes} {h : Hello} {typeId : UInt16}

theorem Describes.body?_of_list (hs : s.Describes h) (kind : ListKind) :
    h.extensions.body? kind.id = none := by
  refine List.findSome?_eq_none_iff.2 fun x hx => ?_
  obtain ⟨e, -, sawGrease, he⟩ := exists_left_of_mem hs.extensions hx
  exact Extension.bodyOf?_id_of_ofEntry kind he

theorem Describes.body?_eq (hs : s.Describes h) (hplain : ∀ kind : ListKind, kind.id ≠ typeId) :
    h.extensions.body? typeId = s.entries.findSome? (Entry.payloadOf? typeId) := by
  refine (findSome?_eq_of_forall₂ (hs.extensions.imp fun e x ⟨sawGrease, he⟩ => ?_)).symm
  exact (Extension.bodyOf?_of_ofEntry hplain he).symm

theorem Describes.hasRenegotiationInfo_eq (hs : s.Describes h) :
    h.extensions.hasRenegotiationInfo = (h.extensions.body? 0xff01).isSome := by
  have hsearch : h.extensions.findSome? Extension.renegotiationInfo?
      = h.extensions.body? 0xff01 := by
    refine findSome?_eq_of_forall₂ (List.forall₂_same.2 fun x hx => ?_)
    obtain ⟨e, -, sawGrease, he⟩ := exists_left_of_mem hs.extensions hx
    exact Extension.renegotiationInfo?_of_ofEntry he
  rw [← hsearch, List.isSome_findSome?]
  rfl

theorem Describes.foundByType (hs : s.Describes h) : s.FoundByType h where
  list := by
    intro typeId htype
    obtain ⟨kind, rfl⟩ := ListKind.mem_ids_iff.1 htype
    exact hs.body?_of_list kind
  first := by
    intro typeId htype body
    rw [hs.body?_eq fun kind hkind => htype (ListKind.mem_ids_iff.2 ⟨kind, hkind⟩)]
    exact Entry.findSome?_payloadOf?_eq_some_iff
  absent := by
    intro typeId htype
    rw [hs.body?_eq fun kind hkind => htype (ListKind.mem_ids_iff.2 ⟨kind, hkind⟩)]
    exact Entry.findSome?_payloadOf?_eq_none_iff
  renegotiationInfo := by
    have hplain : ∀ kind : ListKind, kind.id ≠ 0xff01 := by
      intro kind
      cases kind <;> decide
    rw [hs.hasRenegotiationInfo_eq, hs.body?_eq hplain, Option.isSome_iff_ne_none, Ne,
      Entry.findSome?_payloadOf?_eq_none_iff]
    simp only [ne_eq, not_forall, not_not, exists_prop]
  renegotiationInfo_body? := by rw [hs.hasRenegotiationInfo_eq]

end Dissection

/-- An accepted message can be dissected, and however that is done, what
the hello finds by type is what is found there. -/
theorem foundByType_of_accepted (input : Bytes) (h : Hello)
    (hdecode : Hello.ofHandshake input = .ok h) :
    (∃ s : Dissection, s.Splits input)
    ∧ ∀ s : Dissection, s.Splits input → s.FoundByType h := by
  refine ⟨Dissection.exists_splits hdecode, ?_⟩
  intro s hs
  exact (hs.describes hdecode).foundByType

/-- A message with types that are sent twice, with groups, which are taken
apart, between them. -/
def Dissection.repeated : Dissection where
  legacyVersion := 0x0303
  random := List.replicate 32 0x5a
  sessionId := []
  cipherSuites := [0x13, 0x01]
  compressionMethods := [0x00]
  block := some
    { entries :=
        [⟨0x0017, [0x01]⟩, ⟨0xff01, [0x00]⟩, ⟨0x000a, [0x00, 0x02, 0x00, 0x1d]⟩,
          ⟨0x0017, [0x02]⟩, ⟨0x1a1a, []⟩, ⟨0xff01, [0x02, 0x03]⟩]
      leftover := [] }
  after := []
  trailing := []

/-- What it is decoded to. -/
def Hello.repeated : Hello where
  legacyVersion := 0x0303
  random := List.replicate 32 0x5a
  sessionId := []
  cipherSuites := [0x1301]
  compressionMethods := [0x00]
  extensions :=
    [.unknown 0x0017 [0x01], .renegotiationInfo [0x00], .supportedGroups [0x001d],
      .unknown 0x0017 [0x02], .unknown 0x1a1a [], .renegotiationInfo [0x02, 0x03]]
  hasGrease := true

theorem foundByType_repeated :
    Dissection.repeated.FoundByType Hello.repeated
      ∧ Hello.repeated.extensions.body? 0x0017 = some [0x01]
      ∧ Hello.repeated.extensions.body? 0x000a = none := by
  obtain ⟨-, hevery⟩ :=
    foundByType_of_accepted Dissection.repeated.bytes Hello.repeated (by decide +kernel)
  have hfound := hevery Dissection.repeated (by decide +kernel)
  refine ⟨hfound, ?_, hfound.list 0x000a (by decide)⟩
  rw [hfound.first 0x0017 (by decide)]
  exact ⟨[], _, rfl, List.forall_mem_nil _⟩

end TlsHello
