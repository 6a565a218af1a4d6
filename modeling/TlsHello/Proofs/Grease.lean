/-
Where GREASE counts.

A decoded hello says whether a GREASE value was met. This file says what
that means on the wire: there are five places where GREASE is looked
for, and the note is set exactly when one of them holds such a value
(`Entry.HasGrease`, `Dissection.HasGrease`). A GREASE-like pair of bytes
anywhere else, across an entry boundary, behind a declared list, in a
signature algorithm or in any opaque field, is in none of the five, so
the equivalence is also the statement that it is not counted.

The other half is what is left in the hello. Cipher suites, versions,
groups and key share groups hold no GREASE, in the first list of a type
or in any later one, while signature algorithms are exactly the words
that were sent.

# The shape of the argument

Everything is decided extension by extension (`hasGrease_of_sawGrease`,
`sawGrease_of_hasGrease`, `isGrease_of_mem`). An extension is decoded
alone, so the note of the whole hello is the disjunction of the notes of
its parts, and no invariant has to be carried along the block.
-/
import TlsHello.Proofs.Dissection

namespace TlsHello

-- ========================================================= five places

/-- The entry is complete in the list: it stands behind a run of
complete entries. -/
def Bytes.HoldsEntry (list : Bytes) (e : Entry) : Prop :=
  ∃ (run : List Entry) (rest : Bytes),
    (∀ x ∈ run, x.payload.length < 256 ^ 2) ∧ e.payload.length < 256 ^ 2
    ∧ run.flatMap Entry.bytes ++ (e.bytes ++ rest) = list

/-- GREASE where it is looked for in an extension: its type, a word of
the groups or versions that its body declares, or the group of a
complete key share among those that its body declares. -/
inductive Entry.HasGrease (e : Entry) : Prop where
  | type (h : isGrease e.tag = true)
  | supportedGroup (htype : e.tag = 0x000a) (v : UInt16)
      (hv : v ∈ Bytes.words (Bytes.declared 2 e.payload)) (h : isGrease v = true)
  | supportedVersion (htype : e.tag = 0x002b) (v : UInt16)
      (hv : v ∈ Bytes.words (Bytes.declared 1 e.payload)) (h : isGrease v = true)
  | keyShare (htype : e.tag = 0x0033) (share : Entry)
      (hshare : (Bytes.declared 2 e.payload).HoldsEntry share) (h : isGrease share.tag = true)

/-- GREASE where it is looked for in a message: a cipher suite, or a
place in one of the extensions. -/
def Dissection.HasGrease (s : Dissection) : Prop :=
  (∃ v ∈ Bytes.words s.cipherSuites, isGrease v = true) ∨ ∃ e ∈ s.entries, e.HasGrease

/-- What a hello tells about the GREASE in its message, and what it
keeps. -/
structure Dissection.AccountsForGrease (s : Dissection) (h : Hello) : Prop where
  hasGrease : h.hasGrease = true ↔ s.HasGrease
  cipherSuites : ∀ v ∈ h.cipherSuites, isGrease v = false
  supportedVersions : ∀ vs, .supportedVersions vs ∈ h.extensions → ∀ v ∈ vs, isGrease v = false
  supportedGroups : ∀ vs, .supportedGroups vs ∈ h.extensions → ∀ v ∈ vs, isGrease v = false
  keyShareGroups : ∀ vs, .keyShareGroups vs ∈ h.extensions → ∀ v ∈ vs, isGrease v = false
  signatureAlgorithms : ∀ (i : Nat) (vs : List UInt16),
    h.extensions[i]? = some (.signatureAlgorithms vs)
      ↔ ∃ e, s.entries[i]? = some e ∧ e.tag = 0x000d
          ∧ vs = Bytes.words (Bytes.declared 2 e.payload)
          ∧ vs.length = (Bytes.declared 2 e.payload).length / 2

-- ================================================= one list, entry by entry

namespace ListKind

variable {kind : ListKind} {body : Bytes} {d : Decoded}

/-- What a list extension is decoded to, said of the list that its body
declares. -/
theorem eq_of_decode (h : kind.decode body = .ok d) :
    d = kind.decodeEntries
      (kind.format.shape.tile (Bytes.declared kind.format.lengthBytes body)).entries := by
  obtain ⟨list, after, hfits, hbody, -, hd⟩ := decode_eq_ok_iff.1 h
  rw [← hbody, Bytes.declared_vector hfits, hd]

/-- Where a format drops GREASE, it is noted exactly when an entry that
was read has it. -/
theorem sawGrease_of_decode (h : kind.decode body = .ok d)
    (hdrops : kind.format.dropsGrease = true) :
    d.sawGrease = true
      ↔ ∃ e ∈ (kind.format.shape.tile (Bytes.declared kind.format.lengthBytes body)).entries,
          isGrease e.tag = true := by
  rw [eq_of_decode h, decodeEntries_eq, hdrops, Bool.true_and, List.any_eq_true]

theorem not_sawGrease_of_decode (h : kind.decode body = .ok d)
    (hkeeps : kind.format.dropsGrease = false) : d.sawGrease = false := by
  rw [eq_of_decode h, decodeEntries_eq, hkeeps, Bool.false_and]

end ListKind

/-- Some entry of two bytes has GREASE exactly when some word has. -/
theorem exists_word_iff {list : Bytes} :
    (∃ e ∈ (EntryShape.word.tile list).entries,
        isGrease e.tag = true)
      ↔ ∃ v ∈ Bytes.words list, isGrease v = true := by
  rw [← EntryShape.map_tag_tile]
  simp

theorem holdsEntry_iff {list : Bytes} {e : Entry} :
    list.HoldsEntry e
      ↔ e ∈ (EntryShape.tagged.tile list).entries := by
  rw [EntryShape.mem_tile_iff]
  unfold Bytes.HoldsEntry EntryShape.Fits
  refine ⟨fun ⟨run, rest, hrun, he, hlist⟩ => ?_, fun ⟨run, rest, hrun, he, hlist⟩ => ?_⟩
  · refine ⟨run, rest, fun x hx => ⟨x.tag.toNat_lt, hrun x hx⟩, ⟨e.tag.toNat_lt, he⟩, ?_⟩
    rw [EntryShape.encode_append, ← hlist]
    show run.flatMap Entry.bytes ++ ([e].flatMap Entry.bytes ++ rest) = _
    rw [List.flatMap_singleton]
  · refine ⟨run, rest, fun x hx => (hrun x hx).2, he.2, ?_⟩
    rw [EntryShape.encode_append] at hlist
    rw [← hlist]
    show _ = run.flatMap Entry.bytes ++ ([e].flatMap Entry.bytes ++ rest)
    rw [List.flatMap_singleton]

-- ========================================================= one extension

/-- A list extension that is noted for GREASE has some: only three of
the formats drop it, and what they look at are the places to look. -/
theorem ListKind.hasGrease_of_decode {kind : ListKind} {e : Entry} {d : Decoded}
    (htag : e.tag = kind.id) (h : kind.decode e.payload = .ok d) (hsaw : d.sawGrease = true) :
    e.HasGrease := by
  by_cases hdrops : kind.format.dropsGrease = true
  · have hentry := (sawGrease_of_decode h hdrops).1 hsaw
    cases kind with
    | supportedGroups =>
        obtain ⟨v, hv, hgrease⟩ := exists_word_iff.1 hentry
        exact .supportedGroup htag v hv hgrease
    | supportedVersions =>
        obtain ⟨v, hv, hgrease⟩ := exists_word_iff.1 hentry
        exact .supportedVersion htag v hv hgrease
    | keyShare =>
        obtain ⟨share, hshare, hgrease⟩ := hentry
        exact .keyShare htag share (holdsEntry_iff.2 hshare) hgrease
    | serverName | alpn | signatureAlgorithms | pskModes => cases hdrops
  · rw [not_sawGrease_of_decode h (Bool.eq_false_iff.2 hdrops)] at hsaw
    cases hsaw

namespace Extension

variable {e : Entry} {d : Decoded}

theorem hasGrease_of_sawGrease (h : ofEntry e = .ok d) (hsaw : d.sawGrease = true) :
    e.HasGrease := by
  rcases ofEntry_cases e with ⟨kind, htag, hdecode⟩ | ⟨htag, hdecode⟩ | ⟨-, hdecode⟩
  · rw [h] at hdecode
    exact ListKind.hasGrease_of_decode htag hdecode.symm hsaw
  · rw [h] at hdecode
    cases hdecode
    cases hsaw
  · rw [h] at hdecode
    cases hdecode
    exact .type hsaw

/-- A GREASE type is none that is known, so its extension is noted and
not looked into. -/
theorem sawGrease_of_type (h : ofEntry e = .ok d) (hgrease : isGrease e.tag = true) :
    d.sawGrease = true := by
  have hunknown : ∀ type : ExtensionType, e.tag ≠ type.id := by
    intro type htag
    rw [htag, ExtensionType.isGrease_id] at hgrease
    cases hgrease
  rcases ofEntry_cases e with ⟨kind, htag, -⟩ | ⟨htag, -⟩ | ⟨-, hdecode⟩
  · exact absurd htag (hunknown (.list kind))
  · exact absurd htag (hunknown .renegotiationInfo)
  · rw [h] at hdecode
    cases hdecode
    exact hgrease

theorem sawGrease_of_hasGrease (h : ofEntry e = .ok d) (hgrease : e.HasGrease) :
    d.sawGrease = true := by
  cases hgrease with
  | type hgrease => exact sawGrease_of_type h hgrease
  | supportedGroup htag v hv hgrease =>
      rw [ofEntry_of_list .supportedGroups htag] at h
      exact (ListKind.sawGrease_of_decode h rfl).2 (exists_word_iff.2 ⟨v, hv, hgrease⟩)
  | supportedVersion htag v hv hgrease =>
      rw [ofEntry_of_list .supportedVersions htag] at h
      exact (ListKind.sawGrease_of_decode h rfl).2 (exists_word_iff.2 ⟨v, hv, hgrease⟩)
  | keyShare htag share hshare hgrease =>
      rw [ofEntry_of_list .keyShare htag] at h
      exact (ListKind.sawGrease_of_decode h rfl).2 ⟨share, holdsEntry_iff.1 hshare, hgrease⟩

/-- Where a format drops GREASE and its extension, `wrap`, holds the
tags of the entries, none of them is GREASE. -/
theorem isGrease_of_mem (kind : ListKind) {wrap : List UInt16 → Extension} {vs : List UInt16}
    (hdrops : kind.format.dropsGrease = true)
    (hextension : ∀ entries, kind.extension entries = wrap (entries.map Entry.tag))
    (hinj : Function.Injective wrap) (htype : (wrap vs).typeId = kind.id)
    (h : ofEntry e = .ok d) (hd : d.extension = wrap vs) : ∀ v ∈ vs, isGrease v = false := by
  have htag : e.tag = kind.id := by
    rw [← typeId_of_ofEntry h, hd, htype]
  rw [ofEntry_of_list kind htag] at h
  rw [ListKind.eq_of_decode h, ListKind.decodeEntries_eq, hdrops] at hd
  rw [← hinj ((hextension _).symm.trans hd), List.forall_mem_map]
  intro x hx
  simpa using (List.mem_filter.1 hx).2

/-- Signature algorithms are the words of the declared list, all of
them. -/
theorem signatureAlgorithms_of_ofEntry (h : ofEntry e = .ok d) (htag : e.tag = 0x000d) :
    d.extension = .signatureAlgorithms (Bytes.words (Bytes.declared 2 e.payload)) := by
  rw [ofEntry_of_list .signatureAlgorithms htag] at h
  rw [ListKind.eq_of_decode h, ListKind.decodeEntries_eq, ← EntryShape.map_tag_tile]
  have hall (entries : List Entry) :
      (entries.filter fun e => !(ListKind.signatureAlgorithms.format.dropsGrease && isGrease e.tag))
        = entries := List.filter_eq_self.2 fun _ _ => rfl
  rw [hall]
  rfl

end Extension

-- ============================================================ the message

namespace Dissection

variable {s : Dissection} {input : Bytes} {h : Hello}

/-- Whatever holds of what each extension is decoded to holds of the
extensions of the hello. -/
theorem Splits.of_mem_extensions (hs : s.Splits input) (hdecode : Hello.ofHandshake input = .ok h)
    {x : Extension} (hx : x ∈ h.extensions) :
    ∃ e ∈ s.entries, ∃ d, Extension.ofEntry e = .ok d ∧ d.extension = x := by
  obtain ⟨decoded, hdecoded, rfl⟩ := hs.ofHandshake_eq_ok_iff.1 hdecode
  obtain ⟨d, hd, rfl⟩ := List.mem_map.1 hx
  obtain ⟨e, he, hed⟩ := exists_left_of_mem hdecoded hd
  exact ⟨e, he, d, hed, rfl⟩

theorem Splits.hasGrease_iff (hs : s.Splits input) (hdecode : Hello.ofHandshake input = .ok h) :
    h.hasGrease = true ↔ s.HasGrease := by
  obtain ⟨decoded, hdecoded, rfl⟩ := hs.ofHandshake_eq_ok_iff.1 hdecode
  show (s.toRaw.suites.any isGrease || decoded.any Decoded.sawGrease) = true ↔ _
  rw [Bool.or_eq_true, suites_toRaw, List.any_eq_true, List.any_eq_true]
  unfold Dissection.HasGrease
  refine or_congr_right ⟨fun ⟨d, hd, hsaw⟩ => ?_, fun ⟨e, he, hgrease⟩ => ?_⟩
  · obtain ⟨e, he, hed⟩ := exists_left_of_mem hdecoded hd
    exact ⟨e, he, Extension.hasGrease_of_sawGrease hed hsaw⟩
  · obtain ⟨d, hd, hed⟩ := exists_right_of_mem hdecoded he
    exact ⟨d, hd, Extension.sawGrease_of_hasGrease hed hgrease⟩

theorem Splits.signatureAlgorithms_iff (hs : s.Splits input)
    (hdecode : Hello.ofHandshake input = .ok h) (i : Nat) (vs : List UInt16) :
    h.extensions[i]? = some (.signatureAlgorithms vs)
      ↔ ∃ e, s.entries[i]? = some e ∧ e.tag = 0x000d
          ∧ vs = Bytes.words (Bytes.declared 2 e.payload)
          ∧ vs.length = (Bytes.declared 2 e.payload).length / 2 := by
  have hextensions := (hs.describes hdecode).extensions
  refine ⟨fun hx => ?_, fun ⟨e, he, htag, hvs, _⟩ => ?_⟩
  · rcases forall₂_getElem? hextensions i with ⟨-, hnone⟩ | ⟨e, x, he, hx', sawGrease, hed⟩
    · rw [hx] at hnone
      cases hnone
    · rw [hx] at hx'
      obtain rfl := Option.some.inj hx'
      have htag : e.tag = 0x000d := (Extension.typeId_of_ofEntry hed).symm
      have hvs := Extension.signatureAlgorithms.inj
        (Extension.signatureAlgorithms_of_ofEntry hed htag)
      exact ⟨e, he, htag, hvs, hvs ▸ Bytes.length_words _⟩
  · rcases forall₂_getElem? hextensions i with ⟨hnone, -⟩ | ⟨e', x, he', hx, sawGrease, hed⟩
    · rw [he] at hnone
      cases hnone
    · rw [he] at he'
      obtain rfl := Option.some.inj he'
      rw [hx, hvs]
      exact congrArg some (Extension.signatureAlgorithms_of_ofEntry hed htag)

theorem Splits.accountsForGrease (hs : s.Splits input)
    (hdecode : Hello.ofHandshake input = .ok h) : s.AccountsForGrease h where
  hasGrease := hs.hasGrease_iff hdecode
  cipherSuites := by
    intro v hv
    rw [(hs.describes hdecode).cipherSuites] at hv
    simpa using (List.mem_filter.1 hv).2
  supportedVersions := by
    intro vs hvs
    obtain ⟨e, -, d, hed, hd⟩ := hs.of_mem_extensions hdecode hvs
    exact Extension.isGrease_of_mem .supportedVersions rfl (fun _ => rfl)
      (fun _ _ => Extension.supportedVersions.inj) rfl hed hd
  supportedGroups := by
    intro vs hvs
    obtain ⟨e, -, d, hed, hd⟩ := hs.of_mem_extensions hdecode hvs
    exact Extension.isGrease_of_mem .supportedGroups rfl (fun _ => rfl)
      (fun _ _ => Extension.supportedGroups.inj) rfl hed hd
  keyShareGroups := by
    intro vs hvs
    obtain ⟨e, -, d, hed, hd⟩ := hs.of_mem_extensions hdecode hvs
    exact Extension.isGrease_of_mem .keyShare rfl (fun _ => rfl)
      (fun _ _ => Extension.keyShareGroups.inj) rfl hed hd
  signatureAlgorithms := hs.signatureAlgorithms_iff hdecode

end Dissection

/-- An accepted message, alone or in a record, has a dissection, and the
hello accounts for all the GREASE in it and for no other. -/
theorem accountsForGrease_of_accepted (input : Bytes) (h : Hello) :
    (Hello.ofHandshake input = .ok h →
      ∃ s : Dissection, s.Splits input ∧ s.AccountsForGrease h)
    ∧ (Hello.ofRecord input = .ok h →
      ∃ (s : Dissection) (message : Bytes) (major minor : UInt8) (trailing : Bytes),
        message.length < 256 ^ 2 ∧ Hello.frameRecord major minor message ++ trailing = input
          ∧ s.Splits message ∧ s.AccountsForGrease h) := by
  refine ⟨fun hdecode => ?_, fun hdecode => ?_⟩
  · obtain ⟨s, hs⟩ := Dissection.exists_splits hdecode
    exact ⟨s, hs, hs.accountsForGrease hdecode⟩
  · obtain ⟨message, major, minor, trailing, hfits, hinput, hmessage⟩ :=
      Hello.ofRecord_eq_ok_iff.1 hdecode
    obtain ⟨s, hs⟩ := Dissection.exists_splits hmessage
    exact ⟨s, message, major, minor, trailing, hfits, hinput, hs, hs.accountsForGrease hmessage⟩

theorem accountsForGrease_sample :
    (∃ s : Dissection, s.Splits Dissection.sample.bytes ∧ s.AccountsForGrease Hello.sample)
    ∧ ∃ (s : Dissection) (message : Bytes) (major minor : UInt8) (trailing : Bytes),
        message.length < 256 ^ 2
          ∧ Hello.frameRecord major minor message ++ trailing
            = Hello.frameRecord 0x03 0x01 Dissection.sample.bytes ++ [0x0a, 0x0a]
          ∧ s.Splits message ∧ s.AccountsForGrease Hello.sample := by
  refine ⟨?_, ?_⟩
  · exact (accountsForGrease_of_accepted Dissection.sample.bytes Hello.sample).1
      (by decide +kernel)
  · exact (accountsForGrease_of_accepted
      (Hello.frameRecord 0x03 0x01 Dissection.sample.bytes ++ [0x0a, 0x0a]) Hello.sample).2
      (by decide +kernel)

end TlsHello
