/-
The grammars of the seven lists.

`ListHead` is the table of the types with a list: number, width of the
length in front of the list, and what the two are called when they are
cut off. `ListOutcome` says for each type what a list is decoded to and
when it is refused. Both are written out from the contents, type by
type, with none of the shapes that decoding works from.

The types are not alike. Server names and protocol names have to fill
their list, and where server names do not, the field that is named
depends on how many bytes are left after the last complete one. Key
shares may leave three bytes over. Of the words at most one byte is left
over, and of the modes none.

# The shape of the argument

In front of the list there is one case: a vector is read, and what it
declares is handed on (`decode_run`). Behind it the longest run of items
decides (`LongestRun`), as there is exactly one and a run that fills the
list, or leaves too little for another item, is the longest.
-/
import TlsHello.Proofs.Failing
import TlsHello.Proofs.LongestRun

namespace TlsHello

/-- The types with a list: number, width of the list's length, and the
names of the length and of the list. -/
inductive ListHead : ListKind → UInt16 → Nat → String → String → Prop
  | serverName : ListHead .serverName 0x0000 2 "SNI list length" "SNI list data"
  | supportedGroups :
      ListHead .supportedGroups 0x000a 2 "supported groups length" "supported groups data"
  | signatureAlgorithms :
      ListHead .signatureAlgorithms 0x000d 2 "signature algorithms length"
        "signature algorithms data"
  | alpn : ListHead .alpn 0x0010 2 "ALPN list length" "ALPN list data"
  | supportedVersions :
      ListHead .supportedVersions 0x002b 1 "supported versions length" "supported versions data"
  | pskModes : ListHead .pskModes 0x002d 1 "PSK modes length" "PSK modes data"
  | keyShare : ListHead .keyShare 0x0033 2 "key share list length" "key share list data"

/-- What a list is decoded to, type by type. -/
inductive ListOutcome (list : Bytes) : ListKind → Except DecodeError Decoded → Prop
  | serverNames (names : List ServerName) (hfits : ∀ n ∈ names, n.name.length < 256 ^ 2)
      (htiled : names.flatMap ServerName.bytes = list) :
      ListOutcome list .serverName (.ok ⟨.serverNames names, false⟩)
  | serverNameLengthCut (names : List ServerName) (leftover : Bytes)
      (hrun : LongestRun ServerName.bytes (fun n => n.name.length < 256 ^ 2) list names leftover)
      (hleft : 0 < leftover.length) (hcut : leftover.length < 3) :
      ListOutcome list .serverName (.error (.truncated "SNI name length"))
  | serverNameCut (names : List ServerName) (leftover : Bytes)
      (hrun : LongestRun ServerName.bytes (fun n => n.name.length < 256 ^ 2) list names leftover)
      (hcut : 3 ≤ leftover.length) :
      ListOutcome list .serverName (.error (.truncated "SNI name"))
  | protocols (protocols : List Bytes) (hfits : ∀ p ∈ protocols, p.length < 256 ^ 1)
      (htiled : protocols.flatMap (Bytes.vector 1) = list) :
      ListOutcome list .alpn (.ok ⟨.alpnProtocols protocols, false⟩)
  | protocolCut (hnot : ∀ protocols : List Bytes, (∀ p ∈ protocols, p.length < 256 ^ 1) →
      protocols.flatMap (Bytes.vector 1) ≠ list) :
      ListOutcome list .alpn (.error (.truncated "ALPN protocol"))
  | keyShares (shares : List KeyShare) (leftover : Bytes)
      (hfits : ∀ s ∈ shares, s.key.length < 256 ^ 2)
      (htiled : shares.flatMap KeyShare.bytes ++ leftover = list) (hshort : leftover.length < 4) :
      ListOutcome list .keyShare
        (.ok ⟨.keyShareGroups ((shares.map KeyShare.group).filter fun v => !isGrease v),
          (shares.map KeyShare.group).any isGrease⟩)
  | keyShareCut (hnot : ∀ (shares : List KeyShare) (leftover : Bytes),
      (∀ s ∈ shares, s.key.length < 256 ^ 2) →
      shares.flatMap KeyShare.bytes ++ leftover = list → 4 ≤ leftover.length) :
      ListOutcome list .keyShare (.error (.truncated "key share key data"))
  | supportedGroups :
      ListOutcome list .supportedGroups
        (.ok ⟨.supportedGroups ((Bytes.words list).filter fun v => !isGrease v),
          (Bytes.words list).any isGrease⟩)
  | supportedVersions :
      ListOutcome list .supportedVersions
        (.ok ⟨.supportedVersions ((Bytes.words list).filter fun v => !isGrease v),
          (Bytes.words list).any isGrease⟩)
  | signatureAlgorithms :
      ListOutcome list .signatureAlgorithms (.ok ⟨.signatureAlgorithms (Bytes.words list), false⟩)
  | pskModes : ListOutcome list .pskModes (.ok ⟨.pskModes list, false⟩)

namespace ListHead

variable {kind : ListKind} {typeId : UInt16} {width : Nat} {lengthField dataField : String}

theorem eq_format (h : ListHead kind typeId width lengthField dataField) :
    typeId = kind.id ∧ width = kind.format.lengthBytes ∧ lengthField = kind.format.lengthField
      ∧ dataField = kind.format.dataField := by
  cases h <;> decide

end ListHead

namespace ListKind

variable {list : Bytes}

/-- A list extension in closed form: the list cut off in its length, or
in its data, or the list that is declared. -/
theorem decode_run (kind : ListKind) (body : Bytes) :
    kind.decode body
      = if body.length < kind.format.lengthBytes then
          .error (.truncated kind.format.lengthField)
        else if body.length
            < kind.format.lengthBytes + Bytes.declaredLength kind.format.lengthBytes body then
          .error (.truncated kind.format.dataField)
        else kind.decodeList (Bytes.declared kind.format.lengthBytes body) := by
  unfold decode
  rw [listOf_run]
  split
  · rfl
  · split <;> rfl

section Tiled

variable {kind : ListKind} {entries : List Entry} {leftover : Bytes}

theorem decodeList_of_tile (htile : kind.format.shape.tile list = ⟨entries, leftover⟩)
    (hwhole : kind.cutField? leftover = none) :
    kind.decodeList list = .ok (kind.decodeEntries entries) := by
  rw [decodeList_eq_ok_iff, htile]
  exact ⟨hwhole, rfl⟩

theorem decodeList_of_cut {field : String}
    (htile : kind.format.shape.tile list = ⟨entries, leftover⟩)
    (hcut : kind.cutField? leftover = some field) :
    kind.decodeList list = .error (.truncated field) := by
  rw [decodeList_eq_error_iff, htile]
  exact ⟨field, hcut, rfl⟩

end Tiled

-- ================================================ items from their entries

theorem decodeEntries_serverName (names : List ServerName) :
    serverName.decodeEntries (names.map fun n => ⟨n.nameType.toUInt16, n.name⟩)
      = ⟨.serverNames names, false⟩ := by
  simp [decodeEntries, extension, format, Function.comp_def]

theorem decodeEntries_alpn (protocols : List Bytes) :
    alpn.decodeEntries (protocols.map fun p => ⟨0, p⟩) = ⟨.alpnProtocols protocols, false⟩ := by
  simp [decodeEntries, extension, format, Function.comp_def]

end ListKind

-- ================================================ the grammar decides

namespace ListOutcome

variable {list : Bytes} {kind : ListKind} {outcome : Except DecodeError Decoded}

open EntryShape in
/-- What the grammar says is what decoding does. -/
theorem decodeList_eq (h : ListOutcome list kind outcome) : kind.decodeList list = outcome := by
  cases h with
  | serverNames names hfits htiled =>
      have hrun : LongestRun ServerName.bytes (fun n => n.name.length < 256 ^ 2) list names [] := by
        refine .of_tiled hfits (fun n => ?_) htiled
        rw [ServerName.length_bytes]
        omega
      rw [ListKind.decodeList_of_tile (writes_serverName.longestRun_iff.1 hrun) rfl,
        ListKind.decodeEntries_serverName]
  | serverNameLengthCut names leftover hrun hleft hcut =>
      apply ListKind.decodeList_of_cut (writes_serverName.longestRun_iff.1 hrun)
      rw [ListKind.cutField?, if_neg (by omega), if_pos hcut]
  | serverNameCut names leftover hrun hcut =>
      apply ListKind.decodeList_of_cut (writes_serverName.longestRun_iff.1 hrun)
      rw [ListKind.cutField?, if_neg (by omega), if_neg (by omega)]
  | protocols protocols hfits htiled =>
      have hrun : LongestRun (Bytes.vector 1) (fun p => p.length < 256 ^ 1) list protocols [] := by
        refine .of_tiled hfits (fun p => ?_) htiled
        rw [Bytes.length_vector]
        omega
      rw [ListKind.decodeList_of_tile (writes_protocol.longestRun_iff.1 hrun) rfl,
        ListKind.decodeEntries_alpn]
  | protocolCut hnot =>
      obtain ⟨protocols, leftover, hrun⟩ := writes_protocol.exists_longestRun list
      apply ListKind.decodeList_of_cut (writes_protocol.longestRun_iff.1 hrun)
      rw [ListKind.cutField?, if_neg]
      intro hnil
      obtain rfl := List.eq_nil_of_length_eq_zero hnil
      exact hnot protocols hrun.fits hrun.tiled
  | keyShares shares leftover hfits htiled hshort =>
      have hrun : LongestRun KeyShare.bytes (fun s => s.key.length < 256 ^ 2) list shares
          leftover := by
        refine .of_short hfits (fun s => ?_) htiled
        rw [KeyShare.length_bytes]
        omega
      rw [ListKind.decodeList_of_tile (writes_keyShare.longestRun_iff.1 hrun)
        (if_pos hshort), ListKind.decodeEntries_keyShare, List.map_map]
      rfl
  | keyShareCut hnot =>
      obtain ⟨shares, leftover, hrun⟩ := writes_keyShare.exists_longestRun list
      apply ListKind.decodeList_of_cut (writes_keyShare.longestRun_iff.1 hrun)
      have hlong := hnot shares leftover hrun.fits hrun.bytes_eq
      rw [ListKind.cutField?, if_neg (by omega)]
  | supportedGroups =>
      rw [ListKind.decodeList_of_tile rfl rfl, ← map_tag_tile, List.filter_map, List.any_map]
      rfl
  | supportedVersions =>
      rw [ListKind.decodeList_of_tile rfl rfl, ← map_tag_tile, List.filter_map, List.any_map]
      rfl
  | signatureAlgorithms =>
      rw [ListKind.decodeList_of_tile rfl rfl, ← map_tag_tile]
      rfl
  | pskModes =>
      have htile : ListKind.pskModes.format.shape.tile list
          = ⟨list.map fun m => ⟨m.toUInt16, []⟩, []⟩ := tile_modes list
      rw [ListKind.decodeList_of_tile htile rfl, ListKind.decodeEntries_pskModes]

/-- The grammar says something about every list. -/
theorem exists_outcome (list : Bytes) (kind : ListKind) :
    ∃ outcome, ListOutcome list kind outcome := by
  cases kind with
  | serverName =>
      obtain ⟨names, leftover, hrun⟩ := EntryShape.writes_serverName.exists_longestRun list
      by_cases hnil : leftover = []
      · subst hnil
        exact ⟨_, .serverNames names hrun.fits hrun.tiled⟩
      have hleft := List.length_pos_of_ne_nil hnil
      by_cases hcut : leftover.length < 3
      · exact ⟨_, .serverNameLengthCut names leftover hrun hleft hcut⟩
      · exact ⟨_, .serverNameCut names leftover hrun (by omega)⟩
  | alpn =>
      by_cases htiled : ∃ protocols : List Bytes, (∀ p ∈ protocols, p.length < 256 ^ 1)
          ∧ protocols.flatMap (Bytes.vector 1) = list
      · obtain ⟨protocols, hfits, htiled⟩ := htiled
        exact ⟨_, .protocols protocols hfits htiled⟩
      · exact ⟨_, .protocolCut fun protocols hfits h => htiled ⟨protocols, hfits, h⟩⟩
  | keyShare =>
      by_cases htiled : ∃ (shares : List KeyShare) (leftover : Bytes),
          (∀ s ∈ shares, s.key.length < 256 ^ 2)
            ∧ shares.flatMap KeyShare.bytes ++ leftover = list ∧ leftover.length < 4
      · obtain ⟨shares, leftover, hfits, htiled, hshort⟩ := htiled
        exact ⟨_, .keyShares shares leftover hfits htiled hshort⟩
      · refine ⟨_, .keyShareCut fun shares leftover hfits h => ?_⟩
        apply Nat.le_of_not_lt
        intro hshort
        exact htiled ⟨shares, leftover, hfits, h, hshort⟩
  | supportedGroups => exact ⟨_, .supportedGroups⟩
  | supportedVersions => exact ⟨_, .supportedVersions⟩
  | signatureAlgorithms => exact ⟨_, .signatureAlgorithms⟩
  | pskModes => exact ⟨_, .pskModes⟩

/-- Decoding a list is what the grammar says of it. -/
theorem decodeList_eq_iff : kind.decodeList list = outcome ↔ ListOutcome list kind outcome := by
  constructor
  · intro hdecode
    obtain ⟨outcome', houtcome⟩ := exists_outcome list kind
    rw [houtcome.decodeList_eq] at hdecode
    exact hdecode ▸ houtcome
  · exact decodeList_eq

end ListOutcome

namespace ListKind

variable {kind : ListKind} {body : Bytes}

/-- What is cut off in a list is called neither as its length is nor as
the list. -/
theorem decodeList_ne_of_not_mem {field : String} (h : field ∉ kind.entryFields) (list : Bytes) :
    kind.decodeList list ≠ .error (.truncated field) := by
  intro hdecode
  obtain ⟨field', hcut, heq⟩ := decodeList_eq_error_iff.1 hdecode
  cases heq
  exact h (mem_entryFields_of_cutField? hcut)

theorem lengthField_ne_dataField (kind : ListKind) :
    kind.format.lengthField ≠ kind.format.dataField := by
  cases kind <;> decide

theorem lengthField_not_mem (kind : ListKind) : kind.format.lengthField ∉ kind.entryFields := by
  cases kind <;> decide

theorem dataField_not_mem (kind : ListKind) : kind.format.dataField ∉ kind.entryFields := by
  cases kind <;> decide

theorem decode_eq_lengthCut_iff :
    kind.decode body = .error (.truncated kind.format.lengthField)
      ↔ body.length < kind.format.lengthBytes := by
  rw [decode_run]
  by_cases hlength : body.length < kind.format.lengthBytes
  · rw [if_pos hlength]
    exact iff_of_true rfl hlength
  rw [if_neg hlength]
  refine iff_of_false ?_ hlength
  split
  · intro h
    exact kind.lengthField_ne_dataField (DecodeError.truncated.inj (Except.error.inj h)).symm
  · exact decodeList_ne_of_not_mem kind.lengthField_not_mem _

theorem decode_eq_dataCut_iff :
    kind.decode body = .error (.truncated kind.format.dataField)
      ↔ kind.format.lengthBytes ≤ body.length
        ∧ body.length
          < kind.format.lengthBytes + Bytes.declaredLength kind.format.lengthBytes body := by
  rw [decode_run]
  by_cases hlength : body.length < kind.format.lengthBytes
  · rw [if_pos hlength]
    refine iff_of_false ?_ ?_
    · intro h
      exact kind.lengthField_ne_dataField (DecodeError.truncated.inj (Except.error.inj h))
    · omega
  rw [if_neg hlength]
  by_cases hdata : body.length
      < kind.format.lengthBytes + Bytes.declaredLength kind.format.lengthBytes body
  · rw [if_pos hdata]
    exact iff_of_true rfl ⟨Nat.le_of_not_lt hlength, hdata⟩
  · rw [if_neg hdata]
    exact iff_of_false (decodeList_ne_of_not_mem kind.dataField_not_mem _) fun h => hdata h.2

theorem decode_of_complete (hcomplete : kind.format.lengthBytes
      + Bytes.declaredLength kind.format.lengthBytes body ≤ body.length) :
    kind.decode body = kind.decodeList (Bytes.declared kind.format.lengthBytes body) := by
  rw [decode_run, if_neg (by omega), if_neg (by omega)]

end ListKind

/-- A body of a type with a list is cut off in the length of the list, or
in the list, or it is decoded to what the grammar of the type says of the
list, which is all that the length declares. -/
theorem decode_list_exact {kind : ListKind} {typeId : UInt16} {width : Nat}
    {lengthField dataField : String} (head : ListHead kind typeId width lengthField dataField)
    (body : Bytes) :
    (Extension.decode typeId body = .error (.truncated lengthField) ↔ body.length < width)
    ∧ (Extension.decode typeId body = .error (.truncated dataField)
        ↔ width ≤ body.length ∧ body.length < width + Bytes.declaredLength width body)
    ∧ (width + Bytes.declaredLength width body ≤ body.length → ∀ outcome,
        Extension.decode typeId body = outcome
          ↔ ListOutcome (Bytes.declared width body) kind outcome) := by
  obtain ⟨rfl, rfl, rfl, rfl⟩ := head.eq_format
  have hdecode : Extension.decode kind.id body = kind.decode body :=
    Extension.ofEntry_of_list (e := ⟨kind.id, body⟩) kind rfl
  rw [hdecode]
  refine ⟨ListKind.decode_eq_lengthCut_iff, ListKind.decode_eq_dataCut_iff, ?_⟩
  intro hcomplete outcome
  rw [ListKind.decode_of_complete hcomplete]
  exact ListOutcome.decodeList_eq_iff

/-- A server name and two bytes of another one, the last of which may be
missing from the body. -/
theorem decode_list_exact_cut :
    Extension.decode 0x0000 [0x00, 0x06, 0x00, 0x00, 0x01, 0x61, 0x00, 0x00]
        = .error (.truncated "SNI name length")
      ∧ Extension.decode 0x0000 [0x00, 0x06, 0x00, 0x00, 0x01, 0x61, 0x00]
        = .error (.truncated "SNI list data") := by
  obtain ⟨-, -, hcomplete⟩ := decode_list_exact .serverName
    [0x00, 0x06, 0x00, 0x00, 0x01, 0x61, 0x00, 0x00]
  obtain ⟨-, hcut, -⟩ := decode_list_exact .serverName [0x00, 0x06, 0x00, 0x00, 0x01, 0x61, 0x00]
  refine ⟨(hcomplete (by decide) _).2 ?_, hcut.2 (by decide)⟩
  have hrun : LongestRun ServerName.bytes (fun n => n.name.length < 256 ^ 2)
      [0x00, 0x00, 0x01, 0x61, 0x00, 0x00] [⟨0x00, [0x61]⟩] [0x00, 0x00] := by
    refine .of_short (by decide) (fun n => ?_) rfl
    rw [ServerName.length_bytes]
    exact Nat.lt_of_lt_of_le (by decide) (Nat.le_add_right 3 _)
  exact .serverNameLengthCut _ _ hrun (by decide) (by decide)

end TlsHello
