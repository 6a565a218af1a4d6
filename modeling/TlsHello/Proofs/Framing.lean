/-
What each layer of framing accepts, said by what was written.

A length declares the bytes after it (`Bytes.declared`). Reading such a
vector has a closed form, in which every cut of the input can be
evaluated at once (`Reader.vector_run`); the layers above have one
equivalence each, which turns an accepted input into the bytes it
consists of:

- a record is `frameRecord` of its payload, with bytes after it;
- a handshake message is `frame` of its body, with bytes after it;
- a body is the encoding of its fields, with bytes after them;
- the body of a list extension is a vector, with bytes after it.

Decoding is these, one after the other, and then `Extension.ofEntry` on
each entry of the block alone (`Hello.ofBody_eq`).
`ofHandshake_eq_ok_iff` puts them together.
-/
import TlsHello.Hello.Layout
import TlsHello.Proofs.BlockWalk
import TlsHello.Proofs.Sequence

namespace TlsHello

-- ============================================================ one list

namespace ListKind

variable {kind : ListKind} {body list : Bytes} {d : Decoded}

theorem listOf_eq_ok_iff :
    kind.listOf body = .ok list
      ↔ list.length < 256 ^ kind.format.lengthBytes
        ∧ ∃ after, Bytes.vector kind.format.lengthBytes list ++ after = body := by
  unfold listOf
  rw [except_map_eq_ok_iff]
  refine ⟨fun ⟨⟨bs, after⟩, hread, hbs⟩ => ?_, fun ⟨hfits, after, hbody⟩ => ?_⟩
  · subst hbs
    obtain ⟨hfits, hbody⟩ := Reader.vector_eq_ok_iff.1 hread
    exact ⟨hfits, after, hbody⟩
  · exact ⟨(list, after), Reader.vector_eq_ok_iff.2 ⟨hfits, hbody⟩, rfl⟩

/-- The list that a body declares, in closed form. -/
theorem listOf_run (kind : ListKind) (body : Bytes) :
    kind.listOf body
      = if body.length < kind.format.lengthBytes then
          .error (.truncated kind.format.lengthField)
        else if body.length
            < kind.format.lengthBytes + Bytes.declaredLength kind.format.lengthBytes body then
          .error (.truncated kind.format.dataField)
        else .ok (Bytes.declared kind.format.lengthBytes body) := by
  simp only [listOf, Reader.vector_run]
  split
  · rfl
  · split <;> rfl

theorem decodeList_eq_ok_iff :
    kind.decodeList list = .ok d
      ↔ kind.cutField? (kind.format.shape.tile list).leftover = none
        ∧ d = kind.decodeEntries (kind.format.shape.tile list).entries := by
  rw [decodeList_eq]
  cases hcut : kind.cutField? (kind.format.shape.tile list).leftover with
  | some field =>
      refine iff_of_false ?_ ?_
      · intro h
        cases h
      · intro h
        cases h.1
  | none =>
      refine Iff.trans ?_ (and_iff_right rfl).symm
      exact ⟨fun h => (Except.ok.inj h).symm, fun hd => congrArg Except.ok hd.symm⟩

/-- What is accepted as the body of a list extension: a vector whose
entries leave nothing harmful over, and any bytes after it. -/
theorem decode_eq_ok_iff :
    kind.decode body = .ok d
      ↔ ∃ list after, list.length < 256 ^ kind.format.lengthBytes
          ∧ Bytes.vector kind.format.lengthBytes list ++ after = body
          ∧ kind.cutField? (kind.format.shape.tile list).leftover = none
          ∧ d = kind.decodeEntries (kind.format.shape.tile list).entries := by
  unfold decode
  rw [except_bind_eq_ok_iff]
  refine ⟨fun ⟨list, hlist, hd⟩ => ?_, fun ⟨list, after, hfits, hbody, hd⟩ => ?_⟩
  · obtain ⟨hfits, after, hbody⟩ := listOf_eq_ok_iff.1 hlist
    exact ⟨list, after, hfits, hbody, decodeList_eq_ok_iff.1 hd⟩
  · exact ⟨list, listOf_eq_ok_iff.2 ⟨hfits, after, hbody⟩, decodeList_eq_ok_iff.2 hd⟩

theorem decodeEntries_keyShare (entries : List Entry) :
    keyShare.decodeEntries entries
      = ⟨.keyShareGroups ((entries.map Entry.tag).filter fun group => !isGrease group),
          (entries.map Entry.tag).any isGrease⟩ := by
  rw [List.filter_map, List.any_map]
  rfl

/-- What a list extension is decoded to is a list of its kind. -/
theorem exists_extension_of_decode (h : kind.decode body = .ok d) :
    ∃ entries, d.extension = kind.extension entries := by
  obtain ⟨list, after, -, -, -, rfl⟩ := decode_eq_ok_iff.1 h
  rw [decodeEntries_eq]
  exact ⟨_, rfl⟩

end ListKind

namespace Extension

variable {e : Entry}

theorem ofEntry_of_list (kind : ListKind) (h : e.tag = kind.id) :
    ofEntry e = kind.decode e.payload := by
  have htype : ExtensionType.ofId? kind.id = some (.list kind) :=
    ExtensionType.ofId?_id (.list kind)
  rw [ofEntry, decode, h, htype]

/-- What an extension can be: a list, renegotiation_info, or something
that is not looked into. -/
theorem ofEntry_cases (e : Entry) :
    (∃ kind : ListKind, e.tag = kind.id ∧ ofEntry e = kind.decode e.payload)
    ∨ (e.tag = ExtensionType.renegotiationInfo.id
        ∧ ofEntry e = .ok ⟨.renegotiationInfo e.payload, false⟩)
    ∨ ((∀ type : ExtensionType, type.id ≠ e.tag)
        ∧ ofEntry e = .ok ⟨.unknown e.tag e.payload, isGrease e.tag⟩) := by
  unfold ofEntry decode
  cases htype : ExtensionType.ofId? e.tag with
  | none =>
      refine .inr (.inr ⟨fun type htag => ?_, rfl⟩)
      rw [← htag, ExtensionType.ofId?_id] at htype
      cases htype
  | some type =>
      have htag := (ExtensionType.ofId?_eq_some_iff.1 htype).symm
      cases type with
      | list kind => exact .inl ⟨kind, htag, rfl⟩
      | renegotiationInfo => exact .inr (.inl ⟨htag, rfl⟩)

/-- The extension has the type it was sent as. -/
theorem typeId_of_ofEntry {d : Decoded} (h : ofEntry e = .ok d) : d.extension.typeId = e.tag := by
  rcases ofEntry_cases e with ⟨kind, htag, hdecode⟩ | ⟨htag, hdecode⟩ | ⟨-, hdecode⟩
  · rw [h] at hdecode
    obtain ⟨entries, hextension⟩ := ListKind.exists_extension_of_decode hdecode.symm
    rw [hextension, htag]
    exact ListKind.typeId_extension kind entries
  · rw [h] at hdecode
    cases hdecode
    exact htag.symm
  · rw [h] at hdecode
    cases hdecode
    rfl

end Extension

-- ============================================================ the body

namespace RawHello

variable {raw : RawHello} {h : Hello}

theorem ofBody_eq_ok_iff {body : Bytes} :
    ofBody body = .ok raw
      ↔ raw.Fits ∧ ∃ after, raw.encode ++ after = body
          ∧ (raw.extensionBlock = none → after.length < 2) := by
  unfold ofBody
  rw [except_map_eq_ok_iff]
  refine ⟨fun ⟨⟨raw', after⟩, hread, hraw⟩ => ?_, fun ⟨hfits, after, hbody⟩ => ?_⟩
  · subst hraw
    obtain ⟨hfits, hbody⟩ := reader_eq_ok_iff.1 hread
    exact ⟨hfits, after, hbody⟩
  · exact ⟨(raw, after), reader_eq_ok_iff.2 ⟨hfits, hbody⟩, rfl⟩

/-- A block that was written as extensions and a short leftover is read
as these; without a block there are none. -/
theorem extensionTiling_eq {block : Option Tiling}
    (hblock : raw.extensionBlock = block.map extensionShape.encode)
    (hfits : ∀ t ∈ block, ∀ e ∈ t.entries, e.payload.length < 256 ^ 2)
    (hshort : ∀ t ∈ block, t.leftover.length < 4) :
    raw.extensionTiling = block.getD ⟨[], []⟩ := by
  rw [extensionTiling, hblock]
  cases block with
  | none => exact EntryShape.tile_of_none (EntryShape.first?_nil extensionShape)
  | some t =>
      apply EntryShape.tile_eq_iff.2
      refine ⟨?_, EntryShape.first?_eq_none_of_short (hshort t rfl), rfl⟩
      intro e he
      exact ⟨e.tag.toNat_lt, hfits t rfl e he⟩

theorem leftover_getD_lt {block : Option Tiling} (hshort : ∀ t ∈ block, t.leftover.length < 4) :
    (block.getD ⟨[], []⟩).leftover.length < 4 := by
  cases block with
  | none => exact Nat.zero_lt_succ 3
  | some t => exact hshort t rfl

/-- The lists of a hello are taken apart exactly when each extension is
accepted alone and no header is left over. -/
theorem decode_eq_ok_iff :
    raw.decode = .ok h
      ↔ raw.extensionTiling.leftover.length < 4
        ∧ ∃ decoded, List.Forall₂ (fun e d => Extension.ofEntry e = .ok d)
              raw.extensionTiling.entries decoded
            ∧ h = raw.helloWith decoded := by
  rw [decode, except_bind_eq_ok_iff]
  refine ⟨fun ⟨decoded, hdecoded, hh⟩ => ?_, fun ⟨hshort, decoded, hdecoded, hh⟩ => ?_⟩
  · by_cases hshort : raw.extensionTiling.leftover.length < 4
    · rw [if_pos hshort] at hh
      exact ⟨hshort, decoded, mapM_eq_ok_iff.1 hdecoded, (Except.ok.inj hh).symm⟩
    · rw [if_neg hshort] at hh
      cases hh
  · refine ⟨decoded, mapM_eq_ok_iff.2 hdecoded, ?_⟩
    rw [if_pos hshort, hh]

end RawHello

-- ================================================= message and record

namespace Hello

variable {input body payload : Bytes} {h : Hello} {e : DecodeError}

theorem length_frame (body : Bytes) : (frame body).length = 4 + body.length := by
  rw [frame, List.length_cons, Bytes.length_vector]
  omega

/-- With a first byte there, its type is never cut off. -/
theorem handshakeBody_cons (type : UInt8) (rest : Bytes) :
    handshakeBody (type :: rest)
      = if type = handshakeType then
          Prod.fst <$> (Reader.vector 3 "handshake length" "handshake body").run rest
        else .error (.unexpectedHandshakeType type) := by
  have htype : UInt8.ofNat (Bytes.toNat [type]) = type := by simp [Bytes.toNat]
  have hsplit : Bytes.split? 1 (type :: rest) = some ([type], rest) := rfl
  show Prod.fst <$> handshakeReader.run (type :: rest) = _
  rw [handshakeReader, Reader.run_bind_of_ok (Reader.uint_of_split? hsplit), htype]
  by_cases h : type = handshakeType
  · rw [if_neg (not_not_intro h), if_pos h]
  · rw [if_pos h, if_neg h]
    rfl

theorem handshakeBody_of_ne {type : UInt8} (h : type ≠ handshakeType) (rest : Bytes) :
    handshakeBody (type :: rest) = .error (.unexpectedHandshakeType type) := by
  rw [handshakeBody_cons, if_neg h]

/-- The body behind the type of a message, in closed form. -/
theorem handshakeBody_run (rest : Bytes) :
    handshakeBody (handshakeType :: rest)
      = if rest.length < 3 then .error (.truncated "handshake length")
        else if rest.length < 3 + Bytes.declaredLength 3 rest then
          .error (.truncated "handshake body")
        else .ok (Bytes.declared 3 rest) := by
  rw [handshakeBody_cons, if_pos rfl, Reader.vector_run]
  split
  · rfl
  · split <;> rfl

theorem recordPayload_of_short (input : Bytes) (h : input.length < 5) :
    recordPayload input = .error (.inputTooShort 5 (.ofNat input.length)) :=
  if_pos h

/-- With a header there, its type and its version are never cut off. -/
theorem recordPayload_cons (type major minor : UInt8) {rest : Bytes} (hrest : 2 ≤ rest.length) :
    recordPayload (type :: major :: minor :: rest)
      = if type = recordType then
          Prod.fst <$> (Reader.vector 2 "record length" "record payload").run rest
        else .error (.unexpectedContentType type) := by
  have htype : UInt8.ofNat (Bytes.toNat [type]) = type := by simp [Bytes.toNat]
  have hsplit : Bytes.split? 1 (type :: major :: minor :: rest)
      = some ([type], major :: minor :: rest) := rfl
  have hversion : Bytes.split? 2 (major :: minor :: rest) = some ([major, minor], rest) := rfl
  have hheader : ¬(type :: major :: minor :: rest).length < 5 := by
    simp only [List.length_cons]
    omega
  rw [recordPayload, if_neg hheader, recordReader,
    Reader.run_bind_of_ok (Reader.uint_of_split? hsplit), htype]
  by_cases h : type = recordType
  · rw [if_neg (not_not_intro h), if_pos h]
    exact congrArg (Prod.fst <$> ·) (Reader.run_bind_of_ok (Reader.uint_of_split? hversion))
  · rw [if_pos h, if_neg h]
    rfl

theorem recordPayload_of_ne {type : UInt8} (h : type ≠ recordType) (major minor : UInt8)
    {rest : Bytes} (hrest : 2 ≤ rest.length) :
    recordPayload (type :: major :: minor :: rest) = .error (.unexpectedContentType type) := by
  rw [recordPayload_cons type major minor hrest, if_neg h]

/-- The payload behind the type and version of a record, in closed
form. The length is not cut off either. -/
theorem recordPayload_run (major minor : UInt8) (rest : Bytes) (hrest : 2 ≤ rest.length) :
    recordPayload (recordType :: major :: minor :: rest)
      = if rest.length < 2 + Bytes.declaredLength 2 rest then
          .error (.truncated "record payload")
        else .ok (Bytes.declared 2 rest) := by
  rw [recordPayload_cons recordType major minor hrest, if_pos rfl, Reader.vector_run,
    if_neg (Nat.not_lt.2 hrest)]
  split <;> rfl

theorem ofHandshake_of_error (h : handshakeBody input = .error e) :
    ofHandshake input = .error e := by
  rw [ofHandshake, h]
  rfl

theorem ofRecord_of_error (h : recordPayload input = .error e) : ofRecord input = .error e := by
  rw [ofRecord, h]
  rfl

theorem handshakeBody_eq_ok_iff :
    handshakeBody input = .ok body
      ↔ body.length < 256 ^ 3 ∧ ∃ trailing, frame body ++ trailing = input := by
  unfold frame
  cases input with
  | nil => exact ⟨nofun, fun ⟨_, _, hinput⟩ => by cases hinput⟩
  | cons type rest =>
      by_cases htype : type = handshakeType
      · subst htype
        rw [handshakeBody_cons, if_pos rfl, except_map_eq_ok_iff]
        refine ⟨fun ⟨⟨bs, trailing⟩, hread, hbs⟩ => ?_, fun ⟨hfits, trailing, hinput⟩ => ?_⟩
        · subst hbs
          obtain ⟨hfits, hrest⟩ := Reader.vector_eq_ok_iff.1 hread
          exact ⟨hfits, trailing, congrArg _ hrest⟩
        · have hrest := List.tail_eq_of_cons_eq hinput
          exact ⟨(body, trailing), Reader.vector_eq_ok_iff.2 ⟨hfits, hrest⟩, rfl⟩
      · rw [handshakeBody_cons, if_neg htype]
        refine ⟨nofun, fun ⟨_, trailing, hinput⟩ => ?_⟩
        exact absurd (List.head_eq_of_cons_eq hinput).symm htype

theorem recordPayload_eq_ok_iff :
    recordPayload input = .ok payload
      ↔ payload.length < 256 ^ 2
        ∧ ∃ major minor trailing, frameRecord major minor payload ++ trailing = input := by
  unfold frameRecord
  refine ⟨fun hread => ?_, fun ⟨hfits, major, minor, trailing, hinput⟩ => ?_⟩
  · match input with
    | type :: major :: minor :: high :: low :: rest =>
        have hlength : 2 ≤ (high :: low :: rest).length := Nat.le_add_left 2 rest.length
        rw [recordPayload_cons type major minor hlength] at hread
        by_cases htype : type = recordType
        · rw [if_pos htype] at hread
          obtain ⟨⟨bs, trailing⟩, hvector, hbs⟩ := except_map_eq_ok_iff.1 hread
          subst hbs htype
          obtain ⟨hfits, hrest⟩ := Reader.vector_eq_ok_iff.1 hvector
          exact ⟨hfits, major, minor, trailing, congrArg (_ :: _ :: _ :: ·) hrest⟩
        · rw [if_neg htype] at hread
          cases hread
    | [] | [_] | [_, _] | [_, _, _] | [_, _, _, _] => cases hread
  · subst hinput
    have hrest : 2 ≤ (Bytes.vector 2 payload ++ trailing).length := by
      rw [List.length_append, Bytes.length_vector]
      omega
    refine (recordPayload_cons recordType major minor hrest).trans ?_
    rw [if_pos rfl, Reader.vector_eq_ok_iff.2 ⟨hfits, rfl⟩]
    rfl

/-- A message is decoded as its body is, whatever follows it. -/
theorem ofHandshake_frame (h : body.length < 256 ^ 3) (trailing : Bytes) :
    ofHandshake (frame body ++ trailing) = ofBody body := by
  have hbody : handshakeBody (frame body ++ trailing) = .ok body :=
    handshakeBody_eq_ok_iff.2 ⟨h, trailing, rfl⟩
  rw [ofHandshake, hbody]
  rfl

/-- A record is decoded as the message in it is, whatever its version and
whatever follows it. -/
theorem ofRecord_frameRecord_append (h : payload.length < 256 ^ 2) (major minor : UInt8)
    (trailing : Bytes) :
    ofRecord (frameRecord major minor payload ++ trailing) = ofHandshake payload := by
  have hpayload : recordPayload (frameRecord major minor payload ++ trailing) = .ok payload :=
    recordPayload_eq_ok_iff.2 ⟨h, major, minor, trailing, rfl⟩
  rw [ofRecord, hpayload]
  rfl

/-- What is accepted as a handshake message, down to the extensions,
each of which is accepted alone. -/
theorem ofHandshake_eq_ok_iff :
    ofHandshake input = .ok h
      ↔ ∃ (raw : RawHello) (after trailing : Bytes),
          raw.Fits ∧ (raw.extensionBlock = none → after.length < 2)
          ∧ (raw.encode ++ after).length < 256 ^ 3
          ∧ frame (raw.encode ++ after) ++ trailing = input ∧ raw.decode = .ok h := by
  unfold ofHandshake
  rw [except_bind_eq_ok_iff]
  refine ⟨fun ⟨body, hbody, hh⟩ => ?_,
    fun ⟨raw, after, trailing, hraw, hafter, hfits, hinput, hh⟩ => ?_⟩
  · obtain ⟨hfits, trailing, hinput⟩ := handshakeBody_eq_ok_iff.1 hbody
    rw [ofBody_eq] at hh
    obtain ⟨raw, hread, hdecode⟩ := except_bind_eq_ok_iff.1 hh
    obtain ⟨hraw, after, hencode, hafter⟩ := RawHello.ofBody_eq_ok_iff.1 hread
    subst hencode
    exact ⟨raw, after, trailing, hraw, hafter, hfits, hinput, hdecode⟩
  · refine ⟨raw.encode ++ after, handshakeBody_eq_ok_iff.2 ⟨hfits, trailing, hinput⟩, ?_⟩
    rw [ofBody_eq, except_bind_eq_ok_iff]
    exact ⟨raw, RawHello.ofBody_eq_ok_iff.2 ⟨hraw, after, rfl, hafter⟩, hh⟩

theorem ofRecord_eq_ok_iff :
    ofRecord input = .ok h
      ↔ ∃ message major minor trailing, message.length < 256 ^ 2
          ∧ frameRecord major minor message ++ trailing = input
          ∧ ofHandshake message = .ok h := by
  unfold ofRecord
  rw [except_bind_eq_ok_iff]
  refine ⟨fun ⟨message, hmessage, hh⟩ => ?_,
    fun ⟨message, major, minor, trailing, hfits, hinput, hh⟩ => ?_⟩
  · obtain ⟨hfits, major, minor, trailing, hinput⟩ := recordPayload_eq_ok_iff.1 hmessage
    exact ⟨message, major, minor, trailing, hfits, hinput, hh⟩
  · exact ⟨message, recordPayload_eq_ok_iff.2 ⟨hfits, major, minor, trailing, hinput⟩, hh⟩

end Hello

end TlsHello
