/-
What each layer refuses, and which field it names.

`Framing` turns an accepted input into the bytes it consists of. This is
the other side: each layer has an equivalence that says when it fails,
and with what. An error is handed up unchanged, by the extension from its
list, by the message from the first extension that is refused
(`RawHello.decode_eq_error_iff`), so the fields that an error can name
are counted where they are read.

A field that is read is a field that can be cut off, unless a test ahead
of the read has seen its bytes. So a reader is followed field by field
(`Reader.FailsIn`), and where there is a test the field behind it does
not enter the account: the length of the extension block, the header of
an entry.
-/
import TlsHello.Proofs.Framing

namespace TlsHello

-- =========================================== the fields a reader can name

namespace Reader

variable {r : Reader α} {f : α → Reader β} {fields fields' : List String}

/-- The reader fails in one of the fields and in no other way. -/
def FailsIn (r : Reader α) (fields : List String) : Prop :=
  ∀ unread e, r.run unread = .error e → ∃ field ∈ fields, e = .truncated field

theorem FailsIn.bind (hr : r.FailsIn fields) (hf : ∀ a, (f a).FailsIn fields') :
    (r >>= f).FailsIn (fields ++ fields') := by
  intro unread e h
  rcases bind_eq_error_iff.1 h with h | ⟨a, rest, -, h⟩
  · obtain ⟨field, hfield, he⟩ := hr unread e h
    exact ⟨field, List.mem_append_left _ hfield, he⟩
  · obtain ⟨field, hfield, he⟩ := hf a rest e h
    exact ⟨field, List.mem_append_right _ hfield, he⟩

theorem failsIn_pure (a : α) : (pure a : Reader α).FailsIn [] := nofun

theorem failsIn_bytes (n : Nat) (field : String) : (bytes n field).FailsIn [field] := by
  intro unread e h
  exact ⟨field, List.mem_singleton_self field, (bytes_eq_error_iff.1 h).2⟩

theorem failsIn_uint (width : Nat) (field : String) : (uint width field).FailsIn [field] := by
  intro unread e h
  exact ⟨field, List.mem_singleton_self field, (uint_eq_error_iff.1 h).2⟩

theorem failsIn_vector (width : Nat) (lengthField dataField : String) :
    (vector width lengthField dataField).FailsIn [lengthField, dataField] := by
  intro unread e h
  rcases vector_eq_error_iff.1 h with ⟨-, he⟩ | ⟨n, rest, -, -, -, he⟩
  · exact ⟨lengthField, by simp, he⟩
  · exact ⟨dataField, by simp, he⟩

theorem ifLeft_eq_error_iff {n : Nat} {unread : Bytes} {e : DecodeError} :
    (ifLeft n r).run unread = .error e ↔ n ≤ unread.length ∧ r.run unread = .error e := by
  rcases Nat.lt_or_ge unread.length n with hlt | hle
  · rw [ifLeft_of_lt hlt]
    exact iff_of_false nofun fun h => by omega
  · rw [ifLeft_of_le hle, except_map_eq_error_iff]
    exact (and_iff_right hle).symm

/-- With the length of a vector seen to be there, only its data can be
cut off. -/
theorem failsIn_ifLeft_vector (width : Nat) (lengthField dataField : String) :
    (ifLeft width (vector width lengthField dataField)).FailsIn [dataField] := by
  intro unread e h
  obtain ⟨hwidth, h⟩ := ifLeft_eq_error_iff.1 h
  rcases vector_eq_error_iff.1 h with ⟨hlt, -⟩ | ⟨n, rest, -, -, -, he⟩
  · omega
  · exact ⟨dataField, List.mem_singleton_self dataField, he⟩

end Reader

-- ============================================================ one list

namespace ListKind

variable {kind : ListKind} {body list : Bytes} {field : String} {e : DecodeError}

/-- The fields of an entry that can be cut off where a list ends. -/
def entryFields : ListKind → List String
  | serverName => ["SNI name length", "SNI name"]
  | alpn => ["ALPN protocol"]
  | keyShare => ["key share key data"]
  | supportedGroups | signatureAlgorithms | supportedVersions | pskModes => []

/-- The fields that can be cut off in the body of a list extension. -/
def fields (kind : ListKind) : List String :=
  kind.format.lengthField :: kind.format.dataField :: kind.entryFields

theorem mem_entryFields_of_cutField? {leftover : Bytes} (h : kind.cutField? leftover = some field) :
    field ∈ kind.entryFields := by
  cases kind with
  | serverName =>
      simp only [cutField?] at h
      split at h
      · cases h
      · split at h
        · cases h; decide
        · cases h; decide
  | alpn =>
      simp only [cutField?] at h
      split at h
      · cases h
      · cases h; decide
  | keyShare =>
      simp only [cutField?] at h
      split at h
      · cases h
      · cases h; decide
  | supportedGroups | signatureAlgorithms | supportedVersions | pskModes => cases h

theorem listOf_eq_error_iff :
    kind.listOf body = .error e
      ↔ (body.length < kind.format.lengthBytes ∧ e = .truncated kind.format.lengthField)
        ∨ ∃ n rest, n < 256 ^ kind.format.lengthBytes
            ∧ Bytes.ofNat kind.format.lengthBytes n ++ rest = body
            ∧ rest.length < n ∧ e = .truncated kind.format.dataField := by
  unfold listOf
  rw [except_map_eq_error_iff, Reader.vector_eq_error_iff]

theorem decodeList_eq_error_iff :
    kind.decodeList list = .error e
      ↔ ∃ field, kind.cutField? (kind.format.shape.tile list).leftover = some field
          ∧ e = .truncated field := by
  rw [decodeList_eq]
  cases kind.cutField? (kind.format.shape.tile list).leftover with
  | none => simp
  | some field =>
      constructor
      · intro h
        exact ⟨field, rfl, (Except.error.inj h).symm⟩
      · rintro ⟨_, hfield, rfl⟩
        cases hfield
        rfl

theorem mem_fields_of_decode (h : kind.decode body = .error e) :
    ∃ field ∈ kind.fields, e = .truncated field := by
  rcases except_bind_eq_error_iff.1 h with h | ⟨list, -, h⟩
  · rcases listOf_eq_error_iff.1 h with ⟨-, he⟩ | ⟨n, rest, -, -, -, he⟩
    · exact ⟨kind.format.lengthField, List.mem_cons_self, he⟩
    · exact ⟨kind.format.dataField, List.mem_cons_of_mem _ List.mem_cons_self, he⟩
  · obtain ⟨field, hcut, he⟩ := decodeList_eq_error_iff.1 h
    have hfield := mem_entryFields_of_cutField? hcut
    exact ⟨field, List.mem_cons_of_mem _ (List.mem_cons_of_mem _ hfield), he⟩

theorem lengthBytes_pos (kind : ListKind) : 0 < kind.format.lengthBytes := by
  cases kind <;> decide

/-- A list that leaves over an entry that was cut off. -/
theorem exists_list_of_mem (h : field ∈ kind.entryFields) :
    ∃ list : Bytes, list.length ≤ 4 ∧ kind.decodeList list = .error (.truncated field) := by
  cases kind with
  | serverName =>
      simp only [entryFields, List.mem_cons, List.not_mem_nil, or_false] at h
      rcases h with rfl | rfl
      · exact ⟨[0x00], by decide, by decide +kernel⟩
      · exact ⟨[0x00, 0x00, 0x01], by decide, by decide +kernel⟩
  | alpn =>
      obtain rfl := List.mem_singleton.1 h
      exact ⟨[0x01], by decide, by decide +kernel⟩
  | keyShare =>
      obtain rfl := List.mem_singleton.1 h
      exact ⟨[0x00, 0x00, 0x00, 0x01], by decide, by decide +kernel⟩
  | supportedGroups | signatureAlgorithms | supportedVersions | pskModes => cases h

/-- Each of the fields is cut off in some body, and in a short one. -/
theorem exists_body_of_mem (h : field ∈ kind.fields) :
    ∃ body : Bytes, body.length ≤ 6 ∧ kind.decode body = .error (.truncated field) := by
  have hwidth : kind.format.lengthBytes ≤ 2 := by cases kind <;> decide
  have hpos := kind.lengthBytes_pos
  have hpow : 256 ^ 1 ≤ 256 ^ kind.format.lengthBytes :=
    Nat.pow_le_pow_right (by decide) hpos
  rcases List.mem_cons.1 h with rfl | h
  · refine ⟨[], Nat.zero_le 6, except_bind_eq_error_iff.2 (.inl ?_)⟩
    exact listOf_eq_error_iff.2 (.inl ⟨hpos, rfl⟩)
  rcases List.mem_cons.1 h with rfl | h
  · refine ⟨Bytes.ofNat kind.format.lengthBytes 1, ?_, except_bind_eq_error_iff.2 (.inl ?_)⟩
    · rw [Bytes.length_ofNat]
      omega
    · refine listOf_eq_error_iff.2 (.inr ⟨1, [], by omega, List.append_nil _, ?_, rfl⟩)
      exact Nat.one_pos
  · obtain ⟨list, hlist, hcut⟩ := exists_list_of_mem h
    refine ⟨Bytes.vector kind.format.lengthBytes list, ?_,
      except_bind_eq_error_iff.2 (.inr ⟨list, ?_, hcut⟩)⟩
    · rw [Bytes.length_vector]
      omega
    · exact listOf_eq_ok_iff.2 ⟨by omega, [], List.append_nil _⟩

end ListKind

theorem Extension.mem_fields_of_ofEntry {x : Entry} {e : DecodeError}
    (h : Extension.ofEntry x = .error e) :
    ∃ kind : ListKind, ∃ field ∈ kind.fields, e = .truncated field := by
  rcases ofEntry_cases x with ⟨kind, -, hdecode⟩ | ⟨-, hdecode⟩ | ⟨-, hdecode⟩
  · exact ⟨kind, ListKind.mem_fields_of_decode (hdecode.symm.trans h)⟩
  · rw [h] at hdecode
    cases hdecode
  · rw [h] at hdecode
    cases hdecode

-- ============================================================ the body

namespace RawHello

variable {raw : RawHello} {e : DecodeError}

/-- The fields that can be cut off in a body before its lists are taken
apart. The length of the extension block is not one of them. -/
def fields : List String :=
  ["legacy version", "client random", "session ID length", "session ID", "cipher suites length",
    "cipher suites data", "compression methods length", "compression methods", "extensions data"]

theorem failsIn_reader : reader.FailsIn fields := by
  show reader.FailsIn (["legacy version"] ++ (["client random"]
    ++ (["session ID length", "session ID"] ++ (["cipher suites length", "cipher suites data"]
    ++ (["compression methods length", "compression methods"] ++ (["extensions data"] ++ []))))))
  refine (Reader.failsIn_uint 2 _).bind fun _ => ?_
  refine (Reader.failsIn_bytes 32 _).bind fun _ => ?_
  refine (Reader.failsIn_vector 1 _ _).bind fun _ => ?_
  refine (Reader.failsIn_vector 2 _ _).bind fun _ => ?_
  refine (Reader.failsIn_vector 1 _ _).bind fun _ => ?_
  refine (Reader.failsIn_ifLeft_vector 2 _ _).bind fun _ => ?_
  exact Reader.failsIn_pure _

/-- The first extension that is refused decides the error; only if none
is does a header that was left over count. -/
theorem decode_eq_error_iff :
    raw.decode = .error e
      ↔ (∃ front x rest, raw.extensionTiling.entries = front ++ x :: rest
            ∧ (∀ y ∈ front, ∃ d, Extension.ofEntry y = .ok d) ∧ Extension.ofEntry x = .error e)
        ∨ (∀ y ∈ raw.extensionTiling.entries, ∃ d, Extension.ofEntry y = .ok d)
          ∧ 4 ≤ raw.extensionTiling.leftover.length ∧ e = .truncated "extension body" := by
  rw [decode, except_bind_eq_error_iff, mapM_eq_error_iff]
  apply or_congr_right
  constructor
  · rintro ⟨decoded, hdecoded, h⟩
    have haccepted := exists_forall₂_iff.1 ⟨decoded, mapM_eq_ok_iff.1 hdecoded⟩
    by_cases hshort : raw.extensionTiling.leftover.length < 4
    · rw [if_pos hshort] at h
      cases h
    · rw [if_neg hshort] at h
      exact ⟨haccepted, Nat.le_of_not_lt hshort, (Except.error.inj h).symm⟩
  · rintro ⟨haccepted, hleftover, he⟩
    obtain ⟨decoded, hdecoded⟩ := exists_forall₂_iff.2 haccepted
    refine ⟨decoded, mapM_eq_ok_iff.2 hdecoded, ?_⟩
    rw [if_neg (Nat.not_lt.2 hleftover), he]

end RawHello

end TlsHello
