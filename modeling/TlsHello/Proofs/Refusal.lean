/-
Why a message is refused.

Most errors name the field in which the input ended. This file says which
fields those are, thirty of them for a message (`Hello.cutFields`), and
that each of them can be named. The other errors are decided by the first
bytes alone: an empty input, another handshake type, and for a record
fewer bytes than its header or another content type (`errors_exact`).

More fields are read than can be named. Fifteen stand behind a test that
has seen their bytes, and no error says one of them
(`ne_truncated_of_tested`).

# The shape of the argument

An error that is none of the other kinds comes from a layer that names a
field, and the fields of all layers are the thirty (`mem_cutFields_iff`).
That the layers name no others is where the tests come in, each where it
stands: ahead of the type of a message and the header of a record
(`handshakeBody_cons`, `recordPayload_cons`), ahead of the extensions
(`RawHello.failsIn_reader`), and ahead of each entry of a list, where the
loop ends in what the test asks for or more (`EntryReader.loop_of_cut`).

The way back needs an input for each. Layers hand an error up unchanged,
so a list that is cut is enough, or a body, and those are a few bytes
long; the message around them and the record around that are put on by
`ofHandshake_frame` and `ofRecord_frameRecord`.
-/
import TlsHello.Proofs.Failing
import TlsHello.Proofs.Record

namespace TlsHello.Hello

variable {input body message : Bytes} {field : String} {x : UInt8} {e : DecodeError}

/-- The fields that can be cut off in a handshake message. -/
def cutFields : List String :=
  ["handshake length", "handshake body", "legacy version", "client random", "session ID length",
    "session ID", "cipher suites length", "cipher suites data", "compression methods length",
    "compression methods", "extensions data", "extension body", "SNI list length",
    "SNI list data", "SNI name length", "SNI name", "ALPN list length", "ALPN list data",
    "ALPN protocol", "supported groups length", "supported groups data",
    "signature algorithms length", "signature algorithms data", "supported versions length",
    "supported versions data", "PSK modes length", "PSK modes data", "key share list length",
    "key share list data", "key share key data"]

theorem mem_cutFields_iff :
    field ∈ cutFields
      ↔ field ∈ ["handshake length", "handshake body"] ∨ field ∈ RawHello.fields
        ∨ field = "extension body" ∨ ∃ kind : ListKind, field ∈ kind.fields := by
  have hsplit : ∀ field ∈ cutFields,
      field ∈ ["handshake length", "handshake body"] ∨ field ∈ RawHello.fields
        ∨ field = "extension body"
        ∨ ∃ kind ∈ ([.serverName, .supportedGroups, .signatureAlgorithms, .alpn,
            .supportedVersions, .pskModes, .keyShare] : List ListKind), field ∈ kind.fields := by
    decide
  have hheader : ["handshake length", "handshake body"] ⊆ cutFields := by decide
  have hbody : RawHello.fields ⊆ cutFields := by decide
  constructor
  · intro h
    rcases hsplit field h with h | h | h | ⟨kind, -, h⟩
    · exact .inl h
    · exact .inr (.inl h)
    · exact .inr (.inr (.inl h))
    · exact .inr (.inr (.inr ⟨kind, h⟩))
  · intro h
    rcases h with h | h | rfl | ⟨kind, h⟩
    · exact hheader h
    · exact hbody h
    · decide
    · have hkind : kind.fields ⊆ cutFields := by cases kind <;> decide
      exact hkind h

theorem mem_cutFields_of_ofBody (h : ofBody body = .error e) :
    ∃ field ∈ cutFields, e = .truncated field := by
  rw [ofBody_eq] at h
  rcases except_bind_eq_error_iff.1 h with h | ⟨raw, -, h⟩
  · obtain ⟨field, hfield, he⟩ := RawHello.failsIn_reader body e (except_map_eq_error_iff.1 h)
    exact ⟨field, mem_cutFields_iff.2 (.inr (.inl hfield)), he⟩
  · rcases RawHello.decode_eq_error_iff.1 h with ⟨front, x, rest, -, -, hx⟩ | ⟨-, -, he⟩
    · obtain ⟨kind, field, hfield, he⟩ := Extension.mem_fields_of_ofEntry hx
      exact ⟨field, mem_cutFields_iff.2 (.inr (.inr (.inr ⟨kind, hfield⟩))), he⟩
    · exact ⟨"extension body", mem_cutFields_iff.2 (.inr (.inr (.inl rfl))), he⟩

/-- With the type as it should be, a message is refused for a cut field
and for nothing else. -/
theorem mem_cutFields_of_ofHandshake (htype : input.head? = some handshakeType)
    (h : ofHandshake input = .error e) : ∃ field ∈ cutFields, e = .truncated field := by
  obtain ⟨rest, rfl⟩ := List.head?_eq_some_iff.1 htype
  rcases except_bind_eq_error_iff.1 h with h | ⟨body, -, h⟩
  · rw [handshakeBody_run] at h
    split at h
    · exact ⟨"handshake length", by decide, (Except.error.inj h).symm⟩
    · split at h
      · exact ⟨"handshake body", by decide, (Except.error.inj h).symm⟩
      · cases h
  · exact mem_cutFields_of_ofBody h

theorem ofHandshake_of_ne (htype : input.head? = some x) (hx : x ≠ handshakeType) :
    ofHandshake input = .error (.unexpectedHandshakeType x) := by
  obtain ⟨rest, rfl⟩ := List.head?_eq_some_iff.1 htype
  exact ofHandshake_of_error (handshakeBody_of_ne hx rest)

/-- What the first byte decides about an error. -/
theorem ofHandshake_error_cases (h : ofHandshake input = .error e) :
    (input = [] ∧ e = .inputTooShort 1 0)
    ∨ (∃ x, input.head? = some x ∧ x ≠ handshakeType ∧ e = .unexpectedHandshakeType x)
    ∨ ∃ field ∈ cutFields, e = .truncated field := by
  cases hhead : input.head? with
  | none =>
      obtain rfl := List.head?_eq_none_iff.1 hhead
      exact .inl ⟨rfl, (Except.error.inj h).symm⟩
  | some x =>
      by_cases hx : x = handshakeType
      · exact .inr (.inr (mem_cutFields_of_ofHandshake (hx ▸ hhead) h))
      · rw [ofHandshake_of_ne hhead hx] at h
        exact .inr (.inl ⟨x, rfl, hx, (Except.error.inj h).symm⟩)

theorem ofHandshake_eq_inputTooShort_iff {n m : UInt64} :
    ofHandshake input = .error (.inputTooShort n m) ↔ input = [] ∧ n = 1 ∧ m = 0 := by
  refine ⟨fun h => ?_, fun ⟨hinput, hn, hm⟩ => by rw [hinput, hn, hm]; rfl⟩
  rcases ofHandshake_error_cases h with ⟨hinput, he⟩ | ⟨x, -, -, he⟩ | ⟨field, -, he⟩
  · cases he
    exact ⟨hinput, rfl, rfl⟩
  · cases he
  · cases he

theorem ofHandshake_eq_unexpectedType_iff :
    ofHandshake input = .error (.unexpectedHandshakeType x)
      ↔ input.head? = some x ∧ x ≠ handshakeType := by
  refine ⟨fun h => ?_, fun ⟨hhead, hx⟩ => ofHandshake_of_ne hhead hx⟩
  rcases ofHandshake_error_cases h with ⟨-, he⟩ | ⟨y, hhead, hy, he⟩ | ⟨field, -, he⟩
  · cases he
  · cases he
    exact ⟨hhead, hy⟩
  · cases he

theorem ofHandshake_ne_unexpectedContentType :
    ofHandshake input ≠ .error (.unexpectedContentType x) := by
  intro h
  rcases ofHandshake_error_cases h with ⟨-, he⟩ | ⟨y, -, -, he⟩ | ⟨field, -, he⟩
  · cases he
  · cases he
  · cases he

theorem mem_cutFields_of_truncated (h : ofHandshake input = .error (.truncated field)) :
    field ∈ cutFields := by
  rcases ofHandshake_error_cases h with ⟨-, he⟩ | ⟨y, -, -, he⟩ | ⟨field', hfield, he⟩
  · cases he
  · cases he
  · cases he
    exact hfield

-- ====================================== an input for each of the fields

/-- Fields with nothing in them but one extension. -/
def rawWith (extension : Entry) : RawHello where
  legacyVersion := 0x0303
  random := List.replicate 32 0x00
  sessionId := []
  cipherSuites := []
  compressionMethods := []
  extensionBlock := some (RawHello.extensionShape.encode ⟨[extension], []⟩)

theorem length_encode_rawWith (extension : Entry) :
    (rawWith extension).encode.length = extension.payload.length + 44 := by
  simp [rawWith, RawHello.encode, Bytes.vector, EntryShape.encode, EntryShape.encodeEntry,
    RawHello.extensionShape, EntryShape.tagged]
  omega

/-- A body with one extension is refused for what the extension is. -/
theorem ofBody_rawWith {extension : Entry} (hlength : extension.payload.length < 256)
    (h : Extension.ofEntry extension = .error e) :
    ofBody (rawWith extension).encode = .error e := by
  have hbound := length_encode_rawWith extension
  have hblock : (RawHello.extensionShape.encode ⟨[extension], []⟩).length < 256 ^ 2 := by
    simp only [rawWith, RawHello.encode, Bytes.vector, Option.map_some, Option.getD_some,
      List.length_append] at hbound
    omega
  have hread : RawHello.ofBody (rawWith extension).encode = .ok (rawWith extension) := by
    refine RawHello.ofBody_eq_ok_iff.2 ⟨?_, [], List.append_nil _, fun _ => Nat.two_pos⟩
    refine ⟨List.length_replicate, Nat.pow_pos (by decide), Nat.pow_pos (by decide),
      Nat.pow_pos (by decide), ?_⟩
    intro block hmem
    exact Option.some.inj hmem ▸ hblock
  have htiling : (rawWith extension).extensionTiling
      = (some ⟨[extension], []⟩ : Option Tiling).getD ⟨[], []⟩ := by
    refine RawHello.extensionTiling_eq rfl ?_ ?_
    · intro t ht x hx
      cases ht
      rw [List.mem_singleton.1 hx]
      omega
    · intro t ht
      cases ht
      exact Nat.zero_lt_succ 3
  rw [ofBody_eq, hread]
  show (rawWith extension).decode = .error e
  rw [RawHello.decode_eq_error_iff, htiling]
  exact .inl ⟨[], extension, [], rfl, List.forall_mem_nil _, h⟩

/-- Each of the fields of a body is cut off in some body. -/
theorem exists_body_of_mem (h : field ∈ RawHello.fields) :
    ∃ body : Bytes, body.length < 256 ∧ ofBody body = .error (.truncated field) := by
  have hfields {body : Bytes} (hread : RawHello.ofBody body = .error (.truncated field)) :
      ofBody body = .error (.truncated field) := by
    rw [ofBody_eq, hread]
    rfl
  simp only [RawHello.fields, List.mem_cons, List.not_mem_nil, or_false] at h
  rcases h with rfl | rfl | rfl | rfl | rfl | rfl | rfl | rfl | rfl
  · exact ⟨[], by decide, hfields rfl⟩
  · exact ⟨[0x03, 0x03], by decide, hfields rfl⟩
  · exact ⟨List.replicate 34 0x00, by decide, hfields rfl⟩
  · exact ⟨List.replicate 34 0x00 ++ [0x01], by decide, hfields rfl⟩
  · exact ⟨List.replicate 34 0x00 ++ [0x00], by decide, hfields rfl⟩
  · exact ⟨List.replicate 34 0x00 ++ [0x00, 0x00, 0x01], by decide, hfields rfl⟩
  · exact ⟨List.replicate 34 0x00 ++ [0x00, 0x00, 0x00], by decide, hfields rfl⟩
  · exact ⟨List.replicate 34 0x00 ++ [0x00, 0x00, 0x00, 0x01], by decide, hfields rfl⟩
  · exact ⟨List.replicate 34 0x00 ++ [0x00, 0x00, 0x00, 0x00, 0x00, 0x01], by decide, hfields rfl⟩

/-- Each of the fields of a message is cut off in some message, and in one
that is short enough for a record. -/
theorem exists_input_of_mem (h : field ∈ cutFields) :
    ∃ input : Bytes, input.length < 256 ^ 2 ∧ ofHandshake input = .error (.truncated field) := by
  have hframe (body : Bytes) (hlength : body.length < 1000)
      (h : ofBody body = .error (.truncated field)) :
      ∃ input : Bytes, input.length < 256 ^ 2
        ∧ ofHandshake input = .error (.truncated field) := by
    refine ⟨frame body, ?_, ?_⟩
    · rw [length_frame]
      omega
    · rw [← List.append_nil (frame body), ofHandshake_frame (by omega), h]
  rcases mem_cutFields_iff.1 h with h | h | rfl | ⟨kind, h⟩
  · simp only [List.mem_cons, List.not_mem_nil, or_false] at h
    rcases h with rfl | rfl
    · exact ⟨[0x01], by decide, rfl⟩
    · exact ⟨[0x01, 0x00, 0x00, 0x01], by decide, rfl⟩
  · obtain ⟨body, hlength, hbody⟩ := exists_body_of_mem h
    exact hframe body (by omega) hbody
  · -- a header of an extension that announces a byte too many
    refine hframe (List.replicate 34 0x00
      ++ [0x00, 0x00, 0x00, 0x00, 0x00, 0x04, 0x00, 0x00, 0x00, 0x01]) (by decide) ?_
    decide +kernel
  · obtain ⟨body, hlength, hbody⟩ := ListKind.exists_body_of_mem h
    have hentry : Extension.ofEntry ⟨kind.id, body⟩ = .error (.truncated field) :=
      (Extension.ofEntry_of_list kind rfl).trans hbody
    refine hframe (rawWith ⟨kind.id, body⟩).encode ?_ ?_
    · rw [length_encode_rawWith]
      show body.length + 44 < 1000
      omega
    · exact ofBody_rawWith (Nat.lt_of_le_of_lt hlength (by decide)) hentry

-- =============================================================== records

theorem ofRecord_eq_inputTooShort_iff {n m : UInt64} :
    ofRecord input = .error (.inputTooShort n m)
      ↔ (input.length < 5 ∧ n = 5 ∧ m = .ofNat input.length)
        ∨ payload? input = some [] ∧ n = 1 ∧ m = 0 := by
  constructor
  · intro h
    rcases ofRecord_cases input with ⟨hshort, he⟩ | ⟨x, -, -, -, he⟩ | ⟨-, -, -, he⟩
      | ⟨message, hmessage, he⟩
    · cases he.symm.trans h
      exact .inl ⟨hshort, rfl, rfl⟩
    · cases he.symm.trans h
    · cases he.symm.trans h
    · obtain ⟨rfl, hn, hm⟩ := ofHandshake_eq_inputTooShort_iff.1 (he.symm.trans h)
      exact .inr ⟨hmessage, hn, hm⟩
  · intro h
    rcases h with ⟨hshort, hn, hm⟩ | ⟨hmessage, hnm⟩
    · rw [hn, hm]
      exact ofRecord_of_error (recordPayload_of_short input hshort)
    · rw [ofRecord_of_payload? hmessage]
      exact ofHandshake_eq_inputTooShort_iff.2 ⟨rfl, hnm⟩

theorem ofRecord_eq_unexpectedContentType_iff :
    ofRecord input = .error (.unexpectedContentType x)
      ↔ 5 ≤ input.length ∧ input.head? = some x ∧ x ≠ recordType := by
  constructor
  · intro h
    rcases ofRecord_cases input with ⟨-, he⟩ | ⟨y, hheader, hhead, hy, he⟩ | ⟨-, -, -, he⟩
      | ⟨message, -, he⟩
    · cases he.symm.trans h
    · cases he.symm.trans h
      exact ⟨hheader, hhead, hy⟩
    · cases he.symm.trans h
    · exact absurd (he.symm.trans h) ofHandshake_ne_unexpectedContentType
  · intro ⟨hheader, hhead, hx⟩
    exact ofRecord_of_ne hheader hhead hx

theorem ofRecord_eq_unexpectedType_iff :
    ofRecord input = .error (.unexpectedHandshakeType x)
      ↔ ∃ message, payload? input = some message ∧ message.head? = some x
          ∧ x ≠ handshakeType := by
  constructor
  · intro h
    rcases ofRecord_cases input with ⟨-, he⟩ | ⟨y, -, -, -, he⟩ | ⟨-, -, -, he⟩
      | ⟨message, hmessage, he⟩
    · cases he.symm.trans h
    · cases he.symm.trans h
    · cases he.symm.trans h
    · exact ⟨message, hmessage, ofHandshake_eq_unexpectedType_iff.1 (he.symm.trans h)⟩
  · intro ⟨message, hmessage, htype⟩
    rw [ofRecord_of_payload? hmessage]
    exact ofHandshake_eq_unexpectedType_iff.2 htype

theorem ofRecord_eq_truncated (h : ofRecord input = .error (.truncated field)) :
    (field = "record payload" ∧ 5 ≤ input.length ∧ input.head? = some recordType
        ∧ input.length < 5 + recordLength input)
      ∨ field ∈ cutFields := by
  rcases ofRecord_cases input with ⟨-, he⟩ | ⟨y, -, -, -, he⟩ | ⟨hheader, hhead, hcut, he⟩
    | ⟨message, -, he⟩
  · cases he.symm.trans h
  · cases he.symm.trans h
  · cases he.symm.trans h
    exact .inl ⟨rfl, hheader, hhead, hcut⟩
  · exact .inr (mem_cutFields_of_truncated (he.symm.trans h))

-- ================================================== fields behind a test

/-- The fields that are read behind a test which has seen their bytes: the
first ones of a message and of a record, the length of the extensions, and
what entries begin with. -/
def testedFields : List String :=
  ["handshake type", "record content type", "record protocol version", "record length",
    "cipher suite", "extensions length", "extension type", "extension length", "SNI name type",
    "ALPN protocol length", "supported group", "signature algorithm", "supported version",
    "key share group", "key share key length"]

/-- Nothing is cut off in a field whose bytes a test has seen. -/
theorem ne_truncated_of_tested (hfield : field ∈ testedFields) :
    ofHandshake input ≠ .error (.truncated field)
      ∧ ofRecord input ≠ .error (.truncated field) := by
  have hapart : ∀ field ∈ testedFields, field ≠ "record payload" ∧ field ∉ cutFields := by
    decide +kernel
  obtain ⟨hpayload, hmessage⟩ := hapart field hfield
  constructor
  · intro h
    exact hmessage (mem_cutFields_of_truncated h)
  · intro h
    rcases ofRecord_eq_truncated h with ⟨hrecord, -⟩ | hcut
    · exact hpayload hrecord
    · exact hmessage hcut

-- ======================================================= all of the errors

/-- Which errors there are, and when. Of a message: an empty input and
another type by its first byte, and every field it can be cut off in, no
other. Of a record, besides those of its payload: fewer bytes than a
header, another content type, and a payload that was cut off. -/
theorem errors_exact :
    (∀ input n m, ofHandshake input = .error (.inputTooShort n m) ↔ input = [] ∧ n = 1 ∧ m = 0)
    ∧ (∀ input x, ofHandshake input = .error (.unexpectedHandshakeType x)
        ↔ input.head? = some x ∧ x ≠ 0x01)
    ∧ (∀ input x, ofHandshake input ≠ .error (.unexpectedContentType x))
    ∧ (∀ field, (∃ input, ofHandshake input = .error (.truncated field)) ↔ field ∈ cutFields)
    ∧ (∀ input n m, ofRecord input = .error (.inputTooShort n m)
        ↔ (input.length < 5 ∧ n = 5 ∧ m = .ofNat input.length)
          ∨ payload? input = some [] ∧ n = 1 ∧ m = 0)
    ∧ (∀ input x, ofRecord input = .error (.unexpectedContentType x)
        ↔ 5 ≤ input.length ∧ input.head? = some x ∧ x ≠ 0x16)
    ∧ (∀ input x, ofRecord input = .error (.unexpectedHandshakeType x)
        ↔ ∃ message, payload? input = some message ∧ message.head? = some x ∧ x ≠ 0x01)
    ∧ (∀ input, ofRecord input = .error (.truncated "record payload")
        ↔ 5 ≤ input.length ∧ input.head? = some 0x16 ∧ input.length < 5 + recordLength input)
    ∧ ∀ field, (∃ input, ofRecord input = .error (.truncated field))
        ↔ field = "record payload" ∨ field ∈ cutFields := by
  refine ⟨fun _ _ _ => ofHandshake_eq_inputTooShort_iff,
    fun _ _ => ofHandshake_eq_unexpectedType_iff,
    fun _ _ => ofHandshake_ne_unexpectedContentType, fun field => ?_,
    fun _ _ _ => ofRecord_eq_inputTooShort_iff, fun _ _ => ofRecord_eq_unexpectedContentType_iff,
    fun _ _ => ofRecord_eq_unexpectedType_iff, fun input => ?_, fun field => ?_⟩
  · refine ⟨fun ⟨input, h⟩ => mem_cutFields_of_truncated h, fun h => ?_⟩
    obtain ⟨input, -, hinput⟩ := exists_input_of_mem h
    exact ⟨input, hinput⟩
  · refine ⟨fun h => ?_, fun ⟨hheader, hhead, hcut⟩ => ofRecord_of_cut hheader hhead hcut⟩
    rcases ofRecord_eq_truncated h with ⟨-, hcut⟩ | hmem
    · exact hcut
    · exact absurd hmem (by decide)
  · constructor
    · intro ⟨input, h⟩
      exact (ofRecord_eq_truncated h).imp_left And.left
    · intro h
      rcases h with rfl | h
      · exact ⟨[0x16, 0x03, 0x03, 0x00, 0x01], ofRecord_of_cut (by decide) rfl (by decide)⟩
      · obtain ⟨input, hlength, hinput⟩ := exists_input_of_mem h
        exact ⟨frameRecord 0x03 0x03 input, (ofRecord_frameRecord hlength _ _).trans hinput⟩

end TlsHello.Hello
