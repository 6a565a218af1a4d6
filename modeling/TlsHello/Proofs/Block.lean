/-
The block of extensions: the first failure wins.

A block is a run of entries and a leftover, and each entry may be framed
well and still be refused. What a message comes to, given a block that is
all there, is listed by `BlockMessage.Outcome`: the error of the first
extension that is refused, or else that a last one was cut off, or else a
hello with each extension as it is decoded alone. An overrun counts
against the block, however many bytes the body has behind it.

Two consequences are stated by themselves. Nothing behind the first
refusal plays a part, nor does anything of the message in front of the
block. And an entry that is exchanged for another one that is accepted
changes the one extension that it is decoded to, and the note of GREASE
by no more than its own.

# The shape of the argument

The fields in front are read whatever they are (`ofHandshake_bytes`), and
the walk through the block, with the flag it shares, is three passes
(`Hello.ofBody_eq`). Bytes that are written as entries are read as
these, in front of anything (`tiling_of_block`).
-/
import TlsHello.Proofs.Failing
import TlsHello.Proofs.LongestRun
import TlsHello.Proofs.Verbatim

namespace TlsHello

/-- A message with a block of extensions that is all there, and what
follows the message. Nothing is said of what is in the block. -/
structure BlockMessage where
  fields : VerbatimFields
  version : UInt16
  suites : Bytes
  block : Bytes
  /-- The bytes behind the block that are still in the body. -/
  after : Bytes
  /-- The bytes behind the message. -/
  trailing : Bytes
  suites_fits : suites.length < 256 ^ 2 := by decide
  block_fits : block.length < 256 ^ 2
  body_fits : (fields.body version suites (Bytes.vector 2 block ++ after)).length < 256 ^ 3

namespace BlockMessage

/-- The message and what follows it. -/
def bytes (m : BlockMessage) : Bytes :=
  m.fields.message m.version m.suites (Bytes.vector 2 m.block ++ m.after) ++ m.trailing

/-- The block is these entries, as many as are complete, and this
leftover. -/
def Holds (m : BlockMessage) (entries : List Entry) (leftover : Bytes) : Prop :=
  LongestRun Entry.bytes (fun e => e.payload.length < 256 ^ 2) m.block entries leftover

/-- The hello of the message, with its extensions decoded to these. -/
def helloWith (m : BlockMessage) (decoded : List Decoded) : Hello where
  legacyVersion := m.version
  random := m.fields.random
  sessionId := m.fields.sessionId
  cipherSuites := (Bytes.words m.suites).filter fun v => !isGrease v
  compressionMethods := m.fields.compressionMethods
  extensions := decoded.map Decoded.extension
  hasGrease := (Bytes.words m.suites).any isGrease || decoded.any Decoded.sawGrease

/-- What decoding the message comes to. -/
inductive Outcome (m : BlockMessage) (entries : List Entry) (leftover : Bytes) :
    Except DecodeError Hello → Prop
  | refused (front : List Entry) (e : Entry) (back : List Entry) (err : DecodeError)
      (hsplit : entries = front ++ e :: back)
      (hfront : ∀ x ∈ front, ∃ d, Extension.ofEntry x = .ok d)
      (hrefused : Extension.ofEntry e = .error err) : Outcome m entries leftover (.error err)
  | cut (haccepted : ∀ x ∈ entries, ∃ d, Extension.ofEntry x = .ok d)
      (hcut : 4 ≤ leftover.length) :
      Outcome m entries leftover (.error (.truncated "extension body"))
  | accepted (decoded : List Decoded)
      (halone : List.Forall₂ (fun e d => Extension.ofEntry e = .ok d) entries decoded)
      (hshort : leftover.length < 4) : Outcome m entries leftover (.ok (m.helloWith decoded))

/-- Two messages with the same fields, one with an entry in its block
where the other has another one, of the same type and length or not. What
follows the entry in the block is the same, whatever it is. -/
structure Exchanged (m m' : BlockMessage) (front : List Entry) (e e' : Entry) (rest : Bytes) :
    Prop where
  block : m.block = front.flatMap Entry.bytes ++ (e.bytes ++ rest)
  block' : m'.block = front.flatMap Entry.bytes ++ (e'.bytes ++ rest)
  fields : m'.fields = m.fields
  version : m'.version = m.version
  suites : m'.suites = m.suites

variable {m m' : BlockMessage} {entries front : List Entry} {leftover rest : Bytes} {e e' : Entry}
variable {outcome : Except DecodeError Hello} {h : Hello} {d d' : Decoded}

-- ======================================================= up to the block

/-- The fields of the message. -/
def raw (m : BlockMessage) : RawHello := m.fields.raw m.version m.suites (some m.block)

theorem blockOf_vector {block : Bytes} (hblock : block.length < 256 ^ 2) (after : Bytes) :
    VerbatimFields.blockOf (Bytes.vector 2 block ++ after) = .ok (some block) := by
  unfold VerbatimFields.blockOf
  rw [except_map_eq_ok_iff]
  refine ⟨(some block, after), Reader.ifLeft_eq_ok_iff.2 (.inl ⟨block, rfl, ?_, ?_⟩), rfl⟩
  · rw [List.length_append, Bytes.length_vector]
    omega
  · exact Reader.vector_eq_ok_iff.2 ⟨hblock, rfl⟩

/-- Every input with complete fields and a complete block is such a
message. -/
theorem exists_bytes {input body block : Bytes} {raw : RawHello}
    (hbody : Hello.handshakeBody input = .ok body) (hraw : RawHello.ofBody body = .ok raw)
    (hblock : raw.extensionBlock = some block) :
    ∃ m : BlockMessage, m.bytes = input ∧ m.block = block := by
  obtain ⟨hbody, trailing, hinput⟩ := Hello.handshakeBody_eq_ok_iff.1 hbody
  obtain ⟨hfits, after, hbody_eq, -⟩ := RawHello.ofBody_eq_ok_iff.1 hraw
  obtain ⟨version, random, sessionId, suites, methods, extensions⟩ := raw
  obtain rfl : extensions = some block := hblock
  let o : VerbatimFields :=
    ⟨random, sessionId, methods, hfits.random, hfits.sessionId, hfits.compressionMethods⟩
  have hbytes : body = o.body version suites (Bytes.vector 2 block ++ after) := by
    rw [← hbody_eq]
    simp [RawHello.encode, VerbatimFields.body, o]
  subst hbytes
  exact ⟨⟨o, version, suites, block, after, trailing, hfits.cipherSuites,
    hfits.extensionBlock block rfl, hbody⟩, hinput, rfl⟩

/-- The fields are read, and then the lists are taken apart. -/
theorem ofHandshake_bytes (m : BlockMessage) : Hello.ofHandshake m.bytes = m.raw.decode := by
  rw [bytes, VerbatimFields.message, Hello.ofHandshake_frame m.body_fits, Hello.ofBody_eq,
    VerbatimFields.ofBody_body m.fields m.version m.suites_fits, blockOf_vector m.block_fits]
  rfl

theorem helloWith_raw (m : BlockMessage) (decoded : List Decoded) :
    m.raw.helloWith decoded = m.helloWith decoded := by
  have hsuites : m.raw.suites = Bytes.words m.suites := EntryShape.map_tag_tile m.suites
  unfold RawHello.helloWith helloWith
  rw [hsuites]
  rfl

theorem Holds.tiling (hholds : m.Holds entries leftover) :
    m.raw.extensionTiling = ⟨entries, leftover⟩ := by
  have htile := EntryShape.writes_extension.longestRun_iff.1 hholds
  rwa [List.map_id] at htile

-- ============================================================ the outcome

theorem outcome_iff (hholds : m.Holds entries leftover) :
    Hello.ofHandshake m.bytes = outcome ↔ m.Outcome entries leftover outcome := by
  rw [ofHandshake_bytes]
  constructor
  · intro hdecode
    cases outcome with
    | error err =>
        rw [RawHello.decode_eq_error_iff, hholds.tiling] at hdecode
        rcases hdecode with ⟨front, e, back, hsplit, hfront, hrefused⟩ | ⟨haccepted, hcut, rfl⟩
        · exact .refused front e back err hsplit hfront hrefused
        · exact .cut haccepted hcut
    | ok h =>
        rw [RawHello.decode_eq_ok_iff, hholds.tiling] at hdecode
        obtain ⟨hshort, decoded, halone, rfl⟩ := hdecode
        rw [helloWith_raw]
        exact .accepted decoded halone hshort
  · intro houtcome
    cases houtcome with
    | refused front e back err hsplit hfront hrefused =>
        rw [RawHello.decode_eq_error_iff, hholds.tiling]
        exact .inl ⟨front, e, back, hsplit, hfront, hrefused⟩
    | cut haccepted hcut =>
        rw [RawHello.decode_eq_error_iff, hholds.tiling]
        exact .inr ⟨haccepted, hcut, rfl⟩
    | accepted decoded halone hshort =>
        rw [RawHello.decode_eq_ok_iff, hholds.tiling]
        exact ⟨hshort, decoded, halone, (m.helloWith_raw decoded).symm⟩

-- ================================================= entries in the block

/-- An entry that is written in the block has room there. -/
theorem payload_lt (m : BlockMessage) {written : List Entry}
    (hblock : m.block = written.flatMap Entry.bytes ++ rest) {x : Entry} (hx : x ∈ written) :
    x.payload.length < 256 ^ 2 := by
  obtain ⟨before, behind, rfl⟩ := List.append_of_mem hx
  have hfits := m.block_fits
  rw [hblock, List.flatMap_append, List.flatMap_cons] at hfits
  simp only [List.length_append, Entry.length_bytes] at hfits
  omega

/-- Entries that are written in front are read, in front of whatever is
read of the rest. -/
theorem tiling_of_block (hblock : m.block = front.flatMap Entry.bytes ++ (e.bytes ++ rest)) :
    m.raw.extensionTiling
      = ⟨front ++ e :: (RawHello.extensionShape.tile rest).entries,
          (RawHello.extensionShape.tile rest).leftover⟩ := by
  have hwritten : m.block = (front ++ [e]).flatMap Entry.bytes ++ rest := by
    rw [hblock, List.flatMap_append, List.flatMap_singleton, List.append_assoc]
  have hfits : ∀ x ∈ front ++ [e], RawHello.extensionShape.Fits x := by
    intro x hx
    exact ⟨x.tag.toNat_lt, m.payload_lt hwritten hx⟩
  have htile := EntryShape.tile_encode_append hfits rest
  rw [List.append_assoc, List.singleton_append] at htile
  show RawHello.extensionShape.tile m.block = _
  rw [hwritten]
  exact htile

/-- Nothing but the entries in front of it comes before a refusal. -/
theorem ofHandshake_of_refused (hblock : m.block = front.flatMap Entry.bytes ++ (e.bytes ++ rest))
    (hfront : ∀ x ∈ front, ∃ d, Extension.ofEntry x = .ok d) {err : DecodeError}
    (hrefused : Extension.ofEntry e = .error err) : Hello.ofHandshake m.bytes = .error err := by
  rw [ofHandshake_bytes, RawHello.decode_eq_error_iff, tiling_of_block hblock]
  exact .inl ⟨front, e, _, rfl, hfront, hrefused⟩

/-- An accepted message, seen at one of its entries. -/
theorem ofHandshake_eq_ok_iff (hblock : m.block = front.flatMap Entry.bytes ++ (e.bytes ++ rest)) :
    Hello.ofHandshake m.bytes = .ok h
      ↔ (RawHello.extensionShape.tile rest).leftover.length < 4
        ∧ ∃ before d behind,
            List.Forall₂ (fun e d => Extension.ofEntry e = .ok d) front before
            ∧ Extension.ofEntry e = .ok d
            ∧ List.Forall₂ (fun e d => Extension.ofEntry e = .ok d)
                (RawHello.extensionShape.tile rest).entries behind
            ∧ h = m.helloWith (before ++ d :: behind) := by
  rw [ofHandshake_bytes, RawHello.decode_eq_ok_iff, tiling_of_block hblock]
  refine and_congr_right fun _ => ?_
  constructor
  · rintro ⟨decoded, hdecoded, rfl⟩
    obtain ⟨before, d, behind, hbefore, hd, hbehind, rfl⟩ :=
      forall₂_append_cons_left_iff.1 hdecoded
    exact ⟨before, d, behind, hbefore, hd, hbehind, m.helloWith_raw _⟩
  · rintro ⟨before, d, behind, hbefore, hd, hbehind, rfl⟩
    refine ⟨before ++ d :: behind, ?_, (m.helloWith_raw _).symm⟩
    exact forall₂_append_cons_left_iff.2 ⟨before, d, behind, hbefore, hd, hbehind, rfl⟩

-- ======================================================= one entry exchanged

/-- What is left of a hello when an extension in it is another one: all
but this extension and, perhaps, the note of GREASE, which has the note
of the extension besides what else was noted. -/
structure ChangesOnly (i : Nat) (d d' : Decoded) (h h' : Hello) : Prop where
  present : h.extensions[i]? = some d.extension
  eq : h' = { h with extensions := h.extensions.set i d'.extension, hasGrease := h'.hasGrease }
  hasGrease : ∃ elsewhere, h.hasGrease = (elsewhere || d.sawGrease)
    ∧ h'.hasGrease = (elsewhere || d'.sawGrease)

theorem changesOnly_helloWith (m : BlockMessage) (before behind : List Decoded) (d d' : Decoded) :
    ChangesOnly before.length d d' (m.helloWith (before ++ d :: behind))
      (m.helloWith (before ++ d' :: behind)) := by
  refine ⟨?_, ?_, ?_⟩
  · simp [helloWith]
  · simp [helloWith]
  · have hgrease (d : Decoded) : (m.helloWith (before ++ d :: behind)).hasGrease
        = ((Bytes.words m.suites).any isGrease || before.any Decoded.sawGrease
          || behind.any Decoded.sawGrease || d.sawGrease) := by
      unfold helloWith
      rw [List.any_append, List.any_cons, Bool.or_comm d.sawGrease]
      simp only [Bool.or_assoc]
    exact ⟨_, hgrease d, hgrease d'⟩

theorem Exchanged.helloWith_eq (hm : Exchanged m m' front e e' rest) (decoded : List Decoded) :
    m'.helloWith decoded = m.helloWith decoded := by
  unfold helloWith
  rw [hm.fields, hm.version, hm.suites]

theorem Exchanged.changesOnly (hm : Exchanged m m' front e e' rest)
    (hdecode : Hello.ofHandshake m.bytes = .ok h) (he' : Extension.ofEntry e' = .ok d') :
    ∃ d h', Extension.ofEntry e = .ok d ∧ Hello.ofHandshake m'.bytes = .ok h'
      ∧ ChangesOnly front.length d d' h h' := by
  obtain ⟨hshort, before, d, behind, hbefore, hd, hbehind, rfl⟩ :=
    (ofHandshake_eq_ok_iff hm.block).1 hdecode
  refine ⟨d, m.helloWith (before ++ d' :: behind), hd, ?_, ?_⟩
  · rw [ofHandshake_eq_ok_iff hm.block', ← hm.helloWith_eq]
    exact ⟨hshort, before, d', behind, hbefore, he', hbehind, rfl⟩
  · rw [hbefore.length_eq]
    exact m.changesOnly_helloWith before behind d d'

end BlockMessage

open BlockMessage in
/-- An input with complete fields and a complete block is a message of
this kind, and its block is entries and a leftover in one way. The first
entry that is refused decides the error of the message, and only if there
is none does a leftover of a header or more. Otherwise every extension is
what it is decoded to alone, and GREASE is noted if it is anywhere. What
stands behind a refusal does not count, and one entry exchanged for
another that is accepted changes one extension. -/
theorem block_outcome :
    (∀ (input body block : Bytes) (raw : RawHello), Hello.handshakeBody input = .ok body →
        RawHello.ofBody body = .ok raw → raw.extensionBlock = some block →
        ∃ m : BlockMessage, m.bytes = input ∧ m.block = block)
    ∧ (∀ m : BlockMessage, ∃ entries leftover, m.Holds entries leftover
        ∧ ∀ entries' leftover', m.Holds entries' leftover' →
            entries' = entries ∧ leftover' = leftover)
    ∧ (∀ (m : BlockMessage) (entries : List Entry) (leftover : Bytes), m.Holds entries leftover →
        ∀ outcome, Hello.ofHandshake m.bytes = outcome ↔ m.Outcome entries leftover outcome)
    ∧ (∀ (m : BlockMessage) (front : List Entry) (e : Entry) (rest : Bytes) (err : DecodeError),
        m.block = front.flatMap Entry.bytes ++ (e.bytes ++ rest) →
        (∀ x ∈ front, ∃ d, Extension.ofEntry x = .ok d) → Extension.ofEntry e = .error err →
        Hello.ofHandshake m.bytes = .error err)
    ∧ ∀ (m m' : BlockMessage) (front : List Entry) (e e' : Entry) (rest : Bytes) (h : Hello)
        (d' : Decoded), Exchanged m m' front e e' rest → Hello.ofHandshake m.bytes = .ok h →
        Extension.ofEntry e' = .ok d' →
        ∃ d h', Extension.ofEntry e = .ok d ∧ Hello.ofHandshake m'.bytes = .ok h'
          ∧ ChangesOnly front.length d d' h h' := by
  refine ⟨?_, ?_, ?_, ?_, ?_⟩
  · intro input body block raw hbody hraw hblock
    exact exists_bytes hbody hraw hblock
  · intro m
    obtain ⟨entries, leftover, hholds⟩ := EntryShape.writes_extension.exists_longestRun m.block
    refine ⟨entries, leftover, hholds, ?_⟩
    intro entries' leftover' hholds'
    exact EntryShape.writes_extension.unique hholds' hholds
  · intro m entries leftover hholds outcome
    exact outcome_iff hholds
  · intro m front e rest err hblock hfront hrefused
    exact ofHandshake_of_refused hblock hfront hrefused
  · intro m m' front e e' rest h d' hm hdecode he'
    exact hm.changesOnly hdecode he'

/-- A message around a block, with one cipher suite and the fields of the
sample. -/
def BlockMessage.sample (block after : Bytes)
    (hfits : block.length + after.length < 256 ^ 2 := by decide) : BlockMessage where
  fields := .sample
  version := 0x0303
  suites := [0x13, 0x01]
  block := block
  after := after
  trailing := []
  block_fits := by omega
  body_fits := by
    have hid := VerbatimFields.sample.sessionId_fits
    have hmethods := VerbatimFields.sample.compressionMethods_fits
    simp only [VerbatimFields.body, List.length_append, Bytes.length_vector, Bytes.length_ofNat,
      VerbatimFields.sample.random_length, List.length_cons, List.length_nil]
    omega

/-- Names that are cut off, in front of an overrun; an overrun that the
body has the bytes for; and versions exchanged for GREASE. -/
theorem block_outcome_sample :
    Hello.ofHandshake (BlockMessage.sample
        [0x00, 0x2b, 0x00, 0x03, 0x02, 0x0a, 0x0a, 0x00, 0x00, 0x00, 0x03, 0x00, 0x01, 0x00,
          0xff, 0xff, 0xff, 0xff] []).bytes = .error (.truncated "SNI name length")
    ∧ Hello.ofHandshake (BlockMessage.sample
        [0x00, 0x2b, 0x00, 0x03, 0x02, 0x03, 0x04, 0x00, 0x0d, 0x00, 0x02] [0x00, 0x00]).bytes
        = .error (.truncated "extension body")
    ∧ ∃ h', Hello.ofHandshake (BlockMessage.sample
          [0x00, 0x2b, 0x00, 0x03, 0x02, 0x0a, 0x0a] []).bytes = .ok h'
        ∧ h'.extensions = [.supportedVersions []] ∧ h'.hasGrease = true := by
  obtain ⟨-, -, houtcome, hrefused, hexchanged⟩ := block_outcome
  refine ⟨?_, ?_, ?_⟩
  · refine hrefused _ [⟨0x002b, [0x02, 0x0a, 0x0a]⟩] ⟨0x0000, [0x00, 0x01, 0x00]⟩ _ _ rfl ?_ ?_
    · intro x hx
      obtain rfl := List.mem_singleton.1 hx
      exact ⟨⟨.supportedVersions [], true⟩, by decide +kernel⟩
    · decide +kernel
  · have hholds : (BlockMessage.sample [0x00, 0x2b, 0x00, 0x03, 0x02, 0x03, 0x04, 0x00, 0x0d, 0x00,
        0x02] [0x00, 0x00]).Holds [⟨0x002b, [0x02, 0x03, 0x04]⟩] [0x00, 0x0d, 0x00, 0x02] :=
      EntryShape.writes_extension.longestRun_iff.2 (by decide +kernel)
    refine (houtcome _ _ _ hholds _).2 (.cut ?_ (by decide))
    intro x hx
    obtain rfl := List.mem_singleton.1 hx
    exact ⟨⟨.supportedVersions [0x0304], false⟩, by decide +kernel⟩
  · have hm : BlockMessage.Exchanged
        (.sample [0x00, 0x2b, 0x00, 0x03, 0x02, 0x03, 0x04] [])
        (.sample [0x00, 0x2b, 0x00, 0x03, 0x02, 0x0a, 0x0a] []) []
        ⟨0x002b, [0x02, 0x03, 0x04]⟩ ⟨0x002b, [0x02, 0x0a, 0x0a]⟩ [] :=
      ⟨rfl, rfl, rfl, rfl, rfl⟩
    obtain ⟨d, h', hd, hdecode, hchanges⟩ := hexchanged _ _ _ _ _ _
      { Hello.sample with
        cipherSuites := [0x1301], extensions := [.supportedVersions [0x0304]], hasGrease := false }
      ⟨.supportedVersions [], true⟩ hm (by decide +kernel) (by decide +kernel)
    refine ⟨h', hdecode, ?_, ?_⟩
    · rw [hchanges.eq]
      rfl
    · obtain ⟨elsewhere, -, hgrease⟩ := hchanges.hasGrease
      rw [hgrease, Bool.or_true]

end TlsHello
