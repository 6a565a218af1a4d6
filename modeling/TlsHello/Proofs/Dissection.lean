/-
The grammar of what is accepted.

A dissection cuts a byte string at every boundary that a ClientHello
message has: the fields of the body, the entries of the extension block,
and the bytes that are left over in the block, after it and after the
message. `Splits` says that the parts, put together with their lengths,
are the string; nothing in it mentions a reader.

# The claim

`ofHandshake_accepts_iff`: a string is accepted exactly when it can be
dissected into parts whose extensions are accepted one by one. There is
never more than one dissection, and the decoded hello is what its parts
say (`Describes`).

# Why it holds

A dissection is the encoding of raw fields (`toRaw`), so the framing
equivalences carry it to the reader and back. Its uniqueness is theirs
too: two dissections of one string give the same answer of one reader,
and the entries of the block are the one tiling of it, since four bytes
would begin another entry and fewer are left over.
-/
import TlsHello.Proofs.Framing

namespace TlsHello

/-- A tag of two bytes, a length of two bytes and a payload. -/
def Entry.bytes (e : Entry) : Bytes :=
  Bytes.ofNat 2 e.tag.toNat ++ Bytes.vector 2 e.payload

theorem Entry.length_bytes (e : Entry) : e.bytes.length = 4 + e.payload.length := by
  rw [bytes, List.length_append, Bytes.length_ofNat, Bytes.length_vector, ← Nat.add_assoc]

/-- Entries and the bytes left over after them, one after the other. -/
def Tiling.bytes (t : Tiling) : Bytes :=
  t.entries.flatMap Entry.bytes ++ t.leftover

/-- A ClientHello message and what follows it, cut into parts. -/
@[ext]
structure Dissection where
  legacyVersion : UInt16
  random : Bytes
  sessionId : Bytes
  cipherSuites : Bytes
  compressionMethods : Bytes
  /-- The extensions, and the bytes after them in their block. -/
  block : Option Tiling
  /-- The bytes after the last field that are still in the body. -/
  after : Bytes
  /-- The bytes after the message. -/
  trailing : Bytes
deriving DecidableEq, Repr

namespace Dissection

/-- The extensions on the wire; none without a block. -/
def entries (s : Dissection) : List Entry := (s.block.map Tiling.entries).getD []

/-- What follows the compression methods in the body. -/
def rest (s : Dissection) : Bytes :=
  match s.block with
  | none => s.after
  | some block => Bytes.vector 2 block.bytes ++ s.after

/-- The body that the parts make up. -/
def body (s : Dissection) : Bytes :=
  Bytes.ofNat 2 s.legacyVersion.toNat ++ (s.random ++ (Bytes.vector 1 s.sessionId
    ++ (Bytes.vector 2 s.cipherSuites ++ (Bytes.vector 1 s.compressionMethods ++ s.rest))))

/-- The message that the parts make up, and what follows it. -/
def bytes (s : Dissection) : Bytes := 0x01 :: (Bytes.vector 3 s.body ++ s.trailing)

/-- The parts make up the input. Each has room for its length, too few
bytes are left over in the block for another extension, and too few in
the body for a block that is not there. -/
structure Splits (s : Dissection) (input : Bytes) : Prop where
  input_eq : s.bytes = input
  random : s.random.length = 32
  sessionId : s.sessionId.length < 256 ^ 1
  cipherSuites : s.cipherSuites.length < 256 ^ 2
  compressionMethods : s.compressionMethods.length < 256 ^ 1
  payloads : ∀ e ∈ s.entries, e.payload.length < 256 ^ 2
  block : ∀ block ∈ s.block, block.bytes.length < 256 ^ 2
  leftover : ∀ block ∈ s.block, block.leftover.length < 4
  after : s.block = none → s.after.length < 2
  body : s.body.length < 256 ^ 3

instance (s : Dissection) (input : Bytes) : Decidable (s.Splits input) :=
  decidable_of_iff
    (s.bytes = input ∧ s.random.length = 32 ∧ s.sessionId.length < 256 ^ 1
      ∧ s.cipherSuites.length < 256 ^ 2 ∧ s.compressionMethods.length < 256 ^ 1
      ∧ (∀ e ∈ s.entries, e.payload.length < 256 ^ 2)
      ∧ (∀ block ∈ s.block, block.bytes.length < 256 ^ 2)
      ∧ (∀ block ∈ s.block, block.leftover.length < 4)
      ∧ (s.block = none → s.after.length < 2) ∧ s.body.length < 256 ^ 3)
    ⟨fun ⟨h₁, h₂, h₃, h₄, h₅, h₆, h₇, h₈, h₉, h₁₀⟩ => ⟨h₁, h₂, h₃, h₄, h₅, h₆, h₇, h₈, h₉, h₁₀⟩,
      fun ⟨h₁, h₂, h₃, h₄, h₅, h₆, h₇, h₈, h₉, h₁₀⟩ => ⟨h₁, h₂, h₃, h₄, h₅, h₆, h₇, h₈, h₉, h₁₀⟩⟩

/-- The hello has the parts as its fields: the cipher suites in pairs of
bytes and without GREASE, and each extension as it is decoded alone. -/
structure Describes (s : Dissection) (h : Hello) : Prop where
  legacyVersion : h.legacyVersion = s.legacyVersion
  random : h.random = s.random
  sessionId : h.sessionId = s.sessionId
  compressionMethods : h.compressionMethods = s.compressionMethods
  cipherSuites : h.cipherSuites = (Bytes.words s.cipherSuites).filter fun v => !isGrease v
  extensions : List.Forall₂ (fun e x => ∃ sawGrease, Extension.ofEntry e = .ok ⟨x, sawGrease⟩)
    s.entries h.extensions

variable {s s' : Dissection} {input : Bytes} {h : Hello}

-- ============================================ a dissection as raw fields

/-- The fields of a dissection, the block as one byte string. -/
def toRaw (s : Dissection) : RawHello where
  legacyVersion := s.legacyVersion
  random := s.random
  sessionId := s.sessionId
  cipherSuites := s.cipherSuites
  compressionMethods := s.compressionMethods
  extensionBlock := s.block.map Tiling.bytes

theorem encode_toRaw (s : Dissection) : s.toRaw.encode ++ s.after = s.body := by
  unfold RawHello.encode toRaw body rest
  cases s.block <;> simp

theorem Splits.payload_fits (hs : s.Splits input) :
    ∀ block ∈ s.block, ∀ e ∈ block.entries, e.payload.length < 256 ^ 2 := by
  intro block hblock e he
  apply hs.payloads e
  unfold entries
  rw [Option.mem_def.1 hblock]
  exact he

theorem Splits.extensionTiling (hs : s.Splits input) :
    s.toRaw.extensionTiling = s.block.getD ⟨[], []⟩ :=
  RawHello.extensionTiling_eq rfl hs.payload_fits hs.leftover

theorem Splits.entries_eq (hs : s.Splits input) : s.toRaw.extensionTiling.entries = s.entries := by
  rw [hs.extensionTiling]
  unfold entries
  cases s.block <;> rfl

theorem Splits.leftover_short (hs : s.Splits input) :
    s.toRaw.extensionTiling.leftover.length < 4 := by
  rw [hs.extensionTiling]
  exact RawHello.leftover_getD_lt hs.leftover

theorem suites_toRaw (s : Dissection) : s.toRaw.suites = Bytes.words s.cipherSuites :=
  EntryShape.map_tag_tile s.cipherSuites

-- ================================================= reading a dissection

theorem Splits.fits (hs : s.Splits input) : s.toRaw.Fits where
  random := hs.random
  sessionId := hs.sessionId
  cipherSuites := hs.cipherSuites
  compressionMethods := hs.compressionMethods
  extensionBlock := by
    intro bytes hbytes
    obtain ⟨block, hblock, rfl⟩ := Option.map_eq_some_iff.1 hbytes
    exact hs.block block hblock

theorem Splits.handshakeBody (hs : s.Splits input) : Hello.handshakeBody input = .ok s.body :=
  Hello.handshakeBody_eq_ok_iff.2 ⟨hs.body, s.trailing, hs.input_eq⟩

theorem Splits.reader (hs : s.Splits input) :
    RawHello.reader.run s.body = .ok (s.toRaw, s.after) := by
  rw [RawHello.reader_eq_ok_iff]
  refine ⟨hs.fits, encode_toRaw s, fun hnone => hs.after ?_⟩
  exact Option.map_eq_none_iff.1 hnone

/-- What a dissected string is decoded to depends on its extensions
alone, each by itself. -/
theorem Splits.ofHandshake_eq_ok_iff (hs : s.Splits input) :
    Hello.ofHandshake input = .ok h
      ↔ ∃ decoded, List.Forall₂ (fun e d => Extension.ofEntry e = .ok d) s.entries decoded
          ∧ h = s.toRaw.helloWith decoded := by
  have hbody : RawHello.ofBody s.body = .ok s.toRaw := by
    unfold RawHello.ofBody
    rw [hs.reader]
    rfl
  unfold Hello.ofHandshake
  rw [hs.handshakeBody]
  show Hello.ofBody s.body = _ ↔ _
  rw [Hello.ofBody_eq, hbody]
  show s.toRaw.decode = _ ↔ _
  rw [RawHello.decode_eq_ok_iff, hs.entries_eq]
  exact and_iff_right hs.leftover_short

/-- What is accepted can be dissected: along the fields that were read,
and the block along the entries that were read in it. -/
theorem exists_splits (hdecode : Hello.ofHandshake input = .ok h) :
    ∃ s : Dissection, s.Splits input := by
  obtain ⟨raw, after, trailing, hfits, hafter, hbody, hinput, hraw⟩ :=
    Hello.ofHandshake_eq_ok_iff.1 hdecode
  obtain ⟨hleftover, -⟩ := RawHello.decode_eq_ok_iff.1 hraw
  obtain ⟨version, random, sessionId, suites, methods, block⟩ := raw
  -- the block is tiled once more, which loses nothing of it
  let s : Dissection :=
    ⟨version, random, sessionId, suites, methods, block.map RawHello.extensionShape.tile, after,
      trailing⟩
  have htile (bytes : Bytes) : (RawHello.extensionShape.tile bytes).bytes = bytes :=
    EntryShape.encode_tile RawHello.extensionShape bytes
  have htoRaw : s.toRaw = ⟨version, random, sessionId, suites, methods, block⟩ := by
    unfold toRaw
    cases block <;> simp [s, htile]
  have hbody_eq := encode_toRaw s
  rw [htoRaw] at hbody_eq
  refine ⟨s, ?_, hfits.random, hfits.sessionId, hfits.cipherSuites, hfits.compressionMethods,
    ?_, ?_, ?_, ?_, hbody_eq ▸ hbody⟩
  · rw [bytes, ← hbody_eq]
    exact hinput
  · intro e he
    cases block with
    | none => cases he
    | some bytes =>
        have hfits : RawHello.extensionShape.Fits e := EntryShape.fits_of_mem_tile he
        exact hfits.2
  · intro t ht
    obtain ⟨bytes, hbytes, rfl⟩ := Option.map_eq_some_iff.1 ht
    rw [htile]
    exact hfits.extensionBlock bytes hbytes
  · intro t ht
    obtain ⟨bytes, rfl, rfl⟩ := Option.map_eq_some_iff.1 ht
    exact hleftover
  · intro hnone
    exact hafter (Option.map_eq_none_iff.1 hnone)

-- ======================================================== the grammar

/-- A string has one dissection at most. -/
theorem Splits.unique (hs : s.Splits input) (hs' : s'.Splits input) : s = s' := by
  have hbody : s.body = s'.body := by
    have h := hs.handshakeBody
    rw [hs'.handshakeBody] at h
    exact (Except.ok.inj h).symm
  -- one reader on one body cannot answer with both unless they agree
  have hread := hs.reader
  rw [hbody, hs'.reader] at hread
  obtain ⟨hraw, hafter⟩ := Prod.mk.inj (Except.ok.inj hread)
  have htrailing : s.trailing = s'.trailing := by
    have h := hs.input_eq.trans hs'.input_eq.symm
    rw [bytes, bytes, hbody] at h
    exact List.append_cancel_left (List.tail_eq_of_cons_eq h)
  have hblock : s.block = s'.block := by
    have hbytes : s'.block.map Tiling.bytes = s.block.map Tiling.bytes :=
      congrArg RawHello.extensionBlock hraw
    have htiling := hs.extensionTiling
    rw [← hraw, hs'.extensionTiling] at htiling
    cases hb : s.block with
    | none =>
        rw [hb] at hbytes
        exact (Option.map_eq_none_iff.1 hbytes).symm
    | some block =>
        rw [hb] at hbytes htiling
        obtain ⟨block', hb', -⟩ := Option.map_eq_some_iff.1 hbytes
        rw [hb'] at htiling ⊢
        exact congrArg some htiling.symm
  apply Dissection.ext
  · exact congrArg RawHello.legacyVersion hraw.symm
  · exact congrArg RawHello.random hraw.symm
  · exact congrArg RawHello.sessionId hraw.symm
  · exact congrArg RawHello.cipherSuites hraw.symm
  · exact congrArg RawHello.compressionMethods hraw.symm
  · exact hblock
  · exact hafter.symm
  · exact htrailing

theorem Splits.describes (hs : s.Splits input) (hdecode : Hello.ofHandshake input = .ok h) :
    s.Describes h := by
  obtain ⟨decoded, hdecoded, hh⟩ := hs.ofHandshake_eq_ok_iff.1 hdecode
  subst hh
  refine ⟨rfl, rfl, rfl, rfl, ?_, ?_⟩
  · show s.toRaw.suites.filter _ = _
    rw [suites_toRaw]
  · show List.Forall₂ _ _ (decoded.map Decoded.extension)
    rw [List.forall₂_map_right_iff]
    exact hdecoded.imp fun e d hd => ⟨d.sawGrease, hd⟩

end Dissection

open Dissection in
/-- A string is accepted exactly when it has a dissection whose
extensions are accepted alone. It has no second dissection, and the
hello is what the first one says. -/
theorem ofHandshake_accepts_iff (input : Bytes) :
    ((∃ h, Hello.ofHandshake input = .ok h)
      ↔ ∃ s : Dissection, s.Splits input ∧ ∀ e ∈ s.entries, ∃ d, Extension.ofEntry e = .ok d)
    ∧ (∀ s s' : Dissection, s.Splits input → s'.Splits input → s = s')
    ∧ ∀ (s : Dissection) (h : Hello), s.Splits input → Hello.ofHandshake input = .ok h →
        s.Describes h := by
  refine ⟨⟨fun ⟨h, hdecode⟩ => ?_, fun ⟨s, hs, haccepted⟩ => ?_⟩,
    fun s s' hs hs' => hs.unique hs', fun s h hs hdecode => hs.describes hdecode⟩
  · obtain ⟨s, hs⟩ := exists_splits hdecode
    obtain ⟨decoded, hdecoded, -⟩ := hs.ofHandshake_eq_ok_iff.1 hdecode
    exact ⟨s, hs, exists_forall₂_iff.1 ⟨decoded, hdecoded⟩⟩
  · obtain ⟨decoded, hdecoded⟩ := exists_forall₂_iff.2 haccepted
    exact ⟨_, hs.ofHandshake_eq_ok_iff.2 ⟨decoded, hdecoded, rfl⟩⟩

/-- A message with a byte that dangles after its cipher suites, bytes
left over in its block, after it and after the message, and pairs of
bytes like GREASE all over it. Only one of them counts, a version. -/
def Dissection.sample : Dissection where
  legacyVersion := 0x0303
  random := List.replicate 32 0x0a
  sessionId := [0x1a, 0x1a]
  cipherSuites := [0x13, 0x0a, 0x0a, 0x02, 0x1a]
  compressionMethods := [0x00]
  block := some
    { entries :=
        [⟨0x000d, [0x00, 0x04, 0x2a, 0x2a, 0x04, 0x03]⟩,
          ⟨0x000a, [0x00, 0x02, 0x00, 0x1d, 0x3a, 0x3a]⟩,
          ⟨0x0033, [0x00, 0x06, 0x00, 0x1d, 0x00, 0x02, 0x4a, 0x4a]⟩,
          ⟨0x002b, [0x04, 0x5a, 0x5a, 0x03, 0x04]⟩]
      leftover := [0x6a, 0x6a] }
  after := [0x7a, 0x7a]
  trailing := [0x8a, 0x8a]

/-- What the sample is decoded to. -/
def Hello.sample : Hello where
  legacyVersion := 0x0303
  random := List.replicate 32 0x0a
  sessionId := [0x1a, 0x1a]
  cipherSuites := [0x130a, 0x0a02]
  compressionMethods := [0x00]
  extensions :=
    [.signatureAlgorithms [0x2a2a, 0x0403], .supportedGroups [0x001d], .keyShareGroups [0x001d],
      .supportedVersions [0x0304]]
  hasGrease := true

theorem ofHandshake_accepts_sample :
    (∃ h, Hello.ofHandshake Dissection.sample.bytes = .ok h)
    ∧ (∀ s : Dissection, s.Splits Dissection.sample.bytes → s = Dissection.sample)
    ∧ Dissection.sample.Describes Hello.sample := by
  obtain ⟨haccepts, hunique, hdescribes⟩ := ofHandshake_accepts_iff Dissection.sample.bytes
  have hsplits : Dissection.sample.Splits Dissection.sample.bytes := by decide +kernel
  refine ⟨haccepts.2 ⟨Dissection.sample, hsplits, ?_⟩, ?_, ?_⟩
  · refine exists_forall₂_iff.1
      ⟨[⟨.signatureAlgorithms [0x2a2a, 0x0403], false⟩, ⟨.supportedGroups [0x001d], false⟩,
        ⟨.keyShareGroups [0x001d], false⟩, ⟨.supportedVersions [0x0304], true⟩], ?_⟩
    refine .cons ?_ (.cons ?_ (.cons ?_ (.cons ?_ .nil))) <;> decide +kernel
  · intro s hs
    exact hunique s Dissection.sample hs hsplits
  · exact hdescribes Dissection.sample Hello.sample hsplits (by decide +kernel)

end TlsHello
