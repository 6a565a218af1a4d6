/-
How a ClientHello can be written.

`RawHello.encode` writes the fields of a body, each with its length;
reading them back is its inverse, up to bytes after them that nobody
reads (`reader_eq_ok_iff`). `HelloLayout` is a hello with its lists laid
out, including whatever may stand in them unread; `hello` is what it
means and `message` is what is written.

Of all layouts of a hello one has nothing to spare (`Hello.layout`), and
its message is the hello's encoding (`Hello.encode`).
-/
import TlsHello.Extension.Layout
import TlsHello.Hello.Decode
import TlsHello.Hello.Fields

namespace TlsHello

namespace RawHello

/-- The fields of a body, one after the other. -/
def encode (raw : RawHello) : Bytes :=
  Bytes.ofNat 2 raw.legacyVersion.toNat ++ (raw.random ++ (Bytes.vector 1 raw.sessionId
    ++ (Bytes.vector 2 raw.cipherSuites ++ (Bytes.vector 1 raw.compressionMethods
    ++ (raw.extensionBlock.map (Bytes.vector 2)).getD []))))

/-- Every field has room where it is written. -/
structure Fits (raw : RawHello) : Prop where
  random : raw.random.length = 32
  sessionId : raw.sessionId.length < 256 ^ 1
  cipherSuites : raw.cipherSuites.length < 256 ^ 2
  compressionMethods : raw.compressionMethods.length < 256 ^ 1
  extensionBlock : ∀ block ∈ raw.extensionBlock, block.length < 256 ^ 2

/-- Reading the fields of a body undoes writing them. Without a block of
extensions at most one byte follows. -/
theorem reader_eq_ok_iff {raw : RawHello} {body rest : Bytes} :
    reader.run body = .ok (raw, rest)
      ↔ raw.Fits ∧ raw.encode ++ rest = body
        ∧ (raw.extensionBlock = none → rest.length < 2) := by
  obtain ⟨version, random, sessionId, suites, methods, block⟩ := raw
  simp only [reader, Reader.bind_eq_ok_iff, Reader.uint_eq_ok_iff, Reader.bytes_eq_ok_iff,
    Reader.vector_eq_ok_iff, Reader.ifLeft_eq_ok_iff, Reader.pure_eq_ok_iff, mk.injEq]
  constructor
  · intro h
    rcases h with ⟨version', _, ⟨hversion, rfl⟩, random, _, ⟨hrandom, rfl⟩, sessionId, _,
      ⟨hid, rfl⟩, suites, _, ⟨hsuites, rfl⟩, methods, _, ⟨hmethods, rfl⟩, block, rest', hblock,
      ⟨rfl, rfl, rfl, rfl, rfl, rfl⟩, rfl⟩
    have hversion' : (UInt16.ofNat version').toNat = version' := by
      rw [UInt16.toNat_ofNat']
      omega
    rcases hblock with ⟨block, rfl, -, hblock, rfl⟩ | ⟨rfl, hlt, rfl⟩
    · exact ⟨⟨hrandom, hid, hsuites, hmethods, by simpa using hblock⟩,
        by simp [encode, hversion'], nofun⟩
    · exact ⟨⟨hrandom, hid, hsuites, hmethods, nofun⟩, by simp [encode, hversion'], fun _ => hlt⟩
  · intro h
    rcases h with ⟨⟨hrandom, hid, hsuites, hmethods, hblock⟩, rfl, hrest⟩
    refine ⟨version.toNat, _, ⟨version.toNat_lt, ?_⟩, random, _, ⟨hrandom, rfl⟩, sessionId, _,
      ⟨hid, rfl⟩, suites, _, ⟨hsuites, rfl⟩, methods,
      (block.map (Bytes.vector 2)).getD [] ++ rest, ⟨hmethods, rfl⟩, block, rest, ?_,
      ⟨by simp, rfl, rfl, rfl, rfl, rfl⟩, rfl⟩
    · simp only [encode, List.append_assoc]
    · cases block with
      | none => exact .inr ⟨rfl, hrest rfl, rfl⟩
      | some block =>
          exact .inl ⟨block, rfl, by simp [Bytes.vector], by simpa using hblock, rfl⟩

end RawHello

/-- The extension block as it is laid out on the wire. -/
structure BlockLayout where
  extensions : List ExtensionLayout
  /-- The bytes after the last extension, too few to begin another. -/
  leftover : Bytes
deriving DecidableEq, Repr

/-- A ClientHello as it is laid out on the wire. -/
structure HelloLayout where
  legacyVersion : UInt16
  random : Bytes
  sessionId : Bytes
  suites : List UInt16
  /-- A byte too few for another cipher suite, or none. -/
  suitesLeftover : Bytes
  compressionMethods : Bytes
  block : Option BlockLayout
  /-- The bytes between the last field and the end of the body. -/
  after : Bytes
deriving DecidableEq, Repr

/-- A byte string as the body of a ClientHello message. -/
def Hello.frame (body : Bytes) : Bytes :=
  Hello.handshakeType :: Bytes.vector 3 body

/-- A byte string as the payload of a handshake record. -/
def Hello.frameRecord (major minor : UInt8) (payload : Bytes) : Bytes :=
  Hello.recordType :: major :: minor :: Bytes.vector 2 payload

namespace HelloLayout

/-- The fields that the layout lays out. -/
def toRaw (l : HelloLayout) : RawHello where
  legacyVersion := l.legacyVersion
  random := l.random
  sessionId := l.sessionId
  cipherSuites :=
    RawHello.suiteShape.encode ⟨l.suites.map fun suite => ⟨suite, []⟩, l.suitesLeftover⟩
  compressionMethods := l.compressionMethods
  extensionBlock := l.block.map fun b =>
    RawHello.extensionShape.encode ⟨b.extensions.map ExtensionLayout.toEntry, b.leftover⟩

/-- The body as it is written. -/
def body (l : HelloLayout) : Bytes := l.toRaw.encode ++ l.after

/-- The handshake message as it is written. -/
def message (l : HelloLayout) : Bytes := Hello.frame l.body

/-- The extensions of the layout, if there is a block of them. -/
def extensions (l : HelloLayout) : List ExtensionLayout :=
  (l.block.map BlockLayout.extensions).getD []

/-- Everything has room where it is written, and what is left over
anywhere is too short to be taken for more. -/
structure WellFormed (l : HelloLayout) : Prop where
  fields_fit : l.toRaw.Fits
  extensions_wellFormed : ∀ x ∈ l.extensions, x.WellFormed
  suitesLeftover_short : l.suitesLeftover.length < 2
  leftover_short : ∀ b ∈ l.block, b.leftover.length < 4
  after_short : l.block = none → l.after.length < 2
  body_fits : l.body.length < 256 ^ 3

/-- The hello that is meant. -/
def hello (l : HelloLayout) : Hello where
  legacyVersion := l.legacyVersion
  random := l.random
  sessionId := l.sessionId
  cipherSuites := l.suites.filter fun suite => !isGrease suite
  compressionMethods := l.compressionMethods
  extensions := l.extensions.map ExtensionLayout.extension
  hasGrease := l.suites.any isGrease || l.extensions.any ExtensionLayout.hasGrease

end HelloLayout

namespace Hello

/-- The layout of a hello with nothing to spare. -/
def layout (h : Hello) : HelloLayout where
  legacyVersion := h.legacyVersion
  random := h.random
  sessionId := h.sessionId
  suites := h.cipherSuites
  suitesLeftover := []
  compressionMethods := h.compressionMethods
  block := some { extensions := h.extensions.map Extension.layout, leftover := [] }
  after := []

/-- The encoding of a hello: a handshake message. -/
def encode (h : Hello) : Bytes := h.layout.message

end Hello

end TlsHello
