/-
The fields of a ClientHello, and what they mean.

A hello on the wire is a sequence of fields (`RawHello`), two of which are
lists. Here the two are kept as bytes while the fields are read, and taken
apart afterwards: the lists are cut into entries to their ends, each
extension is decoded alone, and only then is it asked whether the block
ended in an extension that was cut off. Decoding reads the same bytes in
one go and in another order; that both come to the same is
`Hello.ofBody_eq`.
-/
import TlsHello.Extension.Decode
import TlsHello.Hello.Basic

namespace TlsHello

/-- The fields of a ClientHello's body, still as bytes. The body may end
before the extensions; then there is no block of them. -/
structure RawHello where
  legacyVersion : UInt16
  random : Bytes
  sessionId : Bytes
  cipherSuites : Bytes
  compressionMethods : Bytes
  extensionBlock : Option Bytes
deriving DecidableEq, Repr

namespace RawHello

/-- Reads the fields of a body, one after the other. With fewer than two
bytes left there is no block of extensions. -/
def reader : Reader RawHello := do
  let legacyVersion ← Reader.uint 2 "legacy version"
  let random ← Reader.bytes 32 "client random"
  let sessionId ← Reader.vector 1 "session ID length" "session ID"
  let cipherSuites ← Reader.vector 2 "cipher suites length" "cipher suites data"
  let compressionMethods ←
    Reader.vector 1 "compression methods length" "compression methods"
  let extensionBlock ←
    Reader.ifLeft 2 (Reader.vector 2 "extensions length" "extensions data")
  return { legacyVersion := .ofNat legacyVersion, random, sessionId, cipherSuites,
           compressionMethods, extensionBlock }

/-- The fields of a body. Bytes after them are ignored. -/
def ofBody (body : Bytes) : Except DecodeError RawHello :=
  Prod.fst <$> reader.run body

/-- The shape of the entries of the cipher suite list: 16-bit values. -/
def suiteShape : EntryShape := .word

/-- The shape of the entries of the extension block: type and body. -/
def extensionShape : EntryShape := .tagged

/-- The cipher suites, GREASE included. An odd byte at the end is ignored. -/
def suites (raw : RawHello) : List UInt16 :=
  (suiteShape.tile raw.cipherSuites).entries.map Entry.tag

/-- The extension block as entries. -/
def extensionTiling (raw : RawHello) : Tiling :=
  extensionShape.tile (raw.extensionBlock.getD [])

/-- The hello with these fields and with its extensions decoded to these. -/
def helloWith (raw : RawHello) (decoded : List Decoded) : Hello where
  legacyVersion := raw.legacyVersion
  random := raw.random
  sessionId := raw.sessionId
  cipherSuites := raw.suites.filter fun suite => !isGrease suite
  compressionMethods := raw.compressionMethods
  extensions := decoded.map Decoded.extension
  hasGrease := raw.suites.any isGrease || decoded.any Decoded.sawGrease

/-- Takes the lists of a hello apart: entries, extensions, leftover. -/
def decode (raw : RawHello) : Except DecodeError Hello := do
  let decoded ← raw.extensionTiling.entries.mapM Extension.ofEntry
  if raw.extensionTiling.leftover.length < 4 then .ok (raw.helloWith decoded)
  else .error (.truncated "extension body")

end RawHello

end TlsHello
