/-
Decoding a ClientHello, alone or inside a record.

Record, handshake message and body are read field by field, from the
front, and the two lists entry by entry where they stand: the cipher
suites before the compression methods, the extensions last. Extensions
are decoded as they are met and share the flag that the cipher suites
have noted their GREASE in.

An input too short for its first fields is turned down before anything is
read. Bytes after the record, after the message and after the extensions
are not looked at.
-/
import TlsHello.Extension.Run
import TlsHello.Hello.Basic

namespace TlsHello.Hello

/-- Reads the cipher suites of a list, GREASE dropped, and says whether
there was any. An odd byte at the end is ignored. -/
def readSuites (list : Bytes) : Except DecodeError (List UInt16 × Bool) := do
  let reader := EntryReader.word "cipher suite"
  let (kept, sawGrease) ← (reader.each (Entry.keep true) list).outcome false
  return (kept.map Entry.tag, sawGrease)

/-- Decodes an extension into a slot of its own. What it notes is added to
what was noted before it. -/
def readExtension (entry : Entry) : Scan (Option Extension) := do
  let (refusal, slot) := ExtensionSlot.step { sawGrease := ← get } entry
  set slot.sawGrease
  match refusal with
  | some error => throw error
  | none => return some slot.current

/-- Reads the extensions of a block, on from what was noted before it.
Fewer bytes than a header are ignored. -/
def readBlock (sawGrease : Bool) (block : Bytes) : Except DecodeError (Extensions × Bool) :=
  let reader := EntryReader.tagged 4 2 "extension type" "extension length" "extension body"
  (reader.each readExtension block).outcome sawGrease

/-- Reads a body, field by field. With fewer than two bytes left there
are no extensions. -/
def reader : Reader Hello := do
  let legacyVersion ← Reader.uint 2 "legacy version"
  let random ← Reader.bytes 32 "client random"
  let sessionId ← Reader.vector 1 "session ID length" "session ID"
  let suiteList ← Reader.vector 2 "cipher suites length" "cipher suites data"
  let (cipherSuites, sawGrease) ← readSuites suiteList
  let compressionMethods ←
    Reader.vector 1 "compression methods length" "compression methods"
  let read? ← Reader.ifLeft 2 do
    let block ← Reader.vector 2 "extensions length" "extensions data"
    readBlock sawGrease block
  let (extensions, hasGrease) := read?.getD ([], sawGrease)
  return { legacyVersion := .ofNat legacyVersion, random, sessionId, cipherSuites,
           compressionMethods, extensions, hasGrease }

/-- Decodes the body of a ClientHello. Bytes after it are ignored. -/
def ofBody (body : Bytes) : Except DecodeError Hello :=
  Prod.fst <$> reader.run body

/-- The handshake type of a ClientHello. -/
def handshakeType : UInt8 := 0x01

/-- Reads a handshake message: its type, which has to be that of a
ClientHello, and its body. -/
def handshakeReader : Reader Bytes := do
  let type := UInt8.ofNat (← Reader.uint 1 "handshake type")
  if type ≠ handshakeType then
    throw (.unexpectedHandshakeType type)
  Reader.vector 3 "handshake length" "handshake body"

/-- The body of the handshake message at the front of the input. -/
def handshakeBody (input : Bytes) : Except DecodeError Bytes :=
  if input.isEmpty then .error (.inputTooShort 1 0)
  else Prod.fst <$> handshakeReader.run input

/-- Decodes the ClientHello at the front of the input. -/
def ofHandshake (input : Bytes) : Except DecodeError Hello := do
  ofBody (← handshakeBody input)

/-- The content type of a record that holds handshake messages. -/
def recordType : UInt8 := 0x16

/-- Reads a record: its type, which has to be that of handshake messages,
a version that is not looked at, and its payload. -/
def recordReader : Reader Bytes := do
  let type := UInt8.ofNat (← Reader.uint 1 "record content type")
  if type ≠ recordType then
    throw (.unexpectedContentType type)
  let _version ← Reader.uint 2 "record protocol version"
  Reader.vector 2 "record length" "record payload"

/-- The payload of the record at the front of the input. -/
def recordPayload (input : Bytes) : Except DecodeError Bytes :=
  if input.length < 5 then .error (.inputTooShort 5 (.ofNat input.length))
  else Prod.fst <$> recordReader.run input

/-- Decodes the ClientHello in the record at the front of the input. -/
def ofRecord (input : Bytes) : Except DecodeError Hello := do
  ofHandshake (← recordPayload input)

end TlsHello.Hello
