/-
The ClientHello message, as it is understood.

Its cipher suites and extensions are taken apart, and all GREASE is
removed but for a note that there was some.
-/
import TlsHello.Extension.Query

namespace TlsHello

/-- A decoded ClientHello. -/
structure Hello where
  legacyVersion : UInt16
  random : Bytes
  sessionId : Bytes
  /-- In the order offered, without GREASE values. -/
  cipherSuites : List UInt16
  compressionMethods : Bytes
  /-- In the order sent; a type that was sent twice is here twice. -/
  extensions : Extensions
  /-- A GREASE value was met anywhere. -/
  hasGrease : Bool
deriving DecidableEq, Repr

end TlsHello
