/-
GREASE: the sixteen 16-bit values 0x0a0a, 0x1a1a, …, 0xfafa.

Clients send them among cipher suites, versions, groups and extension
types to keep servers tolerant of values they do not know. They mean
nothing, so the decoders drop them and only remember having seen one.
-/

namespace TlsHello

/-- Both bytes are the same and end in the digit `a`. -/
def isGrease (v : UInt16) : Bool :=
  (v &&& 0x0f0f) == 0x0a0a && (v >>> 8) == (v &&& 0x00ff)

end TlsHello
