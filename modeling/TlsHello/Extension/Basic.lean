/-
An extension as it is known after decoding.

The seven list types have a constructor each, holding what the list says
and no longer how it was written: GREASE values are gone, and of key
shares only the groups are kept. Everything else keeps its body as it
came.
-/
import TlsHello.Bytes
import TlsHello.Extension.Registry

namespace TlsHello

/-- An entry of a server name list. -/
structure ServerName where
  nameType : UInt8
  name : Bytes
deriving DecidableEq, Repr

/-- The name type of a DNS host name. -/
def ServerName.hostName : UInt8 := 0

/-- A decoded extension. -/
inductive Extension where
  | serverNames (names : List ServerName)
  | alpnProtocols (protocols : List Bytes)
  | supportedVersions (versions : List UInt16)
  | supportedGroups (groups : List UInt16)
  | signatureAlgorithms (algorithms : List UInt16)
  | keyShareGroups (groups : List UInt16)
  | pskModes (modes : Bytes)
  | renegotiationInfo (body : Bytes)
  | unknown (typeId : UInt16) (body : Bytes)
deriving DecidableEq, Repr

namespace Extension

/-- The number of an extension's type. -/
def typeId : Extension → UInt16
  | serverNames _ => ListKind.serverName.id
  | alpnProtocols _ => ListKind.alpn.id
  | supportedVersions _ => ListKind.supportedVersions.id
  | supportedGroups _ => ListKind.supportedGroups.id
  | signatureAlgorithms _ => ListKind.signatureAlgorithms.id
  | keyShareGroups _ => ListKind.keyShare.id
  | pskModes _ => ListKind.pskModes.id
  | renegotiationInfo _ => ExtensionType.renegotiationInfo.id
  | unknown typeId _ => typeId

end Extension

end TlsHello
