/-
A ClientHello by its contents.

A description says what a message is to contain, in the terms of its
contents: server names, groups, key shares, and the bytes that a reader
has to step over, which may stand at the end of a list, behind it, at
the end of the block of extensions, behind the block.

Three things are defined of it, each by cases over what is described and
none from the table that decoding works from: the bytes that it is
written as, whether all its lengths have room in them, and the hello
that it means.
-/
import Mathlib.Algebra.Group.Nat.Defs
import TlsHello.Hello.Basic

namespace TlsHello

/-- Words, two bytes each, and a byte that dangles after them. -/
def Bytes.ofWords (vs : List UInt16) (dangling : Option UInt8) : Bytes :=
  vs.flatMap (fun v => Bytes.ofNat 2 v.toNat) ++ dangling.toList

/-- A key share: the group and the key. -/
structure KeyShare where
  group : UInt16
  key : Bytes
deriving DecidableEq, Repr

/-- An extension by its contents. Where a list tolerates it, some bytes
of an entry that was not completed dangle at the end of the list; `after`
is what stands behind the list. -/
inductive ExtensionDescription where
  /-- An extension without a list: its type and its body. -/
  | plain (typeId : UInt16) (body : Bytes)
  | serverNames (names : List ServerName) (after : Bytes)
  | supportedGroups (groups : List UInt16) (dangling : Option UInt8) (after : Bytes)
  | signatureAlgorithms (algorithms : List UInt16) (dangling : Option UInt8) (after : Bytes)
  | alpnProtocols (protocols : List Bytes) (after : Bytes)
  | supportedVersions (versions : List UInt16) (dangling : Option UInt8) (after : Bytes)
  | pskModes (modes : Bytes) (after : Bytes)
  | keyShares (shares : List KeyShare) (dangling : Bytes) (after : Bytes)
deriving DecidableEq, Repr

namespace ExtensionDescription

/-- The number of the extension's type. -/
def typeId : ExtensionDescription → UInt16
  | plain typeId _ => typeId
  | serverNames .. => 0x0000
  | supportedGroups .. => 0x000a
  | signatureAlgorithms .. => 0x000d
  | alpnProtocols .. => 0x0010
  | supportedVersions .. => 0x002b
  | pskModes .. => 0x002d
  | keyShares .. => 0x0033

/-- The list that the body declares; without one, nothing. -/
def list : ExtensionDescription → Bytes
  | plain .. => []
  | serverNames names _ => names.flatMap fun n => n.nameType :: Bytes.vector 2 n.name
  | supportedGroups groups dangling _ => Bytes.ofWords groups dangling
  | signatureAlgorithms algorithms dangling _ => Bytes.ofWords algorithms dangling
  | alpnProtocols protocols _ => protocols.flatMap (Bytes.vector 1)
  | supportedVersions versions dangling _ => Bytes.ofWords versions dangling
  | pskModes modes _ => modes
  | keyShares shares dangling _ =>
      shares.flatMap (fun s => Bytes.ofNat 2 s.group.toNat ++ Bytes.vector 2 s.key) ++ dangling

/-- The width of the length in front of the list. -/
def lengthBytes : ExtensionDescription → Nat
  | supportedVersions .. | pskModes .. => 1
  | _ => 2

/-- The bytes behind the list. -/
def after : ExtensionDescription → Bytes
  | plain .. => []
  | serverNames _ after | alpnProtocols _ after | pskModes _ after => after
  | supportedGroups _ _ after | signatureAlgorithms _ _ after | supportedVersions _ _ after
  | keyShares _ _ after => after

/-- The body as it is written. -/
def body : ExtensionDescription → Bytes
  | plain _ body => body
  | x => Bytes.vector x.lengthBytes x.list ++ x.after

/-- What is in the list has room there. A plain extension has none of the
types with a list, and three bytes at most dangle after key shares. -/
def ContentsInRange : ExtensionDescription → Prop
  | plain typeId _ => typeId ∉ [0x0000, 0x000a, 0x000d, 0x0010, 0x002b, 0x002d, 0x0033]
  | serverNames names _ => ∀ n ∈ names, n.name.length < 256 ^ 2
  | alpnProtocols protocols _ => ∀ p ∈ protocols, p.length < 256 ^ 1
  | keyShares shares dangling _ => (∀ s ∈ shares, s.key.length < 256 ^ 2) ∧ dangling.length < 4
  | supportedGroups .. | signatureAlgorithms .. | supportedVersions .. | pskModes .. => True

/-- Every length has room where it is written. -/
structure InRange (x : ExtensionDescription) : Prop where
  contents : x.ContentsInRange
  list : x.list.length < 256 ^ x.lengthBytes
  body : x.body.length < 256 ^ 2

instance (x : ExtensionDescription) : Decidable x.ContentsInRange :=
  match x with
  | plain typeId _ =>
      inferInstanceAs
        (Decidable (typeId ∉ [0x0000, 0x000a, 0x000d, 0x0010, 0x002b, 0x002d, 0x0033]))
  | serverNames names _ => inferInstanceAs (Decidable (∀ n ∈ names, n.name.length < 256 ^ 2))
  | alpnProtocols protocols _ => inferInstanceAs (Decidable (∀ p ∈ protocols, p.length < 256 ^ 1))
  | keyShares shares dangling _ =>
      inferInstanceAs (Decidable ((∀ s ∈ shares, s.key.length < 256 ^ 2) ∧ dangling.length < 4))
  | supportedGroups .. | signatureAlgorithms .. | supportedVersions .. | pskModes .. =>
      inferInstanceAs (Decidable True)

instance (x : ExtensionDescription) : Decidable x.InRange :=
  decidable_of_iff (x.ContentsInRange ∧ x.list.length < 256 ^ x.lengthBytes
      ∧ x.body.length < 256 ^ 2)
    ⟨fun h => ⟨h.1, h.2.1, h.2.2⟩, fun h => ⟨h.1, h.2, h.3⟩⟩

/-- The extension that is described. -/
def extension : ExtensionDescription → Extension
  | plain typeId body => if typeId = 0xff01 then .renegotiationInfo body else .unknown typeId body
  | serverNames names _ => .serverNames names
  | supportedGroups groups _ _ => .supportedGroups (groups.filter fun v => !isGrease v)
  | signatureAlgorithms algorithms _ _ => .signatureAlgorithms algorithms
  | alpnProtocols protocols _ => .alpnProtocols protocols
  | supportedVersions versions _ _ => .supportedVersions (versions.filter fun v => !isGrease v)
  | pskModes modes _ => .pskModes modes
  | keyShares shares _ _ =>
      .keyShareGroups ((shares.map KeyShare.group).filter fun v => !isGrease v)

/-- GREASE is described: as a type, group, version or key share group. -/
def hasGrease : ExtensionDescription → Bool
  | plain typeId _ => isGrease typeId
  | supportedGroups groups _ _ => groups.any isGrease
  | supportedVersions versions _ _ => versions.any isGrease
  | keyShares shares _ _ => (shares.map KeyShare.group).any isGrease
  | serverNames .. | signatureAlgorithms .. | alpnProtocols .. | pskModes .. => false

end ExtensionDescription

/-- What follows the compression methods in a body. -/
inductive BodyTail where
  /-- Too few bytes for a block of extensions. -/
  | short (after : Bytes)
  /-- Extensions, bytes in their block that are too few for another, and
  bytes behind the block. -/
  | block (extensions : List ExtensionDescription) (leftover after : Bytes)
deriving DecidableEq, Repr

/-- A ClientHello by its contents. -/
structure HelloDescription where
  legacyVersion : UInt16
  random : Bytes
  sessionId : Bytes
  suites : List UInt16
  suitesDangling : Option UInt8
  compressionMethods : Bytes
  tail : BodyTail
deriving DecidableEq, Repr

namespace BodyTail

/-- The extensions and what is left over of their block, as written. -/
def blockBytes (extensions : List ExtensionDescription) (leftover : Bytes) : Bytes :=
  extensions.flatMap (fun x => Bytes.ofNat 2 x.typeId.toNat ++ Bytes.vector 2 x.body) ++ leftover

/-- The tail as it is written. -/
def bytes : BodyTail → Bytes
  | short after => after
  | block extensions leftover after => Bytes.vector 2 (blockBytes extensions leftover) ++ after

/-- The extensions that are described. -/
def extensions : BodyTail → List ExtensionDescription
  | short _ => []
  | block extensions _ _ => extensions

/-- Every length has room where it is written. -/
def InRange : BodyTail → Prop
  | short after => after.length < 2
  | block extensions leftover _ =>
      (∀ x ∈ extensions, x.InRange) ∧ leftover.length < 4
        ∧ (blockBytes extensions leftover).length < 256 ^ 2

instance (t : BodyTail) : Decidable t.InRange :=
  match t with
  | short after => inferInstanceAs (Decidable (after.length < 2))
  | block extensions leftover _ =>
      inferInstanceAs (Decidable ((∀ x ∈ extensions, x.InRange) ∧ leftover.length < 4
        ∧ (blockBytes extensions leftover).length < 256 ^ 2))

end BodyTail

namespace HelloDescription

/-- The cipher suites as they are written. -/
def suiteBytes (d : HelloDescription) : Bytes := Bytes.ofWords d.suites d.suitesDangling

/-- The body as it is written. -/
def body (d : HelloDescription) : Bytes :=
  Bytes.ofNat 2 d.legacyVersion.toNat ++ (d.random ++ (Bytes.vector 1 d.sessionId
    ++ (Bytes.vector 2 d.suiteBytes ++ (Bytes.vector 1 d.compressionMethods ++ d.tail.bytes))))

/-- The handshake message as it is written. -/
def message (d : HelloDescription) : Bytes := 0x01 :: Bytes.vector 3 d.body

/-- Every length has room where it is written. -/
structure InRange (d : HelloDescription) : Prop where
  random : d.random.length = 32
  sessionId : d.sessionId.length < 256 ^ 1
  suites : d.suiteBytes.length < 256 ^ 2
  compressionMethods : d.compressionMethods.length < 256 ^ 1
  tail : d.tail.InRange
  body : d.body.length < 256 ^ 3

instance (d : HelloDescription) : Decidable d.InRange :=
  decidable_of_iff (d.random.length = 32 ∧ d.sessionId.length < 256 ^ 1
      ∧ d.suiteBytes.length < 256 ^ 2 ∧ d.compressionMethods.length < 256 ^ 1
      ∧ d.tail.InRange ∧ d.body.length < 256 ^ 3)
    ⟨fun ⟨h₁, h₂, h₃, h₄, h₅, h₆⟩ => ⟨h₁, h₂, h₃, h₄, h₅, h₆⟩,
      fun ⟨h₁, h₂, h₃, h₄, h₅, h₆⟩ => ⟨h₁, h₂, h₃, h₄, h₅, h₆⟩⟩

/-- The hello that is described. -/
def hello (d : HelloDescription) : Hello where
  legacyVersion := d.legacyVersion
  random := d.random
  sessionId := d.sessionId
  cipherSuites := d.suites.filter fun v => !isGrease v
  compressionMethods := d.compressionMethods
  extensions := d.tail.extensions.map ExtensionDescription.extension
  hasGrease := d.suites.any isGrease || d.tail.extensions.any ExtensionDescription.hasGrease

end HelloDescription

end TlsHello
