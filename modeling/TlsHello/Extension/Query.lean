/-
What a list of extensions is asked.

A type may occur more than once. The lists of a type are those of its
first extension, even where that one is empty. The server name alone is
looked for in all extensions of its type: it is the first host name in
any of them, and if that is no text there is none.
-/
import TlsHello.Extension.Basic
import TlsHello.Text.Utf8

namespace TlsHello

/-- Extensions in the order they came. -/
abbrev Extensions := List Extension

namespace Extension

/-- The server names, if this is a list of them. -/
def serverNames? : Extension → Option (List ServerName)
  | serverNames names => some names
  | _ => none

/-- The protocol names, if this is a list of them. -/
def alpnProtocols? : Extension → Option (List Bytes)
  | alpnProtocols protocols => some protocols
  | _ => none

/-- The versions, if this is a list of them. -/
def supportedVersions? : Extension → Option (List UInt16)
  | supportedVersions versions => some versions
  | _ => none

/-- The groups, if this is a list of supported ones. -/
def supportedGroups? : Extension → Option (List UInt16)
  | supportedGroups groups => some groups
  | _ => none

/-- The signature algorithms, if this is a list of them. -/
def signatureAlgorithms? : Extension → Option (List UInt16)
  | signatureAlgorithms algorithms => some algorithms
  | _ => none

/-- The groups with a key, if this is a list of key shares. -/
def keyShareGroups? : Extension → Option (List UInt16)
  | keyShareGroups groups => some groups
  | _ => none

/-- The modes, if this is a list of them. -/
def pskModes? : Extension → Option Bytes
  | pskModes modes => some modes
  | _ => none

/-- The body, if this is a renegotiation_info extension. -/
def renegotiationInfo? : Extension → Option Bytes
  | renegotiationInfo body => some body
  | _ => none

/-- The body as it came, if this is an extension of the given type that
was not taken apart. -/
def bodyOf? (typeId : UInt16) : Extension → Option Bytes
  | renegotiationInfo body =>
      if typeId = ExtensionType.renegotiationInfo.id then some body else none
  | unknown id body => if id = typeId then some body else none
  | _ => none

end Extension

namespace ServerName

/-- The entry is a host name. -/
def isHostName (entry : ServerName) : Bool := entry.nameType == hostName

/-- The name of an entry, if it is text. -/
def text? (entry : ServerName) : Option Bytes :=
  if Utf8.isValid entry.name then some entry.name else none

end ServerName

namespace Extensions

/-- All server names, of all server name extensions. -/
def allServerNames (extensions : Extensions) : List ServerName :=
  extensions.flatMap fun extension => extension.serverNames?.getD []

/-- What the first host name in a list of server names says; nothing if
the list has none. -/
def hostNameAnswer? : List ServerName → Option (Option Bytes)
  | [] => none
  | entry :: rest =>
      if entry.isHostName then some entry.text? else hostNameAnswer? rest

/-- The first host name, if there is one and it is text. The lists of
server names are gone through one after another, up to the first that has
a host name. -/
def serverName : Extensions → Option Bytes
  | [] => none
  | extension :: rest =>
      match extension.serverNames?.bind hostNameAnswer? with
      | some answer => answer
      | none => serverName rest

/-- The list that the first extension with such a list holds; empty if
there is no such extension. -/
def firstList (list? : Extension → Option (List α)) (extensions : Extensions) : List α :=
  (extensions.findSome? list?).getD []

/-- The application protocols that are offered. -/
def alpnProtocols (extensions : Extensions) : List Bytes :=
  extensions.firstList Extension.alpnProtocols?

/-- The versions that are offered. -/
def supportedVersions (extensions : Extensions) : List UInt16 :=
  extensions.firstList Extension.supportedVersions?

/-- The groups that are offered. -/
def supportedGroups (extensions : Extensions) : List UInt16 :=
  extensions.firstList Extension.supportedGroups?

/-- The signature algorithms that are offered. -/
def signatureAlgorithms (extensions : Extensions) : List UInt16 :=
  extensions.firstList Extension.signatureAlgorithms?

/-- The groups for which a key is sent along. -/
def keyShareGroups (extensions : Extensions) : List UInt16 :=
  extensions.firstList Extension.keyShareGroups?

/-- The modes in which a pre-shared key may be used. -/
def pskModes (extensions : Extensions) : Bytes :=
  extensions.firstList Extension.pskModes?

/-- A renegotiation_info extension is there. -/
def hasRenegotiationInfo (extensions : Extensions) : Bool :=
  extensions.any fun extension => extension.renegotiationInfo?.isSome

/-- The body of the first extension of a type that was not taken apart. -/
def body? (typeId : UInt16) (extensions : Extensions) : Option Bytes :=
  extensions.findSome? (Extension.bodyOf? typeId)

-- ================================================ the server name in one

-- Going through the lists comes to going through all the names.

theorem allServerNames_cons (x : Extension) (xs : Extensions) :
    allServerNames (x :: xs) = x.serverNames?.getD [] ++ xs.allServerNames := List.flatMap_cons

theorem allServerNames_append (xs ys : Extensions) :
    allServerNames (xs ++ ys) = xs.allServerNames ++ ys.allServerNames := List.flatMap_append

theorem hostNameAnswer?_eq (names : List ServerName) :
    hostNameAnswer? names = (names.find? ServerName.isHostName).map ServerName.text? := by
  induction names with
  | nil => rfl
  | cons entry names ih =>
      rw [hostNameAnswer?, List.find?_cons]
      cases entry.isHostName with
      | true => rfl
      | false => exact ih

theorem serverName_eq (xs : Extensions) :
    xs.serverName = (xs.allServerNames.find? ServerName.isHostName).bind ServerName.text? := by
  induction xs with
  | nil => rfl
  | cons x xs ih =>
      rw [serverName, allServerNames_cons, List.find?_append]
      cases x.serverNames? with
      | none => simpa using ih
      | some names =>
          rw [Option.bind_some, hostNameAnswer?_eq, Option.getD_some]
          cases names.find? ServerName.isHostName with
          | none => simpa using ih
          | some entry => rfl

-- ================================================== asked after a filter

-- A query has no eye for extensions that do not answer it. So two lists
-- that are the same without them are asked alike.

variable {p : Extension → Bool} {f : Extension → Option β} {xs ys : Extensions}

theorem findSome?_filter (hf : ∀ x, p x = false → f x = none) (xs : Extensions) :
    (xs.filter p).findSome? f = xs.findSome? f := by
  induction xs with
  | nil => rfl
  | cons x xs ih =>
      rw [List.filter_cons, List.findSome?_cons]
      split
      next => rw [List.findSome?_cons, ih]
      next hx => rw [hf x (Bool.eq_false_iff.2 hx), ih]

theorem allServerNames_filter (hp : ∀ x, p x = false → x.serverNames? = none) (xs : Extensions) :
    allServerNames (xs.filter p) = xs.allServerNames := by
  induction xs with
  | nil => rfl
  | cons x xs ih =>
      rw [List.filter_cons, allServerNames_cons]
      split
      next => rw [allServerNames_cons, ih]
      next hx => rw [hp x (Bool.eq_false_iff.2 hx), ih]; rfl

theorem findSome?_congr (hf : ∀ x, p x = false → f x = none) (h : ys.filter p = xs.filter p) :
    ys.findSome? f = xs.findSome? f := by
  rw [← findSome?_filter hf xs, ← h, findSome?_filter hf ys]

theorem firstList_congr {list? : Extension → Option (List α)}
    (hp : ∀ x, p x = false → list? x = none) (h : ys.filter p = xs.filter p) :
    ys.firstList list? = xs.firstList list? :=
  congrArg (Option.getD · []) (findSome?_congr hp h)

theorem hasRenegotiationInfo_congr (hp : ∀ x, p x = false → x.renegotiationInfo? = none)
    (h : ys.filter p = xs.filter p) : ys.hasRenegotiationInfo = xs.hasRenegotiationInfo := by
  unfold hasRenegotiationInfo
  rw [← List.isSome_findSome?, ← List.isSome_findSome?, findSome?_congr hp h]

theorem serverName_congr (hp : ∀ x, p x = false → x.serverNames? = none)
    (h : ys.filter p = xs.filter p) : ys.serverName = xs.serverName := by
  rw [serverName_eq, serverName_eq, ← allServerNames_filter hp xs, ← h, allServerNames_filter hp ys]

end Extensions

end TlsHello
