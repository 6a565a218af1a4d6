/-
Decoding one extension after another into the same place.

The place holds the extension decoded last and whether GREASE was met so
far. A step writes into it as it goes, and what was written before a
failure stays written (`ExtensionSlot.Action`). So the order of the
writes matters: a list notes the GREASE among its entries before it comes
to one that is cut off, and that note is the list's own (`ListKind.read`)
until nothing can fail any more.
-/
import TlsHello.Extension.Decode

namespace TlsHello

/-- The extension decoded last, and whether GREASE was met so far. -/
structure ExtensionSlot where
  current : Extension := .serverNames []
  sawGrease : Bool := false
deriving DecidableEq, Repr

namespace ExtensionSlot

/-- Something done to a slot. If it fails, the slot is as it was then. -/
abbrev Action := ExceptT DecodeError (StateM ExtensionSlot) Unit

/-- Writes the extension. -/
def write (extension : Extension) : Action :=
  modify fun slot => { slot with current := extension }

/-- Writes that GREASE was met. -/
def noteGrease : Action :=
  modify fun slot => { slot with sawGrease := true }

/-- Decodes the list in a body into the slot. What the list notes is
passed on after everything else. -/
def decodeList (kind : ListKind) (body : Bytes) : Action := do
  let list ← kind.listOf body
  let (extension, sawGrease) := (kind.read list).run.run false
  write (← extension)
  if sawGrease then noteGrease

/-- Decodes an extension into the slot. -/
def decode (entry : Entry) : Action :=
  if isGrease entry.tag then do
    noteGrease
    write (.unknown entry.tag entry.payload)
  else
    match ExtensionType.ofId? entry.tag with
    | some (.list kind) => decodeList kind entry.payload
    | some .renegotiationInfo => write (.renegotiationInfo entry.payload)
    | none => write (.unknown entry.tag entry.payload)

/-- The slot after one more extension, with the error if it was refused. -/
def step (slot : ExtensionSlot) (entry : Entry) : Option DecodeError × ExtensionSlot :=
  match (decode entry).run.run slot with
  | (.ok (), slot) => (none, slot)
  | (.error e, slot) => (some e, slot)

/-- The slot after each of a list of extensions, with the errors. -/
def trace (slot : ExtensionSlot) : List Entry → List (Option DecodeError × ExtensionSlot)
  | [] => []
  | entry :: rest => slot.step entry :: trace (slot.step entry).2 rest

/-- The slot after a list of extensions. -/
def run (slot : ExtensionSlot) (entries : List Entry) : ExtensionSlot :=
  entries.foldl (fun slot entry => (slot.step entry).2) slot

end ExtensionSlot

end TlsHello
