/-
The list of an extension, in closed form.

A list is decoded entry by entry, and where it ends in an entry that was
cut off the field is named that the bytes end in. `ListKind.decodeList_eq`
says what comes of it without the loop: the complete entries mean an
extension (`ListKind.decodeEntries`), and the leftover is harmless or has
a field cut off (`ListKind.cutField?`).

# The shape of the argument

The types differ in the reader of their entries, and each of the readers
belongs to a shape (`EntryReader.Reads`). From the fields in which an
incomplete entry can end the test ahead of the loop takes some away.
Nothing is left of 16-bit values, as the test asks for both bytes; of a
protocol name the data is left, of a key share the key, and of a server
name, for which a single byte is enough, all but its type.
-/
import TlsHello.Extension.Decode
import TlsHello.Proofs.EntryLoop

namespace TlsHello

namespace ListKind

/-- The field in which a list ends that leaves these bytes over; none if
they are harmless. -/
def cutField? : ListKind → (leftover : Bytes) → Option String
  | serverName, leftover =>
      if leftover.length = 0 then none
      else if leftover.length < 3 then some "SNI name length"
      else some "SNI name"
  | alpn, leftover => if leftover.length = 0 then none else some "ALPN protocol"
  | keyShare, leftover => if leftover.length < 4 then none else some "key share key data"
  | supportedGroups, _ | signatureAlgorithms, _ | supportedVersions, _ | pskModes, _ => none

/-- The extension that complete entries mean: GREASE is dropped where
the format says so, and noted. -/
def decodeEntries (kind : ListKind) (entries : List Entry) : Decoded :=
  if kind.format.dropsGrease then
    { extension := kind.extension (entries.filter fun e => !isGrease e.tag)
      sawGrease := entries.any fun e => isGrease e.tag }
  else { extension := kind.extension entries }

/-- Complete entries as an extension, whether or not GREASE is dropped. -/
theorem decodeEntries_eq (kind : ListKind) (entries : List Entry) :
    kind.decodeEntries entries
      = ⟨kind.extension (entries.filter fun e => !(kind.format.dropsGrease && isGrease e.tag)),
          kind.format.dropsGrease && entries.any fun e => isGrease e.tag⟩ := by
  unfold decodeEntries
  cases kind.format.dropsGrease with
  | false => simp [List.filter_eq_self.2]
  | true => simp

theorem decodeEntries_pskModes (modes : Bytes) :
    pskModes.decodeEntries (modes.map fun m => ⟨m.toUInt16, []⟩) = ⟨.pskModes modes, false⟩ := by
  simp [decodeEntries, extension, format, Function.comp_def]

variable {kind : ListKind} {reader : EntryReader} {cutField : Nat → String}

/-- What a loop makes of a list, given what its leftovers are. -/
theorem run_readEntries (hreads : reader.Reads kind.format.shape cutField) (list : Bytes)
    (hcut : kind.cutField? (kind.format.shape.tile list).leftover
      = if (kind.format.shape.tile list).leftover.length < reader.least then none
        else some (cutField (kind.format.shape.tile list).leftover.length))
    (saw : Bool) :
    (kind.readEntries reader list).run.run saw
      = (match kind.cutField? (kind.format.shape.tile list).leftover with
          | some field => .error (.truncated field)
          | none => .ok (kind.decodeEntries (kind.format.shape.tile list).entries).extension,
        saw || (kind.decodeEntries (kind.format.shape.tile list).entries).sawGrease) := by
  have hrun := EntryReader.run_each_keep hreads kind.format.dropsGrease list saw
  rw [hcut, decodeEntries_eq]
  split at hrun
  · next hshort =>
    rw [if_pos hshort]
    exact Scan.run_bind_of_ok hrun
  · next hlong =>
    rw [if_neg hlong]
    exact Scan.run_bind_of_error hrun

theorem run_readEntries_word (hshape : kind.format.shape = .word)
    (hharmless : ∀ leftover, kind.cutField? leftover = none) (field : String) (list : Bytes)
    (saw : Bool) :
    (kind.readEntries (.word field) list).run.run saw
      = (match kind.cutField? (kind.format.shape.tile list).leftover with
          | some field => .error (.truncated field)
          | none => .ok (kind.decodeEntries (kind.format.shape.tile list).entries).extension,
        saw || (kind.decodeEntries (kind.format.shape.tile list).entries).sawGrease) := by
  rw [hharmless, hshape, decodeEntries_eq]
  exact Scan.run_bind_of_ok (EntryReader.run_each_word field kind.format.dropsGrease list saw)

theorem reads_serverName :
    (EntryReader.tagged 1 1 "SNI name type" "SNI name length" "SNI name").Reads
      serverName.format.shape fun n =>
        if n < 1 then "SNI name type" else if n < 3 then "SNI name length" else "SNI name" :=
  EntryReader.reads_tagged _ _ _ rfl rfl (by decide)

theorem reads_alpn :
    (EntryReader.untagged "ALPN protocol length" "ALPN protocol").Reads alpn.format.shape fun n =>
      if n < 1 then "ALPN protocol length" else "ALPN protocol" :=
  EntryReader.reads_untagged _ _ rfl rfl

theorem reads_keyShare :
    (EntryReader.tagged 4 2 "key share group" "key share key length" "key share key data").Reads
      keyShare.format.shape fun n =>
        if n < 2 then "key share group" else if n < 4 then "key share key length"
        else "key share key data" :=
  EntryReader.reads_tagged _ _ _ rfl rfl (Nat.le_refl 4)

/-- A list is its complete entries, and then its leftover decides. -/
theorem run_read (kind : ListKind) (list : Bytes) (saw : Bool) :
    (kind.read list).run.run saw
      = (match kind.cutField? (kind.format.shape.tile list).leftover with
          | some field => .error (.truncated field)
          | none => .ok (kind.decodeEntries (kind.format.shape.tile list).entries).extension,
        saw || (kind.decodeEntries (kind.format.shape.tile list).entries).sawGrease) := by
  cases kind with
  | serverName =>
      refine run_readEntries reads_serverName list ?_ saw
      generalize (serverName.format.shape.tile list).leftover = leftover
      by_cases hnone : leftover.length < 1
      · rw [cutField?, if_pos (Nat.lt_one_iff.1 hnone)]
        exact (if_pos hnone).symm
      · -- the type is a byte, and the test has seen one
        rw [cutField?, if_neg (mt Nat.lt_one_iff.2 hnone), ← apply_ite some]
        refine Eq.trans ?_ (if_neg hnone).symm
        rw [if_neg hnone]
  | alpn =>
      refine run_readEntries reads_alpn list ?_ saw
      generalize (alpn.format.shape.tile list).leftover = leftover
      by_cases hnone : leftover.length < 1
      · rw [cutField?, if_pos (Nat.lt_one_iff.1 hnone)]
        exact (if_pos hnone).symm
      · rw [cutField?, if_neg (mt Nat.lt_one_iff.2 hnone)]
        refine Eq.trans ?_ (if_neg hnone).symm
        rw [if_neg hnone]
  | keyShare =>
      refine run_readEntries reads_keyShare list ?_ saw
      generalize (keyShare.format.shape.tile list).leftover = leftover
      by_cases hshort : leftover.length < 4
      · rw [cutField?, if_pos hshort]
        exact (if_pos hshort).symm
      · -- group and length of the key are the header that the test has seen
        rw [cutField?, if_neg hshort]
        refine Eq.trans ?_ (if_neg hshort).symm
        rw [if_neg (by omega), if_neg hshort]
  | supportedGroups | signatureAlgorithms | supportedVersions =>
      exact run_readEntries_word rfl (fun _ => rfl) _ list saw
  | pskModes =>
      have htile : pskModes.format.shape.tile list = ⟨list.map fun m => ⟨m.toUInt16, []⟩, []⟩ :=
        EntryShape.tile_modes list
      rw [htile, decodeEntries_pskModes, Bool.or_false]
      rfl

/-- A list by itself: its complete entries mean an extension, unless what
is left over is an entry that was cut off. -/
theorem decodeList_eq (kind : ListKind) (list : Bytes) :
    kind.decodeList list = match kind.cutField? (kind.format.shape.tile list).leftover with
      | some field => .error (.truncated field)
      | none => .ok (kind.decodeEntries (kind.format.shape.tile list).entries) := by
  unfold decodeList Scan.outcome
  rw [run_read, Bool.false_or]
  cases kind.cutField? (kind.format.shape.tile list).leftover with
  | some field => rfl
  | none => rfl

end ListKind

end TlsHello
