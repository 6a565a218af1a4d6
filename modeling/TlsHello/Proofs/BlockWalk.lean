/-
A body, read in one go, and the same body taken apart afterwards.

Decoding goes through a body once. It takes the cipher suites apart before
it knows whether the compression methods are there, and the extensions as
it meets them: a header is seen to be there, the extension is cut out and
decoded, and the note of GREASE is handed on to the next. So errors of
framing and errors of content come in the order of the bytes.

`Hello.ofBody_eq` says that the same comes out when the fields are read
first (`RawHello.ofBody`), the block is cut into entries to its end, each
entry is decoded alone, and only then the leftover is looked at
(`RawHello.decode`). From here on an extension can be spoken of without
those in front of it.

# The shape of the argument

The cipher suites can wait, because nothing can go wrong in them: their
loop asks for both bytes of a suite before it reads one (`readSuites_eq`).
Extensions are dealt with in a slot of their own, which hands on only the
note; so going through the entries with the note in hand is going through
them alone and adding up the notes at the end
(`outcome_filterMapM_readExtension`), and an extension that is refused
ends both with its own error. An overrun is found after every refusal
there is, since the loop meets it at the end (`readBlock_eq`).
-/
import TlsHello.Hello.Decode
import TlsHello.Hello.Fields
import TlsHello.Proofs.Atomic

namespace TlsHello.Hello

-- ==================================================== the cipher suites

/-- The cipher suites of a list. None of them can be cut off. -/
theorem readSuites_eq (list : Bytes) :
    readSuites list
      = .ok (((RawHello.suiteShape.tile list).entries.map Entry.tag).filter fun suite =>
            !isGrease suite,
          ((RawHello.suiteShape.tile list).entries.map Entry.tag).any isGrease) := by
  unfold readSuites Scan.outcome RawHello.suiteShape
  dsimp only
  rw [EntryReader.run_each_word, List.filter_map, List.any_map]
  rfl

-- ======================================================== the extensions

variable (e : Entry) (entries : List Entry) (saw : Bool)

/-- The fields of an extension. Type and length are a header, for which
the loop asks. -/
theorem reads_extension :
    (EntryReader.tagged 4 2 "extension type" "extension length" "extension body").Reads
      RawHello.extensionShape fun n =>
        if n < 2 then "extension type" else if n < 4 then "extension length"
        else "extension body" :=
  EntryReader.reads_tagged _ _ _ rfl rfl (Nat.le_refl 4)

/-- An extension is decoded as it is alone, and its note is added. -/
theorem outcome_readExtension :
    (readExtension e).outcome saw
      = (fun d => (some d.extension, saw || d.sawGrease)) <$> Extension.ofEntry e := by
  have hget : (get : Scan Bool).outcome saw = .ok (saw, saw) := rfl
  rw [readExtension, Scan.outcome_bind, hget]
  show Scan.outcome _ saw = _
  cases hdecode : Extension.ofEntry e with
  | error err =>
      rw [ExtensionSlot.step_of_error { sawGrease := saw } e hdecode]
      rfl
  | ok d =>
      rw [ExtensionSlot.step_of_ok { sawGrease := saw } e hdecode]
      rfl

/-- Going through extensions with the note in hand is going through them
alone and adding up the notes. -/
theorem outcome_filterMapM_readExtension :
    (entries.filterMapM readExtension).outcome saw
      = (fun decoded => (decoded.map Decoded.extension, saw || decoded.any Decoded.sawGrease))
          <$> entries.mapM Extension.ofEntry := by
  induction entries generalizing saw with
  | nil =>
      show Except.ok ([], saw) = Except.ok ([], saw || false)
      rw [Bool.or_false]
  | cons e entries ih =>
      rw [List.filterMapM_cons, List.mapM_cons, Scan.outcome_bind, outcome_readExtension]
      cases Extension.ofEntry e with
      | error err => rfl
      | ok d =>
          show (entries.filterMapM readExtension >>= fun read =>
            (pure (d.extension :: read) : Scan (List Extension))).outcome _ = _
          rw [Scan.outcome_bind, ih]
          cases entries.mapM Extension.ofEntry with
          | error err => rfl
          | ok decoded =>
              show Except.ok (_, (saw || d.sawGrease) || decoded.any Decoded.sawGrease) = _
              rw [Bool.or_assoc]
              rfl

/-- The walk through a block, in three passes: entries, extensions,
leftover. -/
theorem readBlock_eq (block : Bytes) :
    readBlock saw block
      = (RawHello.extensionShape.tile block).entries.mapM Extension.ofEntry >>= fun decoded =>
          if (RawHello.extensionShape.tile block).leftover.length < 4 then
            .ok (decoded.map Decoded.extension, saw || decoded.any Decoded.sawGrease)
          else .error (.truncated "extension body") := by
  unfold readBlock
  dsimp only
  rw [EntryReader.each_eq reads_extension, Scan.outcome_bind, outcome_filterMapM_readExtension]
  cases (RawHello.extensionShape.tile block).entries.mapM Extension.ofEntry with
  | error err => rfl
  | ok decoded =>
      show Scan.outcome (if (RawHello.extensionShape.tile block).leftover.length < 4 then _
        else _) _ = if _ then _ else _
      by_cases hshort : (RawHello.extensionShape.tile block).leftover.length < 4
      · rw [if_pos hshort, if_pos hshort]
        rfl
      · -- with a header's worth of bytes left neither type nor length is cut off
        rw [if_neg hshort, if_neg hshort, if_neg (by omega), if_neg hshort]
        rfl

theorem readBlock_nil : readBlock saw [] = .ok ([], saw) := by
  rw [readBlock_eq, EntryShape.tile_of_none (EntryShape.first?_nil _)]
  show Except.ok ([], saw || false) = _
  rw [Bool.or_false]

/-- Taking the lists of a hello apart is reading its block, on from the
note of its cipher suites. -/
theorem decode_eq_readBlock (raw : RawHello) :
    raw.decode
      = (fun read => {
          legacyVersion := raw.legacyVersion
          random := raw.random
          sessionId := raw.sessionId
          cipherSuites := raw.suites.filter fun suite => !isGrease suite
          compressionMethods := raw.compressionMethods
          extensions := read.1
          hasGrease := read.2 }) <$> readBlock (raw.suites.any isGrease)
            (raw.extensionBlock.getD []) := by
  rw [readBlock_eq]
  unfold RawHello.decode RawHello.extensionTiling
  cases (RawHello.extensionShape.tile (raw.extensionBlock.getD [])).entries.mapM
    Extension.ofEntry with
  | error err => rfl
  | ok decoded =>
      show (if _ then _ else _) = _ <$> (if _ then _ else _)
      split
      · rfl
      · rfl

-- ============================================================== the body

/-- A body is its fields, with the two lists taken apart. -/
theorem reader_run (body : Bytes) :
    reader.run body
      = RawHello.reader.run body >>= fun read => (·, read.2) <$> read.1.decode := by
  simp only [reader, RawHello.reader, StateT.run_bind, bind_assoc, readSuites_eq,
    decode_eq_readBlock]
  refine bind_congr fun version => ?_
  refine bind_congr fun random => ?_
  refine bind_congr fun sessionId => ?_
  refine bind_congr fun suiteList => ?_
  show ((Reader.vector 1 "compression methods length" "compression methods").run suiteList.2
    >>= fun methods => _) = _
  refine bind_congr fun methods => ?_
  rcases Nat.lt_or_ge methods.2.length 2 with hlt | hle
  · rw [Reader.ifLeft_of_lt hlt, Reader.ifLeft_of_lt hlt]
    show _ = (·, methods.2) <$> (_ <$> readBlock _ [])
    rw [readBlock_nil]
    rfl
  · rw [Reader.ifLeft_of_le hle, Reader.ifLeft_of_le hle, StateT.run_bind]
    cases (Reader.vector 2 "extensions length" "extensions data").run methods.2 with
    | error err => rfl
    | ok block =>
        -- both go on from what the cipher suites have noted
        let note := ((RawHello.suiteShape.tile suiteList.1).entries.map Entry.tag).any isGrease
        show (_ <$> (readBlock note block.1 >>= fun read => .ok (read, block.2)) >>= _)
          = (·, block.2) <$> (_ <$> readBlock note block.1)
        cases readBlock note block.1 with
        | error err => rfl
        | ok read => rfl

/-- Decoding a body is reading its fields and taking its lists apart. -/
theorem ofBody_eq (body : Bytes) : ofBody body = RawHello.ofBody body >>= RawHello.decode := by
  unfold ofBody RawHello.ofBody
  rw [reader_run]
  cases RawHello.reader.run body with
  | error err => rfl
  | ok read =>
      show Prod.fst <$> ((·, read.2) <$> read.1.decode) = read.1.decode
      rw [Functor.map_map]
      exact id_map _

end TlsHello.Hello
