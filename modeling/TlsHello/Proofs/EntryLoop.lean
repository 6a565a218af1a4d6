/-
The loop over a list, in closed form.

A list is read in a loop that tests how much is left, reads one field
after another and deals with the entry. Seen from outside this is two
things, one after the other: the complete entries of the list are dealt
with in their order, and then the leftover decides whether the list ended
well (`EntryReader.each_eq`).

# The shape of the argument

What a reader does in front of a byte string depends on whether a complete
entry is there. If there is one it is read. If there is none the reads
fail, in the field in which the bytes end; that is a function of how many
bytes there are, in which every field of an entry occurs
(`EntryReader.Reads`).

The loop asks for it behind its test. So what an error can name is not
what the function can yield but what it yields from `least` on: the walk
along the entries (`EntryShape.tile_induction`) ends at a leftover that
begins no entry, and there the loop either stops at the test
(`loop_of_short`) or has let the first fields through (`loop_of_cut`).
-/
import TlsHello.EntryReader
import TlsHello.Proofs.Tiling

namespace TlsHello

-- ================================================== work that notes GREASE

namespace Scan

variable {x : Scan α} {f : α → Scan β} {saw saw' : Bool} {a : α} {e : DecodeError}

/-- Behind work that is done the next goes on from its note. -/
theorem run_bind_of_ok (h : x.run.run saw = (.ok a, saw')) :
    (x >>= f).run.run saw = (f a).run.run saw' := by
  rw [ExceptT.run_bind, StateT.run_bind, h]
  rfl

/-- Behind work that fails nothing is done, and its note stays. -/
theorem run_bind_of_error (h : x.run.run saw = (.error e, saw')) :
    (x >>= f).run.run saw = (.error e, saw') := by
  rw [ExceptT.run_bind, StateT.run_bind, h]
  rfl

/-- What comes of work in two parts. -/
theorem outcome_bind (x : Scan α) (f : α → Scan β) (saw : Bool) :
    (x >>= f).outcome saw = x.outcome saw >>= fun done => (f done.1).outcome done.2 := by
  unfold outcome
  match h : x.run.run saw with
  | (.ok a, saw') => rw [run_bind_of_ok h]; rfl
  | (.error e, saw') => rw [run_bind_of_error h]; rfl

end Scan

-- ================================================== entries, by how they split

namespace EntryShape

variable {shape : EntryShape} {unread tag behind length data : Bytes}

theorem first?_of_tag (htag : Bytes.split? shape.tagBytes unread = none) :
    shape.first? unread = none := by
  rw [first?, htag]
  rfl

theorem first?_of_length (htag : Bytes.split? shape.tagBytes unread = some (tag, behind))
    (hlength : Bytes.split? shape.lengthBytes behind = none) : shape.first? unread = none := by
  rw [first?, htag]
  show (Bytes.split? shape.lengthBytes behind >>= _) = none
  rw [hlength]
  rfl

/-- With its header there, an entry is as much data as the header says. -/
theorem first?_of_header (htag : Bytes.split? shape.tagBytes unread = some (tag, behind))
    (hlength : Bytes.split? shape.lengthBytes behind = some (length, data)) :
    shape.first? unread
      = (Bytes.split? (Bytes.toNat length) data).map fun found =>
          (⟨.ofNat (Bytes.toNat tag), found.1⟩, found.2) := by
  rw [first?, htag]
  show (Bytes.split? shape.lengthBytes behind >>= _) = _
  rw [hlength]
  show (Bytes.split? (Bytes.toNat length) data >>= _) = _
  cases Bytes.split? (Bytes.toNat length) data with
  | none => rfl
  | some found => rfl

end EntryShape

namespace EntryReader

variable {reader : EntryReader} {shape : EntryShape} {cutField : Nat → String}

-- ====================================================== readers and shapes

/-- The reader reads entries of the shape. Where no complete one begins it
fails, in the field in which that many bytes end. The test ahead of it
asks for no more than a header. -/
structure Reads (reader : EntryReader) (shape : EntryShape) (cutField : Nat → String) : Prop where
  run (unread : Bytes) : reader.read.run unread = match shape.first? unread with
    | some found => .ok found
    | none => .error (.truncated (cutField unread.length))
  least_le : reader.least ≤ shape.tagBytes + shape.lengthBytes

/-- A 16-bit value is cut off in itself or not at all. -/
theorem reads_word (field : String) : (word field).Reads .word fun _ => field where
  run unread := by
    cases htag : Bytes.split? 2 unread with
    | none =>
        rw [EntryShape.first?_of_tag htag]
        exact Reader.run_bind_of_error (Reader.uint_of_none htag)
    | some found =>
        obtain ⟨tag, behind⟩ := found
        rw [EntryShape.first?_of_header htag (Bytes.split?_zero behind)]
        exact Reader.run_bind_of_ok (Reader.uint_of_split? htag)
  least_le := Nat.le_refl 2

/-- Behind a tag that is there, an entry is cut off in its length or in
its data. -/
theorem run_payload {width : Nat} {lengthField dataField : String} {unread tag behind : Bytes}
    (htag : Bytes.split? shape.tagBytes unread = some (tag, behind))
    (hwidth : shape.lengthBytes = width) :
    (Reader.vector width lengthField dataField >>= fun payload =>
        (pure ⟨.ofNat (Bytes.toNat tag), payload⟩ : Reader Entry)).run behind
      = match shape.first? unread with
        | some found => .ok found
        | none => .error (.truncated (if behind.length < width then lengthField else dataField)) := by
  subst hwidth
  cases hlength : Bytes.split? shape.lengthBytes behind with
  | none =>
      rw [EntryShape.first?_of_length htag hlength]
      dsimp only
      rw [if_pos (Bytes.split?_eq_none_iff.1 hlength)]
      exact Reader.run_bind_of_error (Reader.vector_of_none hlength)
  | some found =>
      obtain ⟨length, data⟩ := found
      have hread : (Reader.vector shape.lengthBytes lengthField dataField).run behind
          = (Reader.bytes (Bytes.toNat length) dataField).run data :=
        Reader.vector_of_split? hlength
      rw [EntryShape.first?_of_header htag hlength,
        if_neg (Nat.not_lt.2 (Bytes.le_length_of_split? hlength))]
      cases hdata : Bytes.split? (Bytes.toNat length) data with
      | none => exact Reader.run_bind_of_error (hread.trans (Reader.bytes_of_none hdata))
      | some found => exact Reader.run_bind_of_ok (hread.trans (Reader.bytes_of_split? hdata))

/-- Data is cut off in itself, or where there is nothing in its length. -/
theorem reads_untagged (lengthField dataField : String) (htagBytes : shape.tagBytes = 0)
    (hlengthBytes : shape.lengthBytes = 1) :
    (untagged lengthField dataField).Reads shape
      fun n => if n < 1 then lengthField else dataField where
  run unread := by
    have htag : Bytes.split? shape.tagBytes unread = some ([], unread) := by
      rw [htagBytes, Bytes.split?_zero]
    exact run_payload htag hlengthBytes
  least_le := by
    rw [htagBytes, hlengthBytes]
    exact Nat.le_refl 1

/-- A tag and data are cut off in the tag, in the length between them, or
in the data. -/
theorem reads_tagged {least tagBytes : Nat} (tagField lengthField dataField : String)
    (htagBytes : shape.tagBytes = tagBytes) (hlengthBytes : shape.lengthBytes = 2)
    (hleast : least ≤ tagBytes + 2) :
    (tagged least tagBytes tagField lengthField dataField).Reads shape fun n =>
      if n < tagBytes then tagField else if n < tagBytes + 2 then lengthField else dataField where
  run unread := by
    subst htagBytes
    cases htag : Bytes.split? shape.tagBytes unread with
    | none =>
        rw [EntryShape.first?_of_tag htag]
        dsimp only
        rw [if_pos (Bytes.split?_eq_none_iff.1 htag)]
        exact Reader.run_bind_of_error (Reader.uint_of_none htag)
    | some found =>
        obtain ⟨tag, behind⟩ := found
        have hlengths : unread.length = shape.tagBytes + behind.length := by
          obtain ⟨htagLength, hunread⟩ := Bytes.split?_eq_some_iff.1 htag
          rw [← hunread, List.length_append, htagLength]
        have hlength : unread.length < shape.tagBytes + 2 ↔ behind.length < 2 := by omega
        refine (Reader.run_bind_of_ok (Reader.uint_of_split? htag)).trans ?_
        rw [if_neg (by omega), run_payload htag hlengthBytes]
        simp only [hlength]
  least_le := by
    rw [htagBytes, hlengthBytes]
    exact hleast

-- ================================================================ the loop

variable {visit : Entry → Scan (Option α)} {done : List α} {unread rest : Bytes} {e : Entry}

/-- With less left than is asked for the loop ends. -/
theorem loop_of_short (h : unread.length < reader.least) :
    reader.loop visit done unread = return done.reverse := by
  rw [loop, if_neg]
  rw [Bytes.hasAtLeast_iff]
  omega

/-- A complete entry is dealt with, and the loop goes on behind it. -/
theorem loop_of_entry (hreads : reader.Reads shape cutField)
    (h : shape.first? unread = some (e, rest)) :
    reader.loop visit done unread
      = visit e >>= fun kept => reader.loop visit (kept.toList ++ done) rest := by
  have hleast : Bytes.hasAtLeast reader.least unread = true := by
    apply Classical.byContradiction
    intro hshort
    rw [Bytes.hasAtLeast_iff, Nat.not_le] at hshort
    rw [EntryShape.first?_eq_none_of_short (Nat.lt_of_lt_of_le hshort hreads.least_le)] at h
    cases h
  have hrun := hreads.run unread
  rw [h] at hrun
  rw [loop, if_pos hleast]
  split
  · next hread =>
    obtain ⟨rfl, rfl⟩ := Prod.mk.inj (Except.ok.inj (hrun.symm.trans hread))
    rfl
  · next hread => cases hrun.symm.trans hread

/-- With as much left as is asked for, but no complete entry, the loop
ends in the field that is cut off. The test has let the fields through
whose bytes it has seen. -/
theorem loop_of_cut (hreads : reader.Reads shape cutField) (h : shape.first? unread = none)
    (hleast : reader.least ≤ unread.length) :
    reader.loop visit done unread = throw (.truncated (cutField unread.length)) := by
  have hrun := hreads.run unread
  rw [h] at hrun
  rw [loop, if_pos (Bytes.hasAtLeast_iff.2 hleast)]
  split
  · next hread => cases hrun.symm.trans hread
  · next hread => rw [Except.error.inj (hrun.symm.trans hread)]

/-- The loop deals with the complete entries, and then the leftover is
harmless or an entry that was cut off. -/
theorem loop_eq (hreads : reader.Reads shape cutField) (visit : Entry → Scan (Option α))
    (done : List α) (list : Bytes) :
    reader.loop visit done list = (do
      let kept ← (shape.tile list).entries.filterMapM visit
      if (shape.tile list).leftover.length < reader.least then return done.reverse ++ kept
      else throw (.truncated (cutField (shape.tile list).leftover.length))) := by
  induction list using EntryShape.tile_induction shape generalizing done with
  | stop bs hnone =>
      rw [EntryShape.tile_of_none hnone, List.filterMapM_nil, pure_bind]
      dsimp only
      by_cases hshort : bs.length < reader.least
      · rw [if_pos hshort, loop_of_short hshort, List.append_nil]
      · rw [if_neg hshort, loop_of_cut hreads hnone (Nat.le_of_not_lt hshort)]
  | entry bs e rest hfirst ih =>
      rw [EntryShape.tile_of_some hfirst, loop_of_entry hreads hfirst, List.filterMapM_cons,
        bind_assoc]
      congr 1
      funext kept
      rw [ih]
      cases kept with
      | none => rfl
      | some kept => simp

/-- A list is its complete entries, dealt with in their order, and then
its leftover. -/
theorem each_eq (hreads : reader.Reads shape cutField) (visit : Entry → Scan (Option α))
    (list : Bytes) :
    reader.each visit list = (do
      let kept ← (shape.tile list).entries.filterMapM visit
      if (shape.tile list).leftover.length < reader.least then return kept
      else throw (.truncated (cutField (shape.tile list).leftover.length))) :=
  loop_eq hreads visit [] list

-- ============================================================ dropping GREASE

theorem run_keep (drops : Bool) (e : Entry) (saw : Bool) :
    (e.keep drops).run.run saw
      = (.ok (if drops && isGrease e.tag then none else some e),
          saw || (drops && isGrease e.tag)) := by
  unfold Entry.keep
  cases drops && isGrease e.tag with
  | true => rw [Bool.or_true]; rfl
  | false => rw [Bool.or_false]; rfl

theorem run_filterMapM_keep (drops : Bool) (entries : List Entry) (saw : Bool) :
    (entries.filterMapM (Entry.keep drops)).run.run saw
      = (.ok (entries.filter fun e => !(drops && isGrease e.tag)),
          saw || (drops && entries.any fun e => isGrease e.tag)) := by
  induction entries generalizing saw with
  | nil => rw [List.any_nil, Bool.and_false, Bool.or_false]; rfl
  | cons e entries ih =>
      rw [List.filterMapM_cons, Scan.run_bind_of_ok (run_keep drops e saw), List.any_cons,
        Bool.and_or_distrib_left, ← Bool.or_assoc, List.filter_cons]
      cases drops && isGrease e.tag with
      | true => exact ih _
      | false => exact Scan.run_bind_of_ok (ih _)

/-- The note of a list is that of its complete entries, also when the
list is refused for what is left over after them. -/
theorem run_each_keep (hreads : reader.Reads shape cutField) (drops : Bool) (list : Bytes)
    (saw : Bool) :
    (reader.each (Entry.keep drops) list).run.run saw
      = (if (shape.tile list).leftover.length < reader.least then
            .ok ((shape.tile list).entries.filter fun e => !(drops && isGrease e.tag))
          else .error (.truncated (cutField (shape.tile list).leftover.length)),
        saw || (drops && (shape.tile list).entries.any fun e => isGrease e.tag)) := by
  rw [each_eq hreads, Scan.run_bind_of_ok (run_filterMapM_keep drops _ saw)]
  by_cases hshort : (shape.tile list).leftover.length < reader.least
  · rw [if_pos hshort, if_pos hshort]
    rfl
  · rw [if_neg hshort, if_neg hshort]
    rfl

/-- A list of 16-bit values is never cut off: the test asks for all there
is of an entry. -/
theorem run_each_word (field : String) (drops : Bool) (list : Bytes) (saw : Bool) :
    ((word field).each (Entry.keep drops) list).run.run saw
      = (.ok ((EntryShape.word.tile list).entries.filter fun e => !(drops && isGrease e.tag)),
          saw || (drops && (EntryShape.word.tile list).entries.any fun e => isGrease e.tag)) := by
  refine (run_each_keep (reads_word field) drops list saw).trans (congrArg (·, _) ?_)
  exact if_pos (EntryShape.length_leftover_word list)

end EntryReader

end TlsHello
