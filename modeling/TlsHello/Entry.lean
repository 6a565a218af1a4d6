/-
Lists of entries, each a tag and a payload.

Every list in a ClientHello is a run of entries, and the entries of all
of them have one form: a tag of some bytes, a payload length of some
bytes, and the payload. Only the two widths differ. Extensions are two
and two, server names one and two, protocol names have no tag, cipher
suites no payload. `EntryShape` holds the widths.

A list need not end where an entry ends. `EntryShape.tile` reads entries
for as long as complete ones are there and keeps the leftover; whether a
leftover is harmless or an error is for the list in question to say.
-/
import TlsHello.Bytes

namespace TlsHello

/-- The widths of an entry's tag and of its payload length. A tag has
at most 16 bits. An entry is never empty, so a list of entries ends. -/
structure EntryShape where
  tagBytes : Nat
  lengthBytes : Nat
  tag_le : tagBytes ≤ 2 := by decide
  header_pos : 0 < tagBytes + lengthBytes := by decide
deriving DecidableEq, Repr

/-- An entry; the tag is zero where the shape has none. -/
structure Entry where
  tag : UInt16 := 0
  payload : Bytes := []
deriving DecidableEq, Repr, Inhabited

/-- A list of entries as it is on the wire: complete entries, and bytes
after them that begin no complete one. -/
structure Tiling where
  entries : List Entry
  leftover : Bytes
deriving DecidableEq, Repr

namespace EntryShape

/-- The shape of a 16-bit value. -/
def word : EntryShape := { tagBytes := 2, lengthBytes := 0 }

/-- The shape of a 16-bit value with data, whose length has 16 bits too. -/
def tagged : EntryShape := { tagBytes := 2, lengthBytes := 2 }

/-- The entry at the front of a byte string, if it is complete there. -/
def first? (shape : EntryShape) (bs : Bytes) : Option (Entry × Bytes) := do
  let (tag, bs) ← Bytes.split? shape.tagBytes bs
  let (length, bs) ← Bytes.split? shape.lengthBytes bs
  let (payload, rest) ← Bytes.split? (Bytes.toNat length) bs
  return ({ tag := .ofNat (Bytes.toNat tag), payload }, rest)

/-- What an entry consists of on the wire. -/
theorem first?_eq_some_iff {shape : EntryShape} {bs rest : Bytes} {e : Entry} :
    shape.first? bs = some (e, rest) ↔
      ∃ tag length, tag.length = shape.tagBytes ∧ length.length = shape.lengthBytes
        ∧ e.tag = .ofNat (Bytes.toNat tag) ∧ e.payload.length = Bytes.toNat length
        ∧ tag ++ (length ++ (e.payload ++ rest)) = bs := by
  simp only [first?, bind, pure, Option.bind_eq_some_iff, Option.some.injEq, Prod.exists,
    Prod.mk.injEq, Bytes.split?_eq_some_iff]
  constructor
  · intro h
    rcases h with ⟨tag, _, ⟨htag, rfl⟩, length, _, ⟨hlength, rfl⟩, payload, _, ⟨hpayload, rfl⟩,
      rfl, rfl⟩
    exact ⟨tag, length, htag, hlength, rfl, hpayload, rfl⟩
  · intro h
    rcases h with ⟨tag, length, htag, hlength, het, hpayload, rfl⟩
    refine ⟨tag, _, ⟨htag, rfl⟩, length, _, ⟨hlength, rfl⟩, e.payload, rest, ⟨hpayload, rfl⟩, ?_, rfl⟩
    cases e
    simp_all

/-- Fewer bytes than a header begin no entry. -/
theorem first?_eq_none_of_short {shape : EntryShape} {bs : Bytes}
    (h : bs.length < shape.tagBytes + shape.lengthBytes) : shape.first? bs = none := by
  rw [Option.eq_none_iff_forall_ne_some]
  intro found he
  obtain ⟨e, rest⟩ := found
  obtain ⟨tag, length, htag, hlength, -, -, rfl⟩ := first?_eq_some_iff.1 he
  simp only [List.length_append] at h
  omega

/-- An entry takes up bytes. -/
theorem length_lt_of_first? {shape : EntryShape} {bs rest : Bytes} {e : Entry}
    (h : shape.first? bs = some (e, rest)) : rest.length < bs.length := by
  obtain ⟨tag, length, htag, hlength, -, -, rfl⟩ := first?_eq_some_iff.1 h
  have := shape.header_pos
  simp only [List.length_append]
  omega

/-- Reads entries on top of those already `read`, the last of them first. -/
def tileFrom (shape : EntryShape) (read : List Entry) (bs : Bytes) : Tiling :=
  match _ : shape.first? bs with
  | some (e, rest) => tileFrom shape (e :: read) rest
  | none => ⟨read.reverse, bs⟩
termination_by bs.length
decreasing_by exact length_lt_of_first? ‹_›

/-- The longest run of complete entries at the front of a byte string,
and the bytes after it. -/
def tile (shape : EntryShape) (bs : Bytes) : Tiling :=
  shape.tileFrom [] bs

-- ==================================================== one entry at a time

theorem tileFrom_eq (shape : EntryShape) (read : List Entry) (bs : Bytes) :
    shape.tileFrom read bs
      = ⟨read.reverse ++ (shape.tile bs).entries, (shape.tile bs).leftover⟩ := by
  induction h : bs.length using Nat.strongRecOn generalizing read bs with
  | _ n ih =>
    rw [tile, tileFrom, tileFrom]
    split
    · next e rest he =>
      have hlt := length_lt_of_first? he
      rw [ih _ (h ▸ hlt) (e :: read) rest rfl, ih _ (h ▸ hlt) [e] rest rfl]
      simp
    · simp

/-- With no complete entry in front everything is leftover. -/
theorem tile_of_none {shape : EntryShape} {bs : Bytes} (h : shape.first? bs = none) :
    shape.tile bs = ⟨[], bs⟩ := by
  rw [tile, tileFrom]
  split
  · next he => rw [he] at h; cases h
  · rfl

/-- A complete entry in front is the first of the run. -/
theorem tile_of_some {shape : EntryShape} {bs rest : Bytes} {e : Entry}
    (h : shape.first? bs = some (e, rest)) :
    shape.tile bs = ⟨e :: (shape.tile rest).entries, (shape.tile rest).leftover⟩ := by
  rw [tile, tileFrom]
  split
  · next he =>
    rw [h] at he
    obtain ⟨rfl, rfl⟩ := Prod.mk.inj (Option.some.inj he)
    rw [tileFrom_eq]
    simp
  · next he => rw [he] at h; cases h

end EntryShape

end TlsHello
