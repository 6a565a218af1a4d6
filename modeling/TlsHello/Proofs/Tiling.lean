/-
What a tiling is, apart from how it is found.

`EntryShape.tile` reads entries for as long as it can. Seen from outside
a tiling of a byte string is three facts: every entry has room in the
shape, the leftover begins no entry, and entries and leftover, written
one after the other, are the string. `tile_eq_iff` says that these three
facts have one solution and that `tile` finds it, so nobody who argues
about a list has to look at the walk again.

# Entries in the middle

A run of entries in front of a string stays a run, whatever follows it
(`tile_encode_append`). So an entry is read somewhere in a string exactly
when it stands behind some run of entries (`mem_tile_iff`); the bytes
after it take no part in that.

# Words

Entries without a payload are the words of a string: its bytes in pairs,
from the front, a last odd byte dropped (`Bytes.words`).
-/
import TlsHello.Entry
import TlsHello.Proofs.Reading

namespace TlsHello

-- ==================================================== words of a string

namespace Bytes

/-- The 16-bit numbers that the bytes of a string are in pairs. An odd
byte at the end belongs to none. -/
def words : Bytes → List UInt16
  | [] => []
  | [_] => []
  | high :: low :: rest => .ofNat (toNat [high, low]) :: words rest

theorem length_words (bs : Bytes) : (words bs).length = bs.length / 2 := by
  fun_induction words bs with
  | case1 => simp
  | case2 => simp
  | case3 high low rest ih =>
      rw [List.length_cons, ih, List.length_cons, List.length_cons]
      omega

end Bytes

namespace EntryShape

-- ============================================================== writing

/-- An entry on the wire. -/
def encodeEntry (shape : EntryShape) (e : Entry) : Bytes :=
  Bytes.ofNat shape.tagBytes e.tag.toNat
    ++ (Bytes.ofNat shape.lengthBytes e.payload.length ++ e.payload)

/-- Entries one after the other, and the bytes left over after them. -/
def encode (shape : EntryShape) (t : Tiling) : Bytes :=
  t.entries.flatMap shape.encodeEntry ++ t.leftover

/-- Tag and payload length have room at the widths of the shape. -/
def Fits (shape : EntryShape) (e : Entry) : Prop :=
  e.tag.toNat < 256 ^ shape.tagBytes ∧ e.payload.length < 256 ^ shape.lengthBytes

/-- An entry that was read is written as it was. -/
theorem encodeEntry_of_first? {shape : EntryShape} {bs rest : Bytes} {e : Entry}
    (h : shape.first? bs = some (e, rest)) : shape.encodeEntry e ++ rest = bs := by
  obtain ⟨tag, length, htag, hlength, het, hpayload, rfl⟩ := first?_eq_some_iff.1 h
  have hlt := Bytes.toNat_lt tag
  have hle : 256 ^ tag.length ≤ 256 ^ 2 := Nat.pow_le_pow_right (by decide) (htag ▸ shape.tag_le)
  have hn : e.tag.toNat = Bytes.toNat tag := by
    rw [het, UInt16.toNat_ofNat']
    omega
  rw [encodeEntry, hn, hpayload, ← htag, ← hlength, Bytes.ofNat_toNat, Bytes.ofNat_toNat]
  simp

/-- An entry that was read has room in its shape. -/
theorem fits_of_first? {shape : EntryShape} {bs rest : Bytes} {e : Entry}
    (h : shape.first? bs = some (e, rest)) : shape.Fits e := by
  obtain ⟨tag, length, htag, hlength, het, hpayload, rfl⟩ := first?_eq_some_iff.1 h
  have hlt := Bytes.toNat_lt tag
  refine ⟨?_, hpayload ▸ hlength ▸ Bytes.toNat_lt length⟩
  rw [het, UInt16.toNat_ofNat', ← htag]
  exact Nat.lt_of_le_of_lt (Nat.mod_le ..) hlt

/-- An entry with room in its shape is read back, whatever follows. -/
theorem first?_encodeEntry {shape : EntryShape} {e : Entry} (h : shape.Fits e) (rest : Bytes) :
    shape.first? (shape.encodeEntry e ++ rest) = some (e, rest) := by
  rw [first?_eq_some_iff]
  refine ⟨Bytes.ofNat shape.tagBytes e.tag.toNat,
    Bytes.ofNat shape.lengthBytes e.payload.length, by simp, by simp, ?_, ?_, by simp [encodeEntry]⟩
  · rw [Bytes.toNat_ofNat, Nat.mod_eq_of_lt h.1, UInt16.ofNat_toNat]
  · rw [Bytes.toNat_ofNat, Nat.mod_eq_of_lt h.2]

/-- Tiling loses nothing: what was read, written again, is the input. -/
theorem encode_tile (shape : EntryShape) (bs : Bytes) : shape.encode (shape.tile bs) = bs := by
  induction h : bs.length using Nat.strongRecOn generalizing bs with
  | _ n ih =>
    cases he : shape.first? bs with
    | none => simp [tile_of_none he, encode]
    | some found =>
        obtain ⟨e, rest⟩ := found
        have := ih _ (h ▸ length_lt_of_first? he) rest rfl
        rw [tile_of_some he, ← encodeEntry_of_first? he]
        conv => rhs; rw [← this]
        simp [encode]

/-- Entries with room in their shape are read back, if the bytes left
over begin no entry. -/
theorem tile_encode {shape : EntryShape} {t : Tiling} (hfits : ∀ e ∈ t.entries, shape.Fits e)
    (hleftover : shape.first? t.leftover = none) : shape.tile (shape.encode t) = t := by
  obtain ⟨entries, leftover⟩ := t
  induction entries with
  | nil => simpa [encode] using tile_of_none hleftover
  | cons e entries ih =>
      have ih := ih (fun e' he' => hfits e' (List.mem_cons_of_mem _ he')) hleftover
      have he := first?_encodeEntry (hfits e List.mem_cons_self)
        (shape.encode ⟨entries, leftover⟩)
      simp only [encode, List.flatMap_cons, List.append_assoc] at he ih ⊢
      rw [tile_of_some he, ih]

variable {shape : EntryShape} {bs : Bytes}

/-- A part of an entry begins no entry. -/
theorem first?_take_encodeEntry {e : Entry} {n : Nat} (he : shape.Fits e)
    (hn : n < (shape.encodeEntry e).length) : shape.first? ((shape.encodeEntry e).take n) = none := by
  rw [Option.eq_none_iff_forall_ne_some]
  intro ⟨e', rest⟩ hfirst
  -- what is found in the part is found in the whole, where there is `e`
  have hwhole : shape.encodeEntry e' ++ (rest ++ (shape.encodeEntry e).drop n)
      = shape.encodeEntry e ++ [] := by
    rw [← List.append_assoc, encodeEntry_of_first? hfirst, List.take_append_drop, List.append_nil]
  have hfound := first?_encodeEntry (fits_of_first? hfirst) (rest ++ (shape.encodeEntry e).drop n)
  rw [hwhole, first?_encodeEntry he] at hfound
  have hnil := (Prod.mk.inj (Option.some.inj hfound)).2
  have hdrop := (List.append_eq_nil_iff.1 hnil.symm).2
  exact absurd hn (Nat.not_lt.2 (List.drop_eq_nil_iff.1 hdrop))

-- ============================================== the walk, once and for all

/-- Induction along the walk: either no entry is in front, or the
statement is passed on from what follows the first entry. -/
@[elab_as_elim]
theorem tile_induction {motive : Bytes → Prop} (shape : EntryShape)
    (stop : ∀ bs, shape.first? bs = none → motive bs)
    (entry : ∀ bs e rest, shape.first? bs = some (e, rest) → motive rest → motive bs)
    (bs : Bytes) : motive bs := by
  induction h : bs.length using Nat.strongRecOn generalizing bs with
  | _ n ih =>
      cases he : shape.first? bs with
      | none => exact stop bs he
      | some found =>
          obtain ⟨e, rest⟩ := found
          exact entry bs e rest he (ih _ (h ▸ length_lt_of_first? he) rest rfl)

theorem first?_nil (shape : EntryShape) : shape.first? [] = none :=
  first?_eq_none_of_short shape.header_pos

theorem first?_leftover (shape : EntryShape) (bs : Bytes) :
    shape.first? (shape.tile bs).leftover = none := by
  induction bs using tile_induction shape with
  | stop bs he => rw [tile_of_none he]; exact he
  | entry bs e rest he ih => rw [tile_of_some he]; exact ih

theorem fits_of_mem_tile {e : Entry} (he : e ∈ (shape.tile bs).entries) : shape.Fits e := by
  induction bs using tile_induction shape with
  | stop bs hnone =>
      rw [tile_of_none hnone] at he
      cases he
  | entry bs e' rest hsome ih =>
      rw [tile_of_some hsome] at he
      rcases List.mem_cons.1 he with rfl | he
      · exact fits_of_first? hsome
      · exact ih he

/-- A tiling is what it is written as: entries with room in the shape,
and after them bytes that begin no entry. -/
theorem tile_eq_iff {t : Tiling} :
    shape.tile bs = t
      ↔ (∀ e ∈ t.entries, shape.Fits e) ∧ shape.first? t.leftover = none
        ∧ shape.encode t = bs := by
  refine ⟨fun h => ?_, fun ⟨hfits, hleftover, hbs⟩ => ?_⟩
  · subst h
    exact ⟨fun e he => fits_of_mem_tile he, first?_leftover shape bs, encode_tile shape bs⟩
  · subst hbs
    exact tile_encode hfits hleftover

-- ================================================= entries in the middle

theorem encode_append (shape : EntryShape) (run entries : List Entry) (leftover : Bytes) :
    shape.encode ⟨run ++ entries, leftover⟩
      = shape.encode ⟨run, shape.encode ⟨entries, leftover⟩⟩ := by
  simp [encode]

/-- A run of entries in front is read as it was written, and then the
walk goes on as it would without the run. -/
theorem tile_encode_append {run : List Entry} (hfits : ∀ e ∈ run, shape.Fits e) (rest : Bytes) :
    shape.tile (shape.encode ⟨run, rest⟩)
      = ⟨run ++ (shape.tile rest).entries, (shape.tile rest).leftover⟩ := by
  have hrest : shape.encode ⟨run, rest⟩
      = shape.encode ⟨run ++ (shape.tile rest).entries, (shape.tile rest).leftover⟩ := by
    rw [encode_append, encode_tile]
  rw [hrest]
  apply tile_encode
  · intro e he
    rcases List.mem_append.1 he with he | he
    · exact hfits e he
    · exact fits_of_mem_tile he
  · exact first?_leftover shape rest

/-- An entry is read somewhere exactly when it stands behind a run of
entries. What follows it does not count. -/
theorem mem_tile_iff {e : Entry} :
    e ∈ (shape.tile bs).entries
      ↔ ∃ run rest, (∀ x ∈ run, shape.Fits x) ∧ shape.Fits e
          ∧ shape.encode ⟨run ++ [e], rest⟩ = bs := by
  refine ⟨fun he => ?_, fun ⟨run, rest, hrun, he, hbs⟩ => ?_⟩
  · obtain ⟨run, after, hsplit⟩ := List.append_of_mem he
    have hfits : ∀ x ∈ run ++ e :: after, shape.Fits x := by
      intro x hx
      exact fits_of_mem_tile (hsplit ▸ hx)
    refine ⟨run, shape.encode ⟨after, (shape.tile bs).leftover⟩, ?_, ?_, ?_⟩
    · intro x hx
      exact hfits x (List.mem_append_left _ hx)
    · exact hfits e (List.mem_append_right _ List.mem_cons_self)
    · rw [← encode_append, List.append_assoc, List.singleton_append, ← hsplit]
      exact encode_tile shape bs
  · have hfits : ∀ x ∈ run ++ [e], shape.Fits x := by
      intro x hx
      rcases List.mem_append.1 hx with hx | hx
      · exact hrun x hx
      · exact List.mem_singleton.1 hx ▸ he
    rw [← hbs, tile_encode_append hfits]
    simp

/-- Two-byte entries without a payload are the words of the string. -/
theorem map_tag_tile (bs : Bytes) :
    (word.tile bs).entries.map Entry.tag = Bytes.words bs := by
  fun_induction Bytes.words bs with
  | case1 => rw [tile_of_none rfl]; rfl
  | case2 last => rw [tile_of_none rfl]; rfl
  | case3 high low rest ih =>
      have hfirst : word.first? (high :: low :: rest)
          = some (⟨.ofNat (Bytes.toNat [high, low]), []⟩, rest) := rfl
      rw [tile_of_some hfirst, List.map_cons, ih]

/-- What is left over of two-byte entries is a byte or nothing. -/
theorem length_leftover_word (bs : Bytes) : (word.tile bs).leftover.length < 2 := by
  apply Nat.lt_of_not_le
  intro hle
  match hleftover : (word.tile bs).leftover, hle with
  | high :: low :: rest, _ =>
      have hnone := first?_leftover word bs
      rw [hleftover] at hnone
      cases hnone

/-- One-byte entries without a payload are the bytes of the string. -/
theorem tile_modes (bs : Bytes) :
    tile { tagBytes := 1, lengthBytes := 0 } bs = ⟨bs.map fun b => ⟨b.toUInt16, []⟩, []⟩ := by
  induction bs with
  | nil => exact tile_of_none (first?_nil _)
  | cons b rest ih =>
      have htag : UInt16.ofNat (Bytes.toNat [b]) = b.toUInt16 := by
        simp [Bytes.toNat]
      have hfirst : first? { tagBytes := 1, lengthBytes := 0 } (b :: rest)
          = some (⟨.ofNat (Bytes.toNat [b]), []⟩, rest) := rfl
      rw [tile_of_some hfirst, htag, ih, List.map_cons]

end EntryShape

end TlsHello
