/-
The longest run of items in front of a byte string.

Server names, protocol names, key shares and extensions stand in lists,
each written with the lengths it needs and one after the other. What
reading such a list comes to can be said in the terms of the items
alone: as many of them as are complete, and then bytes that no item
begins. `LongestRun` says it; there is no walk in it and no entry.

# The shape of the argument

Items of a kind are the entries of a shape under other names, and
`EntryShape.Writes` is all there is to check of the names: the same
bytes, the same room, nothing left out and nothing twice. Then the
longest run is the tiling of the shape (`Writes.longestRun_iff`), from
which it follows that every byte string has one and only one.
-/
import TlsHello.Proofs.Dissection
import TlsHello.Proofs.RoundTrip

namespace TlsHello

/-- The items of `run`, one after the other, and then the leftover are
the bytes. Every item has room for what is written of it, and none
begins the leftover. -/
structure LongestRun (item : α → Bytes) (Fits : α → Prop) (bs : Bytes) (run : List α)
    (leftover : Bytes) : Prop where
  fits : ∀ x ∈ run, Fits x
  longest : ∀ x rest, Fits x → item x ++ rest ≠ leftover
  bytes_eq : run.flatMap item ++ leftover = bs

namespace LongestRun

variable {item : α → Bytes} {Fits : α → Prop} {bs leftover : Bytes} {run : List α}

/-- A run that leaves less than an item over is the longest. -/
theorem of_short (hfits : ∀ x ∈ run, Fits x) (hshort : ∀ x, leftover.length < (item x).length)
    (hbs : run.flatMap item ++ leftover = bs) : LongestRun item Fits bs run leftover := by
  refine ⟨hfits, ?_, hbs⟩
  intro x rest _ hx
  have hlt := hshort x
  rw [← hx, List.length_append] at hlt
  omega

/-- A run that leaves nothing over is the longest. -/
theorem of_tiled (hfits : ∀ x ∈ run, Fits x) (hpos : ∀ x, 0 < (item x).length)
    (htiled : run.flatMap item = bs) : LongestRun item Fits bs run [] := by
  refine of_short hfits ?_ ?_
  · exact hpos
  · rw [List.append_nil, htiled]

theorem tiled (h : LongestRun item Fits bs run []) : run.flatMap item = bs := by
  rw [← h.bytes_eq, List.append_nil]

end LongestRun

namespace EntryShape

theorem first?_eq_none_iff {shape : EntryShape} {bs : Bytes} :
    shape.first? bs = none ↔ ∀ e rest, shape.Fits e → shape.encodeEntry e ++ rest ≠ bs := by
  constructor
  · intro hnone e rest he hbs
    rw [← hbs, first?_encodeEntry he] at hnone
    cases hnone
  · intro hbegins
    rw [Option.eq_none_iff_forall_ne_some]
    intro ⟨e, rest⟩ hfirst
    exact hbegins e rest (fits_of_first? hfirst) (encodeEntry_of_first? hfirst)

/-- The items are the entries of the shape: each is written as its entry
is and has room where its entry has, and every entry with room is that of
one item. -/
structure Writes (shape : EntryShape) (toEntry : α → Entry) (item : α → Bytes) (Fits : α → Prop) :
    Prop where
  encodeEntry_eq : ∀ x, shape.encodeEntry (toEntry x) = item x
  fits_iff : ∀ x, shape.Fits (toEntry x) ↔ Fits x
  exists_item : ∀ e, shape.Fits e → ∃ x, toEntry x = e
  injective : Function.Injective toEntry

namespace Writes

variable {shape : EntryShape} {toEntry : α → Entry} {item : α → Bytes} {Fits : α → Prop}
variable {bs leftover : Bytes} {run : List α}

theorem encode_eq (h : shape.Writes toEntry item Fits) (run : List α) (leftover : Bytes) :
    shape.encode ⟨run.map toEntry, leftover⟩ = run.flatMap item ++ leftover := by
  rw [EntryShape.encode_eq, List.flatMap_map]
  simp only [h.encodeEntry_eq]

/-- A run of items is the longest if the walk over the entries finds it. -/
theorem longestRun_iff (h : shape.Writes toEntry item Fits) :
    LongestRun item Fits bs run leftover ↔ shape.tile bs = ⟨run.map toEntry, leftover⟩ := by
  rw [tile_eq_iff, first?_eq_none_iff, h.encode_eq, List.forall_mem_map]
  simp only [h.fits_iff]
  constructor
  · intro hrun
    refine ⟨hrun.fits, ?_, hrun.bytes_eq⟩
    intro e rest he
    obtain ⟨x, rfl⟩ := h.exists_item e he
    rw [h.encodeEntry_eq]
    exact hrun.longest x rest ((h.fits_iff x).1 he)
  · rintro ⟨hfits, hlongest, hbs⟩
    refine ⟨hfits, ?_, hbs⟩
    intro x rest hx
    rw [← h.encodeEntry_eq]
    exact hlongest (toEntry x) rest ((h.fits_iff x).2 hx)

/-- Entries with room are the entries of items. -/
theorem exists_run (h : shape.Writes toEntry item Fits) (entries : List Entry)
    (hfits : ∀ e ∈ entries, shape.Fits e) : ∃ run : List α, run.map toEntry = entries := by
  induction entries with
  | nil => exact ⟨[], rfl⟩
  | cons e entries ih =>
      obtain ⟨x, rfl⟩ := h.exists_item e (hfits e List.mem_cons_self)
      obtain ⟨run, rfl⟩ := ih fun e' he' => hfits e' (List.mem_cons_of_mem _ he')
      exact ⟨x :: run, rfl⟩

theorem exists_longestRun (h : shape.Writes toEntry item Fits) (bs : Bytes) :
    ∃ run leftover, LongestRun item Fits bs run leftover := by
  obtain ⟨run, hrun⟩ := h.exists_run (shape.tile bs).entries fun e he => fits_of_mem_tile he
  exact ⟨run, (shape.tile bs).leftover, h.longestRun_iff.2 (by rw [hrun])⟩

theorem unique (h : shape.Writes toEntry item Fits) {run' : List α} {leftover' : Bytes}
    (hrun : LongestRun item Fits bs run leftover)
    (hrun' : LongestRun item Fits bs run' leftover') : run = run' ∧ leftover = leftover' := by
  rw [h.longestRun_iff] at hrun hrun'
  obtain ⟨hentries, hleftover⟩ := Tiling.mk.inj (hrun.symm.trans hrun')
  exact ⟨List.map_injective_iff.2 h.injective hentries, hleftover⟩

end Writes

end EntryShape

-- ==================================================== the four kinds of item

/-- A server name as it is written: its type and, with the length in two
bytes, the name. -/
def ServerName.bytes (n : ServerName) : Bytes := n.nameType :: Bytes.vector 2 n.name

theorem ServerName.length_bytes (n : ServerName) : n.bytes.length = 3 + n.name.length := by
  rw [bytes, List.length_cons, Bytes.length_vector]
  omega

/-- A key share as it is written: its group and, with the length in two
bytes, the key. -/
def KeyShare.bytes (s : KeyShare) : Bytes := Bytes.ofNat 2 s.group.toNat ++ Bytes.vector 2 s.key

theorem KeyShare.length_bytes (s : KeyShare) : s.bytes.length = 4 + s.key.length := by
  rw [bytes, List.length_append, Bytes.length_ofNat, Bytes.length_vector, ← Nat.add_assoc]

namespace EntryShape

theorem writes_serverName :
    ListKind.serverName.format.shape.Writes (fun n : ServerName => ⟨n.nameType.toUInt16, n.name⟩)
      ServerName.bytes (fun n => n.name.length < 256 ^ 2) where
  encodeEntry_eq n := by
    show UInt8.ofNat n.nameType.toUInt16.toNat :: _ = _
    rw [ofNat_tag_of_byte]
    rfl
  fits_iff n := and_iff_right (tag_of_byte_lt n.nameType)
  exists_item e he := by
    have htag : e.tag.toUInt8.toUInt16 = e.tag := by
      apply UInt16.toNat_inj.1
      have hlt : e.tag.toNat < 256 := he.1
      rw [UInt8.toNat_toUInt16, UInt16.toNat_toUInt8, Nat.mod_eq_of_lt hlt]
    exact ⟨⟨e.tag.toUInt8, e.payload⟩, by rw [htag]⟩
  injective n n' h := by
    obtain ⟨htype, hname⟩ := Entry.mk.inj h
    have htype : n.nameType = n'.nameType := by
      rw [← ofNat_tag_of_byte n.nameType, htype, ofNat_tag_of_byte]
    cases n
    cases n'
    cases htype
    cases hname
    rfl

theorem writes_protocol :
    ListKind.alpn.format.shape.Writes (fun p : Bytes => ⟨0, p⟩) (Bytes.vector 1)
      (fun p => p.length < 256 ^ 1) where
  encodeEntry_eq _ := rfl
  fits_iff _ := and_iff_right Nat.one_pos
  exists_item e he := by
    have htag : e.tag = 0 := UInt16.toNat_inj.1 (Nat.lt_one_iff.1 he.1)
    exact ⟨e.payload, by rw [← htag]⟩
  injective _ _ h := (Entry.mk.inj h).2

theorem writes_keyShare :
    ListKind.keyShare.format.shape.Writes (fun s : KeyShare => ⟨s.group, s.key⟩) KeyShare.bytes
      (fun s => s.key.length < 256 ^ 2) where
  encodeEntry_eq _ := rfl
  fits_iff s := and_iff_right s.group.toNat_lt
  exists_item e _ := ⟨⟨e.tag, e.payload⟩, rfl⟩
  injective s s' h := by
    cases s
    cases s'
    cases h
    rfl

/-- Extensions are entries as they stand. -/
theorem writes_extension :
    RawHello.extensionShape.Writes id Entry.bytes (fun e => e.payload.length < 256 ^ 2) where
  encodeEntry_eq _ := rfl
  fits_iff e := and_iff_right e.tag.toNat_lt
  exists_item e _ := ⟨e, rfl⟩
  injective := Function.injective_id

end EntryShape

end TlsHello
