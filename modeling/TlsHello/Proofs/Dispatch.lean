/-
Types, extensions and names in step.

The number of an extension's type is looked up in more than one place.
Decoding asks whether it is GREASE and then which of the lists it has, the
extension that comes out is asked for its type again, and the number has a
name. This file says that none of these disagrees with another, whatever
the number and whatever the body: what was decoded has the type that it was
sent as, it was left unknown exactly if its type has no name, and a type
without a list is never refused and loses nothing
(`ExtensionSlot.GoesByType`).

So the extensions of a hello can be read off its message by their types, in
order and with those that were sent twice, and none of the unknown ones is
of a type that could have been decoded (`Dissection.SameTypes`). A hello
that was put together by hand need not be like that.

# The shape of the argument

There are three ways to decode an extension (`Extension.ofEntry_cases`), and
the type tells which it is. So each fact is about three cases, of which
only the list can be refused; a list is not unknown and has the type of its
kind. A step in a slot does what decoding alone does, and along a block that
is one fact for each entry.
-/
import TlsHello.Proofs.CutExtension
import TlsHello.Proofs.Lookup

namespace TlsHello

-- ================================================ statement vocabulary

/-- The extension was not looked into. -/
def Extension.isUnknown : Extension → Bool
  | unknown _ _ => true
  | _ => false

/-- What comes of an extension in a slot goes by its type. -/
structure ExtensionSlot.GoesByType (slot : ExtensionSlot) (typeId : UInt16) (body : Bytes) :
    Prop where
  /-- It has the type that it was sent as. -/
  typeId_eq : ∀ slot', slot.step ⟨typeId, body⟩ = (none, slot') → slot'.current.typeId = typeId
  /-- It is unknown exactly if the type is none of the eight. -/
  isUnknown_iff : ∀ slot', slot.step ⟨typeId, body⟩ = (none, slot') →
    (slot'.current.isUnknown = true
      ↔ typeId ∉ [0x0000, 0x000a, 0x000d, 0x0010, 0x002b, 0x002d, 0x0033, 0xff01])
  /-- Only a type with a list is refused. -/
  refused : ∀ e slot', slot.step ⟨typeId, body⟩ = (some e, slot') →
    typeId ∈ [0x0000, 0x000a, 0x000d, 0x0010, 0x002b, 0x002d, 0x0033]
  /-- Any other is accepted, and its body is kept as it came. -/
  kept : typeId ∉ [0x0000, 0x000a, 0x000d, 0x0010, 0x002b, 0x002d, 0x0033] →
    slot.step ⟨typeId, body⟩
      = (none,
          ⟨if typeId = 0xff01 then .renegotiationInfo body else .unknown typeId body,
            slot.sawGrease || isGrease typeId⟩)

/-- The extensions of a hello are of the types that its message has. -/
structure Dissection.SameTypes (s : Dissection) (h : Hello) : Prop where
  types : h.extensions.map Extension.typeId = s.entries.map Entry.tag
  /-- None of the eight types was left unknown. -/
  unknown : ∀ x ∈ h.extensions, x.isUnknown = true →
    x.typeId ∉ [0x0000, 0x000a, 0x000d, 0x0010, 0x002b, 0x002d, 0x0033, 0xff01]

-- ========================================================= one extension

theorem ListKind.isUnknown_extension (kind : ListKind) (entries : List Entry) :
    (kind.extension entries).isUnknown = false := by
  cases kind <;> rfl

/-- An extension is left unknown exactly if its type is none there is. -/
theorem Extension.isUnknown_of_ofEntry {e : Entry} {d : Decoded} (h : ofEntry e = .ok d) :
    d.extension.isUnknown = true
      ↔ e.tag ∉ [0x0000, 0x000a, 0x000d, 0x0010, 0x002b, 0x002d, 0x0033, 0xff01] := by
  rw [ExtensionType.mem_ids_iff, not_exists]
  rcases ofEntry_cases e with ⟨kind, htag, hdecode⟩ | ⟨htag, hdecode⟩ | ⟨htag, hdecode⟩
  · obtain ⟨entries, hextension⟩ := ListKind.exists_extension_of_decode (hdecode.symm.trans h)
    rw [hextension, kind.isUnknown_extension]
    exact iff_of_false Bool.false_ne_true fun hnone => hnone (.list kind) htag.symm
  · rw [← Except.ok.inj (hdecode.symm.trans h)]
    exact iff_of_false Bool.false_ne_true fun hnone => hnone .renegotiationInfo htag.symm
  · rw [← Except.ok.inj (hdecode.symm.trans h)]
    exact iff_of_true rfl htag

/-- A step that is not refused is that of decoding alone. -/
theorem ExtensionSlot.exists_ofEntry_of_step {slot slot' : ExtensionSlot} {e : Entry}
    (h : slot.step e = (none, slot')) :
    ∃ d, Extension.ofEntry e = .ok d ∧ slot'.current = d.extension := by
  cases hdecode : Extension.ofEntry e with
  | error err =>
      rw [slot.step_of_error e hdecode] at h
      cases h
  | ok d =>
      rw [slot.step_of_ok e hdecode] at h
      obtain ⟨-, rfl⟩ := Prod.mk.inj h
      exact ⟨d, rfl, rfl⟩

theorem ExtensionSlot.goesByType (slot : ExtensionSlot) (typeId : UInt16) (body : Bytes) :
    slot.GoesByType typeId body := by
  have hkept : typeId ∉ [0x0000, 0x000a, 0x000d, 0x0010, 0x002b, 0x002d, 0x0033] →
      slot.step ⟨typeId, body⟩
        = (none,
            ⟨if typeId = 0xff01 then .renegotiationInfo body else .unknown typeId body,
              slot.sawGrease || isGrease typeId⟩) := fun htype =>
    step_of_not_list (fun kind hkind => htype (ListKind.mem_ids_iff.2 ⟨kind, hkind⟩)) slot body
  refine ⟨?_, ?_, ?_, hkept⟩
  · intro slot' hstep
    obtain ⟨d, hdecode, hcurrent⟩ := exists_ofEntry_of_step hstep
    rw [hcurrent]
    exact Extension.typeId_of_ofEntry hdecode
  · intro slot' hstep
    obtain ⟨d, hdecode, hcurrent⟩ := exists_ofEntry_of_step hstep
    rw [hcurrent]
    exact Extension.isUnknown_of_ofEntry hdecode
  · intro e slot' hstep
    by_contra htype
    rw [hkept htype] at hstep
    cases hstep

/-- The types that have a name are those that decoding knows. -/
theorem ExtensionType.nameOfId_eq_unknown_iff {typeId : UInt16} :
    nameOfId typeId = "unknown"
      ↔ typeId ∉ [0x0000, 0x000a, 0x000d, 0x0010, 0x002b, 0x002d, 0x0033, 0xff01] := by
  constructor
  · intro hname htype
    simp only [List.mem_cons, List.not_mem_nil, or_false] at htype
    rcases htype with rfl | rfl | rfl | rfl | rfl | rfl | rfl | rfl <;>
      exact absurd hname (by decide)
  · intro htype
    simp only [List.mem_cons, List.not_mem_nil, or_false, not_or] at htype
    obtain ⟨h0, ha, hd, h10, h2b, h2d, h33, hff⟩ := htype
    rw [nameOfId, if_neg h0, if_neg ha, if_neg hd, if_neg h10, if_neg h2b, if_neg h2d, if_neg h33,
      if_neg hff]

-- ============================================================ the message

/-- Entry by entry, the extensions have the types they were sent as. -/
theorem map_typeId_of_forall₂ {entries : List Entry} {xs : Extensions}
    (h : List.Forall₂ (fun e x => ∃ sawGrease, Extension.ofEntry e = .ok ⟨x, sawGrease⟩)
      entries xs) : xs.map Extension.typeId = entries.map Entry.tag := by
  induction h with
  | nil => rfl
  | @cons e x entries xs hex _ ih =>
      obtain ⟨sawGrease, he⟩ := hex
      rw [List.map_cons, List.map_cons, ih]
      exact congrArg (· :: entries.map Entry.tag) (Extension.typeId_of_ofEntry he)

theorem Dissection.Describes.sameTypes {s : Dissection} {h : Hello} (hs : s.Describes h) :
    s.SameTypes h where
  types := map_typeId_of_forall₂ hs.extensions
  unknown := by
    intro x hx hunknown
    obtain ⟨e, -, sawGrease, he⟩ := exists_left_of_mem hs.extensions hx
    have htype : x.typeId = e.tag := Extension.typeId_of_ofEntry he
    rw [htype]
    exact (Extension.isUnknown_of_ofEntry he).1 hunknown

/-- What an extension is decoded to goes by its type, and so does its name:
the types that are known to the one are known to the other. So the
extensions of an accepted message are of the types that it has on the wire,
one by one. -/
theorem extensions_go_by_type :
    (∀ (slot : ExtensionSlot) (typeId : UInt16) (body : Bytes), slot.GoesByType typeId body)
    ∧ (∀ typeId : UInt16, ExtensionType.nameOfId typeId = "unknown"
        ↔ typeId ∉ [0x0000, 0x000a, 0x000d, 0x0010, 0x002b, 0x002d, 0x0033, 0xff01])
    ∧ ∀ (input : Bytes) (h : Hello), Hello.ofHandshake input = .ok h →
        (∃ s : Dissection, s.Splits input)
        ∧ ∀ s : Dissection, s.Splits input → s.SameTypes h := by
  refine ⟨ExtensionSlot.goesByType, fun typeId => ExtensionType.nameOfId_eq_unknown_iff, ?_⟩
  intro input h hdecode
  refine ⟨Dissection.exists_splits hdecode, ?_⟩
  intro s hs
  exact (hs.describes hdecode).sameTypes

/-- Types that come again, unknown ones among them, GREASE and a list
that is refused. -/
theorem extensions_go_by_type_repeated :
    Hello.repeated.extensions.map Extension.typeId
        = [0x0017, 0xff01, 0x000a, 0x0017, 0x1a1a, 0xff01]
      ∧ ExtensionType.nameOfId 0x1a1a = "unknown"
      ∧ ExtensionSlot.step {} ⟨0x1a1a, [0x00]⟩ = (none, ⟨.unknown 0x1a1a [0x00], true⟩)
      ∧ (∃ slot, ExtensionSlot.step {} ⟨0x000a, [0x00]⟩
          = (some (.truncated "supported groups length"), slot))
      ∧ ExtensionType.nameOfId 0x000a ≠ "unknown" := by
  obtain ⟨hslot, hname, hmessage⟩ := extensions_go_by_type
  obtain ⟨-, htypes⟩ := hmessage Dissection.repeated.bytes Hello.repeated (by decide +kernel)
  have hcut : ExtensionSlot.step {} ⟨0x000a, [0x00]⟩
      = (some (.truncated "supported groups length"), {}) := by decide +kernel
  have hlist := (hslot {} 0x000a [0x00]).refused _ _ hcut
  refine ⟨?_, (hname 0x1a1a).2 (by decide), (hslot {} 0x1a1a [0x00]).kept (by decide), ⟨_, hcut⟩,
    fun hnone => ?_⟩
  · exact (htypes Dissection.repeated (by decide +kernel)).types
  · exact (hname 0x000a).1 hnone (List.mem_append_left [0xff01] hlist)

end TlsHello
