/-
Extensions that are cut.

The body of a type with a list says how long its list is. So what the front
of a body comes to depends on where the cut is: in the length, in the list,
or behind the list, where nothing is read. The first two are refused under
the names that the type has for them, and a slot is left as it was. The
third is no cut at all. What was wrong with the list is still wrong with
it, and what was right is decoded to the same.

A body of any other type is kept as it came, and so is the front of it.

# The shape of the argument

A list extension has a closed form in the length of its body and in the
list that is declared (`ListKind.decode_run`). Neither changes when bytes
behind the list are cut off or put there (`decode_take`, `decode_append`),
so it plays no part what the list is decoded to. A slot sees of an
extension only what decoding it alone comes to (`ExtensionSlot.step_congr`).
-/
import TlsHello.Proofs.ListGrammar

namespace TlsHello

-- ======================================================== one list cut

section Complete

variable {kind : ListKind} {body : Bytes}
variable (hcomplete : kind.format.lengthBytes
  + Bytes.declaredLength kind.format.lengthBytes body ≤ body.length)
include hcomplete

namespace ListKind

/-- A body whose list is all there, cut after `n` bytes. -/
theorem decode_take (n : Nat) :
    kind.decode (body.take n)
      = if n < kind.format.lengthBytes then .error (.truncated kind.format.lengthField)
        else if n < kind.format.lengthBytes + Bytes.declaredLength kind.format.lengthBytes body then
          .error (.truncated kind.format.dataField)
        else kind.decode body := by
  rw [decode_run, List.length_take]
  by_cases hlength : n < kind.format.lengthBytes
  · rw [if_pos (by omega), if_pos hlength]
  rw [if_neg (by omega), if_neg hlength, Bytes.declaredLength_take (Nat.le_of_not_lt hlength)]
  by_cases hdata : n < kind.format.lengthBytes + Bytes.declaredLength kind.format.lengthBytes body
  · rw [if_pos (by omega), if_pos hdata]
  · rw [if_neg (by omega), if_neg hdata, Bytes.declared_take (Nat.le_of_not_lt hdata),
      decode_of_complete hcomplete]

/-- Bytes behind a list that is all there do not count. -/
theorem decode_append (junk : Bytes) : kind.decode (body ++ junk) = kind.decode body := by
  have hlength : Bytes.declaredLength kind.format.lengthBytes (body ++ junk)
      = Bytes.declaredLength kind.format.lengthBytes body :=
    Bytes.declaredLength_append (by omega) junk
  rw [decode_of_complete hcomplete, decode_of_complete, Bytes.declared_append hcomplete]
  rw [hlength, List.length_append]
  omega

/-- A body cut behind its list goes on as one likes. -/
theorem decode_take_append (junk : Bytes) :
    kind.decode (body.take (kind.format.lengthBytes
        + Bytes.declaredLength kind.format.lengthBytes body) ++ junk) = kind.decode body := by
  rw [decode_append, decode_take hcomplete, if_neg (by omega), if_neg (by omega)]
  rw [Bytes.declaredLength_take (by omega), List.length_take]
  omega

end ListKind

namespace ExtensionSlot

variable (slot : ExtensionSlot)

theorem step_take_of_list (n : Nat) :
    slot.step ⟨kind.id, body.take n⟩
      = if n < kind.format.lengthBytes then (some (.truncated kind.format.lengthField), slot)
        else if n < kind.format.lengthBytes + Bytes.declaredLength kind.format.lengthBytes body then
          (some (.truncated kind.format.dataField), slot)
        else slot.step ⟨kind.id, body⟩ := by
  have hdecode (body : Bytes) : Extension.ofEntry ⟨kind.id, body⟩ = kind.decode body :=
    Extension.ofEntry_of_list kind rfl
  have htake := (hdecode (body.take n)).trans (ListKind.decode_take hcomplete n)
  by_cases hlength : n < kind.format.lengthBytes
  · rw [if_pos hlength] at htake ⊢
    exact slot.step_of_error _ htake
  rw [if_neg hlength] at htake ⊢
  by_cases hdata : n < kind.format.lengthBytes + Bytes.declaredLength kind.format.lengthBytes body
  · rw [if_pos hdata] at htake ⊢
    exact slot.step_of_error _ htake
  · rw [if_neg hdata] at htake ⊢
    exact slot.step_congr (htake.trans (hdecode body).symm)

theorem step_take_append_of_list (junk : Bytes) :
    slot.step ⟨kind.id, body.take (kind.format.lengthBytes
        + Bytes.declaredLength kind.format.lengthBytes body) ++ junk⟩
      = slot.step ⟨kind.id, body⟩ := by
  apply slot.step_congr
  rw [Extension.ofEntry_of_list kind rfl, Extension.ofEntry_of_list kind rfl]
  exact ListKind.decode_take_append hcomplete junk

end ExtensionSlot

end Complete

-- ================================================================ every cut

namespace ExtensionSlot

theorem step_of_not_list {typeId : UInt16} (hplain : ∀ kind : ListKind, kind.id ≠ typeId)
    (slot : ExtensionSlot) (body : Bytes) :
    slot.step ⟨typeId, body⟩
      = (none,
          ⟨if typeId = 0xff01 then .renegotiationInfo body else .unknown typeId body,
            slot.sawGrease || isGrease typeId⟩) := by
  rcases Extension.ofEntry_cases ⟨typeId, body⟩ with ⟨kind, htag, -⟩ | ⟨htag, hdecode⟩
    | ⟨htag, hdecode⟩
  · exact absurd htag.symm (hplain kind)
  · obtain rfl : typeId = 0xff01 := htag
    exact slot.step_of_ok _ hdecode
  · have hne : typeId ≠ 0xff01 := fun h => htag .renegotiationInfo h.symm
    rw [if_neg hne]
    exact slot.step_of_ok _ hdecode

/-- The front of an extension, decoded into a slot. If the type has a list
and the list is all there, a cut in its length or in the list is refused
under its name and changes nothing, and a cut behind the list, with
anything after it, makes no difference to what the body comes to. Of the
other types, whatever is left of the body is kept. -/
theorem step_take (slot : ExtensionSlot) (body : Bytes) (n : Nat) :
    (∀ (kind : ListKind) (typeId : UInt16) (width : Nat) (lengthField dataField : String),
        ListHead kind typeId width lengthField dataField →
        width + Bytes.declaredLength width body ≤ body.length →
        slot.step ⟨typeId, body.take n⟩
            = (if n < width then (some (.truncated lengthField), slot)
              else if n < width + Bytes.declaredLength width body then
                (some (.truncated dataField), slot)
              else slot.step ⟨typeId, body⟩)
          ∧ ∀ junk, slot.step ⟨typeId, body.take (width + Bytes.declaredLength width body) ++ junk⟩
              = slot.step ⟨typeId, body⟩)
    ∧ ∀ typeId ∉ [0x0000, 0x000a, 0x000d, 0x0010, 0x002b, 0x002d, 0x0033],
        slot.step ⟨typeId, body.take n⟩
          = (none,
              ⟨if typeId = 0xff01 then .renegotiationInfo (body.take n)
                else .unknown typeId (body.take n),
                slot.sawGrease || isGrease typeId⟩) := by
  refine ⟨?_, ?_⟩
  · intro kind typeId width lengthField dataField head hcomplete
    obtain ⟨rfl, rfl, rfl, rfl⟩ := head.eq_format
    exact ⟨step_take_of_list hcomplete slot n, step_take_append_of_list hcomplete slot⟩
  · intro typeId htype
    exact step_of_not_list (fun kind hkind => htype (ListKind.mem_ids_iff.2 ⟨kind, hkind⟩)) slot _

/-- Key shares, of which the second is longer than the list, and bytes
after the list. -/
def overlongShares : Bytes :=
  [0x00, 0x09, 0x0a, 0x0a, 0x00, 0x00, 0x00, 0x1d, 0x00, 0x20, 0x01, 0x02, 0x03]

theorem step_take_overlongShares :
    step ⟨.pskModes [0x01], false⟩ ⟨0x0033, overlongShares.take 1⟩
        = (some (.truncated "key share list length"), ⟨.pskModes [0x01], false⟩)
    ∧ step ⟨.pskModes [0x01], false⟩ ⟨0x0033, overlongShares.take 10⟩
        = (some (.truncated "key share list data"), ⟨.pskModes [0x01], false⟩)
    ∧ step ⟨.pskModes [0x01], false⟩ ⟨0x0033, overlongShares.take 11⟩
        = (some (.truncated "key share key data"), ⟨.pskModes [0x01], false⟩)
    ∧ step ⟨.pskModes [0x01], false⟩ ⟨0x1a1a, overlongShares.take 2⟩
        = (none, ⟨.unknown 0x1a1a [0x00, 0x09], true⟩) := by
  have hcut (n : Nat) := ((step_take ⟨.pskModes [0x01], false⟩ overlongShares n).1
    .keyShare 0x0033 2 _ _ .keyShare (by decide)).1
  refine ⟨hcut 1, hcut 10, ?_, ?_⟩
  · rw [hcut 11]
    decide +kernel
  · exact (step_take ⟨.pskModes [0x01], false⟩ overlongShares 2).2 0x1a1a (by decide)

end ExtensionSlot

end TlsHello
