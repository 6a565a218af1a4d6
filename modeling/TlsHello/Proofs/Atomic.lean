/-
Steps that share a place.

Extensions are decoded one after another into one slot, and each of them
writes into it while it can still fail. This file says that nobody can
tell: a step either does what it would have done alone in a new slot, or
changes nothing. So what a run leaves behind is put together from steps
made alone, and the steps that were refused might as well not have been
made (`run_atomic`).

# The shape of the argument

A step is run once, write by write (`run_decode`). The one point where
something could get out is a list that fails after a GREASE entry: its
note is set by then (`ListKind.run_read` keeps it next to the error), but
it is the list's own, and the slot is written behind the last thing
that can fail. From there on the step has a closed form that does not
mention its writes (`step_eq`), and the runs are inductions over it.
-/
import Mathlib.Data.List.Basic
import TlsHello.Extension.Run
import TlsHello.Proofs.ListWalk

namespace TlsHello

namespace ExtensionSlot

variable (slot : ExtensionSlot) (e : Entry) (entries : List Entry)

-- ============================================================== one step

/-- A list, decoded into a slot: everything is written or nothing. -/
theorem run_decodeList (kind : ListKind) (body : Bytes) :
    (decodeList kind body).run.run slot = match kind.decode body with
      | .ok d => (.ok (), ⟨d.extension, slot.sawGrease || d.sawGrease⟩)
      | .error err => (.error err, slot) := by
  unfold decodeList ListKind.decode
  cases kind.listOf body with
  | error err => rfl
  | ok list =>
      have hbind : (Except.ok list >>= kind.decodeList) = kind.decodeList list := rfl
      rw [hbind, ListKind.decodeList_eq]
      show ((do
        write (← ((kind.read list).run.run false).1)
        if ((kind.read list).run.run false).2 then noteGrease : Action)).run.run slot = _
      rw [ListKind.run_read, Bool.false_or]
      cases kind.cutField? (kind.format.shape.tile list).leftover with
      | some field => rfl
      | none =>
          -- nothing can fail any more; the note is passed on or there is none
          dsimp only
          cases (kind.decodeEntries (kind.format.shape.tile list).entries).sawGrease with
          | true => rw [Bool.or_true]; rfl
          | false => rw [Bool.or_false]; rfl

/-- An extension, decoded into a slot: everything is written or
nothing. -/
theorem run_decode :
    (decode e).run.run slot = match Extension.ofEntry e with
      | .ok d => (.ok (), ⟨d.extension, slot.sawGrease || d.sawGrease⟩)
      | .error err => (.error err, slot) := by
  unfold decode Extension.ofEntry Extension.decode
  cases htype : ExtensionType.ofId? e.tag with
  | some type =>
      -- a type that is known is no GREASE, so the first test is passed over
      have hgrease : isGrease e.tag = false := by
        rw [← ExtensionType.ofId?_eq_some_iff.1 htype]
        exact ExtensionType.isGrease_id type
      rw [hgrease, if_neg Bool.false_ne_true]
      cases type with
      | list kind => exact run_decodeList slot kind e.payload
      | renegotiationInfo => dsimp only; rw [Bool.or_false]; rfl
  | none =>
      dsimp only
      cases isGrease e.tag with
      | true => rw [Bool.or_true]; rfl
      | false => rw [Bool.or_false]; rfl

/-- What a step does is decided by what the extension is decoded to. -/
theorem step_congr {e e' : Entry} (h : Extension.ofEntry e' = Extension.ofEntry e) :
    slot.step e' = slot.step e := by
  unfold step
  rw [run_decode, run_decode, h]

theorem step_of_ok {d : Decoded} (h : Extension.ofEntry e = .ok d) :
    slot.step e = (none, ⟨d.extension, slot.sawGrease || d.sawGrease⟩) := by
  unfold step
  rw [run_decode, h]

theorem step_of_error {err : DecodeError} (h : Extension.ofEntry e = .error err) :
    slot.step e = (some err, slot) := by
  unfold step
  rw [run_decode, h]

/-- The extension is accepted, whatever is in the slot. -/
def accepts (e : Entry) : Bool := (step {} e).1.isNone

/-- A step in terms of the same step in a new slot. -/
theorem step_eq :
    slot.step e
      = ((step {} e).1,
        if accepts e then ⟨(step {} e).2.current, slot.sawGrease || (step {} e).2.sawGrease⟩
        else slot) := by
  unfold accepts step
  rw [run_decode, run_decode]
  cases Extension.ofEntry e with
  | error err => rfl
  | ok d => rfl

theorem step_of_accepts (h : accepts e = true) :
    (slot.step e).2
      = ⟨(step {} e).2.current, slot.sawGrease || (step {} e).2.sawGrease⟩ := by
  rw [step_eq, if_pos h]

theorem step_of_refused (h : accepts e = false) : (slot.step e).2 = slot := by
  rw [step_eq, if_neg (Bool.eq_false_iff.1 h)]

-- ================================================================== runs

theorem run_cons : slot.run (e :: entries) = run (slot.step e).2 entries := rfl

theorem run_append (later : List Entry) :
    slot.run (entries ++ later) = (slot.run entries).run later := List.foldl_append

/-- Each outcome of a run is a step from where the steps before it led. -/
theorem getElem?_trace (i : Nat) :
    (slot.trace entries)[i]? = entries[i]?.map fun e => (slot.run (entries.take i)).step e := by
  induction entries generalizing slot i with
  | nil => rfl
  | cons e entries ih =>
      cases i with
      | zero => rfl
      | succ i =>
          rw [trace, List.getElem?_cons_succ, List.getElem?_cons_succ, List.take_succ_cons,
            run_cons, ih]

/-- The steps that are refused may be left out. -/
theorem run_filter_accepts : slot.run (entries.filter accepts) = slot.run entries := by
  induction entries generalizing slot with
  | nil => rfl
  | cons e entries ih =>
      cases he : accepts e with
      | true => rw [List.filter_cons_of_pos he, run_cons, run_cons, ih]
      | false =>
          rw [List.filter_cons_of_neg (Bool.eq_false_iff.1 he), run_cons, step_of_refused slot e he,
            ih]

theorem sawGrease_run :
    (slot.run entries).sawGrease
      = (slot.sawGrease || (entries.filter accepts).any fun e => (step {} e).2.sawGrease) := by
  rw [← run_filter_accepts]
  have haccepts : ∀ e ∈ entries.filter accepts, accepts e = true :=
    fun e he => (List.mem_filter.1 he).2
  generalize entries.filter accepts = accepted at haccepts
  induction accepted generalizing slot with
  | nil => exact (Bool.or_false _).symm
  | cons e accepted ih =>
      have he : accepts e = true := haccepts e List.mem_cons_self
      rw [run_cons, ih _ fun x hx => haccepts x (List.mem_cons_of_mem e hx),
        step_of_accepts slot e he, List.any_cons, Bool.or_assoc]

theorem current_run :
    (slot.run entries).current
      = ((entries.filter accepts).getLast?.map fun e => (step {} e).2.current).getD
          slot.current := by
  rw [← run_filter_accepts]
  have haccepts : ∀ e ∈ entries.filter accepts, accepts e = true :=
    fun e he => (List.mem_filter.1 he).2
  generalize entries.filter accepts = accepted at haccepts
  obtain rfl | ⟨front, e, rfl⟩ := accepted.eq_nil_or_concat'
  · rfl
  · have he : accepts e = true := haccepts e (by simp)
    rw [run_append, run_cons, step_of_accepts _ e he, List.getLast?_concat]
    rfl

/-- Once GREASE was met it stays met. -/
theorem sawGrease_run_take {i j : Nat} (hij : i ≤ j)
    (h : (slot.run (entries.take i)).sawGrease = true) :
    (slot.run (entries.take j)).sawGrease = true := by
  obtain ⟨k, rfl⟩ := Nat.exists_eq_add_of_le hij
  rw [List.take_add, run_append, sawGrease_run, h, Bool.true_or]

/-- What comes of a step is what comes of it alone, in a new slot; a
refusal is the same error and leaves the slot as it was. -/
structure ActsAlone (before : ExtensionSlot) (e : Entry)
    (outcome : Option DecodeError × ExtensionSlot) : Prop where
  error : outcome.1 = (step {} e).1
  current : outcome.1 = none → outcome.2.current = (step {} e).2.current
  sawGrease : outcome.1 = none →
    outcome.2.sawGrease = (before.sawGrease || (step {} e).2.sawGrease)
  refused : outcome.1 ≠ none → outcome.2 = before

theorem step_actsAlone : ActsAlone slot e (slot.step e) := by
  have herror : (slot.step e).1 = (step {} e).1 := by rw [step_eq slot e]
  have haccepts : (slot.step e).1 = none ↔ accepts e = true := by
    rw [herror, accepts, Option.isNone_iff_eq_none]
  refine ⟨herror, fun hnone => ?_, fun hnone => ?_, fun hsome => ?_⟩
  · rw [step_of_accepts slot e (haccepts.1 hnone)]
  · rw [step_of_accepts slot e (haccepts.1 hnone)]
  · exact step_of_refused slot e (Bool.eq_false_iff.2 fun h => hsome (haccepts.2 h))

/-- A run over one slot is put together from steps made alone. Each
outcome is that of its own extension, a refused step changes nothing, and
what is left at the end is the extension accepted last and all the GREASE
met in those accepted; so the refused ones may be left out, and what was
met stays met. -/
theorem run_atomic (slot : ExtensionSlot) (entries : List Entry) :
    (slot.trace entries).length = entries.length
    ∧ (∀ i e, entries[i]? = some e → ∃ outcome,
        (slot.trace entries)[i]? = some outcome
          ∧ ActsAlone (slot.run (entries.take i)) e outcome
          ∧ outcome.2 = slot.run (entries.take (i + 1)))
    ∧ (slot.run entries).sawGrease
        = (slot.sawGrease || (entries.filter accepts).any fun e => (step {} e).2.sawGrease)
    ∧ (slot.run entries).current
        = ((entries.filter accepts).getLast?.map fun e => (step {} e).2.current).getD slot.current
    ∧ slot.run (entries.filter accepts) = slot.run entries
    ∧ ∀ i j, i ≤ j → (slot.run (entries.take i)).sawGrease = true →
        (slot.run (entries.take j)).sawGrease = true := by
  refine ⟨?_, fun i e he => ?_, sawGrease_run slot entries, current_run slot entries,
    run_filter_accepts slot entries, fun i j hij h => sawGrease_run_take slot entries hij h⟩
  · induction entries generalizing slot with
    | nil => rfl
    | cons e entries ih => exact congrArg Nat.succ (ih _)
  · refine ⟨(slot.run (entries.take i)).step e, ?_, step_actsAlone _ e, ?_⟩
    · rw [getElem?_trace, he]
      rfl
    · rw [List.take_add_one, he, run_append]
      rfl

/-- Key shares that end in a cut key, behind one with GREASE. -/
def cutShares : Entry :=
  ⟨0x0033, [0x00, 0x09, 0x0a, 0x0a, 0x00, 0x00, 0x00, 0x1d, 0x00, 0x20, 0x01]⟩

/-- Modes, then the cut key shares, then names that are cut as well. -/
def refusals : List Entry := [⟨0x002d, [0x01, 0x01]⟩, cutShares, ⟨0x0000, [0x00, 0x01, 0x00]⟩]

theorem run_atomic_refusals :
    run {} refusals = ⟨.pskModes [0x01], false⟩
    ∧ (∃ outcome, (trace {} refusals)[1]? = some outcome
        ∧ ActsAlone ⟨.pskModes [0x01], false⟩ cutShares outcome
        ∧ outcome.1 = some (.truncated "key share key data"))
    ∧ ((run ⟨.pskModes [], true⟩ (refusals.take 0)).sawGrease = true →
        (run ⟨.pskModes [], true⟩ (refusals.take 3)).sawGrease = true) := by
  obtain ⟨-, hsteps, -, -, -, -⟩ := run_atomic {} refusals
  obtain ⟨-, -, -, -, -, hstays⟩ := run_atomic ⟨.pskModes [], true⟩ refusals
  obtain ⟨outcome, houtcome, hacts, -⟩ := hsteps 1 cutShares rfl
  have hbefore : run {} (refusals.take 1) = ⟨.pskModes [0x01], false⟩ := by decide +kernel
  rw [hbefore] at hacts
  refine ⟨by decide +kernel, ⟨outcome, houtcome, hacts, ?_⟩, hstays 0 3 (Nat.zero_le 3)⟩
  rw [hacts.error]
  decide +kernel

end ExtensionSlot

end TlsHello
