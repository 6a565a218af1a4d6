/-
What a decoded hello holds is paid for by the input.

`Extension.cost` counts what an extension takes up at least: its header,
the length of its list, and for every element that was kept the bytes it
is written as, of a key share those without the key. The costs, together
with the fields of the hello, are never more than the length that the
message declares, and so never more than was sent: nothing is read twice,
at whatever depth it stood.

# The shape of the argument

The cost of an extension is the length of the extension written again
(`cost_eq`), and written again it is no longer than the entry it was read
from (`Splits.cost_le`). The entries of a dissection are disjoint parts of
the block, and the block and the other fields disjoint parts of the body.
-/
import Mathlib.Algebra.Order.BigOperators.Group.List
import Mathlib.Algebra.Order.Ring.Nat
import TlsHello.Proofs.LongestRun
import TlsHello.Proofs.Normal
import TlsHello.Proofs.Prefix

namespace TlsHello

-- ==================================================== one extension

/-- The bytes that an extension takes up at least, its header included. -/
def Extension.cost : Extension → Nat
  | serverNames names => 4 + (2 + (names.map fun n => 3 + n.name.length).sum)
  | alpnProtocols protocols => 4 + (2 + (protocols.map fun p => 1 + p.length).sum)
  | supportedVersions versions => 4 + (1 + 2 * versions.length)
  | supportedGroups groups => 4 + (2 + 2 * groups.length)
  | signatureAlgorithms algorithms => 4 + (2 + 2 * algorithms.length)
  | keyShareGroups groups => 4 + (2 + 4 * groups.length)
  | pskModes modes => 4 + (1 + modes.length)
  | renegotiationInfo body => 4 + body.length
  | unknown _ body => 4 + body.length

namespace Extension

theorem length_names (names : List ServerName) :
    (names.flatMap ServerName.bytes).length = (names.map fun n => 3 + n.name.length).sum := by
  rw [List.length_flatMap]
  exact congrArg List.sum (List.map_congr_left fun n _ => n.length_bytes)

theorem length_protocols (protocols : List Bytes) :
    (protocols.flatMap (Bytes.vector 1)).length
      = (protocols.map fun p => 1 + p.length).sum := by
  rw [List.length_flatMap]
  exact congrArg List.sum (List.map_congr_left fun p _ => Bytes.length_vector 1 p)

/-- Of a key share the group is left, and the length of an empty key. -/
theorem length_shares (groups : List UInt16) :
    ((groups.map fun g => (⟨g, []⟩ : KeyShare)).flatMap KeyShare.bytes).length
      = 4 * groups.length := by
  simp [List.length_flatMap, Function.comp_def, KeyShare.length_bytes, Nat.mul_comm]

/-- The cost is the length of the extension with nothing to spare. -/
theorem cost_eq (x : Extension) : x.cost = 4 + x.description.body.length := by
  cases x with
  | serverNames names =>
      show _ = 4 + (Bytes.vector 2 (names.flatMap ServerName.bytes) ++ []).length
      rw [List.append_nil, Bytes.length_vector, length_names]
      rfl
  | alpnProtocols protocols =>
      show _ = 4 + (Bytes.vector 2 (protocols.flatMap (Bytes.vector 1)) ++ []).length
      rw [List.append_nil, Bytes.length_vector, length_protocols]
      rfl
  | supportedVersions vs =>
      show _ = 4 + (Bytes.vector 1 (Bytes.ofWords vs none) ++ []).length
      rw [List.append_nil, Bytes.length_vector, Bytes.length_ofWords]
      rfl
  | supportedGroups vs | signatureAlgorithms vs =>
      show _ = 4 + (Bytes.vector 2 (Bytes.ofWords vs none) ++ []).length
      rw [List.append_nil, Bytes.length_vector, Bytes.length_ofWords]
      rfl
  | keyShareGroups groups =>
      show _ = 4 + (Bytes.vector 2 ((groups.map _).flatMap KeyShare.bytes ++ []) ++ []).length
      rw [List.append_nil, List.append_nil, Bytes.length_vector, length_shares]
      rfl
  | pskModes modes =>
      show _ = 4 + (Bytes.vector 1 modes ++ []).length
      rw [List.append_nil, Bytes.length_vector]
      rfl
  | renegotiationInfo body | unknown typeId body => rfl

end Extension

-- ============================================================ the hello

namespace Dissection

variable {s : Dissection} {input : Bytes} {h : Hello}

/-- Nothing is kept of an extension that was not in its entry. -/
theorem Splits.cost_le (hs : s.Splits input) (hdecode : Hello.ofHandshake input = .ok h) :
    List.Forall₂ (fun x e => x.cost ≤ e.bytes.length) h.extensions s.entries := by
  refine (hs.length_description_le hdecode).imp fun x e hle => ?_
  rw [Extension.cost_eq]
  exact hle

/-- All extensions together take up no more than the entries of the
block. -/
theorem Splits.sum_cost_le (hs : s.Splits input) (hdecode : Hello.ofHandshake input = .ok h) :
    (h.extensions.map Extension.cost).sum ≤ (s.entries.flatMap Entry.bytes).length := by
  rw [List.length_flatMap]
  apply List.Forall₂.sum_le_sum
  rw [List.forall₂_map_left_iff, List.forall₂_map_right_iff]
  exact hs.cost_le hdecode

/-- The body is made of its fields; the entries are in what follows the
compression methods. -/
theorem length_body_ge (s : Dissection) :
    6 + s.random.length + s.sessionId.length + s.cipherSuites.length
        + s.compressionMethods.length + (s.entries.flatMap Entry.bytes).length
      ≤ s.body.length := by
  have hrest : (s.entries.flatMap Entry.bytes).length ≤ s.rest.length := by
    unfold entries rest
    cases s.block with
    | none => exact Nat.zero_le _
    | some block =>
        show (block.entries.flatMap Entry.bytes).length ≤ _
        rw [List.length_append, Bytes.length_vector, Tiling.bytes, List.length_append]
        omega
  unfold body
  simp only [List.length_append, Bytes.length_vector, Bytes.length_ofNat]
  omega

/-- The declared length is that of the body. -/
theorem Splits.handshakeLength_eq (hs : s.Splits input) :
    Hello.handshakeLength input = s.body.length := by
  rw [← hs.input_eq, bytes, Hello.handshakeLength_cons, Bytes.declaredLength_vector hs.body]

end Dissection

/-- A decoded hello has fields of the sizes they can have, and these and
the cost of the extensions are covered by the length that the message
declares, all of which was sent. -/
theorem ofHandshake_size_le (input : Bytes) (h : Hello)
    (hdecode : Hello.ofHandshake input = .ok h) :
    h.random.length = 32 ∧ h.sessionId.length ≤ 255 ∧ h.compressionMethods.length ≤ 255
    ∧ 38 + h.sessionId.length + 2 * h.cipherSuites.length + h.compressionMethods.length
        + (h.extensions.map Extension.cost).sum ≤ Hello.handshakeLength input
    ∧ Hello.handshakeLength input + 4 ≤ input.length
    ∧ (h.extensions.map Extension.cost).sum ≤ 65535 := by
  obtain ⟨s, hs⟩ := Dissection.exists_splits hdecode
  have hdescribes := hs.describes hdecode
  have hrandom := hs.random
  have hid := hs.sessionId
  have hmethods := hs.compressionMethods
  have hcost := hs.sum_cost_le hdecode
  have hblock := hs.length_entries_lt
  have hbody := s.length_body_ge
  obtain ⟨-, hsent⟩ := Hello.complete_of_ofHandshake hdecode
  -- two bytes a suite, whether it was kept or not
  have hsuites := List.length_filter_le (fun v => !isGrease v) (Bytes.words s.cipherSuites)
  rw [Bytes.length_words] at hsuites
  rw [hdescribes.random, hdescribes.sessionId, hdescribes.compressionMethods,
    hdescribes.cipherSuites]
  rw [hs.handshakeLength_eq] at hsent ⊢
  refine ⟨hrandom, ?_, ?_, ?_, ?_, ?_⟩ <;> omega

/-- The four extensions of the sample cost 35 bytes. -/
theorem ofHandshake_size_le_sample :
    (Hello.sample.extensions.map Extension.cost).sum = 35
      ∧ 38 + 2 + 2 * 2 + 1 + 35 ≤ Hello.handshakeLength Dissection.sample.bytes := by
  have hcost : (Hello.sample.extensions.map Extension.cost).sum = 35 := by decide
  obtain ⟨-, -, -, hle, -⟩ :=
    ofHandshake_size_le Dissection.sample.bytes Hello.sample (by decide +kernel)
  rw [hcost] at hle
  exact ⟨hcost, hle⟩

end TlsHello
