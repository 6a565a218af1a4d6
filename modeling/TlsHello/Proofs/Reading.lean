/-
Numbers and vectors, read as they were written.

A width says how many bytes a number takes up. A number that has room in
its width is read back as it was written (`Bytes.toNat_ofNat`), and bytes
that were read as a number are written back as they were
(`Bytes.ofNat_toNat`). So reading undoes writing, of numbers and of
vectors (`Reader.vector_eq_ok_iff`). The bounds are powers as Mathlib has
them, so that every module that states one means the same.

Seen from the bytes that are read, a vector is what its length declares
(`Bytes.declared`), and reading one has a closed form in which every cut
of the input can be evaluated at once (`Reader.vector_run`).
-/
import Mathlib.Algebra.Group.Nat.Defs
import TlsHello.Reader

namespace TlsHello

-- =================================================== numbers at a width

namespace Bytes

/-- Writing a number at a width and reading it back keeps it up to the
digits the width has room for. -/
theorem toNat_ofNat (width n : Nat) : toNat (ofNat width n) = n % 256 ^ width := by
  induction width generalizing n with
  | zero => simp [ofNat, Nat.mod_one]
  | succ width ih =>
      have byte : (UInt8.ofNat n).toNat = n % 256 := rfl
      rw [ofNat, toNat_concat, ih, byte, Nat.pow_succ, Nat.mul_comm (256 ^ width), Nat.mod_mul]
      omega

/-- A number has room at the width it was read at. -/
theorem toNat_lt (bs : Bytes) : toNat bs < 256 ^ bs.length := by
  induction hn : bs.length generalizing bs with
  | zero => simp [List.eq_nil_of_length_eq_zero hn]
  | succ n ih =>
      obtain rfl | ⟨bs, b, rfl⟩ := bs.eq_nil_or_concat
      · cases hn
      · have := ih bs (by simpa using hn)
        have := b.toNat_lt
        rw [List.concat_eq_append, toNat_concat, Nat.pow_succ]
        omega

/-- Reading a number and writing it at the same width keeps the bytes. -/
theorem ofNat_toNat (bs : Bytes) : ofNat bs.length (toNat bs) = bs := by
  induction hn : bs.length generalizing bs with
  | zero => simp [List.eq_nil_of_length_eq_zero hn, ofNat]
  | succ n ih =>
      obtain rfl | ⟨bs, b, rfl⟩ := bs.eq_nil_or_concat
      · cases hn
      · have := b.toNat_lt
        have quotient : (256 * toNat bs + b.toNat) / 256 = toNat bs := by omega
        have digit : UInt8.ofNat (256 * toNat bs + b.toNat) = b := by
          apply UInt8.toNat.inj
          rw [UInt8.toNat_ofNat']
          omega
        rw [List.concat_eq_append, toNat_concat, ofNat, quotient, ih bs (by simpa using hn), digit]

end Bytes

-- ================================================ reading undoes writing

namespace Reader

variable {width n : Nat} {field lengthField dataField : String} {unread bs rest : Bytes}
  {e : DecodeError}

/-- Reading a number of some width undoes writing it at that width. -/
theorem uint_eq_ok_iff :
    (uint width field).run unread = .ok (n, rest)
      ↔ n < 256 ^ width ∧ Bytes.ofNat width n ++ rest = unread := by
  constructor
  · intro h
    obtain ⟨front, between, hfront, h⟩ := bind_eq_ok_iff.1 h
    obtain ⟨rfl, rfl⟩ := pure_eq_ok_iff.1 h
    obtain ⟨rfl, rfl⟩ := bytes_eq_ok_iff.1 hfront
    exact ⟨Bytes.toNat_lt front, by rw [Bytes.ofNat_toNat]⟩
  · intro h
    rcases h with ⟨hn, hunread⟩
    refine bind_eq_ok_iff.2 ⟨Bytes.ofNat width n, rest,
      bytes_eq_ok_iff.2 ⟨Bytes.length_ofNat width n, hunread⟩, pure_eq_ok_iff.2 ⟨?_, rfl⟩⟩
    rw [Bytes.toNat_ofNat, Nat.mod_eq_of_lt hn]

/-- Reading a vector undoes writing one. -/
theorem vector_eq_ok_iff :
    (vector width lengthField dataField).run unread = .ok (bs, rest)
      ↔ bs.length < 256 ^ width ∧ Bytes.vector width bs ++ rest = unread := by
  rw [Bytes.vector, List.append_assoc]
  constructor
  · intro h
    obtain ⟨n, between, hlength, h⟩ := bind_eq_ok_iff.1 h
    obtain ⟨hn, hunread⟩ := uint_eq_ok_iff.1 hlength
    obtain ⟨rfl, rfl⟩ := bytes_eq_ok_iff.1 h
    exact ⟨hn, hunread⟩
  · intro h
    rcases h with ⟨hbs, hunread⟩
    exact bind_eq_ok_iff.2
      ⟨bs.length, bs ++ rest, uint_eq_ok_iff.2 ⟨hbs, hunread⟩, bytes_eq_ok_iff.2 ⟨rfl, rfl⟩⟩

/-- Reading a vector fails in its length or, if that is there, in its
data. -/
theorem vector_eq_error_iff :
    (vector width lengthField dataField).run unread = .error e
      ↔ (unread.length < width ∧ e = .truncated lengthField)
        ∨ ∃ n rest, n < 256 ^ width ∧ Bytes.ofNat width n ++ rest = unread
            ∧ rest.length < n ∧ e = .truncated dataField := by
  unfold vector
  simp only [bind_eq_error_iff, uint_eq_error_iff, uint_eq_ok_iff, bytes_eq_error_iff, and_assoc]

end Reader

-- ============================================== lengths and their data

namespace Bytes

variable {width : Nat} {bs : Bytes}

/-- The length that the first `width` bytes declare. -/
def declaredLength (width : Nat) (bs : Bytes) : Nat := toNat (bs.take width)

/-- The bytes that the first `width` bytes declare: as many of the bytes
after them as they say. -/
def declared (width : Nat) (bs : Bytes) : Bytes :=
  (bs.drop width).take (declaredLength width bs)

theorem declaredLength_vector (h : bs.length < 256 ^ width) (after : Bytes) :
    declaredLength width (vector width bs ++ after) = bs.length := by
  have htake : (vector width bs ++ after).take width = ofNat width bs.length := by
    unfold vector
    rw [List.append_assoc, List.take_append_of_le_length (by simp),
      List.take_of_length_le (by simp)]
  rw [declaredLength, htake, toNat_ofNat, Nat.mod_eq_of_lt h]

/-- A vector declares what it was made of. -/
theorem declared_vector (h : bs.length < 256 ^ width) (after : Bytes) :
    declared width (vector width bs ++ after) = bs := by
  have hdrop : (vector width bs ++ after).drop width = bs ++ after := by
    unfold vector
    rw [List.append_assoc, List.drop_append_of_le_length (by simp),
      List.drop_of_length_le (by simp), List.nil_append]
  rw [declared, declaredLength_vector h, hdrop, List.take_left]

theorem declaredLength_lt (h : width ≤ bs.length) : declaredLength width bs < 256 ^ width := by
  have hlt := toNat_lt (bs.take width)
  rwa [List.length_take_of_le h] at hlt

theorem ofNat_declaredLength (h : width ≤ bs.length) :
    ofNat width (declaredLength width bs) = bs.take width := by
  have hback := ofNat_toNat (bs.take width)
  rwa [List.length_take_of_le h] at hback

/-- Bytes that are all there are a vector of what they declare. -/
theorem vector_declared (h : width + declaredLength width bs ≤ bs.length) :
    vector width (declared width bs) ++ bs.drop (width + declaredLength width bs) = bs := by
  have hlength : (declared width bs).length = declaredLength width bs := by
    rw [declared, List.length_take_of_le]
    rw [List.length_drop]
    omega
  rw [vector, hlength, ofNat_declaredLength (by omega), declared, List.append_assoc,
    ← List.drop_drop, List.take_append_drop, List.take_append_drop]

-- What is behind the declared bytes is not seen, neither by the length nor
-- by the data: it can be cut off, and anything can be put there.

theorem declaredLength_take {n : Nat} (h : width ≤ n) :
    declaredLength width (bs.take n) = declaredLength width bs := by
  rw [declaredLength, List.take_take, Nat.min_eq_left h, declaredLength]

theorem declared_take {n : Nat} (h : width + declaredLength width bs ≤ n) :
    declared width (bs.take n) = declared width bs := by
  rw [declared, declaredLength_take (by omega), List.drop_take, List.take_take,
    Nat.min_eq_left (by omega), declared]

theorem declaredLength_append (h : width ≤ bs.length) (junk : Bytes) :
    declaredLength width (bs ++ junk) = declaredLength width bs := by
  rw [declaredLength, List.take_append_of_le_length h, declaredLength]

theorem declared_append (h : width + declaredLength width bs ≤ bs.length) (junk : Bytes) :
    declared width (bs ++ junk) = declared width bs := by
  have hdata : declaredLength width bs ≤ (bs.drop width).length := by
    rw [List.length_drop]
    omega
  rw [declared, declaredLength_append (by omega), List.drop_append_of_le_length (by omega),
    List.take_append_of_le_length hdata, declared]

end Bytes

-- ======================================================== in closed form

namespace Reader

/-- Reading `n` bytes in closed form. -/
theorem bytes_run (n : Nat) (field : String) (unread : Bytes) :
    (bytes n field).run unread
      = if unread.length < n then .error (.truncated field)
        else .ok (unread.take n, unread.drop n) := by
  by_cases hlt : unread.length < n
  · rw [if_pos hlt]
    exact bytes_eq_error_iff.2 ⟨hlt, rfl⟩
  · rw [if_neg hlt]
    apply bytes_eq_ok_iff.2
    exact ⟨List.length_take_of_le (Nat.le_of_not_lt hlt), List.take_append_drop n unread⟩

/-- Reading a vector in closed form: it fails in its length, or in its
data, or yields what its length declares. -/
theorem vector_run (width : Nat) (lengthField dataField : String) (unread : Bytes) :
    (vector width lengthField dataField).run unread
      = if unread.length < width then .error (.truncated lengthField)
        else if unread.length < width + Bytes.declaredLength width unread then
          .error (.truncated dataField)
        else .ok (Bytes.declared width unread,
          unread.drop (width + Bytes.declaredLength width unread)) := by
  by_cases hwidth : unread.length < width
  · rw [if_pos hwidth]
    exact vector_eq_error_iff.2 (.inl ⟨hwidth, rfl⟩)
  rw [if_neg hwidth]
  by_cases hdata : unread.length < width + Bytes.declaredLength width unread
  · rw [if_pos hdata]
    refine vector_eq_error_iff.2 (.inr ⟨_, unread.drop width,
      Bytes.declaredLength_lt (Nat.le_of_not_lt hwidth), ?_, ?_, rfl⟩)
    · rw [Bytes.ofNat_declaredLength (Nat.le_of_not_lt hwidth), List.take_append_drop]
    · rw [List.length_drop]
      omega
  · rw [if_neg hdata]
    refine vector_eq_ok_iff.2 ⟨?_, Bytes.vector_declared (by omega)⟩
    have hlt : Bytes.declaredLength width unread < 256 ^ width :=
      Bytes.declaredLength_lt (Nat.le_of_not_lt hwidth)
    have hle : (Bytes.declared width unread).length ≤ Bytes.declaredLength width unread :=
      List.length_take_le _ _
    omega

end Reader

end TlsHello
