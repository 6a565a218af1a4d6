/-
Readers: what a decoder does with the front of a byte string.

A reader takes the unread bytes and either returns a value with the
bytes that are still unread, or fails. There is one primitive, `bytes`:
take the next `n` bytes or fail, naming the field that was cut off. A
number is read from the bytes of its width, a vector is a number and
then that many bytes. So a failure is always the same cause, and what a
reader has read is always a front of what it was given.
-/
import TlsHello.Bytes
import TlsHello.Error

namespace TlsHello

/-- Reads a value off the front of a byte string. -/
abbrev Reader (α : Type) := StateT Bytes (Except DecodeError) α

namespace Reader

/-- The next `n` bytes. -/
def bytes (n : Nat) (field : String) : Reader Bytes := fun unread =>
  match Bytes.split? n unread with
  | some (front, rest) => .ok (front, rest)
  | none => .error (.truncated field)

/-- A number of `width` bytes. -/
def uint (width : Nat) (field : String) : Reader Nat := do
  return Bytes.toNat (← bytes width field)

/-- A length of `width` bytes and as many bytes as it says. -/
def vector (width : Nat) (lengthField dataField : String) : Reader Bytes := do
  bytes (← uint width lengthField) dataField

/-- Reads on only if at least `n` bytes are unread. -/
def ifLeft (n : Nat) (r : Reader α) : Reader (Option α) := fun unread =>
  if Bytes.hasAtLeast n unread then (some <$> r).run unread else .ok (none, unread)

-- ================================================ when a read succeeds

/-- Reading one thing after another. -/
theorem bind_eq_ok_iff {r : Reader α} {f : α → Reader β} {unread rest : Bytes} {b : β} :
    (r >>= f).run unread = .ok (b, rest)
      ↔ ∃ a between, r.run unread = .ok (a, between) ∧ (f a).run between = .ok (b, rest) := by
  rw [StateT.run_bind]
  constructor
  · intro h
    cases hr : r.run unread with
    | error e => rw [hr] at h; cases h
    | ok p => rw [hr] at h; exact ⟨p.1, p.2, rfl, h⟩
  · intro h
    rcases h with ⟨a, between, hr, hf⟩
    rw [hr]
    exact hf

/-- Reading one thing after another fails in the first or in the second. -/
theorem bind_eq_error_iff {r : Reader α} {f : α → Reader β} {unread : Bytes} {e : DecodeError} :
    (r >>= f).run unread = .error e
      ↔ r.run unread = .error e
        ∨ ∃ a between, r.run unread = .ok (a, between) ∧ (f a).run between = .error e := by
  rw [StateT.run_bind]
  constructor
  · intro h
    cases hr : r.run unread with
    | error e' => rw [hr] at h; cases h; exact .inl rfl
    | ok p => rw [hr] at h; exact .inr ⟨p.1, p.2, rfl, h⟩
  · intro h
    rcases h with hr | ⟨a, between, hr, hf⟩
    · rw [hr]; rfl
    · rw [hr]; exact hf

/-- Behind a read that succeeds the next one takes over. -/
theorem run_bind_of_ok {r : Reader α} {f : α → Reader β} {unread between : Bytes} {a : α}
    (h : r.run unread = .ok (a, between)) : (r >>= f).run unread = (f a).run between := by
  rw [StateT.run_bind, h]
  rfl

/-- Reading nothing leaves everything unread. -/
theorem pure_eq_ok_iff {a b : α} {unread rest : Bytes} :
    (pure a : Reader α).run unread = .ok (b, rest) ↔ a = b ∧ unread = rest := by
  rw [StateT.run_pure]
  exact ⟨fun h => Prod.mk.inj (Except.ok.inj h), fun ⟨ha, hrest⟩ => ha ▸ hrest ▸ rfl⟩

theorem ifLeft_of_le {n : Nat} {r : Reader α} {unread : Bytes} (h : n ≤ unread.length) :
    (ifLeft n r).run unread = (fun read => (some read.1, read.2)) <$> r.run unread := by
  show (if Bytes.hasAtLeast n unread then _ else _) = _
  rw [if_pos (Bytes.hasAtLeast_iff.2 h), StateT.run_map]

theorem ifLeft_of_lt {n : Nat} {r : Reader α} {unread : Bytes} (h : unread.length < n) :
    (ifLeft n r).run unread = .ok (none, unread) := by
  show (if Bytes.hasAtLeast n unread then _ else _) = _
  rw [if_neg]
  rw [Bytes.hasAtLeast_iff]
  omega

/-- What is read only if enough is left. -/
theorem ifLeft_eq_ok_iff {n : Nat} {r : Reader α} {unread rest : Bytes} {a : Option α} :
    (ifLeft n r).run unread = .ok (a, rest)
      ↔ (∃ b, a = some b ∧ n ≤ unread.length ∧ r.run unread = .ok (b, rest))
        ∨ a = none ∧ unread.length < n ∧ unread = rest := by
  rcases Nat.lt_or_ge unread.length n with hlt | hle
  · rw [ifLeft_of_lt hlt]
    constructor
    · intro h
      cases h
      exact .inr ⟨rfl, hlt, rfl⟩
    · intro h
      rcases h with ⟨b, -, hle, -⟩ | ⟨rfl, -, rfl⟩
      · omega
      · rfl
  · rw [ifLeft_of_le hle]
    constructor
    · intro h
      cases hr : r.run unread with
      | error e => rw [hr] at h; cases h
      | ok p => rw [hr] at h; cases h; exact .inl ⟨_, rfl, hle, rfl⟩
    · intro h
      rcases h with ⟨b, rfl, -, hr⟩ | ⟨-, hlt, -⟩
      · rw [hr]; rfl
      · omega

/-- Reading `n` bytes splits them off. -/
theorem bytes_eq_ok_iff {n : Nat} {field : String} {unread front rest : Bytes} :
    (bytes n field).run unread = .ok (front, rest)
      ↔ front.length = n ∧ front ++ rest = unread := by
  rw [← Bytes.split?_eq_some_iff]
  simp only [StateT.run, bytes]
  split
  · next h => simp [h]
  · next h => simp [h]

/-- Reading `n` bytes fails exactly when fewer are left, and then names
the field. -/
theorem bytes_eq_error_iff {n : Nat} {field : String} {unread : Bytes} {e : DecodeError} :
    (bytes n field).run unread = .error e
      ↔ unread.length < n ∧ e = .truncated field := by
  rw [← Bytes.split?_eq_none_iff]
  simp only [StateT.run, bytes]
  split
  · next h => simp [h]
  · next h => simp [h, eq_comm]

/-- Reading a number fails exactly when its bytes are not all there. -/
theorem uint_eq_error_iff {width : Nat} {field : String} {unread : Bytes} {e : DecodeError} :
    (uint width field).run unread = .error e
      ↔ unread.length < width ∧ e = .truncated field := by
  rw [← bytes_eq_error_iff]
  simp only [uint, StateT.run_bind]
  cases (bytes width field).run unread with
  | error e' => exact ⟨fun h => by cases h; rfl, fun h => by cases h; rfl⟩
  | ok p => exact ⟨nofun, nofun⟩

-- ================================================ fields, by how they split

variable {n : Nat} {field dataField : String} {unread front rest : Bytes}

theorem bytes_of_split? (h : Bytes.split? n unread = some (front, rest)) :
    (bytes n field).run unread = .ok (front, rest) :=
  bytes_eq_ok_iff.2 (Bytes.split?_eq_some_iff.1 h)

theorem bytes_of_none (h : Bytes.split? n unread = none) :
    (bytes n field).run unread = .error (.truncated field) :=
  bytes_eq_error_iff.2 ⟨Bytes.split?_eq_none_iff.1 h, rfl⟩

/-- Behind a read that fails nothing is read. -/
theorem run_bind_of_error {r : Reader α} {f : α → Reader β} {e : DecodeError}
    (h : r.run unread = .error e) : (r >>= f).run unread = .error e :=
  bind_eq_error_iff.2 (.inl h)

theorem uint_of_split? (h : Bytes.split? n unread = some (front, rest)) :
    (uint n field).run unread = .ok (Bytes.toNat front, rest) :=
  run_bind_of_ok (bytes_of_split? h)

theorem uint_of_none (h : Bytes.split? n unread = none) :
    (uint n field).run unread = .error (.truncated field) :=
  run_bind_of_error (bytes_of_none h)

/-- With its length there, a vector is the bytes that the length says. -/
theorem vector_of_split? (h : Bytes.split? n unread = some (front, rest)) :
    (vector n field dataField).run unread = (bytes (Bytes.toNat front) dataField).run rest :=
  run_bind_of_ok (uint_of_split? h)

theorem vector_of_none (h : Bytes.split? n unread = none) :
    (vector n field dataField).run unread = .error (.truncated field) :=
  run_bind_of_error (uint_of_none h)

theorem length_of_uint {width n : Nat} {field : String} {unread rest : Bytes}
    (h : (uint width field).run unread = .ok (n, rest)) :
    width + rest.length = unread.length := by
  obtain ⟨front, between, hfront, h⟩ := bind_eq_ok_iff.1 h
  obtain ⟨-, rfl⟩ := pure_eq_ok_iff.1 h
  obtain ⟨hlength, hunread⟩ := bytes_eq_ok_iff.1 hfront
  rw [← hunread, List.length_append, hlength]

theorem length_of_vector {width : Nat} {lengthField dataField : String}
    {unread bs rest : Bytes}
    (h : (vector width lengthField dataField).run unread = .ok (bs, rest)) :
    width + bs.length + rest.length = unread.length := by
  obtain ⟨n, between, hlength, h⟩ := bind_eq_ok_iff.1 h
  have hwidth := length_of_uint hlength
  obtain ⟨-, rfl⟩ := bytes_eq_ok_iff.1 h
  rw [List.length_append] at hwidth
  omega

end Reader

end TlsHello
