/-
Byte strings, and the big-endian numbers written in them.

A byte string is a list of bytes. Everything the library reads off a
byte string is read from the front, so the one operation under every
reader is `split?`: the first `n` bytes and what follows them, or
nothing when fewer than `n` are there. It counts no further than `n`,
which keeps a walk over many short pieces linear in the input.

`toNat` and `ofNat` are the two directions of big-endian notation; a
width says how many bytes a number takes up.
-/

namespace TlsHello

/-- A byte string, first byte first. -/
abbrev Bytes := List UInt8

namespace Bytes

-- ================================================ splitting at a length

/-- At least `n` bytes are there; looks at no more than `n` of them. -/
def hasAtLeast : Nat → Bytes → Bool
  | 0, _ => true
  | _ + 1, [] => false
  | n + 1, _ :: rest => hasAtLeast n rest

/-- The first `n` bytes and the bytes after them, if there are `n`. -/
def split? (n : Nat) (bs : Bytes) : Option (Bytes × Bytes) :=
  if hasAtLeast n bs then some (bs.take n, bs.drop n) else none

/-- Counting up to `n` is comparing the length with `n`. -/
theorem hasAtLeast_iff {n : Nat} {bs : Bytes} :
    hasAtLeast n bs = true ↔ n ≤ bs.length := by
  induction bs generalizing n with
  | nil => cases n <;> simp [hasAtLeast]
  | cons b rest ih => cases n <;> simp [hasAtLeast, ih]

/-- A split is the one way to write the string as `n` bytes and a rest. -/
theorem split?_eq_some_iff {n : Nat} {bs front rest : Bytes} :
    split? n bs = some (front, rest) ↔ front.length = n ∧ front ++ rest = bs := by
  constructor
  · intro h
    simp only [split?] at h
    split at h
    · next hn =>
      have hn := hasAtLeast_iff.1 hn
      obtain ⟨rfl, rfl⟩ := Prod.mk.inj (Option.some.inj h)
      exact ⟨List.length_take_of_le hn, List.take_append_drop n bs⟩
    · cases h
  · intro h
    rcases h with ⟨rfl, rfl⟩
    have hn : hasAtLeast front.length (front ++ rest) = true := by
      rw [hasAtLeast_iff, List.length_append]
      omega
    simp [split?, hn]

/-- There is no split exactly when the string is too short. -/
theorem split?_eq_none_iff {n : Nat} {bs : Bytes} :
    split? n bs = none ↔ bs.length < n := by
  simp only [split?]
  split
  · next hn =>
    have hn := hasAtLeast_iff.1 hn
    simp only [reduceCtorEq, false_iff]
    omega
  · next hn =>
    rw [hasAtLeast_iff] at hn
    simp only [true_iff]
    omega

theorem split?_zero (bs : Bytes) : split? 0 bs = some ([], bs) := rfl

theorem le_length_of_split? {n : Nat} {bs front rest : Bytes}
    (h : split? n bs = some (front, rest)) : n ≤ bs.length := by
  obtain ⟨hfront, hbs⟩ := split?_eq_some_iff.1 h
  rw [← hbs, List.length_append]
  omega

-- =================================================== big-endian numbers

/-- The number written in a byte string, most significant byte first. -/
def toNat (bs : Bytes) : Nat :=
  bs.foldl (fun n b => 256 * n + b.toNat) 0

/-- The last `width` big-endian digits of `n`, each a byte. -/
def ofNat : (width : Nat) → (n : Nat) → Bytes
  | 0, _ => []
  | width + 1, n => ofNat width (n / 256) ++ [UInt8.ofNat n]

/-- A byte string with its length in front, the length in `width` bytes. -/
def vector (width : Nat) (bs : Bytes) : Bytes := ofNat width bs.length ++ bs

@[simp] theorem toNat_nil : toNat [] = 0 := rfl

/-- One more byte at the end is one more digit. -/
theorem toNat_concat (bs : Bytes) (b : UInt8) :
    toNat (bs ++ [b]) = 256 * toNat bs + b.toNat := by
  simp [toNat]

@[simp] theorem length_ofNat (width n : Nat) : (ofNat width n).length = width := by
  induction width generalizing n with
  | zero => rfl
  | succ width ih => simp [ofNat, ih]

theorem length_vector (width : Nat) (bs : Bytes) :
    (vector width bs).length = width + bs.length := by
  rw [vector, List.length_append, length_ofNat]

end Bytes

end TlsHello
