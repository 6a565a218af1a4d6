/-
Cut messages.

A message says how long it is, and a record does too. So the front of a
longer input is decided by where the cut is, and by nothing that lies
behind it: in the header, in the declared bytes, or after them. The
first two are an error that names the place, and the third is no cut at
all, because bytes after the declared ones are never read.

# The shape of the argument

Both entry points read a vector behind a fixed header. In closed form
(`handshakeBody_run`, `recordPayload_run`) a read depends on the length
of the input and on the declared bytes, and cutting behind the declared
bytes changes neither (`Bytes.declared_take`). What is decoded from the
declared bytes plays no part, so values and errors are carried over
alike.
-/
import TlsHello.Proofs.Framing

namespace TlsHello.Hello

/-- The length that a handshake message declares for its body. -/
def handshakeLength (input : Bytes) : Nat := Bytes.declaredLength 3 (input.drop 1)

/-- The length that a record declares for its payload. -/
def recordLength (input : Bytes) : Nat := Bytes.declaredLength 2 (input.drop 3)

theorem handshakeLength_cons (type : UInt8) (rest : Bytes) :
    handshakeLength (type :: rest) = Bytes.declaredLength 3 rest := rfl

theorem recordLength_cons (type major minor : UInt8) (rest : Bytes) :
    recordLength (type :: major :: minor :: rest) = Bytes.declaredLength 2 rest := rfl

variable {input : Bytes} {n : Nat} {h h' : Hello}

-- =========================================================== messages

/-- A complete message, cut after `n` of the bytes behind its type. -/
theorem ofHandshake_take (rest : Bytes) (hn : n ≤ rest.length)
    (hcomplete : 3 + Bytes.declaredLength 3 rest ≤ rest.length) :
    ofHandshake (handshakeType :: rest.take n)
      = if n + 1 < 4 then .error (.truncated "handshake length")
        else if n + 1 < 4 + Bytes.declaredLength 3 rest then .error (.truncated "handshake body")
        else ofHandshake (handshakeType :: rest) := by
  have hrun := handshakeBody_run (rest.take n)
  rw [List.length_take_of_le hn] at hrun
  -- the cut is in the length, in the body, or behind both
  by_cases hheader : n < 3
  · rw [if_pos hheader] at hrun
    rw [if_pos (by omega)]
    exact ofHandshake_of_error hrun
  rw [if_neg hheader, Bytes.declaredLength_take (by omega)] at hrun
  rw [if_neg (by omega)]
  by_cases hbody : n < 3 + Bytes.declaredLength 3 rest
  · rw [if_pos hbody] at hrun
    rw [if_pos (by omega)]
    exact ofHandshake_of_error hrun
  rw [if_neg hbody, Bytes.declared_take (by omega)] at hrun
  rw [if_neg (by omega), ofHandshake, hrun, ofHandshake, handshakeBody_run, if_neg (by omega),
    if_neg (by omega)]

/-- Bytes after a complete message do not count. -/
theorem ofHandshake_append (rest : Bytes)
    (hcomplete : 3 + Bytes.declaredLength 3 rest ≤ rest.length) (junk : Bytes) :
    ofHandshake (handshakeType :: (rest ++ junk)) = ofHandshake (handshakeType :: rest) := by
  have hlength : (rest ++ junk).length = rest.length + junk.length := List.length_append
  rw [ofHandshake, handshakeBody_run, Bytes.declaredLength_append (by omega),
    Bytes.declared_append hcomplete, if_neg (by omega), if_neg (by omega), ofHandshake,
    handshakeBody_run, if_neg (by omega), if_neg (by omega)]

/-- An accepted message is of the right type and complete. -/
theorem complete_of_ofHandshake (hdecode : ofHandshake input = .ok h) :
    input.head? = some handshakeType ∧ 4 + handshakeLength input ≤ input.length := by
  obtain ⟨body, hbody, -⟩ := except_bind_eq_ok_iff.1 hdecode
  obtain ⟨hfits, trailing, hinput⟩ := handshakeBody_eq_ok_iff.1 hbody
  subst hinput
  refine ⟨rfl, ?_⟩
  rw [frame, List.cons_append, handshakeLength_cons, Bytes.declaredLength_vector hfits]
  simp only [List.length_cons, List.length_append, Bytes.length_vector]
  omega

theorem ofHandshake_take_of_complete (hn : n ≤ input.length)
    (htype : input.head? = some handshakeType)
    (hcomplete : 4 + handshakeLength input ≤ input.length) :
    ofHandshake (input.take n)
      = if n = 0 then .error (.inputTooShort 1 0)
        else if n < 4 then .error (.truncated "handshake length")
        else if n < 4 + handshakeLength input then .error (.truncated "handshake body")
        else ofHandshake input := by
  obtain ⟨rest, rfl⟩ := List.head?_eq_some_iff.1 htype
  cases n with
  | zero => rfl
  | succ n =>
      rw [handshakeLength_cons, List.length_cons] at hcomplete
      rw [List.length_cons] at hn
      rw [if_neg (Nat.succ_ne_zero n), List.take_succ_cons, handshakeLength_cons]
      apply ofHandshake_take rest
      · omega
      · omega

/-- A complete message cut at its declared end goes on as one likes. -/
theorem ofHandshake_take_append (htype : input.head? = some handshakeType)
    (hcomplete : 4 + handshakeLength input ≤ input.length) (junk : Bytes) :
    ofHandshake (input.take (4 + handshakeLength input) ++ junk) = ofHandshake input := by
  obtain ⟨rest, rfl⟩ := List.head?_eq_some_iff.1 htype
  rw [handshakeLength_cons, List.length_cons] at hcomplete
  have hfront : Bytes.declaredLength 3 (rest.take (3 + Bytes.declaredLength 3 rest))
      = Bytes.declaredLength 3 rest := Bytes.declaredLength_take (by omega)
  have hle : 3 + Bytes.declaredLength 3 rest ≤ rest.length := by omega
  have happend := ofHandshake_append (rest.take (3 + Bytes.declaredLength 3 rest))
    (Nat.le_of_eq (by rw [hfront, List.length_take_of_le hle])) junk
  have htake := ofHandshake_take rest hle hle
  rw [if_neg (by omega), if_neg (by omega)] at htake
  rw [handshakeLength_cons,
    show 4 + Bytes.declaredLength 3 rest = 3 + Bytes.declaredLength 3 rest + 1 by omega,
    List.take_succ_cons]
  exact happend.trans htake

theorem ofHandshake_take_of_ne {x : UInt8} (hn : 1 ≤ n) (htype : input.head? = some x)
    (hx : x ≠ handshakeType) :
    ofHandshake (input.take n) = .error (.unexpectedHandshakeType x) := by
  obtain ⟨rest, rfl⟩ := List.head?_eq_some_iff.1 htype
  obtain ⟨n, rfl⟩ := Nat.exists_eq_add_of_le' hn
  rw [List.take_succ_cons]
  exact ofHandshake_of_error (handshakeBody_of_ne hx _)

/-- The front of an accepted message is refused or gives the same. -/
theorem ofHandshake_take_unique (hn : n ≤ input.length) (hdecode : ofHandshake input = .ok h)
    (hcut : ofHandshake (input.take n) = .ok h') : h' = h := by
  obtain ⟨htype, hcomplete⟩ := complete_of_ofHandshake hdecode
  rw [ofHandshake_take_of_complete hn htype hcomplete] at hcut
  by_cases hzero : n = 0
  · rw [if_pos hzero] at hcut
    cases hcut
  by_cases hheader : n < 4
  · rw [if_neg hzero, if_pos hheader] at hcut
    cases hcut
  by_cases hbody : n < 4 + handshakeLength input
  · rw [if_neg hzero, if_neg hheader, if_pos hbody] at hcut
    cases hcut
  rw [if_neg hzero, if_neg hheader, if_neg hbody] at hcut
  exact Except.ok.inj (hcut.symm.trans hdecode)

-- ============================================================ records

/-- A complete record, cut after `n` of the bytes behind its version, of
which two are the length. -/
theorem ofRecord_take (major minor : UInt8) (rest : Bytes) (hlength : 2 ≤ n) (hn : n ≤ rest.length)
    (hcomplete : 2 + Bytes.declaredLength 2 rest ≤ rest.length) :
    ofRecord (recordType :: major :: minor :: rest.take n)
      = if n + 3 < 5 + Bytes.declaredLength 2 rest then .error (.truncated "record payload")
        else ofRecord (recordType :: major :: minor :: rest) := by
  have htake : (rest.take n).length = n := List.length_take_of_le hn
  have hrun := recordPayload_run major minor (rest.take n) (by omega)
  rw [htake, Bytes.declaredLength_take hlength] at hrun
  by_cases hpayload : n < 2 + Bytes.declaredLength 2 rest
  · rw [if_pos hpayload] at hrun
    rw [if_pos (by omega)]
    exact ofRecord_of_error hrun
  rw [if_neg hpayload, Bytes.declared_take (by omega)] at hrun
  rw [if_neg (by omega), ofRecord, hrun, ofRecord, recordPayload_run major minor rest (by omega),
    if_neg (by omega)]

/-- Bytes after a complete record do not count. -/
theorem ofRecord_append (major minor : UInt8) (rest : Bytes)
    (hcomplete : 2 + Bytes.declaredLength 2 rest ≤ rest.length) (junk : Bytes) :
    ofRecord (recordType :: major :: minor :: (rest ++ junk))
      = ofRecord (recordType :: major :: minor :: rest) := by
  have hlength : (rest ++ junk).length = rest.length + junk.length := List.length_append
  rw [ofRecord, recordPayload_run major minor (rest ++ junk) (by omega),
    Bytes.declaredLength_append (by omega),
    Bytes.declared_append hcomplete, if_neg (by omega), ofRecord,
    recordPayload_run major minor rest (by omega), if_neg (by omega)]

/-- An accepted record is of the right type and complete. -/
theorem complete_of_ofRecord (hdecode : ofRecord input = .ok h) :
    input.head? = some recordType ∧ 5 + recordLength input ≤ input.length := by
  obtain ⟨payload, hpayload, -⟩ := except_bind_eq_ok_iff.1 hdecode
  obtain ⟨hfits, major, minor, trailing, hinput⟩ := recordPayload_eq_ok_iff.1 hpayload
  subst hinput
  refine ⟨rfl, ?_⟩
  rw [frameRecord, List.cons_append, List.cons_append, List.cons_append, recordLength_cons,
    Bytes.declaredLength_vector hfits]
  simp only [List.length_cons, List.length_append, Bytes.length_vector]
  omega

/-- Five bytes hold a type, a version and a length. -/
theorem exists_header {type : UInt8} (htype : input.head? = some type) (hinput : 5 ≤ input.length) :
    ∃ major minor rest, input = type :: major :: minor :: rest ∧ 2 ≤ rest.length := by
  match input, hinput with
  | type' :: major :: minor :: high :: low :: rest, _ =>
      refine ⟨major, minor, high :: low :: rest, ?_, ?_⟩
      · rw [Option.some.inj htype]
      · rw [List.length_cons, List.length_cons]
        omega

theorem ofRecord_of_ne {x : UInt8} (hheader : 5 ≤ input.length) (hhead : input.head? = some x)
    (hx : x ≠ recordType) : ofRecord input = .error (.unexpectedContentType x) := by
  obtain ⟨major, minor, rest, rfl, hrest⟩ := exists_header hhead hheader
  exact ofRecord_of_error (recordPayload_of_ne hx major minor hrest)

theorem ofRecord_take_of_complete (hheader : 5 ≤ n) (hn : n ≤ input.length)
    (htype : input.head? = some recordType) (hcomplete : 5 + recordLength input ≤ input.length) :
    ofRecord (input.take n)
      = if n < 5 + recordLength input then .error (.truncated "record payload")
        else ofRecord input := by
  obtain ⟨major, minor, rest, rfl, -⟩ := exists_header htype (Nat.le_trans hheader hn)
  obtain ⟨n, rfl⟩ := Nat.exists_eq_add_of_le' (Nat.le_trans (by decide : 3 ≤ 5) hheader)
  simp only [recordLength_cons, List.length_cons] at hcomplete hn
  rw [List.take_succ_cons, List.take_succ_cons, List.take_succ_cons, recordLength_cons]
  apply ofRecord_take major minor rest
  · omega
  · omega
  · omega

/-- A complete record cut at its declared end goes on as one likes. -/
theorem ofRecord_take_append (htype : input.head? = some recordType)
    (hcomplete : 5 + recordLength input ≤ input.length) (junk : Bytes) :
    ofRecord (input.take (5 + recordLength input) ++ junk) = ofRecord input := by
  obtain ⟨major, minor, rest, rfl, -⟩ := exists_header htype (by omega)
  simp only [recordLength_cons, List.length_cons] at hcomplete
  have hfront : Bytes.declaredLength 2 (rest.take (2 + Bytes.declaredLength 2 rest))
      = Bytes.declaredLength 2 rest := Bytes.declaredLength_take (by omega)
  have hle : 2 + Bytes.declaredLength 2 rest ≤ rest.length := by omega
  have happend := ofRecord_append major minor (rest.take (2 + Bytes.declaredLength 2 rest))
    (Nat.le_of_eq (by rw [hfront, List.length_take_of_le hle])) junk
  have htake := ofRecord_take major minor rest (Nat.le_add_right 2 _) hle hle
  rw [if_neg (by omega)] at htake
  rw [recordLength_cons,
    show 5 + Bytes.declaredLength 2 rest = 2 + Bytes.declaredLength 2 rest + 1 + 1 + 1 by omega,
    List.take_succ_cons, List.take_succ_cons, List.take_succ_cons]
  exact happend.trans htake

theorem ofRecord_take_of_short (hshort : n < 5) (hn : n ≤ input.length) :
    ofRecord (input.take n) = .error (.inputTooShort 5 (.ofNat n)) := by
  have htake : (input.take n).length = n := List.length_take_of_le hn
  have hread := recordPayload_of_short (input.take n) (by omega)
  rw [htake] at hread
  exact ofRecord_of_error hread

theorem ofRecord_take_of_ne {x : UInt8} (hheader : 5 ≤ n) (hn : n ≤ input.length)
    (htype : input.head? = some x) (hx : x ≠ recordType) :
    ofRecord (input.take n) = .error (.unexpectedContentType x) := by
  have htake : (input.take n).length = n := List.length_take_of_le hn
  have hhead : (input.take n).head? = some x := by
    rw [List.head?_take, if_neg (by omega), htype]
  exact ofRecord_of_ne (by omega) hhead hx

/-- The front of an accepted record is refused or gives the same. -/
theorem ofRecord_take_unique (hn : n ≤ input.length) (hdecode : ofRecord input = .ok h)
    (hcut : ofRecord (input.take n) = .ok h') : h' = h := by
  obtain ⟨htype, hcomplete⟩ := complete_of_ofRecord hdecode
  by_cases hheader : n < 5
  · rw [ofRecord_take_of_short hheader hn] at hcut
    cases hcut
  rw [ofRecord_take_of_complete (Nat.le_of_not_lt hheader) hn htype hcomplete] at hcut
  by_cases hpayload : n < 5 + recordLength input
  · rw [if_pos hpayload] at hcut
    cases hcut
  rw [if_neg hpayload] at hcut
  exact Except.ok.inj (hcut.symm.trans hdecode)

-- ===================================================== every cut at once

/-- The front of a message or of a record is decided by where it was cut.
In the header and in the declared bytes a cut is an error that names the
place; after them it changes nothing, nor does anything else that stands
there. A wrong first byte is reported wherever the cut is behind it. -/
theorem outcome_take (input : Bytes) (n : Nat) (hn : n ≤ input.length) :
    (input.head? = some 0x01 → 4 + handshakeLength input ≤ input.length →
      ofHandshake (input.take n)
          = (if n = 0 then .error (.inputTooShort 1 0)
            else if n < 4 then .error (.truncated "handshake length")
            else if n < 4 + handshakeLength input then .error (.truncated "handshake body")
            else ofHandshake input)
        ∧ ∀ junk, ofHandshake (input.take (4 + handshakeLength input) ++ junk) = ofHandshake input)
    ∧ (∀ x, input.head? = some x → x ≠ 0x01 → 1 ≤ n →
      ofHandshake (input.take n) = .error (.unexpectedHandshakeType x))
    ∧ (∀ h h', ofHandshake input = .ok h → ofHandshake (input.take n) = .ok h' → h' = h)
    ∧ (n < 5 → ofRecord (input.take n) = .error (.inputTooShort 5 (.ofNat n)))
    ∧ (input.head? = some 0x16 → 5 + recordLength input ≤ input.length →
      (5 ≤ n → ofRecord (input.take n)
          = if n < 5 + recordLength input then .error (.truncated "record payload")
            else ofRecord input)
        ∧ ∀ junk, ofRecord (input.take (5 + recordLength input) ++ junk) = ofRecord input)
    ∧ (∀ x, input.head? = some x → x ≠ 0x16 → 5 ≤ n →
      ofRecord (input.take n) = .error (.unexpectedContentType x))
    ∧ ∀ h h', ofRecord input = .ok h → ofRecord (input.take n) = .ok h' → h' = h := by
  refine ⟨fun htype hcomplete => ⟨?_, ?_⟩, ?_, ?_, ?_, fun htype hcomplete => ⟨?_, ?_⟩, ?_, ?_⟩
  · exact ofHandshake_take_of_complete hn htype hcomplete
  · exact ofHandshake_take_append htype hcomplete
  · intro x htype hx hbehind
    exact ofHandshake_take_of_ne hbehind htype hx
  · intro h h' hdecode hcut
    exact ofHandshake_take_unique hn hdecode hcut
  · intro hshort
    exact ofRecord_take_of_short hshort hn
  · intro hheader
    exact ofRecord_take_of_complete hheader hn htype hcomplete
  · exact ofRecord_take_append htype hcomplete
  · intro x htype hx hheader
    exact ofRecord_take_of_ne hheader hn htype hx
  · intro h h' hdecode hcut
    exact ofRecord_take_unique hn hdecode hcut

/-- A message of 45 bytes with one cipher suite and no extensions. -/
def smallest : Bytes :=
  [0x01, 0x00, 0x00, 0x29, 0x03, 0x03] ++ List.replicate 32 0x00
    ++ [0x00, 0x00, 0x02, 0x13, 0x01, 0x01, 0x00]

theorem outcome_take_smallest :
    ofHandshake (smallest.take 44) = .error (.truncated "handshake body")
    ∧ ofHandshake (smallest.take 45 ++ [0xff]) = ofHandshake smallest
    ∧ ofRecord (smallest.take 44) = .error (.unexpectedContentType 0x01)
    ∧ ofRecord ((frameRecord 0x03 0x01 smallest).take 49) = .error (.truncated "record payload")
    ∧ ofHandshake ((frameRecord 0x03 0x01 smallest).take 49)
        = .error (.unexpectedHandshakeType 0x16) := by
  obtain ⟨hmessage, -, -, -, -, hcontent, -⟩ := outcome_take smallest 44 (by decide)
  obtain ⟨hcut, hjunk⟩ := hmessage rfl (by decide)
  obtain ⟨-, htype, -, -, hrecord, -⟩ :=
    outcome_take (frameRecord 0x03 0x01 smallest) 49 (by decide)
  obtain ⟨hpayload, -⟩ := hrecord rfl (by decide)
  refine ⟨hcut, hjunk [0xff], ?_, hpayload (by decide), ?_⟩
  · exact hcontent 0x01 rfl (by decide) (by decide)
  · exact htype 0x16 rfl (by decide) (by decide)

end TlsHello.Hello
