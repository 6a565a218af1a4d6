/-
Bodies that end early.

The body of an accepted message is cut after some of its bytes, and the
front is sent as a message of its own. What becomes of it is said by the
place of the cut: in one of the fields that every body has it is an error
that names the field; behind them but in front of the extensions, or in
the length of their block, it is a hello without extensions; in the block
it is an error; and behind the block it is no cut (`Dissection.shortened`).

# The shape of the argument

A reader knows the places at which its fields end (`Reader.Reads`), and
readers in a row know them in a row, those of the second moved behind the
first (`Reads.bind`). So the places for the front of a body are put
together from those of its fields, and a cut lies in the first field that
ends behind it. What is read after the front is the block, in closed form
(`VerbatimFields.blockOf_run`), of which a cut leaves a front again.
-/
import TlsHello.Proofs.Block

namespace TlsHello

-- ================================================ statement vocabulary

/-- The field in which a cut after `n` bytes lies: the first that ends
behind the cut. -/
def cutIn? (ends : List (Nat × String)) (n : Nat) : Option String :=
  (ends.find? fun field => n < field.1).map Prod.snd

namespace Dissection

/-- Where each of the fields ends that every body has. One without bytes
ends where the one before it does, and no cut lies in it. -/
def fieldEnds (s : Dissection) : List (Nat × String) :=
  let id := s.sessionId.length
  let suites := s.cipherSuites.length
  let methods := s.compressionMethods.length
  [(2, "legacy version"), (34, "client random"),
    (35, "session ID length"), (35 + id, "session ID"),
    (37 + id, "cipher suites length"), (37 + id + suites, "cipher suites data"),
    (38 + id + suites, "compression methods length"),
    (38 + id + suites + methods, "compression methods")]

/-- Where the last of them ends. -/
def frontLength (s : Dissection) : Nat :=
  38 + s.sessionId.length + s.cipherSuites.length + s.compressionMethods.length

/-- How long the block of extensions is. -/
def blockLength (s : Dissection) : Nat := (s.block.map fun block => block.bytes.length).getD 0

/-- The hello without its extensions. What is left of its GREASE is that
of the cipher suites. -/
def withoutBlock (s : Dissection) (h : Hello) : Hello :=
  { h with extensions := [], hasGrease := (Bytes.words s.cipherSuites).any isGrease }

/-- What the first `n` bytes of the body are decoded to, if the whole of
it is decoded to `h`. -/
def shortened (s : Dissection) (h : Hello) (n : Nat) : Except DecodeError Hello :=
  match cutIn? s.fieldEnds n with
  | some field => .error (.truncated field)
  | none =>
      if n < s.frontLength + 2 then .ok (s.withoutBlock h)
      else if n < s.frontLength + 2 + s.blockLength then .error (.truncated "extensions data")
      else .ok h

end Dissection

-- =================================================== the place of a cut

variable {ends ends' : List (Nat × String)} {n k : Nat}

/-- The same places, behind `k` bytes. -/
def behind (k : Nat) (ends : List (Nat × String)) : List (Nat × String) :=
  ends.map fun field => (k + field.1, field.2)

theorem cutIn?_cons (place : Nat) (field : String) (ends : List (Nat × String)) (n : Nat) :
    cutIn? ((place, field) :: ends) n = if n < place then some field else cutIn? ends n := by
  by_cases hcut : n < place
  · simp [cutIn?, hcut]
  · simp [cutIn?, hcut]

theorem cutIn?_append (ends ends' : List (Nat × String)) (n : Nat) :
    cutIn? (ends ++ ends') n = (cutIn? ends n).or (cutIn? ends' n) := by
  rw [cutIn?, List.find?_append, Option.map_or, cutIn?, cutIn?]

theorem cutIn?_behind (h : k ≤ n) : cutIn? (behind k ends) n = cutIn? ends (n - k) := by
  have hplace : (fun field : Nat × String => decide (n < k + field.1))
      = fun field => decide (n - k < field.1) := by
    funext field
    rw [decide_eq_decide]
    omega
  rw [cutIn?, behind, List.find?_map, Option.map_map, cutIn?]
  exact congrArg (fun p => (ends.find? p).map Prod.snd) hplace

namespace Reader

variable {r : Reader α} {f : α → Reader β} {bs bs' rest : Bytes} {a : α} {b : β}

/-- The reader takes `a` from the front `bs`, in fields that end at these
places. Cut short, it fails in the field in which the cut lies; if not,
what is behind `bs` is left as far as it is there. -/
structure Reads (r : Reader α) (bs : Bytes) (a : α) (ends : List (Nat × String)) : Prop where
  length_le : ∀ n, cutIn? ends n = none → bs.length ≤ n
  run : ∀ rest n, r.run ((bs ++ rest).take n) = match cutIn? ends n with
    | some field => .error (.truncated field)
    | none => .ok (a, rest.take (n - bs.length))

theorem Reads.run_bind (hr : r.Reads bs a ends) (f : α → Reader β) (rest : Bytes) (n : Nat) :
    (r >>= f).run ((bs ++ rest).take n) = match cutIn? ends n with
      | some field => .error (.truncated field)
      | none => (f a).run (rest.take (n - bs.length)) := by
  rw [StateT.run_bind, hr.run]
  cases cutIn? ends n with
  | some field => rfl
  | none => rfl

theorem reads_pure (a : α) : (pure a : Reader α).Reads [] a [] where
  length_le := fun n _ => Nat.zero_le n
  run := fun _ _ => rfl

theorem Reads.bind (hr : r.Reads bs a ends) (hf : (f a).Reads bs' b ends') :
    (r >>= f).Reads (bs ++ bs') b (ends ++ behind bs.length ends') where
  length_le := by
    intro n hnone
    rw [cutIn?_append, Option.or_eq_none_iff] at hnone
    have hfirst := hr.length_le n hnone.1
    have hsecond := hf.length_le (n - bs.length) (cutIn?_behind hfirst ▸ hnone.2)
    rw [List.length_append]
    omega
  run := by
    intro rest n
    rw [List.append_assoc, hr.run_bind, cutIn?_append]
    cases hcut : cutIn? ends n with
    | some field => rfl
    | none =>
        rw [Option.none_or, cutIn?_behind (hr.length_le n hcut)]
        show (f a).run _ = _
        rw [hf.run, List.length_append, Nat.sub_sub]

theorem reads_bytes (bs : Bytes) (field : String) :
    (bytes bs.length field).Reads bs bs [(bs.length, field)] where
  length_le := by
    intro n hnone
    rw [cutIn?_cons] at hnone
    split at hnone
    · cases hnone
    · next hle => exact Nat.le_of_not_lt hle
  run := by
    intro rest n
    have hlength : ((bs ++ rest).take n).length = min n (bs.length + rest.length) := by
      rw [List.length_take, List.length_append]
    rw [bytes_run, cutIn?_cons]
    by_cases hcut : n < bs.length
    · rw [if_pos (by omega), if_pos hcut]
    · have htake : (bs ++ rest).take n = bs ++ rest.take (n - bs.length) := by
        rw [List.take_append, List.take_of_length_le (Nat.le_of_not_lt hcut)]
      rw [if_neg (by omega), if_neg hcut, htake, List.take_left, List.drop_left]
      rfl

theorem reads_uint {width k : Nat} (h : k < 256 ^ width) (field : String) :
    (uint width field).Reads (Bytes.ofNat width k) k [(width, field)] := by
  have hbytes := reads_bytes (Bytes.ofNat width k) field
  rw [Bytes.length_ofNat] at hbytes
  have hvalue := reads_pure (Bytes.toNat (Bytes.ofNat width k))
  have hread := hbytes.bind (f := fun bs => pure (Bytes.toNat bs)) hvalue
  rw [List.append_nil, Bytes.toNat_ofNat, Nat.mod_eq_of_lt h] at hread
  exact hread

theorem reads_vector {width : Nat} (h : bs.length < 256 ^ width) (lengthField dataField : String) :
    (vector width lengthField dataField).Reads (Bytes.vector width bs) bs
      [(width, lengthField), (width + bs.length, dataField)] := by
  have hread := (reads_uint h lengthField).bind (f := fun n => bytes n dataField)
    (reads_bytes bs dataField)
  rw [Bytes.length_ofNat] at hread
  exact hread

end Reader

-- ================================================ the front and the block

namespace RawHello

/-- Reads the fields that every body has. -/
def frontReader : Reader (Option Bytes → RawHello) := do
  let legacyVersion ← Reader.uint 2 "legacy version"
  let random ← Reader.bytes 32 "client random"
  let sessionId ← Reader.vector 1 "session ID length" "session ID"
  let cipherSuites ← Reader.vector 2 "cipher suites length" "cipher suites data"
  let compressionMethods ←
    Reader.vector 1 "compression methods length" "compression methods"
  return fun extensionBlock =>
    { legacyVersion := .ofNat legacyVersion, random, sessionId, cipherSuites,
      compressionMethods, extensionBlock }

theorem reader_eq :
    reader = frontReader >>= fun raw =>
      raw <$> Reader.ifLeft 2 (Reader.vector 2 "extensions length" "extensions data") := by
  simp [reader, frontReader]

end RawHello

/-- The block at the front of the rest of a body, in closed form. -/
theorem VerbatimFields.blockOf_run (rest : Bytes) :
    blockOf rest
      = if rest.length < 2 then .ok none
        else if rest.length < 2 + Bytes.declaredLength 2 rest then
          .error (.truncated "extensions data")
        else .ok (some (Bytes.declared 2 rest)) := by
  by_cases hlength : rest.length < 2
  · have hread := (Reader.ifLeft_eq_ok_iff
      (r := Reader.vector 2 "extensions length" "extensions data")).2 (.inr ⟨rfl, hlength, rfl⟩)
    rw [if_pos hlength, blockOf, hread]
    rfl
  have hvector := Reader.vector_run 2 "extensions length" "extensions data" rest
  rw [if_neg hlength] at hvector ⊢
  by_cases hdata : rest.length < 2 + Bytes.declaredLength 2 rest
  · rw [if_pos hdata] at hvector ⊢
    rw [blockOf, Reader.ifLeft_eq_error_iff.2 ⟨Nat.le_of_not_lt hlength, hvector⟩]
    rfl
  · rw [if_neg hdata] at hvector ⊢
    rw [blockOf,
      Reader.ifLeft_eq_ok_iff.2 (.inl ⟨_, rfl, Nat.le_of_not_lt hlength, hvector⟩)]
    rfl

namespace Dissection

variable {s : Dissection} {input : Bytes} {h : Hello} {n : Nat}

/-- The fields that every body has. -/
def front (s : Dissection) : Bytes :=
  Bytes.ofNat 2 s.legacyVersion.toNat ++ (s.random ++ (Bytes.vector 1 s.sessionId
    ++ (Bytes.vector 2 s.cipherSuites ++ Bytes.vector 1 s.compressionMethods)))

theorem front_append_rest (s : Dissection) : s.front ++ s.rest = s.body := by
  simp only [front, body, List.append_assoc]

theorem Splits.length_front (hs : s.Splits input) : s.front.length = s.frontLength := by
  simp only [front, frontLength, List.length_append, Bytes.length_ofNat, Bytes.length_vector,
    hs.random]
  omega

theorem Splits.reads_front (hs : s.Splits input) :
    RawHello.frontReader.Reads s.front (fun block => { s.toRaw with extensionBlock := block })
      s.fieldEnds := by
  have hversion : s.legacyVersion.toNat < 256 ^ 2 := s.legacyVersion.toNat_lt
  have hrandom := Reader.reads_bytes s.random "client random"
  rw [hs.random] at hrandom
  -- the fields in a row, each moved behind those in front of it
  have hbytes : Bytes.ofNat 2 s.legacyVersion.toNat ++ (s.random ++ (Bytes.vector 1 s.sessionId
      ++ (Bytes.vector 2 s.cipherSuites ++ (Bytes.vector 1 s.compressionMethods ++ []))))
      = s.front := by
    rw [List.append_nil, front]
  have hends : [(2, "legacy version")]
      ++ behind (Bytes.ofNat 2 s.legacyVersion.toNat).length ([(32, "client random")]
      ++ behind s.random.length
        ([(1, "session ID length"), (1 + s.sessionId.length, "session ID")]
      ++ behind (Bytes.vector 1 s.sessionId).length
        ([(2, "cipher suites length"), (2 + s.cipherSuites.length, "cipher suites data")]
      ++ behind (Bytes.vector 2 s.cipherSuites).length
        ([(1, "compression methods length"),
          (1 + s.compressionMethods.length, "compression methods")]
      ++ behind (Bytes.vector 1 s.compressionMethods).length [])))) = s.fieldEnds := by
    simp only [behind, fieldEnds, Bytes.length_ofNat, Bytes.length_vector, hs.random, List.map_cons,
      List.map_nil, List.cons_append, List.nil_append, List.append_nil, Nat.reduceAdd,
      List.cons.injEq, Prod.mk.injEq, and_true, true_and]
    omega
  rw [← hbytes, ← hends]
  unfold RawHello.frontReader
  refine (Reader.reads_uint hversion _).bind ?_
  refine hrandom.bind ?_
  refine (Reader.reads_vector hs.sessionId _ _).bind ?_
  refine (Reader.reads_vector hs.cipherSuites _ _).bind ?_
  refine (Reader.reads_vector hs.compressionMethods _ _).bind ?_
  rw [UInt16.ofNat_toNat]
  exact Reader.reads_pure _

/-- What a cut leaves of the block: nothing, or too little, or all. -/
theorem Splits.blockOf_take (hs : s.Splits input) (hn : n ≤ s.rest.length) :
    VerbatimFields.blockOf (s.rest.take n)
      = if n < 2 then .ok none
        else if n < 2 + s.blockLength then .error (.truncated "extensions data")
        else .ok s.toRaw.extensionBlock := by
  rw [VerbatimFields.blockOf_run, List.length_take_of_le hn]
  by_cases hlength : n < 2
  · rw [if_pos hlength, if_pos hlength]
  rw [if_neg hlength, if_neg hlength]
  cases hblock : s.block with
  | none =>
      -- without a block there is no room for a length
      have hshort := hs.after hblock
      have hrest : s.rest = s.after := by rw [rest, hblock]
      rw [hrest] at hn
      omega
  | some block =>
      have hfits := hs.block block hblock
      have hrest : s.rest = Bytes.vector 2 block.bytes ++ s.after := by rw [rest, hblock]
      have hdeclared : Bytes.declaredLength 2 s.rest = s.blockLength := by
        rw [hrest, Bytes.declaredLength_vector hfits, blockLength, hblock]
        rfl
      rw [Bytes.declaredLength_take (Nat.le_of_not_lt hlength), hdeclared]
      by_cases hdata : n < 2 + s.blockLength
      · rw [if_pos hdata, if_pos hdata]
      · have hbytes : Bytes.declared 2 (s.rest.take n) = block.bytes := by
          rw [Bytes.declared_take (by omega), hrest, Bytes.declared_vector hfits]
        rw [if_neg hdata, if_neg hdata, hbytes, toRaw, hblock]
        rfl

-- ============================================================= the message

/-- Either the field is named in which the cut lies, or only the block is
still to be read. -/
theorem Splits.ofBody_take (hs : s.Splits input) (n : Nat) :
    RawHello.ofBody (s.body.take n) = match cutIn? s.fieldEnds n with
      | some field => .error (.truncated field)
      | none => (fun block => { s.toRaw with extensionBlock := block })
          <$> VerbatimFields.blockOf (s.rest.take (n - s.frontLength)) := by
  rw [RawHello.ofBody, ← s.front_append_rest, RawHello.reader_eq, hs.reads_front.run_bind,
    hs.length_front]
  cases cutIn? s.fieldEnds n with
  | some field => rfl
  | none =>
      show Prod.fst <$> (_ <$> _ : Reader RawHello).run _ = _
      rw [StateT.run_map, VerbatimFields.blockOf]
      cases (Reader.ifLeft 2 (Reader.vector 2 "extensions length" "extensions data")).run
          (s.rest.take (n - s.frontLength)) with
      | error e => rfl
      | ok p => rfl

theorem Splits.decode_toRaw (hs : s.Splits input) (hdecode : Hello.ofHandshake input = .ok h) :
    s.toRaw.decode = .ok h := by
  rw [RawHello.decode_eq_ok_iff, hs.entries_eq]
  exact ⟨hs.leftover_short, hs.ofHandshake_eq_ok_iff.1 hdecode⟩

theorem Splits.decode_withoutBlock (hs : s.Splits input)
    (hdecode : Hello.ofHandshake input = .ok h) :
    RawHello.decode { s.toRaw with extensionBlock := none } = .ok (s.withoutBlock h) := by
  obtain ⟨decoded, -, rfl⟩ := hs.ofHandshake_eq_ok_iff.1 hdecode
  have htiling : RawHello.extensionTiling { s.toRaw with extensionBlock := none }
      = (none : Option Tiling).getD ⟨[], []⟩ :=
    RawHello.extensionTiling_eq rfl nofun nofun
  rw [RawHello.decode_eq_ok_iff, htiling]
  refine ⟨Nat.zero_lt_succ 3, [], .nil, ?_⟩
  rw [withoutBlock, ← suites_toRaw]
  exact congrArg (fun sawGrease => ({ s.toRaw.helloWith [] with hasGrease := sawGrease } : Hello))
    (Bool.or_false _).symm

/-- The body of an accepted message, cut after `n` bytes. -/
theorem Splits.ofHandshake_frame_take (hs : s.Splits input)
    (hdecode : Hello.ofHandshake input = .ok h) (hn : n ≤ s.body.length) :
    Hello.ofHandshake (Hello.frame (s.body.take n)) = s.shortened h n := by
  have hfits : (s.body.take n).length < 256 ^ 3 :=
    Nat.lt_of_le_of_lt (List.length_take_le' n s.body) hs.body
  have hframe := Hello.ofHandshake_frame hfits []
  rw [List.append_nil] at hframe
  rw [hframe, Hello.ofBody_eq, hs.ofBody_take, shortened]
  cases hcut : cutIn? s.fieldEnds n with
  | some field => rfl
  | none =>
      have hfront : s.frontLength ≤ n := hs.length_front ▸ hs.reads_front.length_le n hcut
      have hlength : s.body.length = s.frontLength + s.rest.length := by
        rw [← s.front_append_rest, List.length_append, hs.length_front]
      show (_ <$> _ >>= RawHello.decode) = if _ then _ else _
      rw [hs.blockOf_take (by omega)]
      by_cases hbefore : n < s.frontLength + 2
      · rw [if_pos (by omega), if_pos hbefore]
        exact hs.decode_withoutBlock hdecode
      rw [if_neg (by omega), if_neg hbefore]
      by_cases hin : n < s.frontLength + 2 + s.blockLength
      · rw [if_pos (by omega), if_pos hin]
        rfl
      · rw [if_neg (by omega), if_neg hin]
        exact hs.decode_toRaw hdecode

end Dissection

/-- An accepted message can be dissected, and the first `n` bytes of its
body, framed as a message of their own, are decoded as the place of the
cut says. -/
theorem ofHandshake_shortened (input : Bytes) (h : Hello)
    (hdecode : Hello.ofHandshake input = .ok h) :
    (∃ s : Dissection, s.Splits input)
    ∧ ∀ s : Dissection, s.Splits input → ∀ n ≤ s.body.length,
        Hello.ofHandshake (Hello.frame (s.body.take n)) = s.shortened h n :=
  ⟨Dissection.exists_splits hdecode, fun _ hs _ hn => hs.ofHandshake_frame_take hdecode hn⟩

/-- The sample, cut in its session id, in the length of its block, in the
last byte of the block and behind it. The GREASE it is noted for is in an
extension. -/
theorem ofHandshake_shortened_sample :
    Hello.ofHandshake (Hello.frame (Dissection.sample.body.take 36))
        = .error (.truncated "session ID")
    ∧ Hello.ofHandshake (Hello.frame (Dissection.sample.body.take 47))
        = .ok { Hello.sample with extensions := [], hasGrease := false }
    ∧ Hello.ofHandshake (Hello.frame (Dissection.sample.body.take 90))
        = .error (.truncated "extensions data")
    ∧ Hello.ofHandshake (Hello.frame (Dissection.sample.body.take 91)) = .ok Hello.sample := by
  obtain ⟨-, hcut⟩ := ofHandshake_shortened Dissection.sample.bytes Hello.sample (by decide +kernel)
  have hsplits : Dissection.sample.Splits Dissection.sample.bytes := by decide +kernel
  have hlength : Dissection.sample.body.length = 93 := by decide +kernel
  refine ⟨?_, ?_, ?_, ?_⟩
  · rw [hcut _ hsplits 36 (by omega)]
    decide +kernel
  · rw [hcut _ hsplits 47 (by omega)]
    decide +kernel
  · rw [hcut _ hsplits 90 (by omega)]
    decide +kernel
  · rw [hcut _ hsplits 91 (by omega)]
    decide +kernel

end TlsHello
