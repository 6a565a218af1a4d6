/-
Bytes that are kept as they came.

Three fields of a message are copied into the hello and never looked into:
the random, the session ID and the compression methods. In a list of key
shares the keys are not even copied. Whoever chooses these bytes, GREASE
values and lengths among them, decides nothing else.

The claim is about two runs. Two messages with the same version, cipher
suites and rest of the body are refused with the same error, or accepted as
hellos that are the same but for the three fields (`SameOutcome`). The rest
is any bytes at all, so both runs may fail anywhere behind the fields; and
wrapped in records, whatever their versions, the messages fare no
differently. Two lists of key shares with other keys in the same places are
the same extension, or refused alike.

# The shape of the argument

A body in which the three fields have room is read up to its rest without
a failure, so what happens is decided by the reader of the extension block
alone, on the same bytes in both runs (`ofBody_body`). The block that it
yields is then decoded by steps that see none of the fields.

A list of key shares is cut at the length that its body declares, perhaps
in the middle of a key. `Rekeyed.sameTags_take` therefore holds for every
cut: the complete shares have the same groups, and as many bytes are left
over after them. A decoded list depends on no more than that.
-/
import TlsHello.Proofs.Atomic
import TlsHello.Proofs.Record
import TlsHello.Proofs.Reorder

namespace TlsHello

-- ============================================ what is not looked into

/-- The fields of a body that are kept as they came. -/
structure VerbatimFields where
  random : Bytes
  sessionId : Bytes
  compressionMethods : Bytes
  random_length : random.length = 32 := by decide
  sessionId_fits : sessionId.length < 256 ^ 1 := by decide
  compressionMethods_fits : compressionMethods.length < 256 ^ 1 := by decide

namespace VerbatimFields

/-- The body with these fields. What comes after the compression methods
is `rest`, well formed or not. -/
def body (o : VerbatimFields) (version : UInt16) (suites rest : Bytes) : Bytes :=
  Bytes.ofNat 2 version.toNat ++ (o.random ++ (Bytes.vector 1 o.sessionId
    ++ (Bytes.vector 2 suites ++ (Bytes.vector 1 o.compressionMethods ++ rest))))

/-- The handshake message with this body. -/
def message (o : VerbatimFields) (version : UInt16) (suites rest : Bytes) : Bytes :=
  Hello.frame (o.body version suites rest)

/-- The fields are in the hello, byte for byte. -/
structure KeptIn (o : VerbatimFields) (h : Hello) : Prop where
  random : h.random = o.random
  sessionId : h.sessionId = o.sessionId
  compressionMethods : h.compressionMethods = o.compressionMethods

/-- Two hellos, one with each of the fields, and with nothing else that
tells them apart. -/
structure SameBesides (o o' : VerbatimFields) (h h' : Hello) : Prop where
  kept : o.KeptIn h
  kept' : o'.KeptIn h'
  legacyVersion : h'.legacyVersion = h.legacyVersion
  cipherSuites : h'.cipherSuites = h.cipherSuites
  extensions : h'.extensions = h.extensions
  hasGrease : h'.hasGrease = h.hasGrease
  answers : h.extensions.SameAnswers h'.extensions

/-- Two runs end in the same error, or in hellos that are the same
besides the fields. -/
inductive SameOutcome (o o' : VerbatimFields) :
    Except DecodeError Hello → Except DecodeError Hello → Prop
  | refused (e : DecodeError) : SameOutcome o o' (.error e) (.error e)
  | accepted {h h' : Hello} (same : o.SameBesides o' h h') : SameOutcome o o' (.ok h) (.ok h')

variable {o o' : VerbatimFields} {version : UInt16} {suites rest : Bytes}

-- ============================================================== two runs

/-- The fields of a body once its block of extensions is known. -/
def raw (o : VerbatimFields) (version : UInt16) (suites : Bytes) (block : Option Bytes) :
    RawHello where
  legacyVersion := version
  random := o.random
  sessionId := o.sessionId
  cipherSuites := suites
  compressionMethods := o.compressionMethods
  extensionBlock := block

/-- The block of extensions at the front of the rest of a body. -/
def blockOf (rest : Bytes) : Except DecodeError (Option Bytes) :=
  Prod.fst <$>
    (Reader.ifLeft 2 (Reader.vector 2 "extensions length" "extensions data")).run rest

/-- The reader gets to the rest, and nothing of the fields is left for
it. -/
theorem ofBody_body (o : VerbatimFields) (version : UInt16) (hsuites : suites.length < 256 ^ 2)
    (rest : Bytes) :
    RawHello.ofBody (o.body version suites rest) = o.raw version suites <$> blockOf rest := by
  unfold RawHello.ofBody RawHello.reader body blockOf
  rw [Reader.run_bind_of_ok (Reader.uint_eq_ok_iff.2 ⟨version.toNat_lt, rfl⟩),
    Reader.run_bind_of_ok (Reader.bytes_eq_ok_iff.2 ⟨o.random_length, rfl⟩),
    Reader.run_bind_of_ok (Reader.vector_eq_ok_iff.2 ⟨o.sessionId_fits, rfl⟩),
    Reader.run_bind_of_ok (Reader.vector_eq_ok_iff.2 ⟨hsuites, rfl⟩),
    Reader.run_bind_of_ok (Reader.vector_eq_ok_iff.2 ⟨o.compressionMethods_fits, rfl⟩),
    StateT.run_bind, UInt16.ofNat_toNat]
  cases (Reader.ifLeft 2 (Reader.vector 2 "extensions length" "extensions data")).run rest with
  | error e => rfl
  | ok p => rfl

theorem sameBesides_helloWith (o o' : VerbatimFields) (version : UInt16) (suites : Bytes)
    (block : Option Bytes) (decoded : List Decoded) :
    o.SameBesides o' ((o.raw version suites block).helloWith decoded)
      ((o'.raw version suites block).helloWith decoded) where
  kept := ⟨rfl, rfl, rfl⟩
  kept' := ⟨rfl, rfl, rfl⟩
  legacyVersion := rfl
  cipherSuites := rfl
  extensions := rfl
  hasGrease := rfl
  answers := Extensions.sameAnswers_of_ofType fun _ => rfl

/-- Which extensions are decoded, which of them is refused first and what
is left over after them is the same in both runs. -/
theorem sameOutcome_decode (o o' : VerbatimFields) (version : UInt16) (suites : Bytes)
    (block : Option Bytes) :
    SameOutcome o o' (o.raw version suites block).decode (o'.raw version suites block).decode := by
  have htiling : (o'.raw version suites block).extensionTiling
      = (o.raw version suites block).extensionTiling := rfl
  rw [RawHello.decode, RawHello.decode, htiling]
  cases (o.raw version suites block).extensionTiling.entries.mapM Extension.ofEntry with
  | error e => exact .refused e
  | ok decoded =>
      show SameOutcome o o' (if _ then _ else _) (if _ then _ else _)
      by_cases hshort : (o.raw version suites block).extensionTiling.leftover.length < 4
      · rw [if_pos hshort, if_pos hshort]
        exact .accepted (sameBesides_helloWith o o' version suites block decoded)
      · rw [if_neg hshort, if_neg hshort]
        exact .refused _

theorem sameOutcome_ofBody (o o' : VerbatimFields) (version : UInt16)
    (hsuites : suites.length < 256 ^ 2) (rest : Bytes) :
    SameOutcome o o' (Hello.ofBody (o.body version suites rest))
      (Hello.ofBody (o'.body version suites rest)) := by
  rw [Hello.ofBody_eq, Hello.ofBody_eq, ofBody_body o version hsuites, ofBody_body o' version hsuites]
  cases blockOf rest with
  | error e => exact .refused e
  | ok block => exact sameOutcome_decode o o' version suites block

theorem sameOutcome_ofHandshake (hsuites : suites.length < 256 ^ 2)
    (hbody : (o.body version suites rest).length < 256 ^ 3)
    (hbody' : (o'.body version suites rest).length < 256 ^ 3) (trailing trailing' : Bytes) :
    SameOutcome o o' (Hello.ofHandshake (o.message version suites rest ++ trailing))
      (Hello.ofHandshake (o'.message version suites rest ++ trailing')) := by
  unfold message
  rw [Hello.ofHandshake_frame hbody, Hello.ofHandshake_frame hbody']
  exact sameOutcome_ofBody o o' version hsuites rest

theorem body_lt_of_message (h : (o.message version suites rest).length < 256 ^ 2) :
    (o.body version suites rest).length < 256 ^ 3 := by
  rw [message, Hello.length_frame] at h
  omega

end VerbatimFields

-- ======================================================== keys of shares

/-- Two lists of key shares with other keys of the same lengths in some of
the shares. What comes after the shares is the same, whatever it is. -/
inductive Rekeyed : Bytes → Bytes → Prop
  | rest (bs : Bytes) : Rekeyed bs bs
  | share {bs bs' key key' : Bytes} (group : UInt16) (hfits : key.length < 256 ^ 2)
      (hlength : key'.length = key.length) (h : Rekeyed bs bs') :
      Rekeyed (Entry.bytes ⟨group, key⟩ ++ bs) (Entry.bytes ⟨group, key'⟩ ++ bs')

/-- Two tilings that are the same but for the payloads of their entries
and the bytes left over, of which there are as many. -/
structure Tiling.SameTags (t t' : Tiling) : Prop where
  tags : t'.entries.map Entry.tag = t.entries.map Entry.tag
  leftover : t'.leftover.length = t.leftover.length

namespace Rekeyed

variable {list list' body : Bytes}

theorem length_eq (h : Rekeyed list list') : list'.length = list.length := by
  induction h with
  | rest bs => rfl
  | share group hfits hlength h ih =>
      rw [List.length_append, List.length_append, Entry.length_bytes, Entry.length_bytes, ih,
        hlength]

/-- The front of a list that begins with a share: a part of the share, or
all of it and the front of what follows. -/
theorem tile_take_share {group : UInt16} {key : Bytes} (hfits : key.length < 256 ^ 2) (bs : Bytes)
    (n : Nat) :
    EntryShape.tagged.tile ((Entry.bytes ⟨group, key⟩ ++ bs).take n)
      = if n < 4 + key.length then ⟨[], (Entry.bytes ⟨group, key⟩).take n⟩
        else ⟨⟨group, key⟩ :: (EntryShape.tagged.tile (bs.take (n - (4 + key.length)))).entries,
          (EntryShape.tagged.tile (bs.take (n - (4 + key.length)))).leftover⟩ := by
  have hshare : EntryShape.tagged.Fits ⟨group, key⟩ := ⟨group.toNat_lt, hfits⟩
  have hlength : (Entry.bytes ⟨group, key⟩).length = 4 + key.length := Entry.length_bytes _
  by_cases hcut : n < 4 + key.length
  · have hpart : n < (EntryShape.tagged.encodeEntry ⟨group, key⟩).length := hlength ▸ hcut
    rw [if_pos hcut, List.take_append_of_le_length (by omega)]
    exact EntryShape.tile_of_none (EntryShape.first?_take_encodeEntry hshare hpart)
  · rw [if_neg hcut, List.take_append, List.take_of_length_le (by omega), hlength]
    exact EntryShape.tile_of_some (EntryShape.first?_encodeEntry hshare _)

/-- However the two lists are cut, the same groups are read from them and
as much is left over. -/
theorem sameTags_take (h : Rekeyed list list') (n : Nat) :
    (EntryShape.tagged.tile (list.take n)).SameTags (EntryShape.tagged.tile (list'.take n)) := by
  induction h generalizing n with
  | rest bs => exact ⟨rfl, rfl⟩
  | @share bs bs' key key' group hfits hlength h ih =>
      rw [tile_take_share hfits, tile_take_share (hlength ▸ hfits), hlength]
      by_cases hcut : n < 4 + key.length
      · rw [if_pos hcut, if_pos hcut]
        refine ⟨rfl, ?_⟩
        rw [List.length_take, List.length_take, Entry.length_bytes, Entry.length_bytes, hlength]
      · rw [if_neg hcut, if_neg hcut]
        obtain ⟨htags, hleftover⟩ := ih (n - (4 + key.length))
        exact ⟨congrArg (group :: ·) htags, hleftover⟩

end Rekeyed

namespace ListKind

/-- Nothing but the groups and the number of bytes left over counts. -/
theorem decodeList_keyShare_congr {list list' : Bytes}
    (h : (EntryShape.tagged.tile list).SameTags (EntryShape.tagged.tile list')) :
    keyShare.decodeList list' = keyShare.decodeList list := by
  have hcut : keyShare.cutField? (EntryShape.tagged.tile list').leftover
      = keyShare.cutField? (EntryShape.tagged.tile list).leftover := by
    rw [cutField?, cutField?, h.leftover]
  have hentries : keyShare.decodeEntries (EntryShape.tagged.tile list').entries
      = keyShare.decodeEntries (EntryShape.tagged.tile list).entries := by
    rw [decodeEntries_keyShare, decodeEntries_keyShare, h.tags]
  have hshape : keyShare.format.shape = .tagged := rfl
  rw [decodeList_eq, decodeList_eq, hshape, hcut, hentries]

/-- The keys stand behind the length of the list, so a body with other
keys is cut where it was cut before. -/
theorem decode_keyShare_of_rekeyed {body list : Bytes} (h : Rekeyed (body.drop 2) list) :
    keyShare.decode (body.take 2 ++ list) = keyShare.decode body := by
  have hlength : (body.take 2 ++ list).length = body.length := by
    rw [List.length_append, h.length_eq, ← List.length_append, List.take_append_drop]
  have hwidth : keyShare.format.lengthBytes = 2 := rfl
  unfold decode
  rw [listOf_run, listOf_run, hwidth, hlength]
  by_cases hshort : body.length < 2
  · rw [if_pos hshort, if_pos hshort]
  have htake : (body.take 2).length = 2 := List.length_take_of_le (Nat.le_of_not_lt hshort)
  have hdeclared : Bytes.declaredLength 2 (body.take 2 ++ list) = Bytes.declaredLength 2 body := by
    rw [Bytes.declaredLength_append (Nat.le_of_eq htake.symm),
      Bytes.declaredLength_take (Nat.le_refl 2)]
  rw [if_neg hshort, if_neg hshort, hdeclared]
  by_cases hcut : body.length < 2 + Bytes.declaredLength 2 body
  · rw [if_pos hcut, if_pos hcut]
  rw [if_neg hcut, if_neg hcut]
  show keyShare.decodeList (Bytes.declared 2 (body.take 2 ++ list))
    = keyShare.decodeList (Bytes.declared 2 body)
  rw [Bytes.declared, Bytes.declared, hdeclared, List.drop_append_of_le_length (by omega),
    List.drop_of_length_le (by omega), List.nil_append]
  exact decodeList_keyShare_congr (h.sameTags_take _)

end ListKind

-- ======================================================= noninterference

/-- Key shares with other keys are refused for the same reason, or are the
same extension with the same note. -/
theorem Extension.ofEntry_of_rekeyed {body list : Bytes} (h : Rekeyed (body.drop 2) list) :
    ofEntry ⟨0x0033, body.take 2 ++ list⟩ = ofEntry ⟨0x0033, body⟩ := by
  have hlist (body : Bytes) : ofEntry ⟨0x0033, body⟩ = ListKind.keyShare.decode body :=
    ofEntry_of_list .keyShare rfl
  rw [hlist, hlist, ListKind.decode_keyShare_of_rekeyed h]

/-- Bytes that are kept as they came, and bytes of keys, decide nothing but
what is kept of them. Two messages that differ in nothing else, alone or in
records of any version, are refused for the same reason or accepted as
hellos that differ in nothing else. Two bodies of key shares that differ in
nothing else are decoded to the same extension, or refused for the same
reason, also into a slot. -/
theorem verbatim_noninterference :
    (∀ (o o' : VerbatimFields) (version : UInt16) (suites rest trailing trailing' : Bytes),
        suites.length < 256 ^ 2 → (o.body version suites rest).length < 256 ^ 3 →
        (o'.body version suites rest).length < 256 ^ 3 →
        o.SameOutcome o' (Hello.ofHandshake (o.message version suites rest ++ trailing))
          (Hello.ofHandshake (o'.message version suites rest ++ trailing')))
    ∧ (∀ (o o' : VerbatimFields) (version : UInt16) (suites rest trailing trailing' : Bytes)
        (major minor major' minor' : UInt8), suites.length < 256 ^ 2 →
        (o.message version suites rest).length < 256 ^ 2 →
        (o'.message version suites rest).length < 256 ^ 2 →
        o.SameOutcome o'
          (Hello.ofRecord
            (Hello.frameRecord major minor (o.message version suites rest) ++ trailing))
          (Hello.ofRecord
            (Hello.frameRecord major' minor' (o'.message version suites rest) ++ trailing')))
    ∧ ∀ body list : Bytes, Rekeyed (body.drop 2) list →
        Extension.ofEntry ⟨0x0033, body.take 2 ++ list⟩ = Extension.ofEntry ⟨0x0033, body⟩
        ∧ ∀ slot : ExtensionSlot,
            slot.step ⟨0x0033, body.take 2 ++ list⟩ = slot.step ⟨0x0033, body⟩ := by
  refine ⟨?_, ?_, ?_⟩
  · intro o o' version suites rest trailing trailing' hsuites hbody hbody'
    exact VerbatimFields.sameOutcome_ofHandshake hsuites hbody hbody' trailing trailing'
  · intro o o' version suites rest trailing trailing' major minor major' minor' hsuites hfits hfits'
    rw [Hello.ofRecord_frameRecord_append hfits, Hello.ofRecord_frameRecord_append hfits',
      ← List.append_nil (o.message version suites rest),
      ← List.append_nil (o'.message version suites rest)]
    exact VerbatimFields.sameOutcome_ofHandshake hsuites (VerbatimFields.body_lt_of_message hfits)
      (VerbatimFields.body_lt_of_message hfits') [] []
  · intro body list h
    have hentry := Extension.ofEntry_of_rekeyed h
    exact ⟨hentry, fun slot => slot.step_congr hentry⟩

/-- The fields of the sample, all of them bytes of GREASE. -/
def VerbatimFields.sample : VerbatimFields where
  random := Dissection.sample.random
  sessionId := Dissection.sample.sessionId
  compressionMethods := Dissection.sample.compressionMethods

/-- Other fields, which look like lengths. -/
def VerbatimFields.lengths : VerbatimFields where
  random := List.replicate 32 0xff
  sessionId := [0x00, 0x20]
  compressionMethods := [0x16]

/-- The sample with other fields; a block that is cut, in records; and the
key of one share next to a share that is cut. -/
theorem verbatim_noninterference_sample :
    (∃ h', Hello.ofHandshake (VerbatimFields.lengths.message 0x0303
          Dissection.sample.cipherSuites Dissection.sample.rest ++ []) = .ok h'
        ∧ VerbatimFields.sample.SameBesides .lengths Hello.sample h')
    ∧ Hello.ofRecord (Hello.frameRecord 0x03 0x01
          (VerbatimFields.lengths.message 0x0303 [] [0x00, 0x05, 0x00]) ++ [])
        = .error (.truncated "extensions data")
    ∧ Extension.ofEntry ⟨0x0033, [0x00, 0x0b, 0x00, 0x1d, 0x00, 0x02, 0x0a, 0x0a, 0x00, 0x17,
          0x00, 0x41, 0x04]⟩
        = .error (.truncated "key share key data") := by
  obtain ⟨hmessages, hrecords, hshares⟩ := verbatim_noninterference
  refine ⟨?_, ?_, ?_⟩
  · have hsame := hmessages .sample .lengths 0x0303 Dissection.sample.cipherSuites
      Dissection.sample.rest Dissection.sample.trailing [] (by decide) (by decide) (by decide)
    have hsample : Hello.ofHandshake (VerbatimFields.sample.message 0x0303
        Dissection.sample.cipherSuites Dissection.sample.rest ++ Dissection.sample.trailing)
          = .ok Hello.sample := by decide +kernel
    rw [hsample] at hsame
    generalize Hello.ofHandshake (VerbatimFields.lengths.message _ _ _ ++ _) = outcome at hsame ⊢
    cases hsame with
    | accepted same => exact ⟨_, rfl, same⟩
  · have hsame := hrecords .sample .lengths 0x0303 [] [0x00, 0x05, 0x00] [] [] 0x03 0x03 0x03 0x01
      (by decide) (by decide) (by decide)
    have hcut : Hello.ofRecord (Hello.frameRecord 0x03 0x03
        (VerbatimFields.sample.message 0x0303 [] [0x00, 0x05, 0x00]) ++ [])
          = .error (.truncated "extensions data") := by decide +kernel
    rw [hcut] at hsame
    generalize Hello.ofRecord (Hello.frameRecord 0x03 0x01 _ ++ _) = outcome at hsame ⊢
    cases hsame with
    | refused => rfl
  · have hrekeyed : Rekeyed (Entry.bytes ⟨0x001d, [0x01, 0x02]⟩ ++ [0x00, 0x17, 0x00, 0x41, 0x04])
        (Entry.bytes ⟨0x001d, [0x0a, 0x0a]⟩ ++ [0x00, 0x17, 0x00, 0x41, 0x04]) :=
      .share 0x001d (by decide) rfl (.rest _)
    obtain ⟨hentry, -⟩ := hshares (0x00 :: 0x0b :: _) _ hrekeyed
    exact hentry.trans (by decide +kernel)

end TlsHello
