/-
Lists that are asked for by type.

A type may be sent more than once, and then its first extension answers for
it: what the hello says of the protocols, versions, groups, signature
algorithms, key shares or modes that are offered is what the first
extension of that type holds on the wire (`Dissection.FirstLists`). It does
so even if its list is empty, or is empty once GREASE is dropped, and a
later one is not. Nothing else in the message plays a part: whoever sees
the first extension knows the answer (`Dissection.SameFirstLists`).

# The shape of the argument

The search is over what the extensions have become. An extension of the
type has become a list of its kind, which answers whatever is in it, and
one of another type does not answer (`ListKind.Asks`). So the first answer
is that of the first entry with the tag, by induction along the two
(`firstList_eq_of_forall₂`). What that entry holds is said by the grammar
of its list (`ListOutcome`).
-/
import TlsHello.Proofs.ListGrammar
import TlsHello.Proofs.Reorder

namespace TlsHello

-- ================================================ statement vocabulary

/-- The list is these protocol names, each with its length in one byte. -/
def Bytes.HoldsProtocols (list : Bytes) (protocols : List Bytes) : Prop :=
  (∀ p ∈ protocols, p.length < 256 ^ 1) ∧ protocols.flatMap (Bytes.vector 1) = list

/-- The list is key shares, and perhaps a few bytes after them, and these
are the groups of the shares that are no GREASE. -/
def Bytes.HoldsGroups (list : Bytes) (groups : List UInt16) : Prop :=
  ∃ (shares : List KeyShare) (leftover : Bytes), (∀ s ∈ shares, s.key.length < 256 ^ 2)
    ∧ shares.flatMap KeyShare.bytes ++ leftover = list ∧ leftover.length < 4
    ∧ groups = (shares.map KeyShare.group).filter fun v => !isGrease v

namespace Dissection

/-- The first extension of a type on the wire. -/
def first? (s : Dissection) (typeId : UInt16) : Option Entry :=
  s.entries.find? fun e => e.tag == typeId

/-- The answer is what is held by the list in the first extension of the
type, and empty if there is none. The list has its length in front, in
`width` bytes. -/
structure FirstHolds (s : Dissection) (typeId : UInt16) (width : Nat)
    (Holds : Bytes → List α → Prop) (answer : List α) : Prop where
  absent : s.first? typeId = none → answer = []
  first : ∀ e, s.first? typeId = some e → Holds (Bytes.declared width e.payload) answer

/-- The lists that a hello has, type by type. -/
structure FirstLists (s : Dissection) (h : Hello) : Prop where
  alpnProtocols : s.FirstHolds 0x0010 2 Bytes.HoldsProtocols h.extensions.alpnProtocols
  supportedVersions :
    s.FirstHolds 0x002b 1 (fun list versions =>
      versions = (Bytes.words list).filter fun v => !isGrease v) h.extensions.supportedVersions
  supportedGroups :
    s.FirstHolds 0x000a 2 (fun list groups =>
      groups = (Bytes.words list).filter fun v => !isGrease v) h.extensions.supportedGroups
  signatureAlgorithms :
    s.FirstHolds 0x000d 2 (fun list algorithms => algorithms = Bytes.words list)
      h.extensions.signatureAlgorithms
  keyShareGroups : s.FirstHolds 0x0033 2 Bytes.HoldsGroups h.extensions.keyShareGroups
  pskModes : s.FirstHolds 0x002d 1 (fun list modes => modes = list) h.extensions.pskModes

/-- Where two messages have the same first extension of a type, or none of
them has one, their hellos have the same list of that type. -/
structure SameFirstLists (s s' : Dissection) (h h' : Hello) : Prop where
  alpnProtocols : s'.first? 0x0010 = s.first? 0x0010 →
    h'.extensions.alpnProtocols = h.extensions.alpnProtocols
  supportedVersions : s'.first? 0x002b = s.first? 0x002b →
    h'.extensions.supportedVersions = h.extensions.supportedVersions
  supportedGroups : s'.first? 0x000a = s.first? 0x000a →
    h'.extensions.supportedGroups = h.extensions.supportedGroups
  signatureAlgorithms : s'.first? 0x000d = s.first? 0x000d →
    h'.extensions.signatureAlgorithms = h.extensions.signatureAlgorithms
  keyShareGroups : s'.first? 0x0033 = s.first? 0x0033 →
    h'.extensions.keyShareGroups = h.extensions.keyShareGroups
  pskModes : s'.first? 0x002d = s.first? 0x002d →
    h'.extensions.pskModes = h.extensions.pskModes

end Dissection

-- ================================================= one search, two sides

/-- What an extension on the wire answers, decoded alone. -/
def Entry.answer (list? : Extension → Option (List α)) (e : Entry) : List α :=
  match Extension.ofEntry e with
  | .ok d => (list? d.extension).getD []
  | .error _ => []

theorem Entry.answer_of_ofEntry {list? : Extension → Option (List α)} {e : Entry} {d : Decoded}
    (h : Extension.ofEntry e = .ok d) : e.answer list? = (list? d.extension).getD [] := by
  rw [answer, h]

/-- The first answer of what entries have become is the answer of the first
entry of the kind. -/
theorem firstList_eq_of_forall₂ {kind : ListKind} {list? : Extension → Option (List α)}
    (hasks : kind.Asks list?) {entries : List Entry} {xs : Extensions}
    (h : List.Forall₂ (fun e x => ∃ sawGrease, Extension.ofEntry e = .ok ⟨x, sawGrease⟩)
      entries xs) :
    xs.firstList list?
      = ((entries.find? fun e => e.tag == kind.id).map (Entry.answer list?)).getD [] := by
  induction h with
  | nil => rfl
  | @cons e x entries xs hex _ ih =>
      obtain ⟨sawGrease, he⟩ := hex
      by_cases htag : e.tag = kind.id
      · have hdecode := he
        rw [Extension.ofEntry_of_list kind htag] at hdecode
        obtain ⟨kept, rfl⟩ := ListKind.exists_extension_of_decode hdecode
        obtain ⟨answer, hanswer⟩ := Option.isSome_iff_exists.1 (hasks.isSome kept)
        have hfind : (e :: entries).find? (fun e => e.tag == kind.id) = some e := by
          simp [htag]
        rw [hfind, Option.map_some, Option.getD_some, Entry.answer_of_ofEntry he,
          Extensions.firstList, List.findSome?_cons, hanswer]
      · have hx : list? x = none := hasks.of_ne (Extension.typeId_of_ofEntry he ▸ htag)
        have hfind : (e :: entries).find? (fun e => e.tag == kind.id)
            = entries.find? fun e => e.tag == kind.id := by
          simp [htag]
        rw [hfind, ← ih, Extensions.firstList, List.findSome?_cons, hx]
        rfl

/-- What is accepted as a list of a kind is what the grammar says of the
list that the body declares. -/
theorem Extension.listOutcome_of_ofEntry {kind : ListKind} {e : Entry} {d : Decoded}
    (htag : e.tag = kind.id) (h : ofEntry e = .ok d) :
    ListOutcome (Bytes.declared kind.format.lengthBytes e.payload) kind (.ok d) := by
  rw [ofEntry_of_list kind htag, ListKind.decode_run] at h
  split at h
  · cases h
  · split at h
    · cases h
    · exact ListOutcome.decodeList_eq_iff.1 h

-- ============================================================ the message

namespace Dissection

variable {s s' : Dissection} {h h' : Hello} {kind : ListKind}
  {list? : Extension → Option (List α)}

theorem Describes.firstList_eq (hs : s.Describes h) (hasks : kind.Asks list?) :
    h.extensions.firstList list? = ((s.first? kind.id).map (Entry.answer list?)).getD [] :=
  firstList_eq_of_forall₂ hasks hs.extensions

theorem Describes.firstList_congr (hs : s.Describes h) (hs' : s'.Describes h')
    (hasks : kind.Asks list?) (hfirst : s'.first? kind.id = s.first? kind.id) :
    h'.extensions.firstList list? = h.extensions.firstList list? := by
  rw [hs'.firstList_eq hasks, hfirst, hs.firstList_eq hasks]

/-- What the first extension of a kind holds, if the grammar of the kind
says what its lists hold. -/
theorem Describes.firstHolds (hs : s.Describes h) (hasks : kind.Asks list?)
    {Holds : Bytes → List α → Prop}
    (hholds : ∀ list d, ListOutcome list kind (.ok d) →
      Holds list ((list? d.extension).getD [])) :
    s.FirstHolds kind.id kind.format.lengthBytes Holds (h.extensions.firstList list?) where
  absent := by
    intro hnone
    rw [hs.firstList_eq hasks, hnone]
    rfl
  first := by
    intro e hfirst
    have hmem : e ∈ s.entries := List.mem_of_find?_eq_some hfirst
    have htag : e.tag = kind.id := by simpa using List.find?_some hfirst
    obtain ⟨x, -, sawGrease, he⟩ := exists_right_of_mem hs.extensions hmem
    rw [hs.firstList_eq hasks, hfirst, Option.map_some, Option.getD_some,
      Entry.answer_of_ofEntry he]
    exact hholds _ _ (Extension.listOutcome_of_ofEntry htag he)

end Dissection

namespace Dissection

variable {s s' : Dissection} {h h' : Hello}

theorem Describes.firstLists (hs : s.Describes h) : s.FirstLists h where
  alpnProtocols := by
    refine hs.firstHolds .alpnProtocols fun list d houtcome => ?_
    cases houtcome with
    | protocols protocols hfits htiled => exact ⟨hfits, htiled⟩
  supportedVersions := by
    refine hs.firstHolds .supportedVersions fun list d houtcome => ?_
    cases houtcome with
    | supportedVersions => rfl
  supportedGroups := by
    refine hs.firstHolds .supportedGroups fun list d houtcome => ?_
    cases houtcome with
    | supportedGroups => rfl
  signatureAlgorithms := by
    refine hs.firstHolds .signatureAlgorithms fun list d houtcome => ?_
    cases houtcome with
    | signatureAlgorithms => rfl
  keyShareGroups := by
    refine hs.firstHolds .keyShareGroups fun list d houtcome => ?_
    cases houtcome with
    | keyShares shares leftover hfits htiled hshort =>
        exact ⟨shares, leftover, hfits, htiled, hshort, rfl⟩
  pskModes := by
    refine hs.firstHolds .pskModes fun list d houtcome => ?_
    cases houtcome with
    | pskModes => rfl

theorem Describes.sameFirstLists (hs : s.Describes h) (hs' : s'.Describes h') :
    s.SameFirstLists s' h h' where
  alpnProtocols := hs.firstList_congr hs' .alpnProtocols
  supportedVersions := hs.firstList_congr hs' .supportedVersions
  supportedGroups := hs.firstList_congr hs' .supportedGroups
  signatureAlgorithms := hs.firstList_congr hs' .signatureAlgorithms
  keyShareGroups := hs.firstList_congr hs' .keyShareGroups
  pskModes := hs.firstList_congr hs' .pskModes

end Dissection

/-- An accepted message can be dissected, and each list that its hello has
is the one in the first extension of its type, or empty without one.
Another accepted message with the same first extension has the same list,
whatever else is in it. -/
theorem firstLists_of_accepted (input : Bytes) (h : Hello)
    (hdecode : Hello.ofHandshake input = .ok h) :
    (∃ s : Dissection, s.Splits input)
    ∧ (∀ s : Dissection, s.Splits input → s.FirstLists h)
    ∧ ∀ (s s' : Dissection) (input' : Bytes) (h' : Hello), s.Splits input → s'.Splits input' →
        Hello.ofHandshake input' = .ok h' → s.SameFirstLists s' h h' := by
  refine ⟨Dissection.exists_splits hdecode, ?_, ?_⟩
  · intro s hs
    exact (hs.describes hdecode).firstLists
  · intro s s' input' h' hs hs' hdecode'
    exact (hs.describes hdecode).sameFirstLists (hs'.describes hdecode')

/-- A message whose first list of groups has only GREASE and whose first
list of protocols is empty. Both types come again with more in them. -/
def Dissection.emptied : Dissection :=
  { Dissection.sample with
    block := some
      { entries :=
          [⟨0x000a, [0x00, 0x02, 0x3a, 0x3a]⟩, ⟨0x0010, [0x00, 0x00]⟩,
            ⟨0x000d, [0x00, 0x04, 0x2a, 0x2a, 0x04, 0x03]⟩, ⟨0x000a, [0x00, 0x02, 0x00, 0x1d]⟩,
            ⟨0x0010, [0x00, 0x03, 0x02, 0x68, 0x32]⟩]
        leftover := [] } }

/-- What it is decoded to. -/
def Hello.emptied : Hello :=
  { Hello.sample with
    extensions :=
      [.supportedGroups [], .alpnProtocols [], .signatureAlgorithms [0x2a2a, 0x0403],
        .supportedGroups [0x001d], .alpnProtocols [[0x68, 0x32]]] }

theorem firstLists_emptied :
    Hello.emptied.extensions.supportedGroups = []
    ∧ Hello.emptied.extensions.alpnProtocols = []
    ∧ Hello.emptied.extensions.pskModes = []
    ∧ Hello.emptied.extensions.signatureAlgorithms = [0x2a2a, 0x0403]
    ∧ Hello.sample.extensions.signatureAlgorithms
        = Hello.emptied.extensions.signatureAlgorithms := by
  obtain ⟨-, hfirst, hsame⟩ := firstLists_of_accepted Dissection.emptied.bytes Hello.emptied
    (by decide +kernel)
  have hsplits : Dissection.emptied.Splits Dissection.emptied.bytes := by decide +kernel
  have hlists := hfirst Dissection.emptied hsplits
  refine ⟨?_, ?_, ?_, ?_, ?_⟩
  · exact hlists.supportedGroups.first ⟨0x000a, [0x00, 0x02, 0x3a, 0x3a]⟩ rfl
  · obtain ⟨-, htiled⟩ := hlists.alpnProtocols.first ⟨0x0010, [0x00, 0x00]⟩ rfl
    refine List.eq_nil_iff_forall_not_mem.2 fun p hp => ?_
    have hlength := congrArg List.length (List.flatMap_eq_nil_iff.1 htiled p hp)
    rw [Bytes.length_vector, List.length_nil] at hlength
    omega
  · exact hlists.pskModes.absent rfl
  · exact hlists.signatureAlgorithms.first
      ⟨0x000d, [0x00, 0x04, 0x2a, 0x2a, 0x04, 0x03]⟩ rfl
  · exact (hsame Dissection.emptied Dissection.sample Dissection.sample.bytes Hello.sample hsplits
      (by decide +kernel) (by decide +kernel)).signatureAlgorithms rfl

end TlsHello
