/-
Extensions in another order.

Clients shuffle their extensions. This file says what that can change: two
extensions of different types may change places, and then nothing that is
asked of the hello is answered differently, no cipher suite and no note of
GREASE is another, and the extensions are the same ones in the new order.
Two of the same type may not, since the first of a type counts.

`Reorders` is a list in another order that keeps the order of elements with
the same key; it comes with the permutation of places, so that the order of
what was decoded can be compared with the order of what was sent
(`reordered_alike`).

# The shape of the argument

A query is answered by extensions of one type (`ListKind.Asks.of_ne`), so it
is asked of the extensions of that type alone, and those stand in the same
order in both lists. To see that, each element is
kept together with the place where it stood (`places`): among elements with
one key the places increase in both lists, and a list with increasing
places is determined by what is in it (`Reorders.filter_eq`).

On the wire an entry is decoded alone, so the permutation of the entries is
that of the decoded extensions (`Reorders.of_forall₂`). A message whose
entries are reordered keeps all its lengths, so it is a message again.
-/
import Mathlib.Logic.Equiv.Basic
import Mathlib.Data.List.Sigma
import TlsHello.Proofs.Grease
import TlsHello.Proofs.Lookup

namespace TlsHello

-- ========================================================= another order

/-- The second list is the first in another order: at place `i` stands what
stood at place `σ i`. Elements with the same key stay in their order. -/
structure Reorders (key : α → κ) (σ : Equiv.Perm Nat) (xs ys : List α) : Prop where
  getElem?_eq : ∀ i, ys[i]? = xs[σ i]?
  keeps_order : ∀ i j x y, i < j → ys[i]? = some x → ys[j]? = some y → key x = key y → σ i < σ j

/-- Each element with the place where it stood. -/
def places (σ : Equiv.Perm Nat) (ys : List α) : List (α × Nat) :=
  ys.zipIdx.map fun p => (p.1, σ p.2)

namespace Reorders

variable {key : α → κ} {σ : Equiv.Perm Nat} {xs ys : List α}

theorem mem_places_iff {x : α} {i : Nat} : (x, i) ∈ places σ ys ↔ ys[σ.symm i]? = some x := by
  unfold places
  simp only [List.mem_map, Prod.mk.injEq, Prod.exists, List.mk_mem_zipIdx_iff_getElem?]
  constructor
  · rintro ⟨y, j, hy, rfl, rfl⟩
    rw [σ.symm_apply_apply]
    exact hy
  · intro hx
    exact ⟨x, σ.symm i, hx, rfl, σ.apply_symm_apply i⟩

theorem pairwise_zipIdx (xs : List α) : xs.zipIdx.Pairwise fun p q => p.2 < q.2 := by
  have hrange : (xs.zipIdx.map Prod.snd).Pairwise (· < ·) := by
    rw [List.zipIdx_map_snd]
    exact List.pairwise_lt_range'
  exact List.pairwise_map.1 hrange

/-- What stood somewhere stands somewhere. -/
theorem places_perm (h : Reorders key σ xs ys) : (places σ ys).Perm xs.zipIdx := by
  have hnodup : (places σ ys).Nodup := by
    refine List.Nodup.map ?_ (List.nodup_zipIdx_map_snd ys).of_map
    intro p q hpq
    obtain ⟨hfst, hsnd⟩ := Prod.mk.inj hpq
    exact Prod.ext hfst (σ.injective hsnd)
  rw [List.perm_ext_iff_of_nodup hnodup (List.nodup_zipIdx_map_snd xs).of_map]
  intro ⟨x, i⟩
  rw [mem_places_iff, List.mk_mem_zipIdx_iff_getElem?, h.getElem?_eq, σ.apply_symm_apply]

theorem map_fst_places (σ : Equiv.Perm Nat) (ys : List α) : (places σ ys).map Prod.fst = ys := by
  unfold places
  rw [List.map_map]
  exact List.zipIdx_map_fst 0 ys

theorem perm (h : Reorders key σ xs ys) : ys.Perm xs := by
  have hperm := h.places_perm.map Prod.fst
  rwa [map_fst_places, List.zipIdx_map_fst] at hperm

/-- Among elements with the same key the places increase. -/
theorem pairwise_places (h : Reorders key σ xs ys) :
    (places σ ys).Pairwise fun p q => key p.1 = key q.1 → p.2 < q.2 := by
  unfold places
  rw [List.pairwise_map]
  refine (pairwise_zipIdx ys).imp_of_mem ?_
  intro ⟨x, i⟩ ⟨y, j⟩ hx hy hlt hkey
  rw [List.mk_mem_zipIdx_iff_getElem?] at hx hy
  exact h.keeps_order i j x y hlt hx hy hkey

/-- Of elements with one key both lists hold the same, in the same
order. -/
theorem filter_eq (h : Reorders key σ xs ys) {p : α → Bool}
    (hp : ∀ x y, p x = true → p y = true → key x = key y) : ys.filter p = xs.filter p := by
  have hplaces : (places σ ys).filter (p ∘ Prod.fst) = xs.zipIdx.filter (p ∘ Prod.fst) := by
    have hys : ((places σ ys).filter (p ∘ Prod.fst)).Pairwise fun a b => a.2 < b.2 := by
      refine (h.pairwise_places.filter _).imp_of_mem fun {a b} ha hb hab => hab ?_
      exact hp a.1 b.1 (List.mem_filter.1 ha).2 (List.mem_filter.1 hb).2
    have hxs : (xs.zipIdx.filter (p ∘ Prod.fst)).Pairwise fun a b => a.2 < b.2 :=
      (pairwise_zipIdx xs).filter _
    refine List.Perm.eq_of_pairwise ?_ hys hxs (h.places_perm.filter _)
    intro a b _ _ hab hba
    exact absurd hab (Nat.lt_asymm hba)
  have hmap := congrArg (List.map Prod.fst) hplaces
  rwa [← List.filter_map, ← List.filter_map, map_fst_places, List.zipIdx_map_fst] at hmap

/-- What is made of the elements, each by itself, is reordered with
them. -/
theorem of_forall₂ {R : α → β → Prop} {key' : β → κ} {as bs : List β} (h : Reorders key σ xs ys)
    (hxs : List.Forall₂ R xs as) (hys : List.Forall₂ R ys bs)
    (hunique : ∀ x a b, R x a → R x b → a = b) (hkey : ∀ x a, R x a → key' a = key x) :
    Reorders key' σ as bs where
  getElem?_eq := by
    intro i
    have hi := h.getElem?_eq i
    rcases forall₂_getElem? hys i with ⟨hy, hb⟩ | ⟨y, b, hy, hb, hyb⟩
    · rw [hy] at hi
      rcases forall₂_getElem? hxs (σ i) with ⟨-, ha⟩ | ⟨x, a, hx, -, -⟩
      · rw [hb, ha]
      · rw [hx] at hi
        cases hi
    · rw [hy] at hi
      rcases forall₂_getElem? hxs (σ i) with ⟨hx, -⟩ | ⟨x, a, hx, ha, hxa⟩
      · rw [hx] at hi
        cases hi
      · rw [hx] at hi
        obtain rfl := Option.some.inj hi
        rw [hb, ha, hunique y b a hyb hxa]
  keeps_order := by
    intro i j a b hij ha hb hab
    rcases forall₂_getElem? hys i with ⟨-, hnone⟩ | ⟨x, a', hx, ha', hxa⟩
    · rw [ha] at hnone
      cases hnone
    rcases forall₂_getElem? hys j with ⟨-, hnone⟩ | ⟨y, b', hy, hb', hyb⟩
    · rw [hb] at hnone
      cases hnone
    obtain rfl := Option.some.inj (ha.symm.trans ha')
    obtain rfl := Option.some.inj (hb.symm.trans hb')
    rw [hkey x a hxa, hkey y b hyb] at hab
    exact h.keeps_order i j x y hij hx hy hab

end Reorders

-- ====================================================== asked for by type

namespace ListKind

/-- The query is for the lists of one kind. -/
inductive Asks : ListKind → {α : Type} → (Extension → Option (List α)) → Prop
  | serverNames : Asks serverName Extension.serverNames?
  | alpnProtocols : Asks alpn Extension.alpnProtocols?
  | supportedVersions : Asks supportedVersions Extension.supportedVersions?
  | supportedGroups : Asks supportedGroups Extension.supportedGroups?
  | signatureAlgorithms : Asks signatureAlgorithms Extension.signatureAlgorithms?
  | keyShareGroups : Asks keyShare Extension.keyShareGroups?
  | pskModes : Asks pskModes Extension.pskModes?

variable {kind : ListKind} {list? : Extension → Option (List α)}

/-- Every list of the kind answers. -/
theorem Asks.isSome (hasks : kind.Asks list?) (entries : List Entry) :
    (list? (kind.extension entries)).isSome = true := by
  cases hasks <;> rfl

/-- Nothing of another type does. -/
theorem Asks.of_ne (hasks : kind.Asks list?) {x : Extension} (h : x.typeId ≠ kind.id) :
    list? x = none := by
  cases hasks <;> cases x <;> first | rfl | exact absurd rfl h

end ListKind

theorem Extension.renegotiationInfo?_of_ne {x : Extension}
    (h : x.typeId ≠ ExtensionType.renegotiationInfo.id) : x.renegotiationInfo? = none := by
  cases x with
  | renegotiationInfo => exact absurd rfl h
  | _ => rfl

namespace Extensions

/-- The extensions of a type, in their order. -/
def ofType (typeId : UInt16) (xs : Extensions) : Extensions := xs.filter fun x => x.typeId == typeId

/-- The two lists answer every query alike. -/
structure SameAnswers (xs ys : Extensions) : Prop where
  serverName : ys.serverName = xs.serverName
  alpnProtocols : ys.alpnProtocols = xs.alpnProtocols
  supportedVersions : ys.supportedVersions = xs.supportedVersions
  supportedGroups : ys.supportedGroups = xs.supportedGroups
  signatureAlgorithms : ys.signatureAlgorithms = xs.signatureAlgorithms
  keyShareGroups : ys.keyShareGroups = xs.keyShareGroups
  pskModes : ys.pskModes = xs.pskModes
  hasRenegotiationInfo : ys.hasRenegotiationInfo = xs.hasRenegotiationInfo
  body? : ∀ typeId, ys.body? typeId = xs.body? typeId

variable {xs ys : Extensions}

/-- Lists with the same extensions of each type, in the same order, answer
alike, however the types are mixed. -/
theorem sameAnswers_of_ofType (h : ∀ typeId, ys.ofType typeId = xs.ofType typeId) :
    xs.SameAnswers ys := by
  -- the filter drops what is of another type, and that does not answer
  have hnone {β : Type} {f : Extension → Option β} {typeId : UInt16}
      (hf : ∀ x : Extension, x.typeId ≠ typeId → f x = none) :
      ∀ x : Extension, (x.typeId == typeId) = false → f x = none :=
    fun x hx => hf x (ne_of_beq_false hx)
  have hfirst {kind : ListKind} {α : Type} {list? : Extension → Option (List α)}
      (hasks : kind.Asks list?) : ys.firstList list? = xs.firstList list? :=
    firstList_congr (hnone fun _ => hasks.of_ne) (h kind.id)
  exact {
    serverName := serverName_congr (hnone fun _ => ListKind.Asks.serverNames.of_ne) (h _)
    alpnProtocols := hfirst .alpnProtocols
    supportedVersions := hfirst .supportedVersions
    supportedGroups := hfirst .supportedGroups
    signatureAlgorithms := hfirst .signatureAlgorithms
    keyShareGroups := hfirst .keyShareGroups
    pskModes := hfirst .pskModes
    hasRenegotiationInfo :=
      hasRenegotiationInfo_congr (hnone fun _ => Extension.renegotiationInfo?_of_ne) (h _)
    body? := fun typeId => findSome?_congr (hnone fun _ => Extension.bodyOf?_of_typeId_ne) (h typeId) }

theorem ofType_of_reorders {σ : Equiv.Perm Nat} (h : Reorders Extension.typeId σ xs ys)
    (typeId : UInt16) : ys.ofType typeId = xs.ofType typeId := by
  refine h.filter_eq fun x y hx hy => ?_
  rw [eq_of_beq hx, eq_of_beq hy]

end Extensions

/-- The two hellos are the same but for the order of their extensions, and
cannot be told apart by asking. -/
structure Hello.SameBesidesOrder (σ : Equiv.Perm Nat) (h h' : Hello) : Prop where
  legacyVersion : h'.legacyVersion = h.legacyVersion
  random : h'.random = h.random
  sessionId : h'.sessionId = h.sessionId
  cipherSuites : h'.cipherSuites = h.cipherSuites
  compressionMethods : h'.compressionMethods = h.compressionMethods
  extensions : Reorders Extension.typeId σ h.extensions h'.extensions
  hasGrease : h'.hasGrease = h.hasGrease
  answers : h.extensions.SameAnswers h'.extensions

-- ============================================================ the message

namespace Dissection

variable {s : Dissection} {input : Bytes} {entries : List Entry} {h h' : Hello}
  {σ : Equiv.Perm Nat}

/-- The message with other entries in its block, if it has one. -/
def withEntries (s : Dissection) (entries : List Entry) : Dissection :=
  { s with block := s.block.map fun block => { block with entries } }

theorem entries_withEntries (hperm : entries.Perm s.entries) :
    (s.withEntries entries).entries = entries := by
  unfold withEntries
  unfold Dissection.entries at hperm ⊢
  cases hblock : s.block with
  | none =>
      rw [hblock] at hperm
      exact hperm.eq_nil.symm
  | some block => rfl

theorem perm_of_block {block : Tiling} (hblock : s.block = some block)
    (hperm : entries.Perm s.entries) : entries.Perm block.entries := by
  unfold Dissection.entries at hperm
  rwa [hblock] at hperm

/-- The same entries take up the same room in any order. -/
theorem length_block_of_perm {block : Tiling} (hperm : entries.Perm block.entries) :
    ({ block with entries } : Tiling).bytes.length = block.bytes.length := by
  unfold Tiling.bytes
  rw [List.length_append, List.length_append, (hperm.flatMap_right _).length_eq]

theorem length_body_withEntries (hperm : entries.Perm s.entries) :
    (s.withEntries entries).body.length = s.body.length := by
  unfold body rest withEntries
  cases hblock : s.block with
  | none => rfl
  | some block =>
      have hlength := length_block_of_perm (perm_of_block hblock hperm)
      simp only [Option.map_some, List.length_append, Bytes.length_vector, hlength]

/-- A message with its entries in another order is a message. -/
theorem Splits.withEntries (hs : s.Splits input) (hperm : entries.Perm s.entries) :
    (s.withEntries entries).Splits (s.withEntries entries).bytes := by
  refine ⟨rfl, hs.random, hs.sessionId, hs.cipherSuites, hs.compressionMethods, ?_, ?_, ?_, ?_, ?_⟩
  · rw [entries_withEntries hperm]
    intro e he
    exact hs.payloads e (hperm.subset he)
  · intro block hblock
    obtain ⟨block', hblock', rfl⟩ := Option.map_eq_some_iff.1 hblock
    rw [length_block_of_perm (perm_of_block hblock' hperm)]
    exact hs.block block' hblock'
  · intro block hblock
    obtain ⟨block', hblock', rfl⟩ := Option.map_eq_some_iff.1 hblock
    exact hs.leftover block' hblock'
  · intro hnone
    exact hs.after (Option.map_eq_none_iff.1 hnone)
  · rw [length_body_withEntries hperm]
    exact hs.body

/-- Whether a message is accepted does not depend on the order in which
its entries are looked at. -/
theorem Splits.accepts_iff (hs : s.Splits input) :
    (∃ h, Hello.ofHandshake input = .ok h) ↔ ∀ e ∈ s.entries, ∃ d, Extension.ofEntry e = .ok d := by
  rw [← exists_forall₂_iff]
  constructor
  · intro ⟨h, hdecode⟩
    obtain ⟨decoded, hdecoded, -⟩ := hs.ofHandshake_eq_ok_iff.1 hdecode
    exact ⟨decoded, hdecoded⟩
  · intro ⟨decoded, hdecoded⟩
    exact ⟨_, hs.ofHandshake_eq_ok_iff.2 ⟨decoded, hdecoded, rfl⟩⟩

theorem Splits.accepts_withEntries_iff (hs : s.Splits input) (hperm : entries.Perm s.entries) :
    (∃ h, Hello.ofHandshake input = .ok h)
      ↔ ∃ h, Hello.ofHandshake (s.withEntries entries).bytes = .ok h := by
  rw [hs.accepts_iff, (hs.withEntries hperm).accepts_iff, entries_withEntries hperm]
  constructor
  · intro haccepted e he
    exact haccepted e (hperm.subset he)
  · intro haccepted e he
    exact haccepted e (hperm.symm.subset he)

theorem hasGrease_withEntries (hperm : entries.Perm s.entries) :
    (s.withEntries entries).HasGrease ↔ s.HasGrease := by
  unfold Dissection.HasGrease
  rw [entries_withEntries hperm]
  simp only [hperm.mem_iff, withEntries]

theorem Splits.sameBesidesOrder (hs : s.Splits input)
    (hentries : Reorders Entry.tag σ s.entries entries) (hdecode : Hello.ofHandshake input = .ok h)
    (hdecode' : Hello.ofHandshake (s.withEntries entries).bytes = .ok h') :
    h.SameBesidesOrder σ h' := by
  have hperm := hentries.perm
  have hs' := hs.withEntries hperm
  obtain ⟨hversion, hrandom, hid, hmethods, hsuites, hdecoded⟩ := hs.describes hdecode
  obtain ⟨hversion', hrandom', hid', hmethods', hsuites', hdecoded'⟩ := hs'.describes hdecode'
  rw [entries_withEntries hperm] at hdecoded'
  have hextensions : Reorders Extension.typeId σ h.extensions h'.extensions := by
    refine hentries.of_forall₂ hdecoded hdecoded' ?_ ?_
    · intro e x y ⟨sawGrease, hx⟩ ⟨sawGrease', hy⟩
      exact congrArg Decoded.extension (Except.ok.inj (hx.symm.trans hy))
    · intro e x ⟨sawGrease, hx⟩
      exact Extension.typeId_of_ofEntry hx
  refine ⟨hversion'.trans hversion.symm, hrandom'.trans hrandom.symm, hid'.trans hid.symm,
    hsuites'.trans hsuites.symm, hmethods'.trans hmethods.symm, hextensions, ?_, ?_⟩
  · rw [Bool.eq_iff_iff, hs.hasGrease_iff hdecode, hs'.hasGrease_iff hdecode']
    exact hasGrease_withEntries hperm
  · exact Extensions.sameAnswers_of_ofType (Extensions.ofType_of_reorders hextensions)

end Dissection

/-- Two lists of extensions that hold the same of each type, in the same
order, answer every query alike. And a message whose extensions change
places, but for those of one type, is accepted if it was before, with the
same extensions in the new order and everything else as it was. -/
theorem reordered_alike :
    (∀ xs ys : Extensions, (∀ typeId, ys.ofType typeId = xs.ofType typeId) → xs.SameAnswers ys)
    ∧ ∀ (s : Dissection) (input : Bytes) (entries : List Entry) (σ : Equiv.Perm Nat),
        s.Splits input → Reorders Entry.tag σ s.entries entries →
        (s.withEntries entries).Splits (s.withEntries entries).bytes
        ∧ ((∃ h, Hello.ofHandshake input = .ok h)
          ↔ ∃ h', Hello.ofHandshake (s.withEntries entries).bytes = .ok h')
        ∧ ∀ h h', Hello.ofHandshake input = .ok h →
            Hello.ofHandshake (s.withEntries entries).bytes = .ok h' → h.SameBesidesOrder σ h' := by
  refine ⟨fun xs ys h => Extensions.sameAnswers_of_ofType h, ?_⟩
  intro s input entries σ hs hentries
  refine ⟨hs.withEntries hentries.perm, hs.accepts_withEntries_iff hentries.perm, ?_⟩
  intro h h' hdecode hdecode'
  exact hs.sameBesidesOrder hentries hdecode hdecode'

/-- The entries of the repeated message with the first and the third in
each other's place. -/
def Dissection.exchanged : List Entry :=
  [⟨0x000a, [0x00, 0x02, 0x00, 0x1d]⟩, ⟨0xff01, [0x00]⟩, ⟨0x0017, [0x01]⟩, ⟨0x0017, [0x02]⟩,
    ⟨0x1a1a, []⟩, ⟨0xff01, [0x02, 0x03]⟩]

theorem Dissection.reorders_exchanged :
    Reorders Entry.tag (Equiv.swap 0 2) Dissection.repeated.entries exchanged where
  getElem?_eq := by
    intro i
    match i with
    | 0 | 1 | 2 | 3 | 4 | 5 => rfl
    | i + 6 => rw [Equiv.swap_apply_of_ne_of_ne (by omega) (by omega)]; rfl
  keeps_order := by
    intro i j x y hij hx hy hxy
    have hfinite : ∀ j < 6, ∀ i < j,
        exchanged[i]?.map Entry.tag = exchanged[j]?.map Entry.tag
          → Equiv.swap 0 2 i < Equiv.swap 0 2 j := by decide
    have hj : j < exchanged.length := (List.getElem?_eq_some_iff.1 hy).1
    apply hfinite j hj i hij
    rw [hx, hy]
    exact congrArg some hxy

/-- By hand, with unknown extensions of types that are taken apart; and on
the wire. -/
theorem reordered_alike_repeated :
    Extensions.SameAnswers
        [.unknown 0x000a [1], .supportedGroups [0x1d], .renegotiationInfo [0], .unknown 0xff01 [7]]
        [.renegotiationInfo [0], .unknown 0x000a [1], .unknown 0xff01 [7], .supportedGroups [0x1d]]
      ∧ ∃ h', Hello.ofHandshake
            (Dissection.repeated.withEntries Dissection.exchanged).bytes = .ok h'
          ∧ Hello.repeated.SameBesidesOrder (Equiv.swap 0 2) h' := by
  obtain ⟨hhand, hwire⟩ := reordered_alike
  refine ⟨hhand _ _ fun typeId => ?_, ?_⟩
  · by_cases hgroups : typeId = 0x000a
    · subst hgroups
      rfl
    by_cases hinfo : typeId = 0xff01
    · subst hinfo
      rfl
    simp [Extensions.ofType, Extension.typeId, ListKind.id, ExtensionType.id, Ne.symm hgroups,
      Ne.symm hinfo]
  · have hdecode : Hello.ofHandshake Dissection.repeated.bytes = .ok Hello.repeated := by
      decide +kernel
    obtain ⟨-, haccepts, hsame⟩ := hwire Dissection.repeated Dissection.repeated.bytes
      Dissection.exchanged (Equiv.swap 0 2) (by decide +kernel) Dissection.reorders_exchanged
    obtain ⟨h', hdecode'⟩ := haccepts.1 ⟨_, hdecode⟩
    exact ⟨h', hdecode', hsame _ h' hdecode hdecode'⟩

end TlsHello
