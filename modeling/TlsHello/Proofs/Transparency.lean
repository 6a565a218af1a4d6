/-
Decoding is blind to GREASE.

A message is described twice, the second time with GREASE inserted: words
among the cipher suites, versions and groups, key shares of a GREASE
group with whatever key, extensions of a GREASE type with whatever body,
as many as there is room for and between any two entries
(`HelloDescription.Greased`). `ofHandshake_greased` says that the two are
decoded to hellos that nobody who asks for what is not GREASE can tell
apart, and that the note of GREASE tells when something was inserted.

# The shape of the argument

An insertion is one relation of lists (`Inserted`), used at both levels:
whole extensions are inserted into a block whose other extensions have
insertions of their own. Whatever is inserted is filtered out again
(`Inserted.filter_map_eq`), and it is noted (`Inserted.any_iff`). In the
block the GREASE stays, as extensions that were not looked into; but no
query gets an answer from those (`Extensions.eq_none_of_hasGreaseType`).
-/
import TlsHello.Extension.Query
import TlsHello.Proofs.RoundTrip

namespace TlsHello

-- ============================================================ insertion

/-- The second list is the first with entries inserted, all of which are
`extra`. The entries that were there are `same` as before. -/
inductive Inserted (extra : α → Prop) (same : α → α → Prop) : List α → List α → Prop
  | nil : Inserted extra same [] []
  | keep {x y : α} {xs ys : List α} :
      same x y → Inserted extra same xs ys → Inserted extra same (x :: xs) (y :: ys)
  | insert {y : α} {xs ys : List α} :
      extra y → Inserted extra same xs ys → Inserted extra same xs (y :: ys)

namespace Inserted

variable {extra : α → Prop} {same : α → α → Prop} {xs ys : List α}

/-- What was inserted is dropped by a filter that keeps none of it. -/
theorem filter_map_eq {f : α → β} {p : β → Bool} (h : Inserted extra same xs ys)
    (hsame : ∀ x y, same x y → f y = f x) (hextra : ∀ y, extra y → p (f y) = false) :
    (ys.map f).filter p = (xs.map f).filter p := by
  induction h with
  | nil => rfl
  | keep hxy _ ih =>
      rw [List.map_cons, List.map_cons, hsame _ _ hxy, List.filter_cons, List.filter_cons, ih]
  | insert hy _ ih =>
      rw [List.map_cons, List.filter_cons_of_neg (Bool.eq_false_iff.1 (hextra _ hy)), ih]

/-- What is noted of all that was inserted is noted of the list if it was
before, or if there was a change at all. -/
theorem any_iff {p : α → Bool} (h : Inserted extra same xs ys)
    (hsame : ∀ x y, same x y → (p y = true ↔ p x = true ∨ y ≠ x))
    (hextra : ∀ y, extra y → p y = true) :
    ys.any p = true ↔ xs.any p = true ∨ ys ≠ xs := by
  induction h with
  | nil => exact ⟨Or.inl, fun h => h.resolve_right fun hne => hne rfl⟩
  | @keep x y xs ys hxy _ ih =>
      have hcons : y :: ys ≠ x :: xs ↔ y ≠ x ∨ ys ≠ xs := by
        rw [Ne, List.cons.injEq, not_and_or]
      rw [List.any_cons, List.any_cons, Bool.or_eq_true, Bool.or_eq_true, hsame x y hxy, ih,
        hcons, or_or_or_comm]
  | @insert y xs ys hy _ _ =>
      refine iff_of_true (List.any_eq_true.2 ⟨y, List.mem_cons_self, hextra y hy⟩) ?_
      by_cases heq : y :: ys = xs
      · exact .inl (List.any_eq_true.2 ⟨y, heq ▸ List.mem_cons_self, hextra y hy⟩)
      · exact .inr heq

end Inserted

/-- The second list has GREASE words inserted. -/
abbrev GreasedWords : List UInt16 → List UInt16 → Prop :=
  Inserted (fun v => isGrease v = true) Eq

/-- The second list has key shares of GREASE groups inserted. -/
abbrev GreasedShares : List KeyShare → List KeyShare → Prop :=
  Inserted (fun s => isGrease s.group = true) Eq

namespace ExtensionDescription

/-- The second extension has GREASE inserted in its list. -/
inductive Greased : ExtensionDescription → ExtensionDescription → Prop
  | refl (x : ExtensionDescription) : Greased x x
  | supportedGroups {vs ws : List UInt16} (dangling : Option UInt8) (after : Bytes) :
      GreasedWords vs ws → Greased (.supportedGroups vs dangling after)
        (.supportedGroups ws dangling after)
  | supportedVersions {vs ws : List UInt16} (dangling : Option UInt8) (after : Bytes) :
      GreasedWords vs ws → Greased (.supportedVersions vs dangling after)
        (.supportedVersions ws dangling after)
  | keyShares {ss ts : List KeyShare} (dangling after : Bytes) :
      GreasedShares ss ts → Greased (.keyShares ss dangling after) (.keyShares ts dangling after)

/-- An extension of a GREASE type. -/
def IsGreaseTyped (x : ExtensionDescription) : Prop :=
  ∃ typeId body, x = plain typeId body ∧ isGrease typeId = true

end ExtensionDescription

/-- The second list has extensions of GREASE types inserted, and any of
the others may have GREASE inserted in its list. -/
abbrev GreasedExtensions : List ExtensionDescription → List ExtensionDescription → Prop :=
  Inserted ExtensionDescription.IsGreaseTyped ExtensionDescription.Greased

/-- The second tail has GREASE inserted in its block, if it has one. -/
inductive BodyTail.Greased : BodyTail → BodyTail → Prop
  | short (after : Bytes) : Greased (.short after) (.short after)
  | block {xs ys : List ExtensionDescription} (leftover after : Bytes) :
      GreasedExtensions xs ys → Greased (.block xs leftover after) (.block ys leftover after)

/-- The second hello has GREASE inserted. -/
structure HelloDescription.Greased (d d' : HelloDescription) : Prop where
  legacyVersion : d'.legacyVersion = d.legacyVersion
  random : d'.random = d.random
  sessionId : d'.sessionId = d.sessionId
  suites : GreasedWords d.suites d'.suites
  suitesDangling : d'.suitesDangling = d.suitesDangling
  compressionMethods : d'.compressionMethods = d.compressionMethods
  tail : d.tail.Greased d'.tail

-- ============================================================== queries

/-- An extension of a GREASE type, not looked into. -/
def Extension.hasGreaseType : Extension → Bool
  | unknown typeId _ => isGrease typeId
  | _ => false

namespace Extensions

/-- The extensions that are not of a GREASE type. -/
def withoutGrease (xs : Extensions) : Extensions := xs.filter fun x => !x.hasGreaseType

/-- A query that is not about GREASE gets no answer from an extension
that the filter drops. -/
theorem eq_none_of_hasGreaseType {f : Extension → Option β}
    (hf : ∀ typeId body, isGrease typeId = true → f (.unknown typeId body) = none)
    (x : Extension) (hx : (!x.hasGreaseType) = false) : f x = none := by
  cases x with
  | unknown typeId body =>
      apply hf
      simpa [Extension.hasGreaseType] using hx
  | _ => cases hx

/-- A body that is asked for under a type that is not GREASE is not that
of a GREASE extension. -/
theorem body?_congr {xs ys : Extensions} {typeId : UInt16} (htype : isGrease typeId = false)
    (h : ys.withoutGrease = xs.withoutGrease) : body? typeId ys = body? typeId xs := by
  refine findSome?_congr (eq_none_of_hasGreaseType fun id body hid => if_neg ?_) h
  rintro rfl
  exact Bool.false_ne_true (htype.symm.trans hid)

end Extensions

/-- The two hellos answer alike whatever is asked of them that is not
about GREASE. -/
structure Hello.SameBesidesGrease (h h' : Hello) : Prop where
  legacyVersion : h'.legacyVersion = h.legacyVersion
  random : h'.random = h.random
  sessionId : h'.sessionId = h.sessionId
  cipherSuites : h'.cipherSuites = h.cipherSuites
  compressionMethods : h'.compressionMethods = h.compressionMethods
  extensions : h'.extensions.withoutGrease = h.extensions.withoutGrease
  serverName : h'.extensions.serverName = h.extensions.serverName
  alpnProtocols : h'.extensions.alpnProtocols = h.extensions.alpnProtocols
  supportedVersions : h'.extensions.supportedVersions = h.extensions.supportedVersions
  supportedGroups : h'.extensions.supportedGroups = h.extensions.supportedGroups
  signatureAlgorithms : h'.extensions.signatureAlgorithms = h.extensions.signatureAlgorithms
  keyShareGroups : h'.extensions.keyShareGroups = h.extensions.keyShareGroups
  pskModes : h'.extensions.pskModes = h.extensions.pskModes
  hasRenegotiationInfo : h'.extensions.hasRenegotiationInfo = h.extensions.hasRenegotiationInfo
  body? : ∀ typeId, isGrease typeId = false →
    h'.extensions.body? typeId = h.extensions.body? typeId

-- ============================================================= meanings

theorem GreasedWords.filter_eq {vs ws : List UInt16} (h : GreasedWords vs ws) :
    ws.filter (fun v => !isGrease v) = vs.filter fun v => !isGrease v := by
  have hmap := h.filter_map_eq (f := id) (p := fun v => !isGrease v)
    (fun _ _ hxy => hxy.symm) (fun v hv => by rw [id, hv]; rfl)
  rwa [List.map_id, List.map_id] at hmap

theorem GreasedWords.any_iff {vs ws : List UInt16} (h : GreasedWords vs ws) :
    ws.any isGrease = true ↔ vs.any isGrease = true ∨ ws ≠ vs :=
  Inserted.any_iff h (fun x y hxy => by simp [hxy]) fun _ hv => hv

namespace ExtensionDescription

variable {x y : ExtensionDescription}

theorem Greased.extension_eq (h : x.Greased y) : y.extension = x.extension := by
  cases h with
  | refl => rfl
  | supportedGroups _ _ hwords => exact congrArg Extension.supportedGroups hwords.filter_eq
  | supportedVersions _ _ hwords => exact congrArg Extension.supportedVersions hwords.filter_eq
  | keyShares _ _ hshares =>
      exact congrArg Extension.keyShareGroups
        (hshares.filter_map_eq (fun _ _ hxy => hxy ▸ rfl) fun s hs => by rw [hs]; rfl)

theorem Greased.hasGrease_iff (h : x.Greased y) :
    y.hasGrease = true ↔ x.hasGrease = true ∨ y ≠ x := by
  cases h with
  | refl => simp
  | supportedGroups _ _ hwords => simpa [hasGrease] using hwords.any_iff
  | supportedVersions _ _ hwords => simpa [hasGrease] using hwords.any_iff
  | keyShares _ _ hshares =>
      have hany := hshares.any_iff (p := fun s => isGrease s.group)
        (fun x y hxy => by simp [hxy]) fun _ hs => hs
      simpa [hasGrease] using hany

theorem IsGreaseTyped.hasGreaseType (h : x.IsGreaseTyped) : x.extension.hasGreaseType = true := by
  obtain ⟨typeId, body, rfl, htype⟩ := h
  have hid : typeId ≠ 0xff01 := by
    rintro rfl
    exact Bool.false_ne_true ((ExtensionType.isGrease_id .renegotiationInfo).symm.trans htype)
  rw [extension, if_neg hid]
  exact htype

theorem IsGreaseTyped.hasGrease (h : x.IsGreaseTyped) : x.hasGrease = true := by
  obtain ⟨typeId, body, rfl, htype⟩ := h
  exact htype

end ExtensionDescription

namespace BodyTail

variable {t t' : BodyTail}

theorem Greased.extensions (h : t.Greased t') : GreasedExtensions t.extensions t'.extensions := by
  cases h with
  | short => exact .nil
  | block _ _ hblock => exact hblock

/-- Tails differ if their extensions do: the rest is the same. -/
theorem Greased.extensions_ne_iff (h : t.Greased t') :
    t'.extensions ≠ t.extensions ↔ t' ≠ t := by
  cases h with
  | short => simp
  | block => simp [BodyTail.extensions]

end BodyTail

namespace HelloDescription.Greased

variable {d d' : HelloDescription}

theorem withoutGrease_eq (h : d.Greased d') :
    d'.hello.extensions.withoutGrease = d.hello.extensions.withoutGrease :=
  h.tail.extensions.filter_map_eq (fun _ _ hxy => hxy.extension_eq)
    fun _ hy => by rw [hy.hasGreaseType]; rfl

/-- Insertions are among the cipher suites or in the tail. -/
theorem ne_iff (h : d.Greased d') : d' ≠ d ↔ d'.suites ≠ d.suites ∨ d'.tail ≠ d.tail := by
  rw [← not_and_or]
  refine not_congr ⟨fun heq => heq ▸ ⟨rfl, rfl⟩, fun ⟨hsuites, htail⟩ => ?_⟩
  obtain ⟨hversion, hrandom, hid, -, hdangling, hmethods, -⟩ := h
  cases d
  cases d'
  simp_all

theorem hasGrease_iff (h : d.Greased d') :
    d'.hello.hasGrease = true ↔ d.hello.hasGrease = true ∨ d' ≠ d := by
  have hextensions := h.tail.extensions.any_iff (fun _ _ hxy => hxy.hasGrease_iff)
    fun _ hy => hy.hasGrease
  show (d'.suites.any isGrease || d'.tail.extensions.any _) = true
    ↔ (d.suites.any isGrease || d.tail.extensions.any _) = true ∨ _
  rw [Bool.or_eq_true, Bool.or_eq_true, h.suites.any_iff, hextensions,
    h.tail.extensions_ne_iff, h.ne_iff, or_or_or_comm]

theorem sameBesidesGrease (h : d.Greased d') : d.hello.SameBesidesGrease d'.hello := by
  have hextensions := h.withoutGrease_eq
  -- only for a body can one ask by type; the other queries know theirs
  have hnone {β : Type} {f : Extension → Option β} (hf : ∀ id body, f (.unknown id body) = none) :
      ∀ x, (!x.hasGreaseType) = false → f x = none :=
    Extensions.eq_none_of_hasGreaseType fun id body _ => hf id body
  exact {
    legacyVersion := h.legacyVersion
    random := h.random
    sessionId := h.sessionId
    cipherSuites := h.suites.filter_eq
    compressionMethods := h.compressionMethods
    extensions := hextensions
    serverName := Extensions.serverName_congr (hnone fun _ _ => rfl) hextensions
    alpnProtocols := Extensions.firstList_congr (hnone fun _ _ => rfl) hextensions
    supportedVersions := Extensions.firstList_congr (hnone fun _ _ => rfl) hextensions
    supportedGroups := Extensions.firstList_congr (hnone fun _ _ => rfl) hextensions
    signatureAlgorithms := Extensions.firstList_congr (hnone fun _ _ => rfl) hextensions
    keyShareGroups := Extensions.firstList_congr (hnone fun _ _ => rfl) hextensions
    pskModes := Extensions.firstList_congr (hnone fun _ _ => rfl) hextensions
    hasRenegotiationInfo :=
      Extensions.hasRenegotiationInfo_congr (hnone fun _ _ => rfl) hextensions
    body? := fun _ htype => Extensions.body?_congr htype hextensions }

end HelloDescription.Greased

/-- Whatever GREASE is inserted in a message, both messages are decoded,
whatever follows them, and to hellos that are the same besides GREASE.
The second has a note of it if the first has, or if there was an
insertion at all. -/
theorem ofHandshake_greased (d d' : HelloDescription) (hd : d.InRange) (hd' : d'.InRange)
    (hgreased : d.Greased d') (trailing trailing' : Bytes) :
    ∃ h h', Hello.ofHandshake (d.message ++ trailing) = .ok h
      ∧ Hello.ofHandshake (d'.message ++ trailing') = .ok h'
      ∧ h.SameBesidesGrease h'
      ∧ (h'.hasGrease = true ↔ h.hasGrease = true ∨ d' ≠ d) := by
  have hrun := HelloLayout.ofHandshake_message (HelloDescription.wellFormed_layout hd) trailing
  have hrun' := HelloLayout.ofHandshake_message (HelloDescription.wellFormed_layout hd') trailing'
  rw [HelloDescription.message_layout, HelloDescription.hello_layout] at hrun hrun'
  exact ⟨d.hello, d'.hello, hrun, hrun', hgreased.sameBesidesGrease, hgreased.hasGrease_iff⟩

/-- A hello without GREASE. -/
def HelloDescription.quiet : HelloDescription where
  legacyVersion := 0x0303
  random := List.replicate 32 0x5a
  sessionId := []
  suites := [0x1301, 0x1302]
  suitesDangling := none
  compressionMethods := [0]
  tail :=
    .block
      [.supportedVersions [0x0304, 0x0303] (some 0x03) [],
        .keyShares [⟨0x001d, [0x8a, 0x8a]⟩] [0x00, 0x1d, 0x00] [], .plain 0x0017 []]
      [0x00, 0x2b, 0x00] []

/-- The same with GREASE everywhere: in front, between and behind, the
same value twice, and in front of bytes that dangle. -/
def HelloDescription.noisy : HelloDescription where
  legacyVersion := 0x0303
  random := List.replicate 32 0x5a
  sessionId := []
  suites := [0x0a0a, 0x1301, 0x1a1a, 0x1302]
  suitesDangling := none
  compressionMethods := [0]
  tail :=
    .block
      [.plain 0x2a2a [0x00, 0x2b],
        .supportedVersions [0x0304, 0x3a3a, 0x3a3a, 0x0303] (some 0x03) [],
        .keyShares [⟨0x4a4a, [0x00]⟩, ⟨0x001d, [0x8a, 0x8a]⟩, ⟨0x4a4a, []⟩] [0x00, 0x1d, 0x00] [],
        .plain 0x0017 [], .plain 0x2a2a []]
      [0x00, 0x2b, 0x00] []

theorem HelloDescription.greased_quiet_noisy : quiet.Greased noisy where
  legacyVersion := rfl
  random := rfl
  sessionId := rfl
  suites := .insert rfl (.keep rfl (.insert rfl (.keep rfl .nil)))
  suitesDangling := rfl
  compressionMethods := rfl
  tail :=
    .block _ _ <| .insert ⟨_, _, rfl, rfl⟩
      <| .keep (.supportedVersions _ _ (.keep rfl (.insert rfl (.insert rfl (.keep rfl .nil)))))
      <| .keep (.keyShares _ _ (.insert rfl (.keep rfl (.insert rfl .nil))))
      <| .keep (.refl _) <| .insert ⟨_, _, rfl, rfl⟩ .nil

theorem ofHandshake_greased_noisy :
    ∃ h h', Hello.ofHandshake (HelloDescription.quiet.message ++ []) = .ok h
      ∧ Hello.ofHandshake (HelloDescription.noisy.message ++ [0x0a, 0x0a]) = .ok h'
      ∧ h.SameBesidesGrease h' ∧ h'.hasGrease = true := by
  obtain ⟨h, h', hrun, hrun', hsame, hgrease⟩ :=
    ofHandshake_greased .quiet .noisy (by decide +kernel) (by decide +kernel)
      HelloDescription.greased_quiet_noisy [] [0x0a, 0x0a]
  exact ⟨h, h', hrun, hrun', hsame, hgrease.2 (.inr (by decide))⟩

end TlsHello
