/-
The server name, over all the lists of server names.

Every other query is answered by the first extension of its type. The
server name is not: a list without a host name is passed over, however
many names of other types it has, and the search goes on in the next
list. It ends at the first host name there is, whether that is text or
not, and nothing behind it is looked at.

# The shape of the argument

The search goes through the names list by list and could stop at the end
of each. `serverName_eq` says that the ends do not matter: it is one
search through all the names. What is left is what the first element with
a property is in a list, and in two lists one after the other. That a name
is text is `Utf8.isValid_iff`.
-/
import TlsHello.Extension.Query
import TlsHello.Proofs.Utf8

namespace TlsHello

namespace ServerName

variable {n : ServerName}

theorem text?_of_text (h : ∃ text : List Char, Utf8.encode text = n.name) :
    n.text? = some n.name := if_pos (Utf8.isValid_iff.2 h)

theorem text?_of_no_text (h : ¬∃ text : List Char, Utf8.encode text = n.name) :
    n.text? = none := if_neg fun hvalid => h (Utf8.isValid_iff.1 hvalid)

end ServerName

namespace Extensions

variable {xs ys : Extensions}

theorem find?_isHostName_eq_none_iff {names : List ServerName} :
    names.find? ServerName.isHostName = none ↔ ∀ n ∈ names, n.nameType ≠ 0x00 := by
  simp [ServerName.isHostName, ServerName.hostName]

theorem serverName_of_no_hostName (h : ∀ n ∈ xs.allServerNames, n.nameType ≠ 0x00) :
    xs.serverName = none := by
  rw [serverName_eq, find?_isHostName_eq_none_iff.2 h]
  rfl

/-- The first host name is the answer, if it is text. -/
theorem serverName_of_first {front back : List ServerName} {n : ServerName}
    (hnames : xs.allServerNames = front ++ n :: back) (hfront : ∀ m ∈ front, m.nameType ≠ 0x00)
    (hhost : n.nameType = 0x00) : xs.serverName = n.text? := by
  have hn : n.isHostName = true := beq_iff_eq.2 hhost
  rw [serverName_eq, hnames, List.find?_append, find?_isHostName_eq_none_iff.2 hfront,
    Option.none_or, List.find?_cons_of_pos hn]
  rfl

/-- Once there is a host name, the extensions that follow do not count. -/
theorem serverName_append_of_hostName (h : ∃ n ∈ xs.allServerNames, n.nameType = 0x00)
    (ys : Extensions) : (xs ++ ys).serverName = xs.serverName := by
  rw [serverName_eq, serverName_eq, allServerNames_append, List.find?_append]
  cases hfind : xs.allServerNames.find? ServerName.isHostName with
  | none =>
      obtain ⟨n, hn, hhost⟩ := h
      exact absurd hhost (find?_isHostName_eq_none_iff.1 hfind n hn)
  | some entry => rfl

/-- Extensions without a host name in front do not count. -/
theorem serverName_append_of_no_hostName (h : ∀ n ∈ xs.allServerNames, n.nameType ≠ 0x00)
    (ys : Extensions) : (xs ++ ys).serverName = ys.serverName := by
  rw [serverName_eq, serverName_eq, allServerNames_append, List.find?_append,
    find?_isHostName_eq_none_iff.2 h, Option.none_or]

/-- The server name is the first host name among all the names that the
extensions have, in whichever of them it stands. If that is no text, there
is no server name, and neither is there if no entry is a host name. So of
two lists of extensions, one after the other, the first one with a host
name decides. -/
theorem serverName_is_first_hostName (xs : Extensions) :
    ((∀ n ∈ xs.allServerNames, n.nameType ≠ 0x00) → xs.serverName = none)
    ∧ (∀ (front : List ServerName) (n : ServerName) (back : List ServerName),
        xs.allServerNames = front ++ n :: back → (∀ m ∈ front, m.nameType ≠ 0x00) →
        n.nameType = 0x00 →
        ((∃ text : List Char, Utf8.encode text = n.name) → xs.serverName = some n.name)
        ∧ ((¬∃ text : List Char, Utf8.encode text = n.name) → xs.serverName = none))
    ∧ ∀ ys : Extensions,
        ((∃ n ∈ xs.allServerNames, n.nameType = 0x00) → (xs ++ ys).serverName = xs.serverName)
        ∧ ((∀ n ∈ xs.allServerNames, n.nameType ≠ 0x00) →
            (xs ++ ys).serverName = ys.serverName) := by
  refine ⟨serverName_of_no_hostName, ?_, ?_⟩
  · intro front n back hnames hfront hhost
    rw [serverName_of_first hnames hfront hhost]
    exact ⟨ServerName.text?_of_text, ServerName.text?_of_no_text⟩
  · intro ys
    exact ⟨fun h => serverName_append_of_hostName h ys,
      fun h => serverName_append_of_no_hostName h ys⟩

/-- Names, none of which is a host name. -/
def otherNames : Extensions :=
  [.serverNames [⟨0x01, [0x61]⟩], .pskModes [0x00], .serverNames [], .serverNames [⟨0x02, []⟩]]

/-- A host name that is cut inside a character, in front of a whole one. -/
def cutHostName : Extensions :=
  [.serverNames [⟨0x01, [0x61]⟩, ⟨0x00, [0x62, 0xe2, 0x82]⟩, ⟨0x00, [0x63]⟩]]

/-- An empty host name. -/
def emptyHostName : Extensions := [.serverNames [⟨0x00, []⟩]]

/-- Names of other types are passed over. A host name that is no text is
not, and no other takes its place; an empty one is text. -/
theorem serverName_is_first_hostName_cut :
    serverName (otherNames ++ cutHostName) = none
    ∧ serverName (cutHostName ++ emptyHostName) = cutHostName.serverName
    ∧ serverName (otherNames ++ emptyHostName) = some [] := by
  obtain ⟨-, hfirst, -⟩ := serverName_is_first_hostName (otherNames ++ cutHostName)
  obtain ⟨-, -, hcut⟩ := serverName_is_first_hostName cutHostName
  obtain ⟨-, -, hother⟩ := serverName_is_first_hostName otherNames
  obtain ⟨-, hempty, -⟩ := serverName_is_first_hostName emptyHostName
  refine ⟨?_, ?_, ?_⟩
  · apply (hfirst [⟨0x01, [0x61]⟩, ⟨0x02, []⟩, ⟨0x01, [0x61]⟩] ⟨0x00, [0x62, 0xe2, 0x82]⟩
      [⟨0x00, [0x63]⟩] rfl (by decide) rfl).2
    rw [← Utf8.isValid_iff]
    decide +kernel
  · exact (hcut emptyHostName).1 ⟨⟨0x00, [0x63]⟩, by decide, rfl⟩
  · rw [(hother emptyHostName).2 (by decide)]
    exact (hempty [] ⟨0x00, []⟩ [] rfl (List.forall_mem_nil _) rfl).1 ⟨[], rfl⟩

end Extensions

end TlsHello
