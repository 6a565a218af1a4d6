/-
Cursors in a run.

A cursor does not know that its position lies in its bytes, and its words
would wrap if it did not. This file says that they never do. Whatever is
read with a pile of cursors, whether it fails or not, what is entered and
what is left again: every cursor of the pile stays in its bytes, ranges
over the end of what the one below it has read, and has read exactly the
bytes that came out of it (`CursorStack.Follows`). So in every such pile a
read does what was asked for: it succeeds if the bytes are there, and fails
without a trace if they are not, be it asked for more bytes than there is
room to count past the position (`CursorStack.Reads`).

# The shape of the argument

What came out of a cursor is written down in a log beside it, as bytes, a
number as the bytes that it was read from. The invariant ties each cursor to
its log and to the cursor below. One lemma has the arithmetic of words
(`Cursor.InBounds.bytes_cases`): in bounds the difference is the number of
bytes left, so a read that is let through neither runs out of the bytes nor
wraps. From it comes what a step can do (`step_cases`), from that what it
keeps of the invariant (`Follows.step`), and from that, by induction along
the moves, what a run keeps (`Follows.run`).

The decoders of this library read with readers and not with cursors. In
bounds the two do the same (`Cursor.InBounds.bytes_eq_reader` and
`Cursor.InBounds.uint_eq_reader`).
-/
import TlsHello.Cursor
import TlsHello.Proofs.Reading
import Mathlib.Data.List.Induction

namespace TlsHello

-- ================================================ statement vocabulary

namespace CursorMove

/-- How many bytes a move reads, and as which field; leaving reads none. -/
def read? : CursorMove → Option (Nat × String)
  | uint width field => some (width, field)
  | bytes n field => some (n, field)
  | enter n field => some (n, field)
  | leave => none

/-- A move there is: numbers have one, two or three bytes, and sizes are
those of 64 bits. -/
def InRange : CursorMove → Prop
  | uint width _ => width = 1 ∨ width = 2 ∨ width = 3
  | bytes n _ => n < 2 ^ 64
  | enter n _ => n < 2 ^ 64
  | leave => True

/-- What a move makes of the bytes that it reads. -/
def value (m : CursorMove) (bs : Bytes) : CursorValue :=
  match m with
  | uint .. => .number (Cursor.word bs).toNat
  | _ => .bytes bs

end CursorMove

/-- The pile when the bytes of a move have been read off its top. -/
def CursorStack.put (s : CursorStack) (m : CursorMove) (bs : Bytes) (after : Cursor) :
    CursorStack :=
  match m with
  | .enter .. => { top := { data := bs }, below := after :: s.below }
  | _ => { s with top := after }

/-- The size that a cursor was asked for, and what came out of it, value by
value and each as its bytes. -/
structure CursorLog where
  size : Nat
  values : List Bytes := []
deriving DecidableEq, Repr

/-- The logs of a pile of cursors. -/
structure CursorLogs where
  top : CursorLog
  below : List CursorLog := []
deriving DecidableEq, Repr

def CursorLog.write (log : CursorLog) (bs : Bytes) : CursorLog :=
  { log with values := log.values ++ [bs] }

/-- Writes down what came of a move; a number as that many bytes as it was
asked for. -/
def CursorLogs.note (logs : CursorLogs) : CursorMove → Except DecodeError CursorValue → CursorLogs
  | .uint width _, .ok (.number n) => { logs with top := logs.top.write (Bytes.ofNat width n) }
  | .bytes _ _, .ok (.bytes bs) => { logs with top := logs.top.write bs }
  | .enter n _, .ok (.bytes bs) => { top := { size := n }, below := logs.top.write bs :: logs.below }
  | .leave, .ok .nothing =>
      match logs.below with
      | [] => logs
      | outer :: below => { top := outer, below }
  | _, _ => logs

/-- The logs of a list of moves, made on a pile that has logs. -/
def CursorStack.logs (s : CursorStack) (logs : CursorLogs) : List CursorMove → CursorLogs
  | [] => logs
  | m :: rest => (s.step m).2.logs (logs.note m (s.step m).1) rest

/-- The position of a cursor lies in its bytes, and nothing wraps. -/
structure Cursor.InBounds (c : Cursor) : Prop where
  size_lt : c.data.length < 2 ^ 64
  pos_le : c.pos.toNat ≤ c.data.length
  remaining_eq : c.remaining = c.data.length - c.pos.toNat

/-- A cursor has the size that it was asked for, and what came out of it is
what it has gone over. -/
structure Cursor.Logged (c : Cursor) (log : CursorLog) : Prop extends c.InBounds where
  size_eq : c.data.length = log.size
  values_eq : log.values.flatten = c.data.take c.pos.toNat

/-- Cursors on top of one another, the lowest over `data`, and each other
one over the end of what the one below it has gone over. -/
inductive Cursor.Piled (data : Bytes) : List Cursor → List CursorLog → Prop
  | bottom {c log} (logged : c.Logged log) (data_eq : c.data = data) : Piled data [c] [log]
  | inside {inner outer below innerLog outerLog logs} (logged : inner.Logged innerLog)
      (ends : inner.data <:+ outer.data.take outer.pos.toNat)
      (rest : Piled data (outer :: below) (outerLog :: logs)) :
      Piled data (inner :: outer :: below) (innerLog :: outerLog :: logs)

def CursorStack.Follows (s : CursorStack) (data : Bytes) (logs : CursorLogs) : Prop :=
  Cursor.Piled data (s.top :: s.below) (logs.top :: logs.below)

/-- How a cursor reads the next `n` bytes. -/
structure Cursor.Took (c : Cursor) (n : Nat) (bs : Bytes) (after : Cursor) : Prop where
  data_eq : after.data = c.data
  /-- Going on does not wrap. -/
  pos_eq : after.pos.toNat = c.pos.toNat + n
  remaining_eq : after.remaining + n = c.remaining
  length_eq : bs.length = n
  take_eq : after.data.take after.pos.toNat = c.data.take c.pos.toNat ++ bs

/-- A read of `n` bytes does what was asked for. -/
structure CursorStack.Reads (s : CursorStack) (m : CursorMove) (n : Nat) (field : String) :
    Prop where
  isOk_iff : (s.step m).1.isOk = true ↔ n ≤ s.top.remaining
  ok : ∀ value s', s.step m = (.ok value, s') →
    ∃ bs after, s.top.Took n bs after ∧ value = m.value bs ∧ s' = s.put m bs after
  error : ∀ e s', s.step m = (.error e, s') → e = .truncated field ∧ s' = s

-- ============================================================ one cursor

namespace Cursor

variable {c after : Cursor} {bs : Bytes} {n : Nat} {log : CursorLog}

theorem inBounds_of (hsize : c.data.length < 2 ^ 64) (hpos : c.pos.toNat ≤ c.data.length) :
    c.InBounds := by
  have hlength : (UInt64.ofNat c.data.length).toNat = c.data.length :=
    UInt64.toNat_ofNat_of_lt' hsize
  have hle : c.pos ≤ .ofNat c.data.length := by
    rw [UInt64.le_iff_toNat_le, hlength]
    exact hpos
  refine ⟨hsize, hpos, ?_⟩
  rw [remaining, left, UInt64.toNat_sub_of_le _ _ hle, hlength]

/-- In bounds a read of `n` bytes goes on by `n` bytes or, if fewer are left,
not at all. -/
theorem InBounds.bytes_cases (h : c.InBounds) (hn : n < 2 ^ 64) (field : String) :
    (n ≤ c.remaining ∧ ∃ bs after,
        c.bytes (.ofNat n) field = (.ok bs, after) ∧ c.Took n bs after ∧ after.InBounds)
      ∨ (c.remaining < n ∧ c.bytes (.ofNat n) field = (.error (.truncated field), c)) := by
  have hword : (UInt64.ofNat n).toNat = n := UInt64.toNat_ofNat_of_lt' hn
  have hsize := h.size_lt
  have hpos := h.pos_le
  have hremaining := h.remaining_eq
  have hleft : c.left < .ofNat n ↔ c.remaining < n := by
    rw [UInt64.lt_iff_toNat_lt, hword, remaining]
  by_cases hshort : c.remaining < n
  · right
    exact ⟨hshort, by rw [bytes, if_pos (hleft.2 hshort)]⟩
  · left
    have hgone : (c.pos + .ofNat n).toNat = c.pos.toNat + n := by
      rw [UInt64.toNat_add, hword]
      exact Nat.mod_eq_of_lt (by omega)
    have hle : (c.pos + .ofNat n).toNat ≤ c.data.length := by
      rw [hgone]
      omega
    have hafter : InBounds { c with pos := c.pos + .ofNat n } := inBounds_of hsize hle
    have hrest : remaining { c with pos := c.pos + .ofNat n }
        = c.data.length - (c.pos + .ofNat n).toNat := hafter.remaining_eq
    refine ⟨by omega, (c.data.drop c.pos.toNat).take n, { c with pos := c.pos + .ofNat n }, ?_, ?_,
      hafter⟩
    · rw [bytes, if_neg (mt hleft.1 hshort), hword]
    · refine ⟨rfl, hgone, ?_, ?_, ?_⟩
      · rw [hrest, hgone]
        omega
      · rw [List.length_take, List.length_drop]
        omega
      · rw [hgone, List.take_add]

/-- A byte that is shifted into a word with room for it is one more digit. -/
theorem toNat_shift_or {word : UInt32} (h : word.toNat < 2 ^ 24) (b : UInt8) :
    (word <<< 8 ||| b.toUInt32).toNat = 256 * word.toNat + b.toNat := by
  have hshift : (word <<< 8).toNat = word.toNat <<< 8 := by
    have height : (8 : UInt32).toNat % 32 = 8 := rfl
    rw [UInt32.toNat_shiftLeft, height]
    apply Nat.mod_eq_of_lt
    rw [Nat.shiftLeft_eq]
    omega
  rw [UInt32.toNat_or, hshift, UInt8.toNat_toUInt32, ← Nat.shiftLeft_add_eq_or_of_lt b.toNat_lt,
    Nat.shiftLeft_eq]
  omega

/-- Bytes that a word has room for are put together to the number that they
are written as. -/
theorem toNat_word (h : bs.length ≤ 4) : (word bs).toNat = Bytes.toNat bs := by
  induction bs using List.reverseRecOn with
  | nil => rfl
  | append_singleton bs b ih =>
      rw [List.length_append, List.length_singleton] at h
      have hword : (word bs).toNat = Bytes.toNat bs := ih (by omega)
      have hroom : (word bs).toNat < 2 ^ 24 := calc
        (word bs).toNat = Bytes.toNat bs := hword
        _ < 256 ^ bs.length := Bytes.toNat_lt bs
        _ ≤ 256 ^ 3 := Nat.pow_le_pow_right (by decide) (by omega)
      have hlast : word (bs ++ [b]) = word bs <<< 8 ||| b.toUInt32 := by
        rw [word, List.foldl_append]
        rfl
      rw [hlast, toNat_shift_or hroom, hword, Bytes.toNat_concat]

theorem logged_start (h : bs.length < 2 ^ 64) (hsize : bs.length = n) :
    Logged { data := bs } { size := n } where
  toInBounds := inBounds_of h (Nat.zero_le _)
  size_eq := hsize
  values_eq := rfl

/-- What a cursor goes over is what comes out of it. -/
theorem Logged.write (h : c.Logged log) (htook : c.Took n bs after) (hafter : after.InBounds) :
    after.Logged (log.write bs) where
  toInBounds := hafter
  size_eq := by rw [htook.data_eq, h.size_eq]; rfl
  values_eq := by
    rw [htook.take_eq, ← h.values_eq, CursorLog.write, List.flatten_append]
    simp

-- =========================================================== as a reader

/-- The bytes that have not been read. -/
def unread (c : Cursor) : Bytes := c.data.drop c.pos.toNat

/-- What is read is the front of what was left. -/
theorem Took.append_unread (h : c.Took n bs after) : bs ++ after.unread = c.unread := by
  have hafter : c.data.take c.pos.toNat ++ (bs ++ after.unread) = c.data := by
    rw [← List.append_assoc, ← h.take_eq, unread, List.take_append_drop, h.data_eq]
  have hbefore : c.data.take c.pos.toNat ++ c.unread = c.data := List.take_append_drop _ _
  exact List.append_cancel_left (hafter.trans hbefore.symm)

theorem InBounds.length_unread (h : c.InBounds) : c.unread.length = c.remaining := by
  rw [unread, List.length_drop, h.remaining_eq]

/-- In bounds a cursor reads bytes as a reader reads them off what is left. -/
theorem InBounds.bytes_eq_reader (h : c.InBounds) (hn : n < 2 ^ 64) (field : String) :
    (Reader.bytes n field).run c.unread
      = (c.bytes (.ofNat n) field).1.map fun bs => (bs, (c.bytes (.ofNat n) field).2.unread) := by
  rcases h.bytes_cases hn field with ⟨-, bs, after, hbytes, htook, -⟩ | ⟨hlt, hbytes⟩
  · rw [hbytes]
    exact Reader.bytes_eq_ok_iff.2 ⟨htook.length_eq, htook.append_unread⟩
  · rw [hbytes]
    exact Reader.bytes_eq_error_iff.2 ⟨h.length_unread ▸ hlt, rfl⟩

/-- So it does with numbers, as long as a word has room for them. -/
theorem InBounds.uint_eq_reader (h : c.InBounds) (hn : n ≤ 4) (field : String) :
    (Reader.uint n field).run c.unread
      = (c.uint (.ofNat n) field).1.map
          fun word => (word.toNat, (c.uint (.ofNat n) field).2.unread) := by
  have hsize : n < 2 ^ 64 := by omega
  rcases h.bytes_cases hsize field with ⟨-, bs, after, hbytes, htook, -⟩ | ⟨hlt, hbytes⟩
  · have hlength := htook.length_eq
    rw [uint, hbytes]
    apply Reader.uint_eq_ok_iff.2
    rw [toNat_word (by omega), ← hlength, Bytes.ofNat_toNat]
    exact ⟨Bytes.toNat_lt bs, htook.append_unread⟩
  · rw [uint, hbytes]
    exact Reader.uint_eq_error_iff.2 ⟨h.length_unread ▸ hlt, rfl⟩

-- ============================================================== the pile

variable {data : Bytes} {below : List Cursor} {logs : List CursorLog}

theorem Piled.top (h : Piled data (c :: below) (log :: logs)) : c.Logged log := by
  cases h with
  | bottom logged => exact logged
  | inside logged => exact logged

/-- The topmost cursor can go on without regard to the others. -/
theorem Piled.write (h : Piled data (c :: below) (log :: logs)) (htook : c.Took n bs after)
    (hafter : after.InBounds) : Piled data (after :: below) (log.write bs :: logs) := by
  have hlogged : after.Logged (log.write bs) := h.top.write htook hafter
  cases h with
  | bottom _ hdata => exact .bottom hlogged (htook.data_eq.trans hdata)
  | inside _ hends hrest => exact .inside hlogged (htook.data_eq ▸ hends) hrest

/-- The bytes that a cursor has just read can be entered. -/
theorem Piled.enter (h : Piled data (c :: below) (log :: logs)) (htook : c.Took n bs after)
    (hafter : after.InBounds) (hn : n < 2 ^ 64) :
    Piled data ({ data := bs } :: after :: below) ({ size := n } :: log.write bs :: logs) := by
  have hlength : bs.length < 2 ^ 64 := htook.length_eq ▸ hn
  refine .inside (logged_start hlength htook.length_eq) ?_ (h.write htook hafter)
  rw [htook.take_eq]
  exact List.suffix_append _ bs

end Cursor

-- =============================================================== one move

theorem CursorMove.InRange.size_lt {m : CursorMove} {n : Nat} {field : String} (h : m.InRange)
    (hread : m.read? = some (n, field)) : n < 2 ^ 64 := by
  cases m with
  | uint width field' =>
      obtain ⟨rfl, -⟩ := Prod.mk.inj (Option.some.inj hread)
      unfold InRange at h
      omega
  | bytes | enter =>
      obtain ⟨rfl, -⟩ := Prod.mk.inj (Option.some.inj hread)
      exact h
  | leave => cases hread

namespace CursorStack

variable {s : CursorStack} {m : CursorMove} {n : Nat} {field : String} {data bs : Bytes}
  {logs : CursorLogs} {after : Cursor}

/-- What a move can do that reads: it takes the bytes and puts them where
they belong, or it changes nothing. -/
theorem step_cases (h : s.top.InBounds) (hm : m.InRange) (hread : m.read? = some (n, field)) :
    (n ≤ s.top.remaining ∧ ∃ bs after, s.step m = (.ok (m.value bs), s.put m bs after)
        ∧ s.top.Took n bs after ∧ after.InBounds)
      ∨ (s.top.remaining < n ∧ s.step m = (.error (.truncated field), s)) := by
  have hcases := h.bytes_cases (hm.size_lt hread) field
  cases m with
  | leave => cases hread
  | _ =>
      obtain ⟨rfl, rfl⟩ := Prod.mk.inj (Option.some.inj hread)
      rcases hcases with ⟨hle, bs, after, hbytes, htook, hafter⟩ | ⟨hlt, hbytes⟩
      · refine .inl ⟨hle, bs, after, ?_, htook, hafter⟩
        simp [step, Cursor.uint, hbytes, put, CursorMove.value, Except.map]
      · refine .inr ⟨hlt, ?_⟩
        simp [step, Cursor.uint, hbytes, Except.map]

/-- With the topmost cursor in bounds, reads do what was asked for. -/
theorem reads_of_inBounds (h : s.top.InBounds) (hm : m.InRange) (hread : m.read? = some (n, field)) :
    s.Reads m n field := by
  rcases step_cases h hm hread with ⟨hle, bs, after, hstep, htook, -⟩ | ⟨hlt, hstep⟩
  · refine ⟨?_, ?_, ?_⟩
    · rw [hstep]
      exact iff_of_true rfl hle
    · intro value s' h
      obtain ⟨hvalue, hs'⟩ := Prod.mk.inj (hstep.symm.trans h)
      exact ⟨bs, after, htook, (Except.ok.inj hvalue).symm, hs'.symm⟩
    · intro e s' h
      rw [hstep] at h
      cases h
  · refine ⟨?_, ?_, ?_⟩
    · rw [hstep]
      exact iff_of_false Bool.false_ne_true (by omega)
    · intro value s' h
      rw [hstep] at h
      cases h
    · intro e s' h
      obtain ⟨he, hs'⟩ := Prod.mk.inj (hstep.symm.trans h)
      exact ⟨(Except.error.inj he).symm, hs'.symm⟩

theorem note_error (logs : CursorLogs) (m : CursorMove) (e : DecodeError) :
    logs.note m (.error e) = logs := by
  cases m <;> rfl

theorem ofNat_word {width : Nat} (h : (CursorMove.uint width field).InRange)
    (hbs : bs.length = width) : Bytes.ofNat width (Cursor.word bs).toNat = bs := by
  unfold CursorMove.InRange at h
  rw [Cursor.toNat_word (by omega), ← hbs, Bytes.ofNat_toNat]

/-- A move keeps every cursor in step with its log. -/
theorem Follows.step (h : s.Follows data logs) (hm : m.InRange) :
    (s.step m).2.Follows data (logs.note m (s.step m).1) := by
  cases hread : m.read? with
  | some p =>
      obtain ⟨n, field⟩ := p
      rcases step_cases h.top.toInBounds hm hread with
        ⟨-, bs, after, hstep, htook, hafter⟩ | ⟨-, hstep⟩
      · rw [hstep]
        cases m with
        | uint width field' =>
            obtain ⟨rfl, -⟩ := Prod.mk.inj (Option.some.inj hread)
            -- the log has the number, written out again as the bytes it came from
            have hwritten := h.write htook hafter
            rw [← ofNat_word hm htook.length_eq] at hwritten
            exact hwritten
        | bytes => exact h.write htook hafter
        | enter n' field' =>
            obtain ⟨rfl, -⟩ := Prod.mk.inj (Option.some.inj hread)
            exact h.enter htook hafter hm
        | leave => cases hread
      · rw [hstep, note_error]
        exact h
  | none =>
      -- the cursor on top is gone, and the one below it is where it was left
      cases m with
      | leave =>
          obtain ⟨top, below⟩ := s
          obtain ⟨topLog, logsBelow⟩ := logs
          cases h with
          | bottom hlogged hdata => exact .bottom hlogged hdata
          | inside _ _ hrest => exact hrest
      | _ => cases hread

/-- A list of moves keeps every cursor in step with its log. -/
theorem Follows.run {moves : List CursorMove} (h : s.Follows data logs)
    (hmoves : ∀ m ∈ moves, m.InRange) : (s.run moves).Follows data (s.logs logs moves) := by
  induction moves generalizing s logs with
  | nil => exact h
  | cons m moves ih =>
      obtain ⟨hm, hmoves⟩ := List.forall_mem_cons.1 hmoves
      exact ih (h.step hm) hmoves

theorem follows_ofBytes (h : data.length < 2 ^ 64) :
    (ofBytes data).Follows data { top := { size := data.length } } :=
  .bottom (Cursor.logged_start h rfl) rfl

end CursorStack

/-- Whatever is read with cursors, and with cursors inside them, every one of
them stays in its bytes, lies where it was entered and has gone over what
came out of it. So each read succeeds exactly if the bytes are there, goes
on by just these, and otherwise names the field and changes nothing. -/
theorem cursor_run_exact {data : Bytes} (hdata : data.length < 2 ^ 64) {moves : List CursorMove}
    (hmoves : ∀ m ∈ moves, m.InRange) :
    ((CursorStack.ofBytes data).run moves).Follows data
        ((CursorStack.ofBytes data).logs { top := { size := data.length } } moves)
      ∧ ∀ (m : CursorMove) (n : Nat) (field : String), m.InRange → m.read? = some (n, field) →
          ((CursorStack.ofBytes data).run moves).Reads m n field := by
  have hfollows := (CursorStack.follows_ofBytes hdata).run hmoves
  refine ⟨hfollows, ?_⟩
  intro m n field hm hread
  exact CursorStack.reads_of_inBounds hfollows.top.toInBounds hm hread

/-- A length, a field that is entered, and inside it a read of as many bytes
as a word can ask for. -/
theorem cursor_run_exact_entered :
    (CursorStack.run (.ofBytes [0, 2, 0xaa, 0xbb, 0xcc])
        [.uint 2 "length", .enter 2 "field", .uint 1 "first", .bytes 0xffffffffffffffff "tail"]).Follows
        [0, 2, 0xaa, 0xbb, 0xcc] ⟨⟨2, [[0xaa]]⟩, [⟨5, [[0, 2], [0xaa, 0xbb]]⟩]⟩
      ∧ (CursorStack.mk ⟨[0xaa, 0xbb], 1⟩ [⟨[0, 2, 0xaa, 0xbb, 0xcc], 4⟩]).Reads
          (.bytes 0xffffffffffffffff "tail") 0xffffffffffffffff "tail" := by
  have hmoves : ∀ m ∈ [CursorMove.uint 2 "length", .enter 2 "field", .uint 1 "first",
      .bytes 0xffffffffffffffff "tail"], m.InRange := by
    simp [CursorMove.InRange]
  have hdata : List.length ([0, 2, 0xaa, 0xbb, 0xcc] : Bytes) < 2 ^ 64 := by decide
  obtain ⟨hfollows, hreads⟩ := cursor_run_exact hdata hmoves
  exact ⟨hfollows, hreads (.bytes 0xffffffffffffffff "tail") _ _ (hmoves _ (by simp)) rfl⟩

end TlsHello
