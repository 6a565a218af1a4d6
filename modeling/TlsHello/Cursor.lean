/-
A position in a byte string, and positions inside positions.

A cursor is a byte string and how far it has been read. Positions and sizes
are words of 64 bits, and nothing in a cursor says that its position lies
in its bytes: how many are left is a difference of words, and going on is a
sum of words. A read looks at the difference before it goes on.

To read what is nested, the bytes of a field are entered: a cursor over
them is put on top of the one they came from, until they are left again.
`CursorStack` is such a pile, which always has a bottom, and `step` is
one move on its top.
-/
import TlsHello.Bytes
import TlsHello.Error

namespace TlsHello

/-- A byte string and where in it reading goes on. -/
structure Cursor where
  data : Bytes
  pos : UInt64 := 0
deriving DecidableEq, Repr

namespace Cursor

/-- How many bytes are left, as long as the position is in the bytes. -/
def left (c : Cursor) : UInt64 := .ofNat c.data.length - c.pos

/-- How many bytes are left, as a number. -/
def remaining (c : Cursor) : Nat := c.left.toNat

/-- Reads the next `n` bytes: what comes of it, and the cursor afterwards. -/
def bytes (c : Cursor) (n : UInt64) (field : String) : Except DecodeError Bytes × Cursor :=
  if c.left < n then
    (.error (.truncated field), c)
  else
    (.ok ((c.data.drop c.pos.toNat).take n.toNat), { c with pos := c.pos + n })

/-- The word that bytes are put together to, the first one highest. -/
def word (bs : Bytes) : UInt32 := bs.foldl (fun word b => word <<< 8 ||| b.toUInt32) 0

/-- Reads a number of `width` bytes. -/
def uint (c : Cursor) (width : UInt64) (field : String) : Except DecodeError UInt32 × Cursor :=
  let (outcome, after) := c.bytes width field
  (outcome.map word, after)

end Cursor

-- ========================================================== nested reads

/-- A move on a pile of cursors. Sizes are those of 64 bits. -/
inductive CursorMove where
  /-- Read a number of `width` bytes. -/
  | uint (width : Nat) (field : String)
  /-- Read `n` bytes. -/
  | bytes (n : Nat) (field : String)
  /-- Read `n` bytes and go on inside them. -/
  | enter (n : Nat) (field : String)
  /-- Go back to where the bytes came from. -/
  | leave
deriving DecidableEq, Repr

/-- What a move brings up. -/
inductive CursorValue where
  | number (n : Nat)
  | bytes (bs : Bytes)
  | nothing
deriving DecidableEq, Repr

/-- Cursors on top of one another; the topmost is the one that reads. -/
structure CursorStack where
  top : Cursor
  below : List Cursor := []
deriving DecidableEq, Repr

namespace CursorStack

/-- One cursor at the beginning of a byte string. -/
def ofBytes (data : Bytes) : CursorStack := { top := { data } }

/-- Makes a move: what comes of it, and the cursors afterwards. -/
def step (s : CursorStack) : CursorMove → Except DecodeError CursorValue × CursorStack
  | .uint width field =>
      let (outcome, top) := s.top.uint (.ofNat width) field
      (outcome.map fun word => .number word.toNat, { s with top })
  | .bytes n field =>
      let (outcome, top) := s.top.bytes (.ofNat n) field
      (outcome.map .bytes, { s with top })
  | .enter n field =>
      match s.top.bytes (.ofNat n) field with
      | (.ok bs, outer) => (.ok (.bytes bs), { top := { data := bs }, below := outer :: s.below })
      | (.error e, top) => (.error e, { s with top })
  | .leave =>
      match s.below with
      | [] => (.ok .nothing, s)
      | outer :: below => (.ok .nothing, { top := outer, below })

/-- What each of a list of moves brings up, and the cursors after it. -/
def trace (s : CursorStack) : List CursorMove → List (Except DecodeError CursorValue × CursorStack)
  | [] => []
  | m :: rest => s.step m :: trace (s.step m).2 rest

/-- The cursors after a list of moves. -/
def run (s : CursorStack) (moves : List CursorMove) : CursorStack :=
  moves.foldl (fun s m => (s.step m).2) s

end CursorStack

end TlsHello
