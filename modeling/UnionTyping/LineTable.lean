/-
  UnionTyping/LineTable.lean
  ==========================
  **Byte offsets and lines of a source text.**

  A table holds the byte offset at which each line starts and the length of the
  text.  Offsets, lines and columns are 32-bit numbers, columns count bytes from
  1, and a line ends after its line feed.  Arithmetic that would leave 32 bits is
  an `overflow`; it can only arise from positions far outside the text.
-/
namespace UnionTyping

inductive Overflow where
  | overflow
deriving DecidableEq, Repr

def wordLimit : Nat := UInt32.size

def word (n : Nat) : Except Overflow Nat :=
  if n < wordLimit then .ok n else .error .overflow

/-- Where the lines of a text start, in ascending order from 0, and its length in
    bytes. -/
structure LineTable where
  starts : List Nat
  length : Nat
deriving DecidableEq, Repr

namespace LineTable

/-- The offsets behind the line feeds of a text that itself starts at `offset`. -/
def startsAfter (offset : Nat) : List Char → List Nat
  | [] => []
  | c :: rest =>
    let next := offset + c.utf8Size
    if c = '\n' then next :: startsAfter next rest else startsAfter next rest

def ofSource (source : String) : LineTable :=
  ⟨0 :: startsAfter 0 source.toList, source.utf8ByteSize⟩

def count (t : LineTable) : Nat := t.starts.length

/-- The line, counted from 1, and the start of the line that holds an offset: the
    last line that starts at or before it. -/
def lineOf (offset : Nat) : List Nat → Nat × Nat
  | [] => (1, 0)
  | [start] => (1, start)
  | start :: next :: rest =>
    if offset < next then (1, start)
    else
      let (line, found) := lineOf offset (next :: rest)
      (line + 1, found)

def position (t : LineTable) (offset : Nat) : Except Overflow (Nat × Nat) := do
  let (line, start) := lineOf offset t.starts
  let column ← word (offset - start + 1)
  return (line, column)

/-- The byte offset of a line and column, none when there is no such line.  A
    column behind the end of the text stands for its end. -/
def offset (t : LineTable) (line column : Nat) : Except Overflow (Option Nat) := do
  if line = 0 then return none
  match t.starts[line - 1]? with
  | none => return none
  | some start =>
    let found ← word (start + (column - 1))
    return some (min found t.length)

end LineTable

end UnionTyping
