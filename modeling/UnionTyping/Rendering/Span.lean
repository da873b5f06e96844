/-
  UnionTyping/Rendering/Span.lean
  ===============================
  **The token that starts at a location.**

  A token is a run of letters, digits, `_` and `@`.  The span of a location goes
  from its byte offset to the end of the token there, and covers one byte where
  there is no token, as far as the text allows.  A location whose line does not
  exist is shown at the beginning of the text.
-/
import UnionTyping.Rendering.Wording
import UnionTyping.Text.Alphanumeric

namespace UnionTyping

/-- A range of positions, `stop` not included. -/
structure Span where
  start : Nat
  stop : Nat
deriving DecidableEq, Repr

/-- The characters after so many bytes; none when that is inside a character or
    behind the end. -/
def dropBytes : (bytes : Nat) → List Char → Option (List Char)
  | 0, cs => some cs
  | _ + 1, [] => none
  | n + 1, c :: cs => if c.utf8Size ≤ n + 1 then dropBytes (n + 1 - c.utf8Size) cs else none

def isTokenChar (c : Char) : Bool := Text.isAlphanumeric c || c == '_' || c == '@'

def byteLength (cs : List Char) : Nat := cs.foldr (fun c bytes => c.utf8Size + bytes) 0

namespace Span

def ofOffset (source : String) (start : Nat) : Span :=
  let token := ((dropBytes start source.toList).getD []).takeWhile isTokenChar
  ⟨start, min (start + max (byteLength token) 1) source.utf8ByteSize⟩

/-- The span of a location, in bytes of the text. -/
def ofLocation (source : String) (loc : Location) : Except RenderError Span :=
  match (LineTable.ofSource source).offset loc.line loc.column with
  | .error .overflow => .error .overflow
  | .ok none => .ok ⟨0, min source.utf8ByteSize 1⟩
  | .ok (some start) => .ok (ofOffset source start)

end Span

end UnionTyping
