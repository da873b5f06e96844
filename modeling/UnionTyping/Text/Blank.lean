/-
  UnionTyping/Text/Blank.lean
  ===========================
  **White space.**

  The characters with the Unicode property White_Space, and cutting them off the
  end of a line.
-/
import UnionTyping.Text.CharSet

namespace UnionTyping.Text

def blank : CharSet := ⟨[
    9, 14, 32, 33, 133, 134, 160, 161, 5760, 5761, 8192, 8203, 8232, 8234, 8239, 8240, 8287,
    8288, 12288, 12289]⟩

def isBlank (c : Char) : Bool := blank.contains c

def trimRight : List Char → List Char
  | [] => []
  | c :: rest =>
    match trimRight rest with
    | [] => if isBlank c then [] else [c]
    | kept => c :: kept

end UnionTyping.Text
