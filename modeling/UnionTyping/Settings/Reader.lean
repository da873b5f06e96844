/-
  UnionTyping/Settings/Reader.lean
  ================================
  **Reading settings from a TOML document.**

  A document has one `key = value` on a line, blank lines and comments.  A key is
  bare or quoted.  The keys are those of `Settings`, each at most once, and what is
  not set keeps its default.  Numbers are integers that fit in 32 bits, written in
  decimal with an optional sign or in base 16, 8 or 2 behind `0x`, `0o` or `0b`,
  with single underscores between digits.  Texts are quoted, with escapes between
  double quotes and as they stand between single ones.  Everything else, tables
  included, is no document of settings, and it is not said why.
-/
import UnionTyping.LineTable
import UnionTyping.Settings
import UnionTyping.Text.Lines

namespace UnionTyping.Settings

/-! ### Space and comments -/

def isControl (c : Char) : Bool :=
  (decide (c.toNat < 0x20) && c != '\t') || c.toNat == 0x7F

def isSpace (c : Char) : Bool := c == ' ' || c == '\t'

def skipSpace (cs : List Char) : List Char := cs.dropWhile isSpace

/-- Whether only a comment may follow, and does. -/
def endsHere (cs : List Char) : Bool :=
  match skipSpace cs with
  | [] => true
  | '#' :: comment => !comment.any isControl
  | _ => false

/-! ### Numbers -/

def digit? (base : Nat) (c : Char) : Option Nat :=
  let value :=
    if c.isDigit then c.toNat - '0'.toNat
    else if 'a' ≤ c ∧ c ≤ 'f' then c.toNat - 'a'.toNat + 10
    else if 'A' ≤ c ∧ c ≤ 'F' then c.toNat - 'A'.toNat + 10
    else base
  if value < base then some value else none

/-- The number whose leading digits are worth `value`; an underscore stands between
    two digits. -/
def digitsAfter (base value : Nat) : List Char → Option Nat
  | [] => some value
  | '_' :: c :: rest => (digit? base c).bind fun d => digitsAfter base (value * base + d) rest
  | c :: rest => (digit? base c).bind fun d => digitsAfter base (value * base + d) rest

def digits? (base : Nat) : List Char → Option Nat
  | [] => none
  | c :: rest => (digit? base c).bind fun d => digitsAfter base d rest

/-- A decimal number without sign; only zero begins with a zero. -/
def decimal? : List Char → Option Nat
  | '0' :: _ :: _ => none
  | cs => digits? 10 cs

def number? : List Char → Option Nat
  | '0' :: 'x' :: cs => digits? 16 cs
  | '0' :: 'o' :: cs => digits? 8 cs
  | '0' :: 'b' :: cs => digits? 2 cs
  | '+' :: cs => decimal? cs
  | '-' :: cs => (decimal? cs).filter (· == 0)
  | cs => decimal? cs

def isNumberChar (c : Char) : Bool :=
  c.isAlphanum || c == '_' || c == '+' || c == '-' || c == '.' || c == ':'

/-! ### Texts -/

def scalar? (digits : List Char) : Option Char := do
  let value ← digits.foldlM (fun value c => (digit? 16 c).map (value * 16 + ·)) 0
  if value.isValidChar then some (Char.ofNat value) else none

def escaped? : Char → Option Char
  | 'b' => some '\x08'
  | 't' => some '\t'
  | 'n' => some '\n'
  | 'f' => some '\x0c'
  | 'r' => some '\r'
  | '\x22' => some '\x22'
  | '\\' => some '\\'
  | _ => none

/-- A text up to its closing double quote, and what follows. -/
def quoted? : List Char → Option (List Char × List Char)
  | [] => none
  | '\x22' :: rest => some ([], rest)
  | '\\' :: 'u' :: a :: b :: c :: d :: rest => do
    let char ← scalar? [a, b, c, d]
    let (text, rest) ← quoted? rest
    return (char :: text, rest)
  | '\\' :: 'U' :: a :: b :: c :: d :: e :: f :: g :: h :: rest => do
    let char ← scalar? [a, b, c, d, e, f, g, h]
    let (text, rest) ← quoted? rest
    return (char :: text, rest)
  | '\\' :: c :: rest => do
    let char ← escaped? c
    let (text, rest) ← quoted? rest
    return (char :: text, rest)
  | c :: rest =>
    if isControl c || c == '\\' then none
    else (quoted? rest).map fun (text, rest) => (c :: text, rest)

def literal? : List Char → Option (List Char × List Char)
  | [] => none
  | '\x27' :: rest => some ([], rest)
  | c :: rest =>
    if isControl c then none else (literal? rest).map fun (text, rest) => (c :: text, rest)

/-! ### Entries -/

inductive Value where
  | number (n : Nat)
  | text (s : String)
deriving DecidableEq, Repr

def isBareKeyChar (c : Char) : Bool := c.isAlphanum || c == '_' || c == '-'

def key? : List Char → Option (String × List Char)
  | '\x22' :: cs => (quoted? cs).map fun (key, rest) => (String.ofList key, rest)
  | '\x27' :: cs => (literal? cs).map fun (key, rest) => (String.ofList key, rest)
  | cs =>
    let key := cs.takeWhile isBareKeyChar
    if key.isEmpty then none else some (String.ofList key, cs.dropWhile isBareKeyChar)

def value? : List Char → Option (Value × List Char)
  | '\x22' :: cs => (quoted? cs).map fun (text, rest) => (.text (String.ofList text), rest)
  | '\x27' :: cs => (literal? cs).map fun (text, rest) => (.text (String.ofList text), rest)
  | cs => (number? (cs.takeWhile isNumberChar)).map fun n => (.number n, cs.dropWhile isNumberChar)

/-- The entry on a line, none on a blank line; nothing if the line is malformed. -/
def entry? (line : List Char) : Option (Option (String × Value)) :=
  if endsHere line then some none
  else do
    let (key, rest) ← key? (skipSpace line)
    match skipSpace rest with
    | '=' :: rest =>
      let (value, rest) ← value? (skipSpace rest)
      if endsHere rest then some (some (key, value)) else none
    | _ => none

def set? (s : Settings) : (key : String) → Value → Option Settings
  | "max_iterations", .number n =>
    if n < wordLimit then some { s with maxIterations := n } else none
  | "max_nesting", .number n =>
    if n < wordLimit then some { s with maxNesting := n } else none
  | "file_name", .text name => some { s with fileName := some name }
  | _, _ => none

/-- The settings after the lines of a document, given the keys that were set
    before. -/
def ofLines (s : Settings) (seen : List String) : List (List Char) → Option Settings
  | [] => some s
  | line :: rest => do
    match ← entry? line with
    | none => ofLines s seen rest
    | some (key, value) =>
      if seen.contains key then none
      else ofLines (← s.set? key value) (key :: seen) rest

/-- The settings that a document gives.  A byte order mark at its beginning does not
    count. -/
def ofDocument? (document : String) : Option Settings :=
  let chars := match document.toList with
    | '\uFEFF' :: rest => rest
    | chars => chars
  ofLines {} [] (Text.lines chars)

end UnionTyping.Settings
