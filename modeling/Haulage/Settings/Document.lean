/-!
# Settings documents

A settings document is a TOML document in which every line assigns an integer to
a key, is a comment, or is blank. `Document.read` answers the assignments in the
order of the document, and nothing for a text of any other form.

Keys may be bare or quoted. Integers may carry a sign and separate their digits
by underscores, or be written in base 16, 8 or 2.
-/

namespace Haulage.Document

/-- Blanks may stand between the parts of a line. -/
def isBlank (c : Char) : Bool := c = ' ' || c = '\t'

/-- The line without leading blanks. -/
def skipBlanks (cs : List Char) : List Char := cs.dropWhile isBlank

/-- The characters that a comment, or a quoted key, may hold. -/
def isPlain (c : Char) : Bool := c = '\t' || (' ' ≤ c && c ≠ '\x7f')

/-- Is nothing left on the line but blanks and a comment? -/
def endsLine (cs : List Char) : Bool :=
  match skipBlanks cs with
  | [] => true
  | '#' :: comment => comment.all isPlain
  | _ => false

/-! ## Digits -/

/-- The value of a digit in bases up to sixteen. -/
def digitValue (c : Char) : Option Nat :=
  if '0' ≤ c && c ≤ '9' then some (c.toNat - '0'.toNat)
  else if 'a' ≤ c && c ≤ 'f' then some (c.toNat - 'a'.toNat + 10)
  else if 'A' ≤ c && c ≤ 'F' then some (c.toNat - 'A'.toNat + 10)
  else none

/-- The value of a digit in the given base. -/
def digit? (base : Nat) (c : Char) : Option Nat := (digitValue c).filter (· < base)

/-- Continue a number of value `n` by digits, of which any may have an underscore before it. -/
def moreDigits (base : Nat) : Nat → List Char → Option Nat
  | n, [] => some n
  | n, '_' :: c :: cs => match digit? base c with
    | some d => moreDigits base (n * base + d) cs
    | none => none
  | n, c :: cs => match digit? base c with
    | some d => moreDigits base (n * base + d) cs
    | none => none

/-- The value of a run of digits. -/
def natural (base : Nat) : List Char → Option Nat
  | [] => none
  | c :: cs => match digit? base c with
    | some d => moreDigits base d cs
    | none => none

/-- The value of a decimal number; only zero itself starts with a zero. -/
def decimal : List Char → Option Nat
  | '0' :: _ :: _ => none
  | cs => natural 10 cs

/-- The value of an integer. -/
def integer : List Char → Option Int
  | '0' :: 'x' :: cs => (natural 16 cs).map Int.ofNat
  | '0' :: 'o' :: cs => (natural 8 cs).map Int.ofNat
  | '0' :: 'b' :: cs => (natural 2 cs).map Int.ofNat
  | '+' :: cs => (decimal cs).map Int.ofNat
  | '-' :: cs => (decimal cs).map fun n => -Int.ofNat n
  | cs => (decimal cs).map Int.ofNat

/-! ## Keys -/

/-- The characters of a bare key. -/
def isBare (c : Char) : Bool := c.isAlphanum || c = '_' || c = '-'

/-- The character of a code point given by hexadecimal digits. -/
def codePoint (ds : List Char) : Option Char :=
  match ds.mapM (digit? 16) with
  | none => none
  | some vs =>
    let n := vs.foldl (fun n v => n * 16 + v) 0
    if n.isValidChar then some (Char.ofNat n) else none

/-- The character that a one-letter escape stands for. -/
def escape? : Char → Option Char
  | 'b' => some '\x08'
  | 't' => some '\t'
  | 'n' => some '\n'
  | 'f' => some '\x0c'
  | 'r' => some '\r'
  | 'e' => some '\x1b'
  | '"' => some '"'
  | '\\' => some '\\'
  | _ => none

/-- Put a character before what was read. -/
def before (c : Option Char) (r : Option (List Char × List Char)) :
    Option (List Char × List Char) :=
  match c, r with
  | some c, some (cs, rest) => some (c :: cs, rest)
  | _, _ => none

/-- The text up to the closing double quote, and what follows the quote. -/
def basicText : List Char → Option (List Char × List Char)
  | [] => none
  | '"' :: rest => some ([], rest)
  | '\\' :: 'x' :: a :: b :: rest => before (codePoint [a, b]) (basicText rest)
  | '\\' :: 'u' :: a :: b :: c :: d :: rest => before (codePoint [a, b, c, d]) (basicText rest)
  | '\\' :: 'U' :: a :: b :: c :: d :: e :: f :: g :: h :: rest =>
    before (codePoint [a, b, c, d, e, f, g, h]) (basicText rest)
  | '\\' :: c :: rest => before (escape? c) (basicText rest)
  | c :: rest => if c ≠ '\\' && isPlain c then before (some c) (basicText rest) else none

/-- The text up to the closing single quote, and what follows the quote. -/
def literalText : List Char → Option (List Char × List Char)
  | [] => none
  | '\'' :: rest => some ([], rest)
  | c :: rest => if isPlain c then before (some c) (literalText rest) else none

/-- The key at the start of a line, and what follows it. -/
def key (cs : List Char) : Option (List Char × List Char) :=
  match cs with
  | '"' :: rest => basicText rest
  | '\'' :: rest => literalText rest
  | _ => match cs.takeWhile isBare with
    | [] => none
    | name => some (name, cs.dropWhile isBare)

/-! ## Lines -/

/-- Does a character belong to the value of an assignment? -/
def isValue (c : Char) : Bool := !isBlank c && c ≠ '#'

/-- The assignment on a line, or nothing within if the line makes none. -/
def line (cs : List Char) : Option (Option (String × Int)) :=
  if endsLine cs then some none
  else match key (skipBlanks cs) with
    | none => none
    | some (name, rest) => match skipBlanks rest with
      | '=' :: rest =>
        let rest := skipBlanks rest
        match integer (rest.takeWhile isValue) with
        | none => none
        | some n =>
          if endsLine (rest.dropWhile isValue) then some (some (String.ofList name, n)) else none
      | _ => none

/-- The lines of a text. A carriage return before the end of a line belongs to that end. -/
def lines : List Char → List (List Char)
  | [] => [[]]
  | '\n' :: cs => [] :: lines cs
  | '\r' :: '\n' :: cs => [] :: lines cs
  | c :: cs => match lines cs with
    | [] => [[c]]
    | l :: ls => (c :: l) :: ls

/-- The text without a mark of its byte order. -/
def unmarked : List Char → List Char
  | '\ufeff' :: cs => cs
  | cs => cs

/-- The assignments of a document, in order. -/
def read (text : String) : Option (List (String × Int)) :=
  ((lines (unmarked text.toList)).mapM line).map (·.filterMap id)

end Haulage.Document
