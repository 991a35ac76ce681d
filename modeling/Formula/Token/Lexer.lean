import Formula.Fault
import Formula.Token

/-!
Cutting source text into tokens.

At each place the longest token is taken: a numeral with an optional fraction, a
name, or one symbol. Blanks between tokens are skipped. The first character
that begins no token ends the work. Every character before that place is ASCII,
so the number of characters read is also the byte offset reached.

* `Token.munch`: the token at the head of a text and how many characters it
  takes.
* `Token.scan`: the tokens of a text that starts at a given offset.
* `lex`: the tokens of a source.
-/

namespace Formula

namespace Token

/-- Blanks are space, tab, line feed, form feed and carriage return. -/
def isBlank (c : Char) : Bool :=
  c == ' ' || c == '\t' || c == '\n' || c == '\x0c' || c == '\r'

/-- A name begins with an ASCII letter or an underscore. -/
def isNameStart (c : Char) : Bool := c.isAlpha || c == '_'

/-- A name goes on with ASCII letters, digits and underscores. -/
def isNamePart (c : Char) : Bool := c.isAlphanum || c == '_'

/-- The digits behind a point at the head of a text. The point belongs to a
numeral only if a digit follows it. -/
def fractionDigits : List Char → List Char
  | '.' :: cs => cs.takeWhile Char.isDigit
  | _ => []

/-- How many characters a point and its fraction take. -/
def fractionLength (cs : List Char) : Nat :=
  if (fractionDigits cs).isEmpty then 0 else (fractionDigits cs).length + 1

/-- The longest token that begins with `c` in the text `c :: cs`, and how many
characters of `cs` it takes. -/
def munch (c : Char) (cs : List Char) : Option (Kind × Nat) :=
  if c.isDigit then
    let whole := cs.takeWhile Char.isDigit
    let rest := cs.dropWhile Char.isDigit
    some (.number (Decimal.ofDigits (c :: whole) (fractionDigits rest)).toFloat,
      whole.length + fractionLength rest)
  else if isNameStart c then
    let part := cs.takeWhile isNamePart
    some (.name (String.ofList (c :: part)), part.length)
  else (Kind.ofSymbol? c).map (·, 0)

/-- The tokens of a text that starts at the given offset, or the first character
that begins none. -/
def scan (offset : Nat) : List Char → Except Fault (List Token)
  | [] => .ok []
  | c :: cs =>
      if isBlank c then scan (offset + 1) cs
      else
        match munch c cs with
        | none => .error (.unexpectedCharacter c offset)
        | some (kind, more) =>
            (scan (offset + more + 1) (cs.drop more)).map
              (⟨kind, ⟨offset, offset + more + 1⟩⟩ :: ·)
termination_by text => text.length
decreasing_by all_goals simp; try omega

end Token

/-- The tokens of a source. -/
def lex (source : String) : Except Fault (List Token) := Token.scan 0 source.toList

end Formula
