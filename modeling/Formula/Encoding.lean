import Formula.Declaration
import Formula.Fault.Message
import Formula.Limits
import Formula.Span

/-!
The JSON forms of spans, limits and faults.

* `Fault.declaration`, `Fault.entry`, `Fault.ofValue?`: the enumeration that faults
  are, and a fault as one of its values.
* `Fault.toText`, `Fault.ofText?`: what a library makes of this.
* `Span.toJson`, `Span.ofJson?`, `Limits.toJson`, `Limits.ofJson?`: objects with
  one member for each field; a limit that is absent has its default.
* `Category.ofJson?`, `Flaw.ofJson?`, `Imbalance.ofJson?`, `Measure.ofJson?`: one
  word each.

Offsets and counts are numbers of 64 bits, a depth limit has 32 and a code 16;
larger numbers are not read. Members with other names are ignored, and a member
that is read may not be repeated.
-/

namespace Formula

namespace Json

/-- A member with a natural number of 64 bits. -/
def count? (name : String) (members : List (String × Json)) : Option Nat :=
  (unique? name members).bind (naturalBelow? UInt64.size)

/-- A member that may be absent, with a natural number below a bound. -/
def optionalCount? (name : String) (bound default : Nat) (members : List (String × Json)) :
    Option Nat :=
  if members.any (·.1 == name) then (unique? name members).bind (naturalBelow? bound)
  else some default

end Json

/-! ### Spans and limits -/

namespace Span

/-- A span is an object with the members `start` and `end`. -/
def toJson (s : Span) : Json := .object [("start", .natural s.start), ("end", .natural s.stop)]

/-- The span that an object stands for. -/
def ofJson? : Json → Option Span
  | .object members => do
      let start ← Json.count? "start" members
      let stop ← Json.count? "end" members
      return ⟨start, stop⟩
  | _ => none

end Span

namespace Limits

/-- Limits are an object with the members `max_depth` and `max_tokens`. -/
def toJson (l : Limits) : Json :=
  .object [("max_depth", .natural l.maxDepth), ("max_tokens", .natural l.maxTokens)]

/-- The limits that an object stands for; absent members have their default. -/
def ofJson? : Json → Option Limits
  | .object members => do
      let defaults : Limits := {}
      let maxDepth ← Json.optionalCount? "max_depth" UInt32.size defaults.maxDepth members
      let maxTokens ← Json.optionalCount? "max_tokens" UInt64.size defaults.maxTokens members
      return ⟨maxDepth, maxTokens⟩
  | _ => none

end Limits

/-! ### Words -/

namespace Code

/-- A code is a number. -/
def toJson (code : Code) : Json := .natural code.number

/-- The code that a number of 16 bits stands for. -/
def ofJson? (json : Json) : Option Code := (json.naturalBelow? UInt16.size).map Code.mk

end Code

namespace Category

/-- A category is a word. -/
def toJson (c : Category) : Json := .string c.text

/-- The category a word names. -/
def ofWord? : String → Option Category
  | "lex" => some lexical
  | "syntax" => some grammatical
  | "paren" => some parenthetical
  | "binding" => some binding
  | "limit" => some limit
  | _ => none

/-- The category a value stands for. -/
def ofJson? (json : Json) : Option Category := json.word?.bind ofWord?

end Category

namespace Flaw

/-- The word for a flaw. -/
def word : Flaw → String
  | emptyExpression => "empty_expression"
  | missingOperand => "missing_operand"
  | missingOperator => "missing_operator"
  | danglingOperator => "dangling_operator"
  | emptyParens => "empty_parens"
  | unexpectedEnd => "unexpected_end"
  | trailingTokens => "trailing_tokens"

/-- The words for flaws. -/
def words : List String :=
  [emptyExpression, missingOperand, missingOperator, danglingOperator, emptyParens,
    unexpectedEnd, trailingTokens].map word

/-- A flaw is a word. -/
def toJson (f : Flaw) : Json := .string f.word

/-- The flaw a word names. -/
def ofWord? : String → Option Flaw
  | "empty_expression" => some emptyExpression
  | "missing_operand" => some missingOperand
  | "missing_operator" => some missingOperator
  | "dangling_operator" => some danglingOperator
  | "empty_parens" => some emptyParens
  | "unexpected_end" => some unexpectedEnd
  | "trailing_tokens" => some trailingTokens
  | _ => none

/-- The flaw a value stands for. -/
def ofJson? (json : Json) : Option Flaw := json.word?.bind ofWord?

end Flaw

namespace Imbalance

/-- The word for an imbalance. -/
def word : Imbalance → String
  | unmatchedClose => "unmatched_close"
  | unclosed => "unclosed"

/-- The words for imbalances. -/
def words : List String := [unmatchedClose, unclosed].map word

/-- An imbalance is a word. -/
def toJson (i : Imbalance) : Json := .string i.word

/-- The imbalance a word names. -/
def ofWord? : String → Option Imbalance
  | "unmatched_close" => some unmatchedClose
  | "unclosed" => some unclosed
  | _ => none

/-- The imbalance a value stands for. -/
def ofJson? (json : Json) : Option Imbalance := json.word?.bind ofWord?

end Imbalance

namespace Measure

/-- The word for what a limit bounds. -/
def word : Measure → String
  | nestingDepth => "nesting_depth"
  | tokenCount => "token_count"

/-- The words for what a limit bounds. -/
def words : List String := [nestingDepth, tokenCount].map word

/-- What a limit bounds is a word. -/
def toJson (m : Measure) : Json := .string m.word

/-- What a word names as the bounded measure. -/
def ofWord? : String → Option Measure
  | "nesting_depth" => some nestingDepth
  | "token_count" => some tokenCount
  | _ => none

/-- The measure a value stands for. -/
def ofJson? (json : Json) : Option Measure := json.word?.bind ofWord?

end Measure

/-! ### Faults -/

namespace Fault

/-- The kinds of faults and their fields. -/
def declaration : Enumeration where
  tag := "kind"
  variants := [
    ⟨"lex", [⟨"character", .character⟩, ⟨"position", .count⟩]⟩,
    ⟨"syntax", [⟨"fault", .word Flaw.words⟩, ⟨"token", .count⟩, ⟨"position", .count⟩]⟩,
    ⟨"unbalanced_paren",
      [⟨"fault", .word Imbalance.words⟩, ⟨"token", .count⟩, ⟨"position", .count⟩]⟩,
    ⟨"arity", [⟨"expected", .count⟩, ⟨"got", .count⟩]⟩,
    ⟨"missing_variable", [⟨"name", .text⟩]⟩,
    ⟨"limit_exceeded",
      [⟨"limit", .word Measure.words⟩, ⟨"actual", .count⟩, ⟨"max", .count⟩,
        ⟨"position", .count⟩]⟩]

/-- A fault as a value of this enumeration. -/
def entry : Fault → Entry
  | unexpectedCharacter character position => ⟨"lex", [.character character, .count position]⟩
  | malformed flaw token position => ⟨"syntax", [.word flaw.word, .count token, .count position]⟩
  | unbalanced imbalance token position =>
      ⟨"unbalanced_paren", [.word imbalance.word, .count token, .count position]⟩
  | arity expected got => ⟨"arity", [.count expected, .count got]⟩
  | missingVariable name => ⟨"missing_variable", [.text name]⟩
  | limitExceeded measure actual max position =>
      ⟨"limit_exceeded", [.word measure.word, .count actual, .count max, .count position]⟩

/-- The fault that is some value of this enumeration. -/
def ofValue? : Entry → Option Fault
  | ⟨"lex", [.character character, .count position]⟩ =>
      some (unexpectedCharacter character position)
  | ⟨"syntax", [.word word, .count token, .count position]⟩ =>
      (Flaw.ofWord? word).map fun flaw => malformed flaw token position
  | ⟨"unbalanced_paren", [.word word, .count token, .count position]⟩ =>
      (Imbalance.ofWord? word).map fun imbalance => unbalanced imbalance token position
  | ⟨"arity", [.count expected, .count got]⟩ => some (arity expected got)
  | ⟨"missing_variable", [.text name]⟩ => some (missingVariable name)
  | ⟨"limit_exceeded", [.word word, .count actual, .count max, .count position]⟩ =>
      (Measure.ofWord? word).map fun measure => limitExceeded measure actual max position
  | _ => none

/-- The name of the kind of a fault. -/
def kind (fault : Fault) : String := fault.entry.kind

/-- The JSON form of a fault. -/
def toJson (lib : Json.Library) (fault : Fault) : Json := lib.encode declaration fault.entry

/-- The fault that has a JSON form. -/
def ofJson? (lib : Json.Library) (json : Json) : Option Fault :=
  (lib.decode? declaration json).bind ofValue?

/-- The JSON text of a fault. -/
def toText (lib : Json.Library) (fault : Fault) : String := lib.write (fault.toJson lib)

/-- The fault that has a JSON text. -/
def ofText? (lib : Json.Library) (text : String) : Option Fault :=
  (lib.read? text).bind (ofJson? lib)

end Fault

end Formula
