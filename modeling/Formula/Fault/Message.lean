import Formula.Fault
import Formula.Source

/-!
How faults are put into words.

* `Fault.message`: one sentence that says what is wrong and where.
* `Fault.suggestion?`: how to mend it, where there is general advice.
* `Fault.render`: a report with the line at fault and a caret under the place.
-/

namespace Formula

/-- What is wrong with the order of tokens, in words. -/
def Flaw.text : Flaw → String
  | emptyExpression => "empty expression"
  | missingOperand => "operator is missing its left operand"
  | missingOperator => "missing operator between operands"
  | danglingOperator => "operator is missing its right operand"
  | emptyParens => "empty parentheses"
  | unexpectedEnd => "unexpected end of expression"
  | trailingTokens => "unexpected token after complete expression"

/-- Which parenthesis is missing, in words. -/
def Imbalance.text : Imbalance → String
  | unmatchedClose => "closing ')' has no matching '('"
  | unclosed => "'(' is never closed"

/-- What a limit bounds, in words. -/
def Measure.text : Measure → String
  | nestingDepth => "nesting depth"
  | tokenCount => "token count"

/-- The word for a category. -/
def Category.text : Category → String
  | lexical => "lex"
  | grammatical => "syntax"
  | parenthetical => "paren"
  | binding => "binding"
  | limit => "limit"

/-- A code is written with an `E` in front. -/
def Code.text (code : Code) : String := "E" ++ toString code.number

namespace Fault

/-- One sentence that says what is wrong and where. -/
def message : Fault → String
  | unexpectedCharacter character position =>
      "unexpected character '" ++ String.singleton character ++ "' at position "
        ++ toString position
  | malformed flaw _ position =>
      "syntax error at position " ++ toString position ++ ": " ++ flaw.text
  | unbalanced imbalance _ position =>
      "unbalanced parenthesis at position " ++ toString position ++ ": " ++ imbalance.text
  | arity expected got =>
      "expected " ++ toString expected ++ " variable binding(s), got " ++ toString got
  | missingVariable name => "no binding supplied for variable '" ++ name ++ "'"
  | limitExceeded measure actual max position =>
      measure.text ++ " limit exceeded at position " ++ toString position ++ ": "
        ++ toString actual ++ " > " ++ toString max

/-- How to mend a fault, where there is general advice. -/
def suggestion? : Fault → Option String
  | unexpectedCharacter .. => some "only numbers, names, + - * / ^ and parentheses are allowed"
  | malformed .missingOperator .. =>
      some "insert an operator such as '*' between the operands"
  | malformed .danglingOperator .. | malformed .unexpectedEnd .. =>
      some "add an operand after the operator"
  | malformed .emptyParens .. => some "put an expression inside the parentheses"
  | unbalanced .unclosed .. => some "add a matching ')'"
  | unbalanced .unmatchedClose .. => some "remove the ')' or add a matching '(' before it"
  | arity .. => some "supply exactly one value per unknown"
  | malformed .. | missingVariable _ | limitExceeded .. => none

/-- The line a fault points at, with a caret under the place; nothing if the
fault has no place in the source. -/
def excerpt (fault : Fault) (source : List Char) : List Char :=
  match fault.position?.bind (Source.locate? source) with
  | some (line, column) =>
      "\n | ".toList ++ line ++ "\n | ".toList ++ List.replicate column ' ' ++ ['^']
  | none => []

/-- A report: code and message, the line at fault if there is one, and the
advice if there is some. -/
def render (fault : Fault) (source : String) : String :=
  "error[" ++ fault.code.text ++ "]: " ++ fault.message
    ++ String.ofList (fault.excerpt source.toList)
    ++ match fault.suggestion? with
      | some advice => "\n = help: " ++ advice
      | none => ""

end Fault

end Formula
