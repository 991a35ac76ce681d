/-!
What can be wrong with a formula or with the values supplied for it.

A `Fault` ends the work on a formula. Places are byte offsets into the source;
a token index counts the tokens of the source.

* `Fault.position?`: the offset a fault points at, if it has one.
* `Fault.token?`: the index of the token at fault, if the fault has one.
* `Fault.code`: the number a fault is catalogued under; `Code.category` groups
  the numbers by hundreds.
-/

namespace Formula

/-- What is wrong with the order of tokens. -/
inductive Flaw where
  /-- There are no tokens at all. -/
  | emptyExpression
  /-- `*`, `/`, `^` or `)` stands where an operand belongs. -/
  | missingOperand
  /-- Two operands stand next to each other. -/
  | missingOperator
  /-- An operator stands in front of `)` or at the end. -/
  | danglingOperator
  /-- Nothing stands between two parentheses. -/
  | emptyParens
  /-- The formula stops where an operand is due. -/
  | unexpectedEnd
  /-- Tokens are left over behind a complete expression. -/
  | trailingTokens
deriving DecidableEq, Repr

/-- Which side of a pair of parentheses is missing. -/
inductive Imbalance where
  /-- A `)` closes nothing. -/
  | unmatchedClose
  /-- A `(` is never closed. -/
  | unclosed
deriving DecidableEq, Repr

/-- What a limit bounds. -/
inductive Measure where
  /-- The height of the tree. -/
  | nestingDepth
  /-- The number of tokens. -/
  | tokenCount
deriving DecidableEq, Repr

/-- The reasons for which a formula or its evaluation is refused. -/
inductive Fault where
  /-- No token begins with `character`. -/
  | unexpectedCharacter (character : Char) (position : Nat)
  /-- The tokens do not form an expression. -/
  | malformed (flaw : Flaw) (token position : Nat)
  /-- The parentheses do not pair up. -/
  | unbalanced (imbalance : Imbalance) (token position : Nat)
  /-- The number of values differs from the number of unknowns. -/
  | arity (expected got : Nat)
  /-- No value is supplied for an unknown. -/
  | missingVariable (name : String)
  /-- A limit is passed. -/
  | limitExceeded (measure : Measure) (actual max position : Nat)
deriving DecidableEq, Repr

/-- The kinds of fault. -/
inductive Category where
  /-- A character is not part of the language. -/
  | lexical
  /-- Tokens stand in the wrong order. -/
  | grammatical
  /-- Parentheses do not pair up. -/
  | parenthetical
  /-- The values supplied do not fit the unknowns. -/
  | binding
  /-- A limit is passed. -/
  | limit
deriving DecidableEq, Repr

/-- The number a fault is catalogued under. -/
structure Code where
  /-- Three digits, of which the first tells the category. -/
  number : Nat
deriving DecidableEq, Repr

/-- Codes are grouped by hundreds; those outside the first four groups count as
limits. -/
def Code.category (code : Code) : Category :=
  match code.number / 100 with
  | 1 => .lexical
  | 2 => .grammatical
  | 3 => .parenthetical
  | 4 => .binding
  | _ => .limit

/-- The code of a flaw. -/
def Flaw.code : Flaw → Code
  | emptyExpression => ⟨200⟩
  | missingOperand => ⟨201⟩
  | missingOperator => ⟨202⟩
  | danglingOperator => ⟨203⟩
  | emptyParens => ⟨204⟩
  | unexpectedEnd => ⟨205⟩
  | trailingTokens => ⟨206⟩

/-- The code of an imbalance. -/
def Imbalance.code : Imbalance → Code
  | unmatchedClose => ⟨300⟩
  | unclosed => ⟨301⟩

/-- The code of a passed limit. -/
def Measure.code : Measure → Code
  | nestingDepth => ⟨500⟩
  | tokenCount => ⟨501⟩

namespace Fault

/-- The code of a fault. -/
def code : Fault → Code
  | unexpectedCharacter .. => ⟨100⟩
  | malformed flaw .. => flaw.code
  | unbalanced imbalance .. => imbalance.code
  | arity .. => ⟨400⟩
  | missingVariable _ => ⟨401⟩
  | limitExceeded measure .. => measure.code

/-- The category of a fault is that of its code. -/
def category (fault : Fault) : Category := fault.code.category

/-- The offset in the source a fault points at, if it has one. -/
def position? : Fault → Option Nat
  | unexpectedCharacter _ position
  | malformed _ _ position
  | unbalanced _ _ position
  | limitExceeded _ _ _ position => some position
  | arity .. | missingVariable _ => none

/-- The index of the token at fault, if the fault has one. -/
def token? : Fault → Option Nat
  | malformed _ token _ | unbalanced _ token _ => some token
  | _ => none

end Fault

end Formula
