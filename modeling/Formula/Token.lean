import Formula.Decimal.Shortest
import Formula.Operator
import Formula.Source
import Formula.Span

/-!
Tokens of a formula: numbers, names, operators and parentheses, each with the
span of its text.

* `Token.Kind.text`: how a token is written.
* `Token.Kind.endsOperand`, `Token.Kind.sign?`: the classes the adjacency rules
  and the grammar speak of.
* `startOf`: the place of the token with a given index in a list of tokens.
-/

namespace Formula

/-- What a token is. -/
inductive Token.Kind where
  /-- A decimal numeral, by its value. -/
  | number (value : Float)
  /-- The name of an unknown. -/
  | name (letters : String)
  /-- One of `+ - * / ^`; `+` and `-` also serve as signs. -/
  | operator (op : Operator)
  /-- An opening parenthesis. -/
  | lparen
  /-- A closing parenthesis. -/
  | rparen
deriving DecidableEq, Repr

/-- A token and the span of its text. -/
structure Token where
  /-- What the token is. -/
  kind : Token.Kind
  /-- Where it stands. -/
  span : Span
deriving DecidableEq, Repr

namespace Token.Kind

/-- How a token is written. -/
def text : Kind → String
  | number value => Binary64.text value
  | name letters => letters
  | operator op => String.singleton op.symbol
  | lparen => "("
  | rparen => ")"

/-- The name of an unknown, if the token is one. -/
def name? : Kind → Option String
  | name letters => some letters
  | _ => none

/-- The operator a token denotes between operands, if any. -/
def operator? : Kind → Option Operator
  | operator op => some op
  | _ => none

/-- The sign a token denotes in front of an operand, if any. -/
def sign? (kind : Kind) : Option Sign := kind.operator?.bind Operator.sign?

/-- Operators are `+ - * / ^`. -/
def isOperator (kind : Kind) : Bool := kind.operator?.isSome

/-- Numbers and names are operands by themselves. -/
def isOperand : Kind → Bool
  | number _ | name _ => true
  | _ => false

/-- An operand ends with a number, a name or a closing parenthesis. -/
def endsOperand (kind : Kind) : Bool := kind.isOperand || kind == rparen

/-- The operator or parenthesis written as one character. -/
def ofSymbol? : Char → Option Kind
  | '+' => some (operator .add)
  | '-' => some (operator .sub)
  | '*' => some (operator .mul)
  | '/' => some (operator .div)
  | '^' => some (operator .pow)
  | '(' => some lparen
  | ')' => some rparen
  | _ => none

/-- An operator is read back from its symbol. -/
@[simp] theorem ofSymbol?_symbol (op : Operator) : ofSymbol? op.symbol = some (operator op) := by
  cases op <;> rfl

end Token.Kind

namespace Token

/-- The source text under a token's span, if the span fits the source. -/
def lexeme? (source : List Char) (t : Token) : Option (List Char) :=
  Source.slice? source t.span.start t.span.stop

/-- The offset at which the token with the given index starts. Behind the last
token it is the offset at which that one stops, and `0` if there is none. -/
def startOf (tokens : List Token) (index : Nat) : Nat :=
  match tokens[index]? with
  | some t => t.span.start
  | none => (tokens.getLast?.map (·.span.stop)).getD 0

/-- The names of the unknowns among some tokens, each where it first appears. -/
def unknowns (tokens : List Token) : List String :=
  (tokens.filterMap (·.kind.name?)).eraseDups

/-- The offset of a token that exists is where its span starts. -/
theorem startOf_eq_start {tokens : List Token} {index : Nat} {t : Token}
    (h : tokens[index]? = some t) : startOf tokens index = t.span.start := by
  simp [startOf, h]

end Token

end Formula
