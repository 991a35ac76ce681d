import Formula.Bracket

/-!
Checking each token against its left neighbour.

`+` and `-` may stand anywhere: behind an operand they are operators, elsewhere
signs. All other rules look at one token and the one in front of it, and at the
last token. A `)` that closes nothing outranks every flaw of this kind: tokens
with one pass, so that pairing reports it.

* `flawAfter`: what is wrong with a token behind another.
* `firstFlaw?`: the first flaw of a list of tokens and the index it is reported
  at.
* `check`: the tokens, if they have no flaw or a `)` closes nothing.
-/

namespace Formula

/-- What is wrong with a token behind the one given, or at the start. -/
def flawAfter (before : Option Token.Kind) : Token.Kind → Option Flaw
  | .operator .add | .operator .sub => none
  | .operator _ => if before.any Token.Kind.endsOperand then none else some .missingOperand
  | .number _ | .name _ | .lparen =>
      if before.any Token.Kind.endsOperand then some .missingOperator else none
  | .rparen =>
      match before with
      | some .lparen => some .emptyParens
      | some (.operator _) => some .danglingOperator
      | _ => none

/-- What is wrong with ending behind the token given, or with having none. -/
def flawAtEnd : Option Token.Kind → Option Flaw
  | none => some .emptyExpression
  | some (.operator _) => some .danglingOperator
  | some .lparen => some .unexpectedEnd
  | some _ => none

/-- The first flaw of tokens that follow the one given, and the index it is
reported at; the first of them has the given index. A flaw at the end is
reported at the last token. -/
def flawFrom? (before : Option Token.Kind) (index : Nat) : List Token → Option (Flaw × Nat)
  | [] => (flawAtEnd before).map (·, index - 1)
  | t :: tokens =>
      match flawAfter before t.kind with
      | some flaw => some (flaw, index)
      | none => flawFrom? (some t.kind) (index + 1) tokens

/-- The first flaw of a list of tokens and the index it is reported at. -/
def firstFlaw? (tokens : List Token) : Option (Flaw × Nat) := flawFrom? none 0 tokens

/-- The tokens themselves, if each may follow its neighbour. A `)` that closes
nothing is left for pairing to report. -/
def check (tokens : List Token) : Except Fault (List Token) :=
  match firstFlaw? tokens with
  | none => .ok tokens
  | some (flaw, index) =>
      if (unmatchedClose? tokens).isSome then .ok tokens
      else .error (.malformed flaw index (Token.startOf tokens index))

/-- A check that passes hands on the tokens it was given. -/
theorem eq_of_check {tokens checked : List Token} (h : check tokens = .ok checked) :
    checked = tokens := by
  rw [check] at h
  split at h
  · exact (Except.ok.inj h).symm
  · split at h
    · exact (Except.ok.inj h).symm
    · simp at h

end Formula
