import Formula.Bracket
import Formula.Expr
import Formula.Limits

/-!
Reading an expression from tokens whose parentheses are paired.

From the loosest to the tightest, an expression is a sum of products of powers
of signed operands: `+ -` and `* /` associate to the left, `^` to the right, and
a sign binds tighter than `^`. What stands between two parentheses is read as a
range of its own, up to the partner that the pairing names.

A cursor is the rest of the range being read, with the index of its first token
and the nesting depth. Every reading function moves it forward, which is why
reading ends.

* `Parser.chain`, `Parser.links`: operands joined by the operators of one rank.
* `Parser.power`, `Parser.signed`, `Parser.primary`: the tighter levels.
* `Parser.complete`: an expression that takes a whole range.
* `Expr.ofTokens`: the tree of a list of tokens, of bounded height.
-/

namespace Formula

namespace Parser

/-- What stays the same while a list of tokens is read. -/
structure Scope where
  /-- All tokens. -/
  tokens : List Token
  /-- Where their parentheses are paired. -/
  brackets : Brackets
  /-- The greatest height of a tree. -/
  maxDepth : Nat

/-- A place in a range of tokens. -/
structure Cursor where
  /-- Index of the next token among all tokens. -/
  index : Nat
  /-- The tokens of the range that are still to be read. -/
  rest : List Token
  /-- How many blocks, signs and exponents the place lies in. -/
  depth : Nat

namespace Cursor

/-- Index one past the last token of the range. -/
def stop (c : Cursor) : Nat := c.index + c.rest.length

/-- What follows the next token is shorter than the rest of the range. -/
theorem length_lt_of_rest {c : Cursor} {t : Token} {rest : List Token}
    (h : c.rest = t :: rest) : rest.length < c.rest.length := by
  rw [h]
  exact Nat.lt_succ_self _

end Cursor

/-- An expression that has been read, and the cursor behind it, with fewer than
`bound` tokens to go. -/
structure Parsed (bound : Nat) where
  /-- The expression. -/
  expr : Expr
  /-- The place behind it. -/
  next : Cursor
  /-- Reading has made progress. -/
  progress : next.rest.length < bound

/-- Progress below a bound is progress below a larger one. -/
def Parsed.weaken {m n : Nat} (p : Parsed m) (h : m ≤ n) : Parsed n :=
  ⟨p.expr, p.next, Nat.lt_of_lt_of_le p.progress h⟩

namespace Scope

/-- A flaw at the token with the given index. -/
def flawAt (s : Scope) (flaw : Flaw) (index : Nat) : Fault :=
  .malformed flaw index (Token.startOf s.tokens index)

/-- Refuses a depth beyond the limit, at the token with the given index. -/
def checkDepth (s : Scope) (depth index : Nat) : Except Fault Unit :=
  if s.maxDepth < depth then
    .error (.limitExceeded .nestingDepth depth s.maxDepth (Token.startOf s.tokens index))
  else .ok ()

/-- The tokens inside the parentheses opened at an index, the token that closes
them and the tokens behind, if the partner stands in the rest of the range. -/
def group? (s : Scope) (index : Nat) (rest : List Token) :
    Option (List Token × Token × List Token) :=
  match s.brackets.get? index with
  | none => none
  | some b =>
      match rest.drop (b.stop - (index + 2)) with
      | [] => none
      | close :: behind => some (rest.take (b.stop - (index + 2)), close, behind)

/-- Inside, partner and behind make up the rest of the range. -/
theorem eq_of_group? {s : Scope} {index : Nat} {rest inside behind : List Token} {close : Token}
    (h : s.group? index rest = some (inside, close, behind)) :
    rest = inside ++ close :: behind := by
  simp only [group?] at h
  split at h
  · simp at h
  · split at h
    · simp at h
    · next b _ _ _ hd =>
      obtain ⟨rfl, rfl, rfl⟩ := by simpa using h
      rw [← hd, List.take_append_drop]

/-- Less than the rest of the range stands inside the parentheses. -/
theorem length_inside_lt {s : Scope} {index : Nat} {rest inside behind : List Token}
    {close : Token} (h : s.group? index rest = some (inside, close, behind)) :
    inside.length < rest.length := by
  rw [eq_of_group? h, List.length_append, List.length_cons]
  omega

/-- Less than the rest of the range stands behind the parentheses. -/
theorem length_behind_lt {s : Scope} {index : Nat} {rest inside behind : List Token}
    {close : Token} (h : s.group? index rest = some (inside, close, behind)) :
    behind.length < rest.length := by
  rw [eq_of_group? h, List.length_append, List.length_cons]
  omega

end Scope

/-- Sums are read by way of products, products by way of the tighter levels. -/
def weight : Rank → Nat
  | .sum => 6
  | .product => 4

mutual

/-- Operands joined by the operators of a rank. -/
def chain (s : Scope) (rank : Rank) (c : Cursor) : Except Fault (Parsed c.rest.length) := do
  let first ← operand s rank c
  let whole ← links s rank first.expr 1 first.next
  return whole.weaken first.progress
termination_by 8 * c.rest.length + weight rank
decreasing_by
  · cases rank <;> simp [weight]
  · have := first.progress
    cases rank <;> simp [weight] <;> omega

/-- What the operators of a rank join: sums have products as operands, products
have powers. -/
def operand (s : Scope) (rank : Rank) (c : Cursor) : Except Fault (Parsed c.rest.length) :=
  match rank with
  | .sum => chain s .product c
  | .product => power s c
termination_by 8 * c.rest.length + weight rank - 1
decreasing_by all_goals simp [weight]

/-- The operators of a rank behind `left`, each with its right operand. The
`count`-th of them puts `left` that many levels below the root of the chain. -/
def links (s : Scope) (rank : Rank) (left : Expr) (count : Nat) (c : Cursor) :
    Except Fault (Parsed (c.rest.length + 1)) :=
  match h : c.rest with
  | ⟨.operator op, _⟩ :: rest =>
      if op.rank? = some rank then do
        s.checkDepth (c.depth + count) c.index
        let right ← operand s rank ⟨c.index + 1, rest, c.depth⟩
        let joined := .binary op left right.expr (left.span.merge right.expr.span)
        let whole ← links s rank joined (count + 1) right.next
        return whole.weaken (Nat.le_succ_of_le (Nat.le_succ_of_le right.progress))
      else .ok ⟨left, c, h ▸ Nat.lt_succ_self _⟩
  | _ => .ok ⟨left, c, h ▸ Nat.lt_succ_self _⟩
termination_by 8 * c.rest.length + 7
decreasing_by
  · have := Cursor.length_lt_of_rest h
    cases rank <;> simp only [weight] <;> omega
  · have := Nat.lt_trans right.progress (Cursor.length_lt_of_rest h)
    omega

/-- A signed operand, raised to a power if `^` follows it. -/
def power (s : Scope) (c : Cursor) : Except Fault (Parsed c.rest.length) := do
  let base ← signed s c
  match h : base.next.rest with
  | ⟨.operator .pow, _⟩ :: rest =>
      s.checkDepth (c.depth + 1) (base.next.index + 1)
      let exponent ← power s ⟨base.next.index + 1, rest, c.depth + 1⟩
      return ⟨.binary .pow base.expr exponent.expr (base.expr.span.merge exponent.expr.span),
        { exponent.next with depth := c.depth },
        Nat.lt_trans exponent.progress (Nat.lt_trans (Cursor.length_lt_of_rest h) base.progress)⟩
  | _ => return base
termination_by 8 * c.rest.length + 2
decreasing_by
  · omega
  · have := Nat.lt_trans (Cursor.length_lt_of_rest h) base.progress
    omega

/-- A primary with any number of signs in front. -/
def signed (s : Scope) (c : Cursor) : Except Fault (Parsed c.rest.length) :=
  match h : c.rest with
  | ⟨.operator op, span⟩ :: rest =>
      match op.sign? with
      | some sign => do
          s.checkDepth (c.depth + 1) (c.index + 1)
          let operand ← signed s ⟨c.index + 1, rest, c.depth + 1⟩
          return ⟨.signed sign operand.expr (span.merge operand.expr.span),
            { operand.next with depth := c.depth }, Nat.lt_succ_of_lt operand.progress⟩
      | none => (primary s c).map (·.weaken (Nat.le_of_eq (congrArg List.length h)))
  | _ => (primary s c).map (·.weaken (Nat.le_of_eq (congrArg List.length h)))
termination_by 8 * c.rest.length + 1
decreasing_by
  · have := Cursor.length_lt_of_rest h
    omega
  all_goals omega

/-- A number, a name or an expression in parentheses. -/
def primary (s : Scope) (c : Cursor) : Except Fault (Parsed c.rest.length) :=
  match h : c.rest with
  | [] => .error (s.flawAt .unexpectedEnd c.index)
  | ⟨.number value, span⟩ :: rest =>
      .ok ⟨.literal value span, ⟨c.index + 1, rest, c.depth⟩, Nat.lt_succ_self _⟩
  | ⟨.name name, span⟩ :: rest =>
      .ok ⟨.unknown name span, ⟨c.index + 1, rest, c.depth⟩, Nat.lt_succ_self _⟩
  | ⟨.lparen, span⟩ :: rest =>
      match hg : s.group? c.index rest with
      | none => .error (.unbalanced .unclosed c.index span.start)
      | some ([], _, _) => .error (s.flawAt .emptyParens (c.index + 1))
      | some (t :: inside, close, behind) => do
          s.checkDepth (c.depth + 1) (c.index + 1)
          let child ← complete s ⟨c.index + 1, t :: inside, c.depth + 1⟩
          return ⟨.block child.expr (span.merge close.span),
            ⟨child.next.index + 1, behind, c.depth⟩,
            Nat.lt_succ_of_lt (Scope.length_behind_lt hg)⟩
  | _ => .error (s.flawAt .missingOperand c.index)
termination_by 8 * c.rest.length
decreasing_by
  have := Nat.lt_trans (Scope.length_inside_lt hg) (Cursor.length_lt_of_rest h)
  omega

/-- An expression that takes a whole range. -/
def complete (s : Scope) (c : Cursor) : Except Fault (Parsed c.rest.length) := do
  let whole ← chain s .sum c
  if whole.next.rest.isEmpty then return whole
  else throw (s.flawAt .trailingTokens whole.next.index)
termination_by 8 * c.rest.length + 7
decreasing_by simp [weight]

end

end Parser

/-- The tree of a list of tokens whose parentheses are paired as given. Its
height is at most `maxDepth`; a tree that is too high is reported at its deepest
node. -/
def Expr.ofTokens (tokens : List Token) (brackets : Brackets) (limits : Limits) :
    Except Fault Expr := do
  let root ← Parser.complete ⟨tokens, brackets, limits.maxDepth⟩ ⟨0, tokens, 0⟩
  let (height, node) := root.expr.deepest
  if limits.maxDepth < height then
    throw (.limitExceeded .nestingDepth height limits.maxDepth node.span.start)
  return root.expr

end Formula
