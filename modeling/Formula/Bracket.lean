import Formula.Fault
import Formula.Token

/-!
Pairing the parentheses of a list of tokens.

A closing parenthesis closes the innermost one still open. Pairing walks the
tokens from the left and keeps the parentheses still open on a stack.

* `Block`: a matched pair with its nesting level, `1` for an outermost pair.
* `Pairing.run`: the walk, up to the first `)` that closes nothing.
* `closings`: the blocks in the order in which they close.
* `Brackets.ofTokens`: all blocks in the order in which they open, or the first
  parenthesis without a partner.
* `Brackets.get?`: the block that a token opens, by binary search.
* `unmatchedClose?`: the first `)` that closes nothing, found by counting alone.
-/

namespace Formula

/-- A matched pair of parentheses. -/
structure Block where
  /-- Index of the opening token. -/
  start : Nat
  /-- Index one past the closing token. -/
  stop : Nat
  /-- How many pairs the block lies in, itself included. -/
  level : Nat
deriving DecidableEq, Repr

namespace Block

/-- Index of the first token inside the parentheses. -/
def innerStart (b : Block) : Nat := b.start + 1

/-- Index one past the last token inside the parentheses. -/
def innerStop (b : Block) : Nat := b.stop - 1

/-- A block encloses another that lies strictly inside it. -/
def encloses (outer inner : Block) : Bool :=
  decide (outer.start < inner.start ∧ inner.stop < outer.stop)

end Block

/-- The matched pairs of a list of tokens, in the order in which they open. -/
structure Brackets where
  /-- The pairs, by increasing index of the opening token. -/
  blocks : List Block
deriving DecidableEq, Repr

namespace Brackets

/-- No pairs at all. -/
def empty : Brackets := ⟨[]⟩

/-- The place to which a binary search for an index narrows the blocks down that
stand at `base` and behind it, of which there are `size`. Each round leaves out
the half in which the index cannot be. -/
def narrow (blocks : List Block) (index : Nat) : Nat → Nat → Nat → Nat
  | 0, base, _ => base
  | rounds + 1, base, size =>
      if size ≤ 1 then base
      else if (blocks[base + size / 2]?).any (·.start ≤ index) then
        narrow blocks index rounds (base + size / 2) (size - size / 2)
      else narrow blocks index rounds base (size - size / 2)

/-- The block that the token with the given index opens. The blocks are sorted. -/
def get? (brackets : Brackets) (index : Nat) : Option Block :=
  let rounds := brackets.blocks.length
  (brackets.blocks[narrow brackets.blocks index rounds 0 rounds]?).filter (·.start == index)

/-- Number of pairs. -/
def size (brackets : Brackets) : Nat := brackets.blocks.length

/-- There is no pair. -/
def isEmpty (brackets : Brackets) : Bool := brackets.blocks.isEmpty

/-- The deepest nesting level, `0` without pairs. -/
def maxLevel (brackets : Brackets) : Nat :=
  (brackets.blocks.map Block.level).foldl max 0

/-- A block is found under the index at which it opens. -/
theorem start_of_get? {brackets : Brackets} {index : Nat} {b : Block}
    (h : brackets.get? index = some b) : b.start = index := by
  simpa using (Option.filter_eq_some_iff.mp h).2

/-- What is found is one of the blocks. -/
theorem mem_of_get? {brackets : Brackets} {index : Nat} {b : Block}
    (h : brackets.get? index = some b) : b ∈ brackets.blocks :=
  List.mem_of_getElem? (Option.filter_eq_some_iff.mp h).1

end Brackets

/-! ### The walk -/

/-- Where the walk over the tokens stands. -/
structure Pairing where
  /-- Index and level of each parenthesis still open, the innermost first. -/
  openings : List (Nat × Nat)
  /-- The nesting level reached. -/
  level : Nat
  /-- The pairs closed so far, the last one first. -/
  closed : List Block
deriving DecidableEq, Repr

namespace Pairing

/-- Nothing is open and nothing closed. -/
def start : Pairing := ⟨[], 0, []⟩

/-- The walk over one token; nothing, if that is a `)` that closes nothing. -/
def step (p : Pairing) (index : Nat) : Token.Kind → Option Pairing
  | .lparen => some ⟨(index, p.level + 1) :: p.openings, p.level + 1, p.closed⟩
  | .rparen =>
      match p.openings with
      | [] => none
      | (opening, level) :: openings =>
          some ⟨openings, p.level - 1, ⟨opening, index + 1, level⟩ :: p.closed⟩
  | _ => some p

/-- The walk over tokens of which the first has the given index. It ends early
at a `)` that closes nothing and then tells its index. -/
def run (p : Pairing) (index : Nat) : List Token → Pairing × Option Nat
  | [] => (p, none)
  | t :: tokens =>
      match p.step index t.kind with
      | none => (p, some index)
      | some q => q.run (index + 1) tokens

end Pairing

/-- The pairs of a list of tokens in the order in which they close, up to the
first `)` that closes nothing. -/
def closings (tokens : List Token) : List Block :=
  (Pairing.start.run 0 tokens).1.closed.reverse

/-- The pairs of a list of tokens in the order in which they open. A `)` that
closes nothing is reported first, then the first `(` that is never closed. -/
def Brackets.ofTokens (tokens : List Token) : Except Fault Brackets :=
  match Pairing.start.run 0 tokens with
  | (_, some index) =>
      .error (.unbalanced .unmatchedClose index (Token.startOf tokens index))
  | (pairing, none) =>
      match pairing.openings.getLast? with
      | some (index, _) => .error (.unbalanced .unclosed index (Token.startOf tokens index))
      | none => .ok ⟨pairing.closed.mergeSort fun a b => decide (a.start ≤ b.start)⟩

/-! ### Counting -/

/-- The first `)` that closes nothing when `depth` parentheses are open in front
of the tokens, of which the first has the given index. -/
def unmatchedCloseFrom? (depth index : Nat) : List Token → Option Nat
  | [] => none
  | t :: tokens =>
      match t.kind with
      | .lparen => unmatchedCloseFrom? (depth + 1) (index + 1) tokens
      | .rparen =>
          if depth = 0 then some index else unmatchedCloseFrom? (depth - 1) (index + 1) tokens
      | _ => unmatchedCloseFrom? depth (index + 1) tokens

/-- The index of the first `)` that closes nothing. -/
def unmatchedClose? (tokens : List Token) : Option Nat := unmatchedCloseFrom? 0 0 tokens

end Formula
