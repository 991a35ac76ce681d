import Formula.Adjacency
import Formula.Evaluation
import Formula.Expr.Parser
import Formula.Journal
import Formula.Program
import Formula.Token.Lexer

/-!
From source text to a value.

The source is cut into tokens, their number and order are checked, their
parentheses are paired and the tree is built. The first step that fails ends the
work, and each step that succeeds is recorded.

* `analyse`: the tree of a source and its unknowns.
* `compile`: the same, prepared for repeated evaluation.
* `evaluateOnce`: the value of a source under some bindings.
-/

namespace Formula

/-- The tree of a source and its unknowns in the order of their first
appearance. -/
structure Analysis where
  /-- The tree. -/
  expr : Expr
  /-- The distinct names in it. -/
  unknowns : List String
deriving DecidableEq, Repr

/-- Refuses more tokens than the limit, at the first one beyond it. -/
def checkCount (limits : Limits) (tokens : List Token) : Except Fault Unit :=
  if limits.maxTokens < tokens.length then
    .error (.limitExceeded .tokenCount tokens.length limits.maxTokens
      (Token.startOf tokens limits.maxTokens))
  else .ok ()

/-- The tree of a source and its unknowns, with a record of the steps taken. -/
def analyse (limits : Limits) (source : String) : Logged Analysis := do
  let tokens ← lex source
  let unknowns := Token.unknowns tokens
  Logged.record [.lexed tokens.length unknowns.length]
  checkCount limits tokens
  let tokens ← check tokens
  Logged.record ((closings tokens).map .closed)
  let brackets ← Brackets.ofTokens tokens
  Logged.record [.paired brackets.size brackets.maxLevel]
  let expr ← Expr.ofTokens tokens brackets limits
  Logged.record [.parsed expr.nodeCount]
  return ⟨expr, unknowns⟩

/-- A source prepared for repeated evaluation, with a record of the steps
taken. -/
def compile (limits : Limits) (source : String) : Logged Compiled := do
  let analysis ← analyse limits source
  let compiled ← Compiled.ofExpr analysis.expr analysis.unknowns
  Logged.record [.compiled compiled.unknowns]
  return compiled

/-- The value of a source under some bindings. -/
def evaluateOnce (limits : Limits) (source : String) (b : Bindings) : Except Fault Float := do
  let analysis ← (analyse limits source).outcome
  analysis.expr.evaluate analysis.unknowns b

end Formula
