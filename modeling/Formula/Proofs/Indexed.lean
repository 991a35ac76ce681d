import Formula.Expr.Parser
import Formula.Proofs.Grammar

/-!
Reading by indices.

An indexed reader knows its place by three numbers, the index of the next token, the index
behind the range and the depth, and changes them as it goes. Each token is looked up by its
index. The reader has no answer where an index is not that of a token and where more calls are
nested than it has room for. How it counts is left open.

* `Indexed.Run`: a piece of such reading; `Run.answer`: what it does to the registers.
* `Indexed.Counters`: how a reader counts; `Counters.upTo` has no answer where a number would
  become negative or pass a ceiling.
* `Indexed.read`, `Indexed.links`, `Indexed.block`, `Indexed.range`: the phrases of each
  kind, the operators of a chain, a group, and a whole range. `Indexed.ofTokens` is the tree
  of a list of tokens.
* `answer_bind_ok`, `answer_bind_error`, `answer_nested`, …: what the pieces that reading is
  made of answer.
-/

namespace Formula.Indexed

open Formula.Parser (Scope)

/-- The place of an indexed reader. -/
structure Registers where
  /-- Index of the next token. -/
  next : ℕ
  /-- Index one past the last token of the range. -/
  stop : ℕ
  /-- How many blocks, signs and exponents the place lies in. -/
  depth : ℕ
deriving DecidableEq, Repr

/-- A piece of reading, which ends with a value or a fault, or has no answer. -/
abbrev Run : Type → Type := ExceptT Fault (StateT Registers Option)

/-- What a piece of reading answers, and the registers behind it. -/
def Run.answer {α : Type} (x : Run α) (r : Registers) : Option (Except Fault α × Registers) :=
  StateT.run (ExceptT.run x) r

/-- No answer. -/
def stuck {α : Type} : Run α := fun _ => none

/-- How a reader counts. -/
structure Counters where
  /-- The sum of two numbers, if there is an answer. -/
  sum : ℕ → ℕ → Run ℕ
  /-- The difference of two numbers, if there is an answer. -/
  difference : ℕ → ℕ → Run ℕ

/-- Sums must not pass the ceiling, and differences must not be negative. -/
def Counters.upTo (ceiling : ℕ) : Counters where
  sum m n := if m + n ≤ ceiling then pure (m + n) else stuck
  difference m n := if n ≤ m then pure (m - n) else stuck

/-- The token with an index, which must be that of a token. -/
def tokenAt (s : Scope) (index : ℕ) : Run Token :=
  match s.tokens[index]? with
  | some t => pure t
  | none => stuck

/-- The next token of the range, if there is one. -/
def peek (s : Scope) : Run (Option Token) := do
  let r ← get
  if r.next < r.stop then some <$> tokenAt s r.next else return none

/-- Moves on behind the next token. -/
def advance : Run Unit := modify fun r => { r with next := r.next + 1 }

/-- Refuses a depth beyond the limit. -/
def checkDepth (s : Scope) (depth index : ℕ) : Run Unit :=
  match s.checkDepth depth index with
  | .ok () => pure ()
  | .error fault => throw fault

/-- The range inside the parentheses of a block, which must have room for both. -/
def inner (b : Block) : Run (ℕ × ℕ) :=
  if b.start + 2 ≤ b.stop then pure (b.innerStart, b.innerStop) else stuck

/-- The outcome of a piece of reading, a fault included. -/
def attempt {α : Type} (x : Run α) : Run (Except Fault α) := ExceptT.mk do
  let outcome ← ExceptT.run x
  return .ok outcome

/-- Reading one level deeper. The depth is what it was behind it, also after a fault. -/
def nested (s : Scope) (counters : Counters) {α : Type} (x : Run α) : Run α := do
  let r ← get
  let depth ← counters.sum r.depth 1
  set { r with depth }
  let outcome ← attempt (do checkDepth s depth r.next; x)
  let r ← get
  let depth ← counters.difference r.depth 1
  set { r with depth }
  match outcome with
  | .ok a => return a
  | .error fault => throw fault

mutual

/-- A phrase of some kind. -/
def read (s : Scope) (counters : Counters) : ℕ → Phrase → Run Expr
  | 0, _ => stuck
  | calls + 1, .chain rank => do
      let first ← read s counters calls rank.operand
      links s counters calls rank first 0
  | calls + 1, .power => do
      let base ← read s counters calls .signed
      match (← peek s).bind (·.kind.operator?) with
      | some .pow => do
          advance
          let exponent ← nested s counters (read s counters calls .power)
          return .binary .pow base exponent (base.span.merge exponent.span)
      | _ => return base
  | calls + 1, .signed => do
      match (← peek s).bind fun t => t.kind.sign?.map (t, ·) with
      | some (t, sign) => do
          advance
          let operand ← nested s counters (read s counters calls .signed)
          return .signed sign operand (t.span.merge operand.span)
      | none => read s counters calls .primary
  | calls + 1, .primary => do
      let r ← get
      match ← peek s with
      | none => throw (s.flawAt .unexpectedEnd r.next)
      | some t => do
          advance
          match t.kind with
          | .number value => return .literal value t.span
          | .name name => return .unknown name t.span
          | .lparen => block s counters calls r.next
          | _ => throw (s.flawAt .missingOperand r.next)

/-- The operators of a rank behind `left`, of which `count` have been read. -/
def links (s : Scope) (counters : Counters) : ℕ → Rank → Expr → ℕ → Run Expr
  | 0, _, _, _ => stuck
  | calls + 1, rank, left, count => do
      match (← peek s).bind (·.kind.operator?) with
      | some op =>
          if op.rank? = some rank then do
            let count ← counters.sum count 1
            let r ← get
            let depth ← counters.sum r.depth count
            checkDepth s depth r.next
            advance
            let right ← read s counters calls rank.operand
            links s counters calls rank (.binary op left right (left.span.merge right.span)) count
          else return left
      | none => return left

/-- The group that the token with the given index opens; the next token is the one
behind it. -/
def block (s : Scope) (counters : Counters) : ℕ → ℕ → Run Expr
  | 0, _ => stuck
  | calls + 1, index => do
      let opening ← tokenAt s index
      let r ← get
      match (s.brackets.get? index).filter (·.stop ≤ r.stop) with
      | none => throw (.unbalanced .unclosed index opening.span.start)
      | some b => do
          let (start, stop) ← inner b
          if stop ≤ start then throw (s.flawAt .emptyParens stop)
          else do
            let child ← nested s counters (range s counters calls start stop)
            modify fun r => { r with next := b.stop }
            let closing ← tokenAt s stop
            return .block child (opening.span.merge closing.span)

/-- The range between two indices, all of it. Behind it the outer range goes on. -/
def range (s : Scope) (counters : Counters) : ℕ → ℕ → ℕ → Run Expr
  | 0, _, _ => stuck
  | calls + 1, start, stop => do
      let outer ← get
      set { outer with next := start, stop }
      let whole ← read s counters calls (.chain .sum)
      let r ← get
      if r.next < r.stop then throw (s.flawAt .trailingTokens r.next)
      else do
        set { r with stop := outer.stop }
        return whole

end

/-- The tree of all tokens, of bounded height. -/
def tree (s : Scope) (counters : Counters) (calls : ℕ) : Run Expr := do
  let root ← range s counters calls 0 s.tokens.length
  let (height, node) := root.deepest
  if s.maxDepth < height then
    throw (.limitExceeded .nestingDepth height s.maxDepth node.span.start)
  else return root

/-- The tree of a list of tokens, or a fault, if indexed reading has an answer that counts so
and has room for so many nested calls. -/
def ofTokens (counters : Counters) (calls : ℕ) (tokens : List Token) (brackets : Brackets)
    (limits : Limits) : Option (Except Fault Expr) :=
  let outcome := (tree ⟨tokens, brackets, limits.maxDepth⟩ counters calls).answer
    ⟨0, tokens.length, 0⟩
  outcome.map Prod.fst

/-! ### What the pieces of reading answer -/

section Answers

variable {α β : Type} {s : Scope} {counters : Counters} {ceiling m n : ℕ} {r r' : Registers}

@[simp] lemma answer_pure (a : α) (r : Registers) : Run.answer (pure a) r = some (.ok a, r) := rfl

@[simp] lemma answer_throw (fault : Fault) (r : Registers) :
    Run.answer (throw fault : Run α) r = some (.error fault, r) := rfl

@[simp] lemma answer_get (r : Registers) : Run.answer get r = some (.ok r, r) := rfl

@[simp] lemma answer_set (r r' : Registers) : Run.answer (set r') r = some (.ok (), r') := rfl

@[simp] lemma answer_modify (f : Registers → Registers) (r : Registers) :
    Run.answer (modify f) r = some (.ok (), f r) := rfl

/-- What follows a piece of reading goes on behind it, and is left out after a fault. -/
lemma answer_bind (x : Run α) (f : α → Run β) (r : Registers) :
    Run.answer (x >>= f) r = (x.answer r).bind fun p =>
      match p with
      | (.ok a, r') => (f a).answer r'
      | (.error fault, r') => some (.error fault, r') := by
  have hunfold : Run.answer (x >>= f) r = (x.answer r).bind fun p =>
      StateT.run (ExceptT.bindCont f p.1) p.2 := rfl
  rw [hunfold]
  congr 1
  funext p
  obtain ⟨fault | a, r'⟩ := p <;> rfl

lemma answer_bind_ok {x : Run α} {a : α} (h : x.answer r = some (.ok a, r')) (f : α → Run β) :
    Run.answer (x >>= f) r = (f a).answer r' := by
  rw [answer_bind, h]
  rfl

lemma answer_bind_error {x : Run α} {fault : Fault} (h : x.answer r = some (.error fault, r'))
    (f : α → Run β) : Run.answer (x >>= f) r = some (.error fault, r') := by
  rw [answer_bind, h]
  rfl

lemma answer_attempt {x : Run α} {outcome : Except Fault α} (h : x.answer r = some (outcome, r')) :
    (attempt x).answer r = some (.ok outcome, r') := by
  have hunfold : (attempt x).answer r = (x.answer r).bind fun p => some (.ok p.1, p.2) := rfl
  rw [hunfold, h]
  rfl

lemma sum_upTo (h : m + n ≤ ceiling) : (Counters.upTo ceiling).sum m n = pure (m + n) := if_pos h

lemma sum_upTo_of_lt (h : ¬ m + n ≤ ceiling) : (Counters.upTo ceiling).sum m n = stuck := if_neg h

lemma difference_upTo (h : n ≤ m) : (Counters.upTo ceiling).difference m n = pure (m - n) :=
  if_pos h

lemma difference_upTo_of_lt (h : ¬ n ≤ m) : (Counters.upTo ceiling).difference m n = stuck :=
  if_neg h

lemma answer_sum (h : m + n ≤ ceiling) (r : Registers) :
    ((Counters.upTo ceiling).sum m n).answer r = some (.ok (m + n), r) := by
  rw [sum_upTo h, answer_pure]

lemma answer_difference (h : n ≤ m) (r : Registers) :
    ((Counters.upTo ceiling).difference m n).answer r = some (.ok (m - n), r) := by
  rw [difference_upTo h, answer_pure]

lemma answer_tokenAt {index : ℕ} {t : Token} (h : s.tokens[index]? = some t) (r : Registers) :
    (tokenAt s index).answer r = some (.ok t, r) := by
  simp only [tokenAt, h]
  rfl

lemma answer_inner {b : Block} (h : b.start + 2 ≤ b.stop) (r : Registers) :
    (inner b).answer r = some (.ok (b.innerStart, b.innerStop), r) := by
  rw [inner, if_pos h]
  rfl

/-- The depth is the same behind what is read one level deeper, whatever comes of it. -/
lemma answer_nested {x : Run α} {outcome : Except Fault α} (hd : r.depth + 1 ≤ ceiling)
    (h : Run.answer (do checkDepth s (r.depth + 1) r.next; x) { r with depth := r.depth + 1 }
      = some (outcome, r'))
    (hr : r'.depth = r.depth + 1) :
    (nested s (.upTo ceiling) x).answer r = some (outcome, { r' with depth := r.depth }) := by
  have hsub : r'.depth - 1 = r.depth := by omega
  have hle : 1 ≤ r'.depth := by omega
  rw [nested, answer_bind_ok (answer_get r), answer_bind_ok (answer_sum hd r),
    answer_bind_ok (answer_set r _), answer_bind_ok (answer_attempt h),
    answer_bind_ok (answer_get r'), answer_bind_ok (answer_difference hle r'),
    answer_bind_ok (answer_set r' _), hsub]
  cases outcome <;> rfl

/-- Behind a whole range the outer one goes on, if nothing is left over. -/
lemma answer_range_ok {calls start stop : ℕ} {e : Expr}
    (h : (read s counters calls (.chain .sum)).answer ⟨start, stop, r.depth⟩ = some (.ok e, r')) :
    (range s counters (calls + 1) start stop).answer r
      = if r'.next < r'.stop then some (.error (s.flawAt .trailingTokens r'.next), r')
        else some (.ok e, { r' with stop := r.stop }) := by
  rw [range, answer_bind_ok (answer_get r), answer_bind_ok (answer_set r _), answer_bind_ok h,
    answer_bind_ok (answer_get r')]
  split <;> rfl

lemma answer_range_error {calls start stop : ℕ} {fault : Fault}
    (h : (read s counters calls (.chain .sum)).answer ⟨start, stop, r.depth⟩
      = some (.error fault, r')) :
    (range s counters (calls + 1) start stop).answer r = some (.error fault, r') := by
  rw [range, answer_bind_ok (answer_get r), answer_bind_ok (answer_set r _)]
  exact answer_bind_error h _

end Answers

end Formula.Indexed
