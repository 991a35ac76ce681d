import Formula.Expr.Parser
import Formula.Proofs.Grammar
import Formula.Proofs.Pairing

/-!
Reading without its proofs of progress.

* `Parser.read`: what reading a phrase answers, the expression and the cursor
  behind it; `readLinks` and `readAll` do the same for the operators of a chain
  and for a whole range, `readExponent` for what stands behind a base.
* `read_chain`, `readLinks_join`, `readLinks_stop`, `read_power`, `read_sign`,
  `read_unsigned`, `readAll_eq`, `read_group`, …: one equation for each way
  reading goes on. Later statements open no reading function themselves.
* `Scope.group?_eq`: brackets that know the partners give a `(` the balanced
  tokens inside and the tokens behind.
* `TooDeep`: a fault of the depth limit, which names a depth and stands at a token
  of bounded index.
-/

namespace Formula.Parser

/-- The expression and the place behind it. -/
def Parsed.pair {n : ℕ} (p : Parsed n) : Expr × Cursor := (p.expr, p.next)

@[simp] lemma Parsed.pair_weaken {m n : ℕ} (p : Parsed m) (h : m ≤ n) :
    (p.weaken h).pair = p.pair := rfl

/-- What reading a phrase of some kind answers. -/
def read (s : Scope) : Phrase → Cursor → Except Fault (Expr × Cursor)
  | .chain rank, c => Parsed.pair <$> chain s rank c
  | .power, c => Parsed.pair <$> power s c
  | .signed, c => Parsed.pair <$> signed s c
  | .primary, c => Parsed.pair <$> primary s c

/-- What reading the operators of a rank behind `left` answers. -/
def readLinks (s : Scope) (rank : Rank) (left : Expr) (count : ℕ) (c : Cursor) :
    Except Fault (Expr × Cursor) :=
  Parsed.pair <$> links s rank left count c

/-- What reading a whole range answers. -/
def readAll (s : Scope) (c : Cursor) : Except Fault (Expr × Cursor) :=
  Parsed.pair <$> complete s c

/-- What reading behind a base answers, which lies at the depth given. -/
def readExponent (s : Scope) (base : Expr) (depth : ℕ) (c : Cursor) :
    Except Fault (Expr × Cursor) :=
  match c.rest with
  | ⟨.operator .pow, _⟩ :: rest => do
      s.checkDepth (depth + 1) (c.index + 1)
      let p ← read s .power ⟨c.index + 1, rest, depth + 1⟩
      return (.binary .pow base p.1 (base.span.merge p.1.span), { p.2 with depth := depth })
  | _ => .ok (base, c)

/-! ### Chains -/

lemma map_operand (s : Scope) (rank : Rank) (c : Cursor) :
    Parsed.pair <$> operand s rank c = read s rank.operand c := by
  cases rank <;> rw [operand] <;> rfl

lemma read_chain (s : Scope) (rank : Rank) (c : Cursor) :
    read s (.chain rank) c = (do
      let p ← read s rank.operand c
      readLinks s rank p.1 1 p.2) := by
  rw [← map_operand, read, chain]
  simp only [map_bind, bind_pure_comp, bind_map_left, Functor.map_map, Parsed.pair_weaken]
  rfl

lemma readLinks_join (s : Scope) {rank : Rank} {op : Operator} (h : op.rank? = some rank)
    (left : Expr) (count index depth : ℕ) (span : Span) (rest : List Token) :
    readLinks s rank left count ⟨index, ⟨.operator op, span⟩ :: rest, depth⟩ = (do
      s.checkDepth (depth + count) index
      let p ← read s rank.operand ⟨index + 1, rest, depth⟩
      readLinks s rank (.binary op left p.1 (left.span.merge p.1.span)) (count + 1) p.2) := by
  rw [← map_operand, readLinks, links]
  simp only [h, if_true, map_bind, bind_pure_comp, bind_map_left, Functor.map_map,
    Parsed.pair_weaken]
  rfl

lemma readLinks_stop (s : Scope) {rank : Rank} (left : Expr) (count : ℕ) {c : Cursor}
    (h : ∀ op ∈ nextOperator? c.rest, op.rank? ≠ some rank) :
    readLinks s rank left count c = .ok (left, c) := by
  obtain ⟨index, rest, depth⟩ := c
  rw [readLinks, links]
  simp only
  split
  · next op _ _ =>
    have hop : op.rank? ≠ some rank := h op rfl
    simp only [if_neg hop]
    rfl
  · rfl

/-! ### Powers -/

lemma readExponent_pow (s : Scope) (base : Expr) (depth : ℕ) (index depth' : ℕ) (span : Span)
    (rest : List Token) :
    readExponent s base depth ⟨index, ⟨.operator .pow, span⟩ :: rest, depth'⟩ = (do
      s.checkDepth (depth + 1) (index + 1)
      let p ← read s .power ⟨index + 1, rest, depth + 1⟩
      return (.binary .pow base p.1 (base.span.merge p.1.span), { p.2 with depth := depth })) := rfl

lemma readExponent_stop (s : Scope) (base : Expr) (depth : ℕ) {c : Cursor}
    (h : nextOperator? c.rest ≠ some .pow) : readExponent s base depth c = .ok (base, c) := by
  rw [readExponent]
  split
  · next hrest => exact absurd (by rw [hrest]; rfl) h
  · rfl

lemma read_power (s : Scope) (c : Cursor) :
    read s .power c = (do
      let p ← read s .signed c
      readExponent s p.1 c.depth p.2) := by
  rw [read, power]
  simp only [read, map_bind, bind_map_left]
  congr 1
  funext base
  obtain ⟨expr, ⟨index, rest, depth⟩, _⟩ := base
  simp only
  split
  · simp only [map_bind, bind_pure_comp, Functor.map_map, Parsed.pair, readExponent_pow, read]
  · next hrest =>
    have hstop : nextOperator? rest ≠ some .pow := by
      intro hop
      obtain ⟨span, rest', rfl⟩ := eq_cons_of_nextOperator? hop
      exact hrest span rest' rfl
    exact (readExponent_stop s expr c.depth hstop).symm

/-! ### Signs -/

lemma read_sign (s : Scope) {op : Operator} {sign : Sign} (h : op.sign? = some sign)
    (index depth : ℕ) (span : Span) (rest : List Token) :
    read s .signed ⟨index, ⟨.operator op, span⟩ :: rest, depth⟩ = (do
      s.checkDepth (depth + 1) (index + 1)
      let p ← read s .signed ⟨index + 1, rest, depth + 1⟩
      return (.signed sign p.1 (span.merge p.1.span), { p.2 with depth := depth })) := by
  rw [read, signed]
  simp only [read]
  split
  · next sign' h' =>
    obtain rfl : sign' = sign := Option.some.inj (h'.symm.trans h)
    simp only [map_bind, bind_pure_comp, Functor.map_map, Parsed.pair]
  · next h' => exact absurd (h'.symm.trans h) (by simp)

lemma read_unsigned (s : Scope) {c : Cursor}
    (h : ∀ op ∈ nextOperator? c.rest, op.sign? = none) :
    read s .signed c = read s .primary c := by
  obtain ⟨index, rest, depth⟩ := c
  have hmap : ∀ {m n : ℕ} (x : Except Fault (Parsed m)) (hmn : m ≤ n),
      Parsed.pair <$> x.map (·.weaken hmn) = Parsed.pair <$> x := fun x _ => by
    cases x <;> rfl
  rw [read, signed, read]
  simp only
  split
  · next op _ _ =>
    split
    · next h' => exact absurd (h'.symm.trans (h op rfl)) (by simp)
    · exact hmap _ _
  · exact hmap _ _

/-! ### Primaries and whole ranges -/

lemma readAll_eq (s : Scope) (c : Cursor) :
    readAll s c = (do
      let p ← read s (.chain .sum) c
      if p.2.rest.isEmpty then return p
      else throw (s.flawAt .trailingTokens p.2.index)) := by
  rw [readAll, complete]
  simp only [read, map_bind, bind_map_left]
  congr 1
  funext whole
  by_cases h : whole.next.rest.isEmpty = true
  · simp only [Parsed.pair, h, if_true]
    rfl
  · simp only [Parsed.pair, h]
    rfl

lemma read_number (s : Scope) (value : Float) (span : Span) (index depth : ℕ)
    (rest : List Token) :
    read s .primary ⟨index, ⟨.number value, span⟩ :: rest, depth⟩
      = .ok (.literal value span, ⟨index + 1, rest, depth⟩) := by
  rw [read, primary]
  rfl

lemma read_name (s : Scope) (name : String) (span : Span) (index depth : ℕ)
    (rest : List Token) :
    read s .primary ⟨index, ⟨.name name, span⟩ :: rest, depth⟩
      = .ok (.unknown name span, ⟨index + 1, rest, depth⟩) := by
  rw [read, primary]
  rfl

lemma read_nothing (s : Scope) (index depth : ℕ) :
    read s .primary ⟨index, [], depth⟩ = .error (s.flawAt .unexpectedEnd index) := by
  rw [read, primary]
  rfl

lemma read_operator (s : Scope) (op : Operator) (span : Span) (index depth : ℕ)
    (rest : List Token) :
    read s .primary ⟨index, ⟨.operator op, span⟩ :: rest, depth⟩
      = .error (s.flawAt .missingOperand index) := by
  rw [read, primary]
  rfl

lemma read_rparen (s : Scope) (span : Span) (index depth : ℕ) (rest : List Token) :
    read s .primary ⟨index, ⟨.rparen, span⟩ :: rest, depth⟩
      = .error (s.flawAt .missingOperand index) := by
  rw [read, primary]
  rfl

lemma read_group (s : Scope) {index depth : ℕ} {span : Span} {t close : Token}
    {rest inside behind : List Token}
    (h : s.group? index rest = some (t :: inside, close, behind)) :
    read s .primary ⟨index, ⟨.lparen, span⟩ :: rest, depth⟩ = (do
      s.checkDepth (depth + 1) (index + 1)
      let p ← readAll s ⟨index + 1, t :: inside, depth + 1⟩
      return (.block p.1 (span.merge close.span), ⟨p.2.index + 1, behind, depth⟩)) := by
  rw [read, primary]
  simp only
  split
  · next h' => simp [h] at h'
  · next h' => simp [h] at h'
  · next h' =>
    obtain ⟨⟨rfl, rfl⟩, rfl, rfl⟩ := by simpa [h] using h'
    simp only [map_bind, bind_pure_comp, Functor.map_map, Parsed.pair, readAll]

lemma read_group_nil (s : Scope) {index : ℕ} {close : Token} {rest behind : List Token}
    (h : s.group? index rest = some ([], close, behind)) (depth : ℕ) (span : Span) :
    read s .primary ⟨index, ⟨.lparen, span⟩ :: rest, depth⟩
      = .error (s.flawAt .emptyParens (index + 1)) := by
  rw [read, primary]
  simp only
  split
  · next h' => simp [h] at h'
  · rfl
  · next h' => simp [h] at h'

lemma read_unclosed (s : Scope) {index : ℕ} {rest : List Token} (h : s.group? index rest = none)
    (depth : ℕ) (span : Span) :
    read s .primary ⟨index, ⟨.lparen, span⟩ :: rest, depth⟩
      = .error (.unbalanced .unclosed index span.start) := by
  rw [read, primary]
  simp only
  split
  · rfl
  · next h' => simp [h] at h'
  · next h' => simp [h] at h'

/-- Brackets that know the partners split what follows a `(` at the `)` behind a
balanced list. -/
lemma Scope.group?_eq (s : Scope) {index : ℕ} {opening close : Span} {inside : List Token}
    (h : s.brackets.Pairs index (⟨.lparen, opening⟩ :: (inside ++ [⟨.rparen, close⟩])))
    (hin : Closes 0 inside) (behind : List Token) :
    s.group? index (inside ++ ⟨.rparen, close⟩ :: behind)
      = some (inside, ⟨.rparen, close⟩, behind) := by
  obtain ⟨b, hb, hs⟩ := h [] inside [] opening close rfl hin
  have hlen : b.stop - (index + 2) = inside.length := by
    rw [hs, List.length_nil]
    omega
  rw [List.length_nil, Nat.add_zero] at hb
  rw [Scope.group?, hb]
  simp only [hlen, List.drop_left, List.take_left]

/-- The index behind two lists with a token between them. -/
lemma add_length_append_cons (index : ℕ) (ts : List Token) (t : Token) (us : List Token) :
    index + (ts ++ t :: us).length = index + ts.length + 1 + us.length := by
  rw [List.length_append, List.length_cons]
  omega

/-! ### Refusals of the depth limit -/

/-- The fault of the depth limit, at a depth of at most `room` and at a token in
front of the index `stop`. -/
def TooDeep (s : Scope) (room stop : ℕ) (fault : Fault) : Prop :=
  ∃ depth index,
    fault = .limitExceeded .nestingDepth depth s.maxDepth (Token.startOf s.tokens index)
    ∧ s.maxDepth < depth ∧ depth ≤ room ∧ index < stop

lemma TooDeep.mono {s : Scope} {room room' stop stop' : ℕ} {fault : Fault}
    (h : TooDeep s room stop fault) (hr : room ≤ room') (hs : stop ≤ stop') :
    TooDeep s room' stop' fault := by
  obtain ⟨depth, index, hf, hlt, hle, hi⟩ := h
  exact ⟨depth, index, hf, hlt, hle.trans hr, hi.trans_le hs⟩

/-- A depth is within the limit, or it is refused. -/
lemma Scope.checkDepth_cases (s : Scope) (depth index : ℕ) :
    (depth ≤ s.maxDepth ∧ s.checkDepth depth index = .ok ())
      ∨ (s.maxDepth < depth ∧ s.checkDepth depth index
        = .error (.limitExceeded .nestingDepth depth s.maxDepth
            (Token.startOf s.tokens index))) := by
  by_cases h : s.maxDepth < depth
  · exact Or.inr ⟨h, by rw [Scope.checkDepth, if_pos h]⟩
  · exact Or.inl ⟨Nat.le_of_not_lt h, by rw [Scope.checkDepth, if_neg h]⟩

end Formula.Parser
