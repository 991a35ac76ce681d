import Formula.Expr
import Formula.Proofs.Adjacency

/-!
The grammar of formulas.

* `Phrase`: the kinds of phrases, from the loosest to the tightest.
* `Derives`: a phrase of some kind, its tokens and its tree, with the spans of
  the tree's nodes. A formula is a phrase of the kind `chain sum`.
* `Derives.byRank`: induction on phrases, with the operators of a rank as one case.
* `Derives.closes`, `Derives.passes`: the tokens of a phrase are balanced, each
  may follow its neighbour, and the last one ends an operand.
* `Derives.height_lt`: a phrase has more tokens than its tree has levels.
* `Expr.names`, `Derives.names`: the names in the tree are the names among the
  tokens, in their order.
* `Phrase.EndsBefore`: what stands behind a phrase cannot go on with it.
-/

namespace Formula

/-- The kinds of phrases. -/
inductive Phrase where
  /-- Operands joined by the operators of a rank, from the left. -/
  | chain (rank : Rank)
  /-- A signed operand, raised to a power or not. -/
  | power
  /-- A primary with any number of signs in front. -/
  | signed
  /-- A number, a name or a formula in parentheses. -/
  | primary
deriving DecidableEq, Repr

/-- What the operators of a rank join: sums join products, products join
powers. -/
def Rank.operand : Rank → Phrase
  | .sum => .chain .product
  | .product => .power

/-- The names in a tree, from left to right. -/
def Expr.names : Expr → List String
  | .literal .. => []
  | .unknown name _ => [name]
  | .block child _ => child.names
  | .signed _ operand _ => operand.names
  | .binary _ left right _ => left.names ++ right.names

/-- Some tokens are a phrase of some kind, and this is its tree. -/
inductive Derives : Phrase → List Token → Expr → Prop
  /-- A chain begins with one operand … -/
  | first {rank : Rank} {ts : List Token} {e : Expr} (h : Derives rank.operand ts e) :
      Derives (.chain rank) ts e
  /-- … and goes on with `+` or `-` and a product, if it is a sum, … -/
  | sum {op : Operator} {span : Span} {ts us : List Token} {l r : Expr}
      (hl : Derives (.chain .sum) ts l) (hop : op = .add ∨ op = .sub)
      (hr : Derives (.chain .product) us r) :
      Derives (.chain .sum) (ts ++ ⟨.operator op, span⟩ :: us)
        (.binary op l r (l.span.merge r.span))
  /-- … or with `*` or `/` and a power, if it is a product. -/
  | product {op : Operator} {span : Span} {ts us : List Token} {l r : Expr}
      (hl : Derives (.chain .product) ts l) (hop : op = .mul ∨ op = .div)
      (hr : Derives .power us r) :
      Derives (.chain .product) (ts ++ ⟨.operator op, span⟩ :: us)
        (.binary op l r (l.span.merge r.span))
  /-- A signed operand is a power … -/
  | base {ts : List Token} {e : Expr} (h : Derives .signed ts e) : Derives .power ts e
  /-- … and so is one with a power as its exponent. -/
  | raise {span : Span} {ts us : List Token} {b e : Expr} (hb : Derives .signed ts b)
      (he : Derives .power us e) :
      Derives .power (ts ++ ⟨.operator .pow, span⟩ :: us)
        (.binary .pow b e (b.span.merge e.span))
  /-- A primary needs no sign … -/
  | unsigned {ts : List Token} {e : Expr} (h : Derives .primary ts e) : Derives .signed ts e
  /-- … and may have a plus sign … -/
  | plus {span : Span} {ts : List Token} {e : Expr} (h : Derives .signed ts e) :
      Derives .signed (⟨.operator .add, span⟩ :: ts) (.signed .plus e (span.merge e.span))
  /-- … or a minus sign in front of others. -/
  | minus {span : Span} {ts : List Token} {e : Expr} (h : Derives .signed ts e) :
      Derives .signed (⟨.operator .sub, span⟩ :: ts) (.signed .minus e (span.merge e.span))
  | number {value : Float} {span : Span} :
      Derives .primary [⟨.number value, span⟩] (.literal value span)
  | name {name : String} {span : Span} :
      Derives .primary [⟨.name name, span⟩] (.unknown name span)
  /-- A formula in parentheses is a primary. -/
  | group {opening closing : Span} {ts : List Token} {e : Expr} (h : Derives (.chain .sum) ts e) :
      Derives .primary (⟨.lparen, opening⟩ :: (ts ++ [⟨.rparen, closing⟩]))
        (.block e (opening.merge closing))

/-- The operators that join products. -/
lemma Operator.rank?_eq_sum_iff {op : Operator} :
    op.rank? = some .sum ↔ op = .add ∨ op = .sub := by
  cases op <;> simp [rank?]

/-- The operators that join powers. -/
lemma Operator.rank?_eq_product_iff {op : Operator} :
    op.rank? = some .product ↔ op = .mul ∨ op = .div := by
  cases op <;> simp [rank?]

namespace Derives

variable {phrase : Phrase} {ts : List Token} {e : Expr}

/-- A chain goes on with an operator of its rank and a further operand. -/
lemma join {rank : Rank} {op : Operator} {span : Span} {ts us : List Token} {l r : Expr}
    (hl : Derives (.chain rank) ts l) (hop : op.rank? = some rank)
    (hr : Derives rank.operand us r) :
    Derives (.chain rank) (ts ++ ⟨.operator op, span⟩ :: us)
      (.binary op l r (l.span.merge r.span)) := by
  cases rank with
  | sum => exact sum hl (Operator.rank?_eq_sum_iff.mp hop) hr
  | product => exact product hl (Operator.rank?_eq_product_iff.mp hop) hr

/-- A signed operand may have one more sign in front. -/
lemma sign {op : Operator} {sign : Sign} {span : Span} {ts : List Token} {e : Expr}
    (hop : op.sign? = some sign) (h : Derives .signed ts e) :
    Derives .signed (⟨.operator op, span⟩ :: ts) (.signed sign e (span.merge e.span)) := by
  cases op with
  | add =>
      cases hop
      exact plus h
  | sub =>
      cases hop
      exact minus h
  | _ => cases hop

/-- Induction that takes the operators of a rank together, and the two signs. -/
@[elab_as_elim]
theorem byRank {motive : (phrase : Phrase) → (ts : List Token) → (e : Expr) →
      Derives phrase ts e → Prop}
    (first : ∀ {rank : Rank} {ts : List Token} {e : Expr} (h : Derives rank.operand ts e),
      motive rank.operand ts e h → motive (.chain rank) ts e h.first)
    (join : ∀ {rank : Rank} {op : Operator} {span : Span} {ts us : List Token} {l r : Expr}
      (hl : Derives (.chain rank) ts l) (hop : op.rank? = some rank)
      (hr : Derives rank.operand us r), motive (.chain rank) ts l hl →
      motive rank.operand us r hr → motive (.chain rank) (ts ++ ⟨.operator op, span⟩ :: us)
        (.binary op l r (l.span.merge r.span)) (hl.join hop hr))
    (base : ∀ {ts : List Token} {e : Expr} (h : Derives .signed ts e),
      motive .signed ts e h → motive .power ts e h.base)
    (raise : ∀ {span : Span} {ts us : List Token} {b e : Expr} (hb : Derives .signed ts b)
      (he : Derives .power us e), motive .signed ts b hb → motive .power us e he →
      motive .power (ts ++ ⟨.operator .pow, span⟩ :: us)
        (.binary .pow b e (b.span.merge e.span)) (hb.raise he))
    (unsigned : ∀ {ts : List Token} {e : Expr} (h : Derives .primary ts e),
      motive .primary ts e h → motive .signed ts e h.unsigned)
    (sign : ∀ {op : Operator} {sign : Sign} {span : Span} {ts : List Token} {e : Expr}
      (hop : op.sign? = some sign) (h : Derives .signed ts e), motive .signed ts e h →
      motive .signed (⟨.operator op, span⟩ :: ts) (.signed sign e (span.merge e.span))
        (h.sign hop))
    (number : ∀ {value : Float} {span : Span},
      motive .primary [⟨.number value, span⟩] (.literal value span) Derives.number)
    (name : ∀ {name : String} {span : Span},
      motive .primary [⟨.name name, span⟩] (.unknown name span) Derives.name)
    (group : ∀ {opening closing : Span} {ts : List Token} {e : Expr}
      (h : Derives (.chain .sum) ts e), motive (.chain .sum) ts e h →
      motive .primary (⟨.lparen, opening⟩ :: (ts ++ [⟨.rparen, closing⟩]))
        (.block e (opening.merge closing)) h.group)
    (h : Derives phrase ts e) : motive phrase ts e h := by
  induction h with
  | first h ih => exact first h ih
  | sum hl hop hr ihl ihr => exact join hl (Operator.rank?_eq_sum_iff.mpr hop) hr ihl ihr
  | product hl hop hr ihl ihr => exact join hl (Operator.rank?_eq_product_iff.mpr hop) hr ihl ihr
  | base h ih => exact base h ih
  | raise hb he ihb ihe => exact raise hb he ihb ihe
  | unsigned h ih => exact unsigned h ih
  | plus h ih => exact sign rfl h ih
  | minus h ih => exact sign rfl h ih
  | number => exact number
  | name => exact name
  | group h ih => exact group h ih

/-- A power is a formula by itself. -/
lemma formula (h : Derives .power ts e) : Derives (.chain .sum) ts e := by
  have hproduct : Derives (.chain .product) ts e := first h
  exact first hproduct

lemma ne_nil (h : Derives phrase ts e) : ts ≠ [] := by
  induction h using byRank with
  | first _ ih | base _ ih | unsigned _ ih => exact ih
  | _ => simp

/-- The tokens of a phrase are balanced. -/
lemma closes (h : Derives phrase ts e) : Closes 0 ts := by
  induction h using byRank with
  | first _ ih | base _ ih | unsigned _ ih => exact ih
  | join _ _ _ ihl ihr => exact ihl.skip.mpr (ihr.plain ⟨by simp, by simp⟩)
  | raise _ _ ihb ihe => exact ihb.skip.mpr (ihe.plain ⟨by simp, by simp⟩)
  | sign _ _ ih => exact ih.plain ⟨by simp, by simp⟩
  | number | name => exact Closes.nil.plain ⟨by simp, by simp⟩
  | group _ ih => exact (ih.skip.mpr Closes.nil.closing).opening

/-- Where an operand is due, each token of a phrase may follow its neighbour, and
the last one ends an operand. -/
lemma passes (h : Derives phrase ts e) {before : Option Token.Kind}
    (hb : before.any Token.Kind.endsOperand = false) :
    Passes before ts ∧ (lastKind before ts).any Token.Kind.endsOperand = true := by
  have hop : ∀ op, (some (Token.Kind.operator op)).any Token.Kind.endsOperand = false :=
    fun _ => rfl
  induction h using byRank generalizing before with
  | first _ ih | base _ ih | unsigned _ ih => exact ih hb
  | @join _ op _ _ _ _ _ _ _ _ ihl ihr =>
      obtain ⟨hpl, hel⟩ := ihl hb
      obtain ⟨hpr, her⟩ := ihr (hop op)
      rw [passes_append, lastKind_append]
      exact ⟨⟨hpl, flawAfter_operator hel op, hpr⟩, her⟩
  | raise _ _ ihb ihe =>
      obtain ⟨hpb, heb⟩ := ihb hb
      obtain ⟨hpe, hee⟩ := ihe (hop .pow)
      rw [passes_append, lastKind_append]
      exact ⟨⟨hpb, flawAfter_operator heb .pow, hpe⟩, hee⟩
  | @sign op _ _ _ _ hs _ ih =>
      obtain ⟨hp, he⟩ := ih (hop op)
      exact ⟨⟨flawAfter_sign before (by simp [hs]), hp⟩, he⟩
  | number => exact ⟨⟨flawAfter_operand hb (Or.inl rfl), trivial⟩, rfl⟩
  | name => exact ⟨⟨flawAfter_operand hb (Or.inl rfl), trivial⟩, rfl⟩
  | @group opening closing ts _ _ ih =>
      have hopen : (some Token.Kind.lparen).any Token.Kind.endsOperand = false := rfl
      obtain ⟨hp, he⟩ := ih hopen
      refine ⟨⟨flawAfter_operand hb (Or.inr rfl), ?_⟩, ?_⟩
      · rw [passes_append]
        exact ⟨hp, flawAfter_rparen he, trivial⟩
      · rw [lastKind, lastKind_append]
        rfl

/-- A phrase has more tokens than its tree has levels. -/
lemma height_lt (h : Derives phrase ts e) : e.height < ts.length := by
  induction h using byRank with
  | first _ ih | base _ ih | unsigned _ ih => exact ih
  | join _ _ _ ihl ihr =>
      simp only [Expr.height, List.length_append, List.length_cons]
      omega
  | raise _ _ ihb ihe =>
      simp only [Expr.height, List.length_append, List.length_cons]
      omega
  | sign _ _ ih =>
      simp only [Expr.height, List.length_cons]
      omega
  | number | name => exact Nat.zero_lt_one
  | group _ ih =>
      simp only [Expr.height, List.length_append, List.length_cons, List.length_nil]
      omega

/-- The names in the tree are those among the tokens, in their order. -/
lemma names (h : Derives phrase ts e) : e.names = ts.filterMap (·.kind.name?) := by
  induction h using byRank with
  | first _ ih | base _ ih | unsigned _ ih => exact ih
  | join _ _ _ ihl ihr =>
      rw [Expr.names, ihl, ihr, List.filterMap_append]
      rfl
  | raise _ _ ihb ihe =>
      rw [Expr.names, ihb, ihe, List.filterMap_append]
      rfl
  | sign _ _ ih => exact ih
  | number | name => rfl
  | group _ ih =>
      rw [Expr.names, ih]
      simp [Token.Kind.name?]

end Derives

/-! ### The end of a phrase -/

/-- The operator at the head of some tokens, if there is one. -/
def nextOperator? : List Token → Option Operator
  | [] => none
  | t :: _ => t.kind.operator?

lemma eq_cons_of_nextOperator? {ts : List Token} {op : Operator} (h : nextOperator? ts = some op) :
    ∃ span rest, ts = ⟨.operator op, span⟩ :: rest := by
  match ts with
  | ⟨.operator op', span⟩ :: rest =>
      obtain rfl : op' = op := Option.some.inj h
      exact ⟨span, rest, rfl⟩

namespace Phrase

/-- The operators that go on with a phrase of some kind. -/
def goesOnWith : Phrase → Operator → Bool
  | chain .sum, _ => true
  | chain .product, op => op.rank? != some .sum
  | power, op => op == .pow
  | signed, _ | primary, _ => false

/-- What stands behind a phrase cannot go on with it. -/
def EndsBefore (phrase : Phrase) (behind : List Token) : Prop :=
  ∀ op ∈ nextOperator? behind, phrase.goesOnWith op = false

/-- The operators of its rank go on with a chain, and those that go on with its
operands. -/
lemma goesOnWith_chain (rank : Rank) (op : Operator) :
    (chain rank).goesOnWith op = (decide (op.rank? = some rank) || rank.operand.goesOnWith op) := by
  cases rank <;> cases op <;> rfl

lemma endsBefore_chain {rank : Rank} {behind : List Token} :
    (chain rank).EndsBefore behind
      ↔ rank.operand.EndsBefore behind ∧ ∀ op ∈ nextOperator? behind, op.rank? ≠ some rank := by
  simp only [EndsBefore, goesOnWith_chain, Bool.or_eq_false_iff, decide_eq_false_iff_not]
  exact ⟨fun h => ⟨fun op ho => (h op ho).2, fun op ho => (h op ho).1⟩,
    fun h op ho => ⟨h.2 op ho, h.1 op ho⟩⟩

lemma endsBefore_power {behind : List Token} :
    power.EndsBefore behind ↔ nextOperator? behind ≠ some .pow := by
  simp only [EndsBefore, goesOnWith, beq_eq_false_iff_ne]
  exact ⟨fun h ho => h _ ho rfl, fun h op ho hop => h (hop ▸ ho)⟩

/-- An operator of a rank cannot go on with an operand of that rank. -/
lemma endsBefore_operand_of_rank {rank : Rank} {op : Operator} (h : op.rank? = some rank)
    (span : Span) (behind : List Token) :
    rank.operand.EndsBefore (⟨.operator op, span⟩ :: behind) := by
  intro op' ho
  obtain rfl : op = op' := Option.some.inj ho
  cases rank <;> cases op <;> simp_all [Operator.rank?, Rank.operand, goesOnWith]

end Phrase

end Formula
