import Formula.Proofs.Acceptance
import Formula.Proofs.Context
import Formula.Proofs.Nesting

/-!
The parentheses of a tree and those among its tokens.

* `Expr.groups`: the blocks of a tree in preorder, each with the number of blocks that it
  lies in; `Expr.map_fst_groups`, `Expr.exists_fill_of_mem_groups`.
* `Frames`: a block of the tree and a pair of parentheses stand at the same place, as deep
  inside others.
* `Matches`: a phrase has a node for each of its tokens, except that a pair of parentheses
  has one node, and its blocks are its pairs. `Matches.sign`, `Matches.binary`,
  `Matches.group`: how a phrase takes this over from what it is made of.
* `Derives.matches`: all phrases match their tokens.
* `groups_match_blocks`: the tree of a source and the pairs of its tokens tell the same
  structure.
-/

namespace Formula

namespace Expr

/-- The node is a block. -/
def isBlock : Expr → Bool
  | block .. => true
  | literal .. | unknown .. | signed .. | binary .. => false

/-- The blocks of a tree, a parent in front of what it holds, each with the number of blocks
that it lies in. The tree itself lies in as many blocks as the depth says. -/
def groups (depth : ℕ) : Expr → List (Expr × ℕ)
  | literal .. | unknown .. => []
  | e@(block child _) => (e, depth) :: child.groups (depth + 1)
  | signed _ operand _ => operand.groups depth
  | binary _ l r _ => l.groups depth ++ r.groups depth

/-- These are the blocks among the nodes. -/
lemma map_fst_groups (e : Expr) (depth : ℕ) :
    (e.groups depth).map Prod.fst = e.nodes.filter isBlock := by
  induction e generalizing depth with
  | literal | unknown => rfl
  | block child span ih => rw [groups, List.map_cons, ih, nodes, List.filter_cons_of_pos rfl]
  | signed sign operand span ih =>
      rw [groups, ih, nodes, List.filter_cons_of_neg Bool.false_ne_true]
  | binary op l r span ihl ihr =>
      rw [groups, List.map_append, ihl, ihr, nodes, List.filter_cons_of_neg Bool.false_ne_true,
        List.filter_append]

/-- How many blocks lie around the node. -/
def Context.blockCount : Context → ℕ
  | root => 0
  | block inner _ => inner.blockCount + 1
  | signed _ inner _ | left _ inner _ _ | right _ _ inner _ => inner.blockCount

/-- The number that a block of a tree comes with is that of the blocks around it. -/
lemma exists_fill_of_mem_groups {e node : Expr} {depth n : ℕ} (h : (node, n) ∈ e.groups depth) :
    ∃ K : Context, e = K.fill node ∧ n = depth + K.blockCount := by
  induction e generalizing depth with
  | literal | unknown => simp [groups] at h
  | block child span ih =>
      rcases List.mem_cons.mp h with heq | h
      · obtain ⟨rfl, rfl⟩ := Prod.mk.inj heq
        exact ⟨.root, rfl, rfl⟩
      · obtain ⟨K, rfl, rfl⟩ := ih h
        exact ⟨.block K span, rfl, Nat.add_right_comm depth 1 K.blockCount⟩
  | signed sign operand span ih =>
      obtain ⟨K, rfl, rfl⟩ := ih h
      exact ⟨.signed sign K span, rfl, rfl⟩
  | binary op l r span ihl ihr =>
      rcases List.mem_append.mp h with h | h
      · obtain ⟨K, rfl, rfl⟩ := ihl h
        exact ⟨.left op K r span, rfl, rfl⟩
      · obtain ⟨K, rfl, rfl⟩ := ihr h
        exact ⟨.right op l K span, rfl, rfl⟩

end Expr

/-- A block of a tree, with the number of blocks that it lies in, stands where a pair of
parentheses does: it reaches from the `(` to the `)` and lies as deep. -/
structure Frames (tokens : List Token) (group : Expr × ℕ) (b : Block) : Prop where
  span : ∃ opening closing, tokens[b.start]? = some ⟨.lparen, opening⟩
    ∧ tokens[b.stop - 1]? = some ⟨.rparen, closing⟩
    ∧ group.1.span = ⟨opening.start, closing.stop⟩
  level : group.2 + 1 = b.level

/-- The tokens of a phrase stand among others from an index on and lie in as many pairs of
parentheses as the level says. The blocks of its tree are the pairs among them, in their
order, and each token belongs to one node, with two tokens for a block. -/
def Matches (tokens : List Token) (index level : ℕ) (ts : List Token) (e : Expr) : Prop :=
  ∃ bs, Nests index level ts bs ∧ List.Forall₂ (Frames tokens) (e.groups level) bs
    ∧ e.nodeCount + bs.length = ts.length

variable {tokens ts us : List Token} {index level : ℕ} {e l r : Expr}

namespace Matches

lemma sign {op : Operator} {sign : Sign} {span span' : Span}
    (h : Matches tokens (index + 1) level ts e) :
    Matches tokens index level (⟨.operator op, span⟩ :: ts) (.signed sign e span') := by
  obtain ⟨bs, hn, hf, hcount⟩ := h
  refine ⟨bs, hn.plain ⟨by simp, by simp⟩, hf, ?_⟩
  rw [Expr.nodeCount, List.length_cons]
  omega

lemma binary {op op' : Operator} {span span' : Span} (hl : Matches tokens index level ts l)
    (hr : Matches tokens (index + ts.length + 1) level us r) :
    Matches tokens index level (ts ++ ⟨.operator op, span⟩ :: us) (.binary op' l r span') := by
  obtain ⟨bs, hnl, hfl, hcountl⟩ := hl
  obtain ⟨cs, hnr, hfr, hcountr⟩ := hr
  refine ⟨bs ++ cs, hnl.append (hnr.plain ⟨by simp, by simp⟩), List.rel_append hfl hfr, ?_⟩
  rw [Expr.nodeCount, List.length_append, List.length_append, List.length_cons]
  omega

/-- The pair around a phrase is the first block of the group. -/
lemma group {opening closing : Span} (h : Matches tokens (index + 1) (level + 1) ts e)
    (hopen : tokens[index]? = some ⟨.lparen, opening⟩)
    (hclose : tokens[index + ts.length + 1]? = some ⟨.rparen, closing⟩)
    (hspan : opening.merge closing = ⟨opening.start, closing.stop⟩) :
    Matches tokens index level (⟨.lparen, opening⟩ :: (ts ++ [⟨.rparen, closing⟩]))
      (.block e (opening.merge closing)) := by
  obtain ⟨bs, hn, hf, hcount⟩ := h
  refine ⟨_, hn.single, List.Forall₂.cons ⟨⟨opening, closing, hopen, hclose, hspan⟩, rfl⟩ hf, ?_⟩
  simp only [Expr.nodeCount, List.length_cons, List.length_append, List.length_nil]
  omega

end Matches

/-! ### Phrases among other tokens -/

/-- What follows tokens that stand from an index on stands behind them. -/
lemma prefix_drop_add (h : ts ++ us <+: tokens.drop index) :
    us <+: tokens.drop (index + ts.length) := by
  obtain ⟨behind, h⟩ := h
  refine ⟨behind, ?_⟩
  rw [← List.drop_drop, ← h, List.append_assoc, List.drop_left]

/-- The first of tokens that stand from an index on stands there, and the others behind it. -/
lemma prefix_drop_cons {t : Token} (h : t :: ts <+: tokens.drop index) :
    tokens[index]? = some t ∧ ts <+: tokens.drop (index + 1) := by
  obtain ⟨behind, h⟩ := h
  refine ⟨?_, behind, ?_⟩
  · rw [← Nat.add_zero index, ← List.getElem?_drop, ← h]
    rfl
  · rw [← List.drop_drop, ← h]
    rfl

/-- **Phrases match their tokens**: the blocks of a tree are the pairs of parentheses among
its tokens. -/
theorem Derives.matches {phrase : Phrase} (h : Derives phrase ts e) (ho : Token.Ordered ts)
    (hat : ts <+: tokens.drop index) (level : ℕ) : Matches tokens index level ts e := by
  induction h using Derives.byRank generalizing index level with
  | first _ ih | base _ ih | unsigned _ ih => exact ih ho hat level
  | join _ _ _ ihl ihr | raise _ _ ihl ihr =>
      obtain ⟨-, hright⟩ := prefix_drop_cons (prefix_drop_add hat)
      have hl := ihl ho.left ((List.prefix_append _ _).trans hat) level
      exact hl.binary (ihr ho.right.tail hright level)
  | sign _ _ ih =>
      obtain ⟨-, hoperand⟩ := prefix_drop_cons hat
      exact (ih ho.tail hoperand level).sign
  | number | name => exact ⟨[], Nests.nil.plain ⟨by simp, by simp⟩, List.Forall₂.nil, rfl⟩
  | @group opening closing ts _ hd ih =>
      obtain ⟨hopen, hinside⟩ := prefix_drop_cons hat
      have hclose : tokens[index + ts.length + 1]? = some ⟨.rparen, closing⟩ := by
        rw [Nat.add_right_comm]
        exact (prefix_drop_cons (prefix_drop_add hinside)).1
      have hspan : opening.merge closing = ⟨opening.start, closing.stop⟩ := by
        obtain ⟨a, ha, z, hz, hmerge⟩ := hd.group.covers ho
        obtain rfl : (⟨.lparen, opening⟩ : Token) = a := by simpa using ha
        rw [← List.cons_append, List.getLast?_concat] at hz
        obtain rfl := Option.some.inj hz
        exact hmerge
      have hin := ih ho.tail.left ((List.prefix_append _ _).trans hinside) (level + 1)
      exact hin.group hopen hclose hspan

/-! ### The tree of a source -/

/-- A tree and the pairs of its tokens tell the same structure. -/
structure SameGroups (tokens : List Token) (e : Expr) (brackets : Brackets) : Prop where
  /-- The groups of the tree are its block nodes in preorder. -/
  preorder : (e.groups 0).map Prod.fst = e.nodes.filter Expr.isBlock
  /-- The number that a group comes with is that of the blocks around it. -/
  ancestors : ∀ node n, (node, n) ∈ e.groups 0 →
    ∃ K : Expr.Context, e = K.fill node ∧ K.blockCount = n
  /-- One by one they stand where the pairs of parentheses do, as deep inside others. -/
  frames : List.Forall₂ (Frames tokens) (e.groups 0) brackets.blocks
  /-- Each token belongs to one node, with two tokens for a block. -/
  count : e.nodeCount + brackets.size = tokens.length

/-- **The tree and the pairs of parentheses agree**: the blocks of the tree of a source are
the pairs of parentheses among its tokens, in the same order, at the same places and as
deep inside others, and no token is lost or used twice. -/
theorem groups_match_blocks {limits : Limits} {source : String} {a : Analysis}
    (h : (analyse limits source).outcome = .ok a) :
    ∃ tokens brackets, lex source = .ok tokens ∧ Brackets.ofTokens tokens = .ok brackets
      ∧ SameGroups tokens a.expr brackets := by
  obtain ⟨tokens, hlex, hd, -⟩ := derives_of_analyse h
  have ho := (lex_eq_ok_iff.mp hlex).ordered
  have hat : tokens <+: tokens.drop 0 := List.prefix_refl tokens
  obtain ⟨bs, hn, hf, hcount⟩ := hd.matches ho hat 0
  refine ⟨tokens, ⟨bs⟩, hlex, Brackets.ofTokens_eq_ok_iff_nests.mpr hn,
    a.expr.map_fst_groups 0, ?_, hf, hcount⟩
  intro node n hmem
  obtain ⟨K, he, hn⟩ := Expr.exists_fill_of_mem_groups hmem
  exact ⟨K, he, by rw [hn, Nat.zero_add]⟩

/-- The tree of `-(x) ^ ((y))` has three blocks, the last one inside another. -/
theorem groups_of_power :
    let y : Expr := .block (.unknown "y" ⟨9, 10⟩) ⟨8, 11⟩
    let e : Expr := .binary .pow
      (.signed .minus (.block (.unknown "x" ⟨2, 3⟩) ⟨1, 4⟩) ⟨0, 4⟩) (.block y ⟨7, 12⟩) ⟨0, 12⟩
    (analyse {} "-(x) ^ ((y))").outcome = .ok ⟨e, ["x", "y"]⟩
      ∧ ∃ tokens, lex "-(x) ^ ((y))" = .ok tokens
        ∧ SameGroups tokens e ⟨[⟨1, 4, 1⟩, ⟨5, 10, 1⟩, ⟨6, 9, 2⟩]⟩ := by
  intro y e
  have h : (analyse {} "-(x) ^ ((y))").outcome = .ok ⟨e, ["x", "y"]⟩ := by cbv
  obtain ⟨tokens, brackets, hlex, hb, hsame⟩ := groups_match_blocks h
  have hpairs : (lex "-(x) ^ ((y))" >>= Brackets.ofTokens)
      = .ok ⟨[⟨1, 4, 1⟩, ⟨5, 10, 1⟩, ⟨6, 9, 2⟩]⟩ := by cbv
  rw [hlex] at hpairs
  obtain rfl := Except.ok.inj (hb.symm.trans hpairs)
  exact ⟨h, tokens, hlex, hsame⟩

end Formula
