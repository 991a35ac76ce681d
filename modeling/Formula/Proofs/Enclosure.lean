import Formula.Proofs.Excerpt

/-!
Parentheses around a node.

* `Source.enclose?`: a text with a `(` in front of a span and a `)` behind it.
* `Excerpt.enclosed`, `Excerpt.exists_enclosed`: parentheses around the text of a node
  are two more tokens, and its phrase becomes a primary.
* `enclosed_node_keeps_value`: parentheses around a node put a block around it and
  change no value.
-/

namespace Formula

open Token (Lexes)

/-- A text with parentheses around what a span covers, if the span fits the text. -/
def Source.enclose? (text : List Char) (span : Span) : Option (List Char) := do
  let (before, after) ← splitAt? text span.start
  let (inside, behind) ← splitAt? after (span.stop - span.start)
  return before ++ '(' :: (inside ++ ')' :: behind)

lemma Source.enclose?_append {front piece rest : List Char} (hf : ∀ c ∈ front, c.utf8Size = 1)
    (hp : ∀ c ∈ piece, c.utf8Size = 1) :
    enclose? (front ++ (piece ++ rest)) ⟨front.length, front.length + piece.length⟩
      = some (front ++ '(' :: (piece ++ ')' :: rest)) := by
  rw [enclose?, splitAt?_append hf]
  simp [splitAt?_append hp]

namespace Token.Lexes

/-- Text in parentheses, with more text in front of it and behind it. -/
lemma enclose {offset : ℕ} {front piece rest : List Char} {before inside behind : List Token}
    (hf : Lexes offset front before) (hp : Lexes (offset + front.length) piece inside)
    (hr : Lexes (offset + front.length + piece.length) rest behind) :
    ∃ us, Lexes offset (front ++ '(' :: (piece ++ ')' :: rest)) us
      ∧ us.map (·.kind) = before.map (·.kind)
        ++ .lparen :: (inside.map (·.kind) ++ .rparen :: behind.map (·.kind)) := by
  have hopen : Token.Kind.ofSymbol? '(' = some .lparen := rfl
  have hclose : Token.Kind.ofSymbol? ')' = some .rparen := rfl
  -- the tokens in parentheses have moved by one, those behind them by two
  have hrest : Lexes (offset + front.length + 1 + piece.length + 1) rest
      (behind.map (Token.shift 2)) := by
    rw [Nat.add_right_comm _ 1]
    exact hr.shift 2
  have hinside := (hp.shift 1).append (hrest.symbol hclose) (Token.apart_of_ofSymbol? hclose)
  have hall := hf.append (hinside.symbol hopen) (Token.apart_of_ofSymbol? hopen)
  refine ⟨_, hall, ?_⟩
  rw [List.map_append, List.map_cons, List.map_append, List.map_cons, Token.map_kind_map_shift,
    Token.map_kind_map_shift]

end Token.Lexes

variable {limits : Limits} {source : String} {a : Analysis} {K : Expr.Context} {node : Expr}
  {tokens : List Token}

namespace Excerpt

/-- The source with parentheses around the text of the node. -/
def enclosed (x : Excerpt source K node) : List Char :=
  x.front ++ '(' :: (x.piece ++ ')' :: x.rest)

lemma enclose?_eq (x : Excerpt source K node) :
    Source.enclose? source.toList node.span = some x.enclosed := by
  rw [x.toList_source, x.span_eq]
  exact Source.enclose?_append x.lexes_front.ascii x.lexes_piece.ascii

/-- Parentheses around the text of a node are two more tokens, and all tokens have the
tree with a block around the node. -/
lemma exists_enclosed (x : Excerpt source K node) (span : Span) :
    ∃ us whole, Lexes 0 x.enclosed us
      ∧ us.length = (x.before ++ (x.inside ++ x.behind)).length + 2
      ∧ Derives (.chain .sum) us whole ∧ whole.bare = (K.fill (.block node span)).bare := by
  have hpiece := x.lexes_piece
  have hrest := x.lexes_rest
  rw [← Nat.zero_add x.front.length] at hpiece hrest
  obtain ⟨us, hus, hkinds⟩ := x.lexes_front.enclose hpiece hrest
  have hgroup := @Derives.group span span _ _ x.derives.toFormula
  obtain ⟨whole', hwhole', hbare'⟩ := x.replace _ _ hgroup
  obtain ⟨whole, hwhole, hbare⟩ := hwhole'.respan (hkinds.trans (by simp))
  refine ⟨us, whole, hus, ?_, hwhole, ?_⟩
  · have hlen := congrArg List.length hkinds
    simp only [List.length_append, List.length_cons, List.length_map] at hlen ⊢
    omega
  · calc whole.bare = whole'.bare := hbare
      _ = (K.fill (.block node (span.merge span))).bare := hbare'
      _ = (K.fill (.block node span)).bare := K.bare_fill_congr rfl

end Excerpt

/-- **Parentheses around a node change nothing but a block**: if the two tokens more and
the tree with a block around the node respect the limits, the source with parentheses
around the span of the node is analysed; its tree is that tree except for spans, and its
unknowns are the same. Under all bindings both sources have the same value, or the same
fault, evaluated once and compiled. -/
theorem enclosed_node_keeps_value (h : (analyse limits source).outcome = .ok a)
    (hK : a.expr = K.fill node) (hlex : lex source = .ok tokens)
    (hcount : tokens.length + 2 ≤ limits.maxTokens)
    (hheight : (K.fill (.block node node.span)).height ≤ limits.maxDepth) :
    ∃ text a', Source.enclose? source.toList node.span = some text
      ∧ (analyse limits (String.ofList text)).outcome = .ok a'
      ∧ a'.expr.bare = (K.fill (.block node node.span)).bare ∧ a'.unknowns = a.unknowns
      ∧ ∀ b : Bindings, evaluateOnce limits (String.ofList text) b = evaluateOnce limits source b
        ∧ ((compile limits (String.ofList text)).outcome >>= fun c => c.evaluate b)
          = ((compile limits source).outcome >>= fun c => c.evaluate b) := by
  obtain ⟨ts, hts, -, hd, -, hunknowns⟩ := outcome_analyse_ok_iff.mp h
  obtain rfl := Except.ok.inj (hlex.symm.trans (lex_eq_ok_iff.mpr hts))
  rw [hK] at hd
  obtain ⟨x, rfl⟩ := exists_excerpt hts hd
  obtain ⟨us, whole, hus, hlen, hwhole, hbare⟩ := x.exists_enclosed node.span
  have hnames : whole.names = a.expr.names := by
    rw [Expr.names_eq_of_bare hbare, hK]
    exact K.names_fill_congr rfl
  have hvalue : ∀ b, whole.value b = a.expr.value b := by
    intro b
    rw [Expr.value_eq_of_bare hbare, hK]
    exact K.value_fill_congr rfl
  have hok : (analyse limits (String.ofList x.enclosed)).outcome = .ok ⟨whole, a.unknowns⟩ := by
    rw [← String.toList_ofList (l := x.enclosed)] at hus
    refine outcome_analyse_ok_iff.mpr ⟨us, hus, ?_, hwhole, ?_, ?_⟩
    · rwa [hlen]
    · rwa [Expr.height_eq_of_bare hbare]
    · rw [hunknowns, hnames]
  refine ⟨x.enclosed, ⟨whole, a.unknowns⟩, x.enclose?_eq, hok, hbare, rfl, ?_⟩
  intro b
  refine ⟨?_, ?_⟩
  · rw [evaluateOnce_of_analyse hok, evaluateOnce_of_analyse h, Expr.evaluate, hvalue,
      Expr.evaluate]
  · rw [outcome_compile_evaluate hok, outcome_compile_evaluate h, Expr.evaluate, hvalue,
      Expr.evaluate]

/-- The base of `-x^y` is `-x`, so `(-x)^y` has the same value. The limits are those that
`(-x)^y` just respects. -/
theorem enclosed_base_of_power :
    let limits : Limits := ⟨3, 6⟩
    let node : Expr := .signed .minus (.unknown "x" ⟨1, 2⟩) ⟨0, 2⟩
    let K : Expr.Context := .left .pow .root (.unknown "y" ⟨3, 4⟩) ⟨0, 4⟩
    (analyse limits "-x^y").outcome = .ok ⟨K.fill node, ["x", "y"]⟩
      ∧ ∃ e, (analyse limits "(-x)^y").outcome = .ok ⟨e, ["x", "y"]⟩
        ∧ e.bare = (K.fill (.block node node.span)).bare
        ∧ ∀ b : Bindings, evaluateOnce limits "(-x)^y" b = evaluateOnce limits "-x^y" b := by
  intro limits node K
  have h : (analyse limits "-x^y").outcome = .ok ⟨K.fill node, ["x", "y"]⟩ := by cbv
  have hlex : lex "-x^y" = .ok [⟨.operator .sub, ⟨0, 1⟩⟩, ⟨.name "x", ⟨1, 2⟩⟩,
      ⟨.operator .pow, ⟨2, 3⟩⟩, ⟨.name "y", ⟨3, 4⟩⟩] := by cbv
  obtain ⟨text, ⟨e, _⟩, htext, he, hbare, rfl, hvalue⟩ :=
    enclosed_node_keeps_value h rfl hlex (by decide) (by decide)
  have hparens : Source.enclose? "-x^y".toList ⟨0, 2⟩ = some "(-x)^y".toList := by cbv
  obtain rfl := Option.some.inj (htext.symm.trans hparens)
  rw [String.ofList_toList] at he hvalue
  exact ⟨h, e, he, hbare, fun b => (hvalue b).1⟩

end Formula
