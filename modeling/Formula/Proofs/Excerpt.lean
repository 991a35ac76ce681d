import Formula.Proofs.Acceptance
import Formula.Proofs.Context

/-!
The text of a node.

* `Excerpt`: the source around a node is cut into what stands in front of it, its own
  text and what stands behind it. These hold the tokens in front of the node, those of
  its phrase, and those behind it.
* `exists_excerpt`: each node of an analysed source has one.
* `slice_reads_as_node`: the text under the span of a node, read by itself, is analysed
  as this node.
-/

namespace Formula

open Token (Lexes)

/-- A node in the source whose tree it makes up in the place `K`. -/
structure Excerpt (source : String) (K : Expr.Context) (node : Expr) where
  /-- The text in front of the node. -/
  front : List Char
  /-- The text of the node. -/
  piece : List Char
  /-- The text behind the node. -/
  rest : List Char
  /-- The tokens in front of the node. -/
  before : List Token
  /-- The tokens of the node. -/
  inside : List Token
  /-- The tokens behind the node. -/
  behind : List Token
  /-- What the node is read as. -/
  phrase : Phrase
  toList_source : source.toList = front ++ (piece ++ rest)
  lexes_front : Lexes 0 front before
  lexes_piece : Lexes front.length piece inside
  lexes_rest : Lexes (front.length + piece.length) rest behind
  span_eq : node.span = ⟨front.length, front.length + piece.length⟩
  derives : Derives phrase inside node
  replace : ∀ us e', Derives .primary us e' →
    ∃ whole, Derives (.chain .sum) (before ++ (us ++ behind)) whole ∧ whole.bare = (K.fill e').bare

variable {limits : Limits} {source : String} {a : Analysis} {K : Expr.Context} {node : Expr}
  {tokens : List Token}

/-- Each node of the tree of some tokens has its text in their source. -/
lemma exists_excerpt (hlex : Lexes 0 source.toList tokens)
    (hd : Derives (.chain .sum) tokens (K.fill node)) :
    ∃ x : Excerpt source K node, tokens = x.before ++ (x.inside ++ x.behind) := by
  obtain ⟨phrase, before, inside, behind, rfl, hin, hput⟩ := hd.placed rfl
  obtain ⟨front, piece, rest, htext, hfront, hpiece, hrest, hstart, hstop⟩ := hlex.cut hin.ne_nil
  rw [Nat.zero_add] at hpiece hrest hstart hstop
  obtain ⟨first, hfirst, last, hlast, hspan⟩ := hin.covers hpiece.ordered
  rw [hstart first hfirst, hstop last hlast] at hspan
  exact ⟨⟨front, piece, rest, before, inside, behind, phrase, htext, hfront, hpiece, hrest, hspan,
    hin, hput⟩, rfl⟩

namespace Excerpt

/-- The span of a node covers its text. -/
lemma slice?_eq (x : Excerpt source K node) :
    Source.slice? source.toList node.span.start node.span.stop = some x.piece := by
  rw [x.toList_source, x.span_eq]
  exact Source.slice?_append x.lexes_front.ascii x.lexes_piece.ascii

/-- The text of a node by itself consists of its tokens, moved to the front, and they
have its tree, moved to the front. -/
lemma exists_alone (x : Excerpt source K node) :
    ∃ us e', Lexes 0 x.piece us ∧ us.length = x.inside.length
      ∧ Derives (.chain .sum) us e' ∧ e'.mapSpans (Span.shift node.span.start) = node := by
  have hpiece := x.lexes_piece
  rw [← Nat.zero_add x.front.length] at hpiece
  obtain ⟨us, hus, hshift⟩ := hpiece.unshift
  have hkinds : us.map (·.kind) = x.inside.map (·.kind) := by
    rw [← hshift, Token.map_kind_map_shift]
  obtain ⟨e', hd, -⟩ := x.derives.respan hkinds
  refine ⟨us, e', hus, by rw [← hshift, List.length_map], hd.toFormula, ?_⟩
  have hmoved := hd.toFormula.shift x.front.length
  rw [hshift] at hmoved
  rw [x.span_eq]
  exact hmoved.unique x.derives.toFormula

end Excerpt

/-- **A node is the text under its span**: the span of a node lies in the source and
holds whole characters. The text under it is analysed within the same limits; its tree
is the node, with all offsets counted from the start of the span, and its unknowns are
the distinct names of the node in the order of their first appearance. -/
theorem slice_reads_as_node (h : (analyse limits source).outcome = .ok a)
    (hnode : node ∈ a.expr.nodes) :
    ∃ piece e', Source.slice? source.toList node.span.start node.span.stop = some piece
      ∧ (analyse limits (String.ofList piece)).outcome = .ok ⟨e', node.names.eraseDups⟩
      ∧ e'.mapSpans (Span.shift node.span.start) = node := by
  obtain ⟨tokens, hlex, hcount, hd, hheight, -⟩ := outcome_analyse_ok_iff.mp h
  obtain ⟨K, hK⟩ := Expr.mem_nodes_iff.mp hnode
  rw [hK] at hd hheight
  obtain ⟨x, rfl⟩ := exists_excerpt hlex hd
  obtain ⟨us, e', hus, hlen, hd', hshift⟩ := x.exists_alone
  refine ⟨x.piece, e', x.slice?_eq, ?_, hshift⟩
  rw [← String.toList_ofList (l := x.piece)] at hus
  refine outcome_analyse_ok_iff.mpr ⟨us, hus, ?_, hd', ?_, ?_⟩
  · simp only [List.length_append] at hcount
    omega
  · calc e'.height = node.height := by rw [← hshift, Expr.height_mapSpans]
      _ ≤ (K.fill node).height := K.height_le_fill node
      _ ≤ limits.maxDepth := hheight
  · rw [← hshift, Expr.names_mapSpans]

/-- The divisor of `x / -(y*x)` is the text `-(y*x)`. -/
theorem slice_of_divisor :
    let node : Expr := .signed .minus (.block (.binary .mul (.unknown "y" ⟨6, 7⟩)
      (.unknown "x" ⟨8, 9⟩) ⟨6, 9⟩) ⟨5, 10⟩) ⟨4, 10⟩
    let a : Analysis := ⟨.binary .div (.unknown "x" ⟨0, 1⟩) node ⟨0, 10⟩, ["x", "y"]⟩
    (analyse {} "x / -(y*x)").outcome = .ok a ∧ node ∈ a.expr.nodes
      ∧ ∃ e', (analyse {} "-(y*x)").outcome = .ok ⟨e', ["y", "x"]⟩
        ∧ e'.mapSpans (Span.shift 4) = node := by
  intro node a
  have h : (analyse {} "x / -(y*x)").outcome = .ok a := by cbv
  have hnode : node ∈ a.expr.nodes := by decide
  obtain ⟨piece, e', hslice, he, hshift⟩ := slice_reads_as_node h hnode
  have hpiece : Source.slice? "x / -(y*x)".toList 4 10 = some "-(y*x)".toList := by cbv
  obtain rfl := Option.some.inj (hslice.symm.trans hpiece)
  have hnames : node.names.eraseDups = ["y", "x"] := by cbv
  rw [String.ofList_toList, hnames] at he
  exact ⟨h, hnode, e', he, hshift⟩

end Formula
