import Formula.Evaluation
import Formula.Proofs.Lexing
import Formula.Proofs.Recognition

/-!
Trees and their spans.

* `Expr.mapSpans`: a tree with other spans. Its height, its names, its text and its
  value are the same.
* `Expr.bare`: a tree without its spans. Two trees are equal except for spans if they
  are equal without them; `height_eq_of_bare`, `names_eq_of_bare`, ….
* `Derives.respan`: the same kinds of tokens at other places have the same tree except
  for spans.
* `Derives.shift`: tokens that are moved have a tree that is moved.
* `Derives.covers`: the span of a tree reaches from its first token to its last one.
-/

namespace Formula

/-- Moving two spans moves what covers them. -/
lemma Span.shift_merge (n : ℕ) (a b : Span) :
    (a.merge b).shift n = (a.shift n).merge (b.shift n) := by
  simp only [Span.shift, Span.merge, Nat.add_min_add_right, Nat.add_max_add_right]

/-- What covers two spans of which the second begins and ends behind the first. -/
lemma Span.merge_of_le {a b : Span} (hs : a.start ≤ b.start) (he : a.stop ≤ b.stop) :
    a.merge b = ⟨a.start, b.stop⟩ := by
  rw [Span.merge, min_eq_left hs, max_eq_right he]

namespace Expr

/-- The same tree with other spans. -/
def mapSpans (f : Span → Span) : Expr → Expr
  | literal value span => literal value (f span)
  | unknown name span => unknown name (f span)
  | block child span => block (child.mapSpans f) (f span)
  | signed sign operand span => signed sign (operand.mapSpans f) (f span)
  | binary op left right span => binary op (left.mapSpans f) (right.mapSpans f) (f span)

/-- The tree without its spans. -/
def bare (e : Expr) : Expr := e.mapSpans fun _ => Span.point 0

variable (f : Span → Span) (e : Expr)

@[simp] lemma span_mapSpans : (e.mapSpans f).span = f e.span := by
  cases e <;> rfl

lemma bare_block (child : Expr) (span : Span) :
    (block child span).bare = block child.bare (Span.point 0) := rfl

lemma bare_signed (sign : Sign) (operand : Expr) (span : Span) :
    (signed sign operand span).bare = signed sign operand.bare (Span.point 0) := rfl

lemma bare_binary (op : Operator) (left right : Expr) (span : Span) :
    (binary op left right span).bare = binary op left.bare right.bare (Span.point 0) := rfl

@[simp] lemma height_mapSpans : (e.mapSpans f).height = e.height := by
  induction e with
  | literal | unknown => rfl
  | block child span ih => rw [mapSpans, height, height, ih]
  | signed sign operand span ih => rw [mapSpans, height, height, ih]
  | binary op left right span ihl ihr => rw [mapSpans, height, height, ihl, ihr]

@[simp] lemma names_mapSpans : (e.mapSpans f).names = e.names := by
  induction e with
  | literal | unknown => rfl
  | block child span ih => exact ih
  | signed sign operand span ih => exact ih
  | binary op left right span ihl ihr => rw [mapSpans, names, names, ihl, ihr]

@[simp] lemma text_mapSpans : (e.mapSpans f).text = e.text := by
  induction e with
  | literal | unknown => rfl
  | block child span ih => rw [mapSpans, text, text, ih]
  | signed sign operand span ih => rw [mapSpans, text, text, ih]
  | binary op left right span ihl ihr => rw [mapSpans, text, text, ihl, ihr]

@[simp] lemma value_mapSpans (b : Bindings) : (e.mapSpans f).value b = e.value b := by
  induction e with
  | literal | unknown => rfl
  | block child span ih => exact ih
  | signed sign operand span ih => rw [mapSpans, value, value, ih]
  | binary op left right span ihl ihr => rw [mapSpans, value, value, ihl, ihr]

variable {e} {e' : Expr}

lemma height_eq_of_bare (h : e.bare = e'.bare) : e.height = e'.height := by
  calc e.height = e.bare.height := (height_mapSpans _ e).symm
    _ = e'.bare.height := by rw [h]
    _ = e'.height := height_mapSpans _ e'

lemma names_eq_of_bare (h : e.bare = e'.bare) : e.names = e'.names := by
  calc e.names = e.bare.names := (names_mapSpans _ e).symm
    _ = e'.bare.names := by rw [h]
    _ = e'.names := names_mapSpans _ e'

lemma text_eq_of_bare (h : e.bare = e'.bare) : e.text = e'.text := by
  calc e.text = e.bare.text := (text_mapSpans _ e).symm
    _ = e'.bare.text := by rw [h]
    _ = e'.text := text_mapSpans _ e'

lemma value_eq_of_bare (h : e.bare = e'.bare) (b : Bindings) : e.value b = e'.value b := by
  calc e.value b = e.bare.value b := (value_mapSpans _ e b).symm
    _ = e'.bare.value b := by rw [h]
    _ = e'.value b := value_mapSpans _ e' b

end Expr

/-! ### The same kinds of tokens at other places -/

variable {phrase : Phrase} {ts us : List Token} {e e' : Expr}

/-- A list of tokens with a known token among its kinds. -/
lemma exists_of_map_kind_append_cons {ts us : List Token} {op : Operator} {kinds : List Token.Kind}
    (h : us.map (·.kind) = ts.map (·.kind) ++ .operator op :: kinds) :
    ∃ left span right, us = left ++ ⟨.operator op, span⟩ :: right
      ∧ left.map (·.kind) = ts.map (·.kind) ∧ right.map (·.kind) = kinds := by
  obtain ⟨left, rest, rfl, hl, hrest⟩ := List.map_eq_append_iff.mp h
  obtain ⟨⟨kind, span⟩, right, rfl, rfl, hr⟩ := List.map_eq_cons_iff.mp hrest
  exact ⟨left, span, right, rfl, hl, hr⟩

namespace Derives

/-- The same kinds of tokens are the same phrase, with the same tree except for
spans. -/
theorem respan (h : Derives phrase ts e) (hk : us.map (·.kind) = ts.map (·.kind)) :
    ∃ e', Derives phrase us e' ∧ e'.bare = e.bare := by
  induction h using Derives.byRank generalizing us with
  | first _ ih =>
      obtain ⟨e', hd, he⟩ := ih hk
      exact ⟨e', hd.first, he⟩
  | base _ ih =>
      obtain ⟨e', hd, he⟩ := ih hk
      exact ⟨e', hd.base, he⟩
  | unsigned _ ih =>
      obtain ⟨e', hd, he⟩ := ih hk
      exact ⟨e', hd.unsigned, he⟩
  | join _ hop _ ihl ihr =>
      rw [List.map_append, List.map_cons] at hk
      obtain ⟨left, span, right, rfl, hl, hr⟩ := exists_of_map_kind_append_cons hk
      obtain ⟨l, hdl, hbl⟩ := ihl hl
      obtain ⟨r, hdr, hbr⟩ := ihr hr
      exact ⟨_, hdl.join hop hdr, by rw [Expr.bare_binary, hbl, hbr, Expr.bare_binary]⟩
  | raise _ _ ihb ihe =>
      rw [List.map_append, List.map_cons] at hk
      obtain ⟨left, span, right, rfl, hl, hr⟩ := exists_of_map_kind_append_cons hk
      obtain ⟨b, hdb, hbb⟩ := ihb hl
      obtain ⟨x, hdx, hbx⟩ := ihe hr
      exact ⟨_, hdb.raise hdx, by rw [Expr.bare_binary, hbb, hbx, Expr.bare_binary]⟩
  | sign hop _ ih =>
      rw [List.map_cons] at hk
      obtain ⟨⟨kind, span⟩, rest, rfl, rfl, hr⟩ := List.map_eq_cons_iff.mp hk
      obtain ⟨x, hd, hb⟩ := ih hr
      exact ⟨_, hd.sign hop, by rw [Expr.bare_signed, hb, Expr.bare_signed]⟩
  | number =>
      obtain ⟨⟨kind, span⟩, rfl, rfl⟩ := List.map_eq_singleton_iff.mp hk
      exact ⟨_, Derives.number, rfl⟩
  | name =>
      obtain ⟨⟨kind, span⟩, rfl, rfl⟩ := List.map_eq_singleton_iff.mp hk
      exact ⟨_, Derives.name, rfl⟩
  | group _ ih =>
      rw [List.map_cons, List.map_append] at hk
      obtain ⟨⟨open_, opening⟩, rest, rfl, rfl, hrest⟩ := List.map_eq_cons_iff.mp hk
      obtain ⟨inside, last, rfl, hin, hlast⟩ := List.map_eq_append_iff.mp hrest
      obtain ⟨⟨close_, closing⟩, rfl, rfl⟩ := List.map_eq_singleton_iff.mp hlast
      obtain ⟨x, hd, hb⟩ := ih hin
      exact ⟨_, hd.group, by rw [Expr.bare_block, hb, Expr.bare_block]⟩

/-- Tokens that are moved have a tree that is moved. -/
theorem shift (h : Derives phrase ts e) (n : ℕ) :
    Derives phrase (ts.map (Token.shift n)) (e.mapSpans (Span.shift n)) := by
  induction h using Derives.byRank with
  | first _ ih => exact ih.first
  | base _ ih => exact ih.base
  | unsigned _ ih => exact ih.unsigned
  | @join _ _ span _ _ _ _ _ hop _ ihl ihr =>
      have hjoin := @Derives.join _ _ (span.shift n) _ _ _ _ ihl hop ihr
      rw [Expr.span_mapSpans, Expr.span_mapSpans, ← Span.shift_merge] at hjoin
      rwa [List.map_append, List.map_cons]
  | @raise span _ _ _ _ _ _ ihb ihe =>
      have hraise := @Derives.raise (span.shift n) _ _ _ _ ihb ihe
      rw [Expr.span_mapSpans, Expr.span_mapSpans, ← Span.shift_merge] at hraise
      rwa [List.map_append, List.map_cons]
  | @sign _ _ span _ _ hop _ ih =>
      have hsign := @Derives.sign _ _ (span.shift n) _ _ hop ih
      rw [Expr.span_mapSpans, ← Span.shift_merge] at hsign
      exact hsign
  | number => exact Derives.number
  | name => exact Derives.name
  | @group opening closing _ _ _ ih =>
      have hgroup := @Derives.group (opening.shift n) (closing.shift n) _ _ ih
      rw [← Span.shift_merge] at hgroup
      rwa [List.map_cons, List.map_append]

end Derives

/-! ### The span of a tree -/

/-- The span reaches from the start of the first token to the end of the last one. -/
def Token.Covers (ts : List Token) (span : Span) : Prop :=
  ∃ a ∈ ts.head?, ∃ z ∈ ts.getLast?, span = ⟨a.span.start, z.span.stop⟩

/-- What covers the first and the last tokens covers them with all between them. -/
lemma Token.Covers.merge {l r : Span} (ms : List Token) (hl : Token.Covers ts l)
    (hr : Token.Covers us r) (ho : Token.Ordered (ts ++ (ms ++ us))) :
    Token.Covers (ts ++ (ms ++ us)) (l.merge r) := by
  obtain ⟨a, ha, z', hz', rfl⟩ := hl
  obtain ⟨a', ha', z, hz, rfl⟩ := hr
  have hapart := (List.pairwise_append.mp ho.pairwise).2.2
  have hmem : ∀ t ∈ us, t ∈ ms ++ us := fun t ht => List.mem_append_right _ ht
  have hstart : a.span.start ≤ a'.span.start := by
    have hlt := ho.start_lt_stop a (List.mem_append_left _ (List.mem_of_mem_head? ha))
    exact (le_of_lt hlt).trans
      (hapart a (List.mem_of_mem_head? ha) a' (hmem _ (List.mem_of_mem_head? ha')))
  have hstop : z'.span.stop ≤ z.span.stop := by
    have hz_mem := hmem z (List.mem_of_getLast? hz)
    have hlt := ho.start_lt_stop z (List.mem_append_right _ hz_mem)
    exact (hapart z' (List.mem_of_getLast? hz') z hz_mem).trans (le_of_lt hlt)
  refine ⟨a, ?_, z, ?_, Span.merge_of_le hstart hstop⟩
  · rw [List.head?_append, Option.mem_def.mp ha]
    rfl
  · rw [List.getLast?_append, List.getLast?_append, Option.mem_def.mp hz]
    rfl

/-- The span of a tree reaches from the start of its first token to the end of its
last one. -/
theorem Derives.covers (h : Derives phrase ts e) (ho : Token.Ordered ts) :
    Token.Covers ts e.span := by
  have hone : ∀ t : Token, Token.Covers [t] t.span := fun t => ⟨t, rfl, t, rfl, rfl⟩
  induction h using Derives.byRank with
  | first _ ih | base _ ih | unsigned _ ih => exact ih ho
  | join _ _ _ ihl ihr => exact (ihl ho.left).merge [_] (ihr ho.right.tail) ho
  | raise _ _ ihb ihe => exact (ihb ho.left).merge [_] (ihe ho.right.tail) ho
  | sign _ _ ih => exact (hone _).merge [] (ih ho.tail) ho
  | number | name => exact hone _
  | group _ ih => exact (hone _).merge _ (hone _) ho

end Formula
