import Formula.Proofs.Respan

/-!
The nodes of a tree and what stands around them.

* `Expr.nodes`: the nodes of a tree, each as the tree below it.
* `Expr.Context`: what stands around a node, from the root down; `Context.fill` puts a
  tree in the node's place. The nodes of a tree are what can be filled in to make the
  tree up (`mem_nodes_iff`).
* `Context.value_fill_congr`, `Context.bare_fill_congr`, `Context.height_le_fill`: what
  a tree takes over from one of its nodes.
* `Derives.toFormula`, `Derives.ofPrimary`: each phrase is a formula by itself, and a
  primary may stand wherever a phrase may.
* `Placed`, `Derives.placed`: a node is the tree of a phrase among the tokens, and any
  primary may stand in the place of this phrase.
-/

namespace Formula

/-- The nodes of a tree, a parent in front of its children. -/
def Expr.nodes : Expr → List Expr
  | e@(.literal ..) | e@(.unknown ..) => [e]
  | e@(.block child _) => e :: child.nodes
  | e@(.signed _ operand _) => e :: operand.nodes
  | e@(.binary _ l r _) => e :: (l.nodes ++ r.nodes)

/-- What stands around a node of a tree. -/
inductive Expr.Context where
  /-- The node is the root. -/
  | root
  /-- The node lies in parentheses. -/
  | block (inner : Context) (span : Span)
  /-- The node lies behind a sign. -/
  | signed (sign : Sign) (inner : Context) (span : Span)
  /-- The node lies in the left operand. -/
  | left (op : Operator) (inner : Context) (r : Expr) (span : Span)
  /-- The node lies in the right operand. -/
  | right (op : Operator) (l : Expr) (inner : Context) (span : Span)

namespace Expr.Context

/-- The tree with a given one in the place of the node. -/
def fill : Context → Expr → Expr
  | root, e => e
  | block inner span, e => .block (inner.fill e) span
  | signed sign inner span, e => .signed sign (inner.fill e) span
  | left op inner r span, e => .binary op (inner.fill e) r span
  | right op l inner span, e => .binary op l (inner.fill e) span

variable {e e' : Expr}

/-- Only the value of the node counts. -/
lemma value_fill_congr (K : Context) {b : Bindings} (h : e.value b = e'.value b) :
    (K.fill e).value b = (K.fill e').value b := by
  induction K with
  | root => exact h
  | block inner span ih => exact ih
  | signed sign inner span ih => rw [fill, fill, value, value, ih]
  | left op inner r span ih => rw [fill, fill, value, value, ih]
  | right op l inner span ih => rw [fill, fill, value, value, ih]

/-- Only the node without its spans counts for the tree without its spans. -/
lemma bare_fill_congr (K : Context) (h : e.bare = e'.bare) :
    (K.fill e).bare = (K.fill e').bare := by
  induction K with
  | root => exact h
  | block inner span ih => rw [fill, fill, bare_block, bare_block, ih]
  | signed sign inner span ih => rw [fill, fill, bare_signed, bare_signed, ih]
  | left op inner r span ih => rw [fill, fill, bare_binary, bare_binary, ih]
  | right op l inner span ih => rw [fill, fill, bare_binary, bare_binary, ih]

/-- Only the names of the node count. -/
lemma names_fill_congr (K : Context) (h : e.names = e'.names) :
    (K.fill e).names = (K.fill e').names := by
  induction K with
  | root => exact h
  | block inner span ih => exact ih
  | signed sign inner span ih => exact ih
  | left op inner r span ih => rw [fill, fill, names, names, ih]
  | right op l inner span ih => rw [fill, fill, names, names, ih]

/-- A node is no higher than the tree. -/
lemma height_le_fill (K : Context) (e : Expr) : e.height ≤ (K.fill e).height := by
  induction K with
  | root => exact le_rfl
  | block inner span ih | signed sign inner span ih =>
      rw [fill, height]
      omega
  | left op inner r span ih | right op l inner span ih =>
      rw [fill, height]
      omega

end Expr.Context

namespace Expr

lemma mem_nodes_self (e : Expr) : e ∈ e.nodes := by
  cases e <;> simp [nodes]

lemma mem_nodes_fill (K : Context) (node : Expr) : node ∈ (K.fill node).nodes := by
  induction K with
  | root => exact mem_nodes_self node
  | block inner span ih => exact List.mem_cons_of_mem _ ih
  | signed sign inner span ih => exact List.mem_cons_of_mem _ ih
  | left op inner r span ih => exact List.mem_cons_of_mem _ (List.mem_append_left _ ih)
  | right op l inner span ih => exact List.mem_cons_of_mem _ (List.mem_append_right _ ih)

lemma exists_fill_of_mem_nodes {e node : Expr} (h : node ∈ e.nodes) :
    ∃ K : Context, e = K.fill node := by
  induction e with
  | literal | unknown =>
      obtain rfl := List.mem_singleton.mp h
      exact ⟨.root, rfl⟩
  | block child span ih =>
      rcases List.mem_cons.mp h with rfl | h
      · exact ⟨.root, rfl⟩
      · obtain ⟨K, rfl⟩ := ih h
        exact ⟨.block K span, rfl⟩
  | signed sign operand span ih =>
      rcases List.mem_cons.mp h with rfl | h
      · exact ⟨.root, rfl⟩
      · obtain ⟨K, rfl⟩ := ih h
        exact ⟨.signed sign K span, rfl⟩
  | binary op l r span ihl ihr =>
      rcases List.mem_cons.mp h with rfl | h
      · exact ⟨.root, rfl⟩
      rcases List.mem_append.mp h with h | h
      · obtain ⟨K, rfl⟩ := ihl h
        exact ⟨.left op K r span, rfl⟩
      · obtain ⟨K, rfl⟩ := ihr h
        exact ⟨.right op l K span, rfl⟩

/-- The nodes of a tree are what makes it up, in some place. -/
theorem mem_nodes_iff {e node : Expr} : node ∈ e.nodes ↔ ∃ K : Context, e = K.fill node := by
  refine ⟨exists_fill_of_mem_nodes, ?_⟩
  rintro ⟨K, rfl⟩
  exact mem_nodes_fill K node

end Expr

namespace Derives

variable {phrase : Phrase} {ts : List Token} {e : Expr}

/-- Each phrase is a formula by itself. -/
lemma toFormula (h : Derives phrase ts e) : Derives (.chain .sum) ts e := by
  cases phrase with
  | chain rank =>
      cases rank with
      | sum => exact h
      | product => exact @Derives.first .sum _ _ h
  | power => exact h.formula
  | signed => exact h.base.formula
  | primary => exact h.unsigned.base.formula

/-- A primary may stand wherever a phrase may. -/
lemma ofPrimary (h : Derives .primary ts e) (phrase : Phrase) : Derives phrase ts e := by
  have hproduct : Derives (.chain .product) ts e := @Derives.first .product _ _ h.unsigned.base
  cases phrase with
  | chain rank =>
      cases rank with
      | sum => exact h.toFormula
      | product => exact hproduct
  | power => exact h.unsigned.base
  | signed => exact h.unsigned
  | primary => exact h

end Derives

/-! ### The place of a node -/

/-- The node in the place `K` is the tree of a phrase among the tokens. Any primary may
stand in the place of this phrase, and its tree in the place of the node. -/
def Placed (phrase : Phrase) (ts : List Token) (K : Expr.Context) (node : Expr) : Prop :=
  ∃ kind before inside behind, ts = before ++ (inside ++ behind) ∧ Derives kind inside node
    ∧ ∀ us e', Derives .primary us e' →
      ∃ whole, Derives phrase (before ++ (us ++ behind)) whole ∧ whole.bare = (K.fill e').bare

namespace Placed

variable {phrase phrase' : Phrase} {ts : List Token} {K K' : Expr.Context} {node : Expr}

/-- The root of a tree is the tree of all tokens. -/
lemma root (h : Derives phrase ts node) : Placed phrase ts .root node := by
  refine ⟨phrase, [], ts, [], by simp, h, ?_⟩
  intro us e' hu
  exact ⟨e', by simpa using hu.ofPrimary phrase, rfl⟩

/-- What is placed in a phrase is placed in a larger one. -/
lemma inside (front back : List Token) (h : Placed phrase ts K node)
    (hg : ∀ us whole, Derives phrase us whole →
      ∃ larger, Derives phrase' (front ++ (us ++ back)) larger
        ∧ ∀ e', whole.bare = (K.fill e').bare → larger.bare = (K'.fill e').bare) :
    Placed phrase' (front ++ (ts ++ back)) K' node := by
  obtain ⟨kind, before, inside, behind, rfl, hin, hput⟩ := h
  refine ⟨kind, front ++ before, inside, behind ++ back, by simp, hin, ?_⟩
  intro us e' hu
  obtain ⟨whole, hd, hb⟩ := hput us e' hu
  obtain ⟨larger, hlarger, hbare⟩ := hg _ whole hd
  exact ⟨larger, by simpa using hlarger, hbare e' hb⟩

/-- What is placed in a phrase is placed in the same tokens as another phrase. -/
lemma weaken (h : Placed phrase ts K node)
    (hg : ∀ {us whole}, Derives phrase us whole → Derives phrase' us whole) :
    Placed phrase' ts K node := by
  obtain ⟨kind, before, inside, behind, rfl, hin, hput⟩ := h
  refine ⟨kind, before, inside, behind, rfl, hin, ?_⟩
  intro us e' hu
  obtain ⟨whole, hd, hb⟩ := hput us e' hu
  exact ⟨whole, hg hd, hb⟩

variable {op : Operator} {us : List Token} {l r : Expr} {span s : Span}

/-- What is placed in a left operand is placed in the operation … -/
lemma left (h : Placed phrase ts K node)
    (hg : ∀ vs whole, Derives phrase vs whole →
      ∃ s', Derives phrase' (vs ++ ⟨.operator op, span⟩ :: us) (.binary op whole r s')) :
    Placed phrase' (ts ++ ⟨.operator op, span⟩ :: us) (.left op K r s) node := by
  refine h.inside [] _ fun vs whole hd => ?_
  obtain ⟨s', hwhole⟩ := hg vs whole hd
  refine ⟨_, hwhole, fun e' hb => ?_⟩
  rw [Expr.Context.fill, Expr.bare_binary, Expr.bare_binary, hb]

/-- … and so is what is placed in a right operand. -/
lemma right (h : Placed phrase us K node)
    (hg : ∀ vs whole, Derives phrase vs whole →
      ∃ s', Derives phrase' (ts ++ ⟨.operator op, span⟩ :: vs) (.binary op l whole s')) :
    Placed phrase' (ts ++ ⟨.operator op, span⟩ :: us) (.right op l K s) node := by
  have hplaced : Placed phrase' ((ts ++ [⟨.operator op, span⟩]) ++ (us ++ []))
      (.right op l K s) node := by
    refine h.inside _ _ fun vs whole hd => ?_
    obtain ⟨s', hwhole⟩ := hg vs whole hd
    refine ⟨_, by simpa using hwhole, fun e' hb => ?_⟩
    rw [Expr.Context.fill, Expr.bare_binary, Expr.bare_binary, hb]
  simpa using hplaced

/-- What is placed behind a sign is placed in the signed operand. -/
lemma signed {sign : Sign} (h : Placed .signed ts K node) (hop : op.sign? = some sign) :
    Placed .signed (⟨.operator op, span⟩ :: ts) (.signed sign K s) node := by
  have hplaced : Placed .signed ([⟨.operator op, span⟩] ++ (ts ++ [])) (.signed sign K s) node := by
    refine h.inside _ _ fun vs whole hd => ?_
    refine ⟨_, by simpa using @Derives.sign _ _ span _ _ hop hd, fun e' hb => ?_⟩
    rw [Expr.Context.fill, Expr.bare_signed, Expr.bare_signed, hb]
  simpa using hplaced

/-- What is placed in a formula is placed in the parentheses around it. -/
lemma block {opening closing : Span} (h : Placed (.chain .sum) ts K node) :
    Placed .primary (⟨.lparen, opening⟩ :: (ts ++ [⟨.rparen, closing⟩])) (.block K s) node := by
  refine h.inside [_] _ fun vs whole hd => ⟨_, hd.group, fun e' hb => ?_⟩
  rw [Expr.Context.fill, Expr.bare_block, Expr.bare_block, hb]

end Placed

/-- Each node of a tree is placed among the tokens. -/
theorem Derives.placed {phrase : Phrase} {ts : List Token} {e node : Expr} {K : Expr.Context}
    (h : Derives phrase ts e) (he : e = K.fill node) : Placed phrase ts K node := by
  induction h using Derives.byRank generalizing K with
  | first _ ih => exact (ih he).weaken Derives.first
  | base _ ih => exact (ih he).weaken Derives.base
  | unsigned _ ih => exact (ih he).weaken Derives.unsigned
  | join hl hop hr ihl ihr =>
      cases K with
      | root =>
          obtain rfl : _ = node := he
          exact Placed.root (hl.join hop hr)
      | left =>
          obtain ⟨rfl, hl', rfl, -⟩ := Expr.binary.inj he
          exact (ihl hl').left fun vs whole hd => ⟨_, hd.join hop hr⟩
      | right =>
          obtain ⟨rfl, rfl, hr', -⟩ := Expr.binary.inj he
          exact (ihr hr').right fun vs whole hd => ⟨_, hl.join hop hd⟩
      | _ => cases he
  | raise hb hx ihb ihx =>
      cases K with
      | root =>
          obtain rfl : _ = node := he
          exact Placed.root (hb.raise hx)
      | left =>
          obtain ⟨rfl, hb', rfl, -⟩ := Expr.binary.inj he
          exact (ihb hb').left fun vs whole hd => ⟨_, hd.raise hx⟩
      | right =>
          obtain ⟨rfl, rfl, hx', -⟩ := Expr.binary.inj he
          exact (ihx hx').right fun vs whole hd => ⟨_, hb.raise hd⟩
      | _ => cases he
  | sign hop h ih =>
      cases K with
      | root =>
          obtain rfl : _ = node := he
          exact Placed.root (h.sign hop)
      | signed =>
          obtain ⟨rfl, hx, -⟩ := Expr.signed.inj he
          exact (ih hx).signed hop
      | _ => cases he
  | number =>
      cases K with
      | root =>
          obtain rfl : _ = node := he
          exact Placed.root Derives.number
      | _ => cases he
  | name =>
      cases K with
      | root =>
          obtain rfl : _ = node := he
          exact Placed.root Derives.name
      | _ => cases he
  | group h ih =>
      cases K with
      | root =>
          obtain rfl : _ = node := he
          exact Placed.root h.group
      | block =>
          obtain ⟨hx, -⟩ := Expr.block.inj he
          exact (ih hx).block
      | _ => cases he

end Formula
