import Formula.Proofs.Acceptance
import Formula.Proofs.Context

/-!
The leaves of a tree.

* `Expr.leaves`: the numbers and names in a tree from left to right, each as the token it
  was made of.
* `Derives.leaves_eq`: these are the operands among the tokens of the tree. None is lost,
  repeated or moved, whatever the operators and parentheses around it.
* `Expr.deepLeaf_mem_leaves`: the deepest leaf is one of them.
* `FirstAppearances`: the distinct entries of a list in the order of their first
  appearance; `firstAppearances_eraseDups`.
* `unknowns_first_appear`: the unknowns of a source are the names at the leaves, each
  where it first appears.
-/

namespace Formula

namespace Expr

/-- A number or a name as the token it was made of. -/
def leaf? : Expr → Option Token
  | literal value span => some ⟨.number value, span⟩
  | unknown name span => some ⟨.name name, span⟩
  | block .. | signed .. | binary .. => none

/-- The name of a node that is a name. -/
def name? : Expr → Option String
  | unknown name _ => some name
  | literal .. | block .. | signed .. | binary .. => none

/-- The numbers and names in a tree, from left to right. -/
def leaves (e : Expr) : List Token := e.nodes.filterMap leaf?

variable {e : Expr}

/-- Numbers are made of literals. -/
lemma leaf?_eq_number {value : Float} {span : Span} (h : e.leaf? = some ⟨.number value, span⟩) :
    e = literal value span := by
  cases e with
  | literal =>
      obtain ⟨hkind, rfl⟩ := Token.mk.inj (Option.some.inj h)
      rw [Token.Kind.number.inj hkind]
  | unknown => simp [leaf?] at h
  | block | signed | binary => cases h

lemma leaves_block (child : Expr) (span : Span) : (block child span).leaves = child.leaves := by
  rw [leaves, nodes, List.filterMap_cons_none rfl, leaves]

lemma leaves_signed (sign : Sign) (operand : Expr) (span : Span) :
    (signed sign operand span).leaves = operand.leaves := by
  rw [leaves, nodes, List.filterMap_cons_none rfl, leaves]

lemma leaves_binary (op : Operator) (l r : Expr) (span : Span) :
    (binary op l r span).leaves = l.leaves ++ r.leaves := by
  rw [leaves, nodes, List.filterMap_cons_none rfl, List.filterMap_append, leaves, leaves]

/-- The names among the nodes are those at the leaves. -/
lemma filterMap_name?_nodes (e : Expr) :
    e.nodes.filterMap name? = e.leaves.filterMap (·.kind.name?) := by
  rw [leaves, List.filterMap_filterMap]
  congr 1
  funext node
  cases node <;> rfl

/-- The deepest leaf of a tree is a leaf. -/
lemma deepLeaf_mem_leaves (e : Expr) : ∃ t ∈ e.leaves, t.span = e.deepLeaf.span := by
  induction e with
  | literal value span => exact ⟨⟨.number value, span⟩, List.mem_singleton_self _, rfl⟩
  | unknown name span => exact ⟨⟨.name name, span⟩, List.mem_singleton_self _, rfl⟩
  | block child span ih =>
      rw [leaves_block]
      exact ih
  | signed sign operand span ih =>
      rw [leaves_signed]
      exact ih
  | binary op l r span ihl ihr =>
      obtain ⟨t, ht, hl⟩ := ihl
      obtain ⟨u, hu, hr⟩ := ihr
      rw [leaves_binary, deepLeaf]
      by_cases hle : r.height ≤ l.height
      · rw [if_pos hle]
        exact ⟨t, List.mem_append_left _ ht, hl⟩
      · rw [if_neg hle]
        exact ⟨u, List.mem_append_right _ hu, hr⟩

end Expr

/-- **The leaves are the operands**: the leaves of a tree are the operands among its
tokens, in their order. -/
theorem Derives.leaves_eq {phrase : Phrase} {ts : List Token} {e : Expr}
    (h : Derives phrase ts e) : e.leaves = ts.filter (·.kind.isOperand) := by
  have hskip : ∀ (t : Token) (us : List Token), t.kind.isOperand = false →
      (t :: us).filter (·.kind.isOperand) = us.filter (·.kind.isOperand) :=
    fun t us ht => List.filter_cons_of_neg (by simp [ht])
  induction h using Derives.byRank with
  | first _ ih | base _ ih | unsigned _ ih => exact ih
  | join _ _ _ ihl ihr | raise _ _ ihl ihr =>
      rw [Expr.leaves_binary, ihl, ihr, List.filter_append, hskip _ _ rfl]
  | sign _ _ ih => rw [Expr.leaves_signed, ih, hskip _ _ rfl]
  | number | name => rfl
  | group _ ih =>
      rw [Expr.leaves_block, ih, hskip _ _ rfl, List.filter_append, hskip _ _ rfl,
        List.filter_nil, List.append_nil]

/-- A number among the tokens is a literal of the tree. -/
lemma Derives.literal_mem_nodes {phrase : Phrase} {ts : List Token} {e : Expr}
    (h : Derives phrase ts e) {value : Float} {span : Span}
    (ht : ⟨.number value, span⟩ ∈ ts) : .literal value span ∈ e.nodes := by
  have hleaf : ⟨.number value, span⟩ ∈ e.leaves := by
    rw [h.leaves_eq]
    exact List.mem_filter.mpr ⟨ht, rfl⟩
  obtain ⟨node, hnode, hnumber⟩ := List.mem_filterMap.mp hleaf
  rwa [Expr.leaf?_eq_number hnumber] at hnode

/-! ### First appearances -/

/-- The distinct entries of a list, in the order in which they first appear in it. -/
structure FirstAppearances (names distinct : List String) : Prop where
  nodup : distinct.Nodup
  mem_iff : ∀ name, name ∈ distinct ↔ name ∈ names
  ordered : distinct.Pairwise fun x y => names.idxOf x < names.idxOf y

namespace FirstAppearances

variable {names distinct : List String} {name : String}

/-- Behind a list the order of its entries is the same. -/
lemma ordered_append (h : FirstAppearances names distinct) (more : List String) :
    distinct.Pairwise fun x y => (names ++ more).idxOf x < (names ++ more).idxOf y := by
  refine h.ordered.imp_of_mem ?_
  intro x y hx hy hlt
  rwa [List.idxOf_append, List.idxOf_append, if_pos ((h.mem_iff x).mp hx),
    if_pos ((h.mem_iff y).mp hy)]

/-- A name that has appeared before changes nothing … -/
lemma append_mem (h : FirstAppearances names distinct) (hn : name ∈ names) :
    FirstAppearances (names ++ [name]) distinct where
  nodup := h.nodup
  mem_iff := by
    intro x
    rw [h.mem_iff, List.mem_append, List.mem_singleton]
    refine ⟨Or.inl, ?_⟩
    rintro (hx | rfl)
    · exact hx
    · exact hn
  ordered := h.ordered_append [name]

/-- … and a new one appears behind all others. -/
lemma append_new (h : FirstAppearances names distinct) (hn : name ∉ names) :
    FirstAppearances (names ++ [name]) (distinct ++ [name]) where
  nodup := List.nodup_append.mpr ⟨h.nodup, List.nodup_singleton name, by
    rintro x hx _ hy rfl
    exact hn (List.mem_singleton.mp hy ▸ (h.mem_iff x).mp hx)⟩
  mem_iff := by
    intro x
    rw [List.mem_append, List.mem_append, h.mem_iff]
  ordered := by
    refine List.pairwise_append.mpr ⟨h.ordered_append [name], List.pairwise_singleton _ _, ?_⟩
    intro x hx y hy
    obtain rfl := List.mem_singleton.mp hy
    have hmem := (h.mem_iff x).mp hx
    rw [List.idxOf_append, List.idxOf_append, if_pos hmem, if_neg hn]
    exact (List.idxOf_lt_length_of_mem hmem).trans_le (Nat.le_add_left _ _)

end FirstAppearances

/-- What remains of a list without its repetitions are the first appearances. The
induction is on the list from its end, where an entry is kept if it is new. -/
lemma firstAppearances_eraseDups (names : List String) :
    FirstAppearances names names.eraseDups := by
  induction names using List.reverseRecOn with
  | nil => exact ⟨List.nodup_nil, by simp, List.Pairwise.nil⟩
  | append_singleton names name ih =>
      rw [List.eraseDups_append]
      by_cases hn : name ∈ names
      · simpa [List.removeAll, hn] using ih.append_mem hn
      · simpa [List.removeAll, hn, List.eraseDups_cons] using ih.append_new hn

variable {limits : Limits} {source : String} {a : Analysis}

/-- **The unknowns are the names in the tree**: the unknowns of an analysed source are
distinct, and they are the names of its nodes from left to right, each kept where it first
appears. -/
theorem unknowns_first_appear (h : (analyse limits source).outcome = .ok a) :
    a.unknowns.Nodup
      ∧ a.unknowns = (a.expr.nodes.filterMap Expr.name?).eraseDups
      ∧ FirstAppearances (a.expr.nodes.filterMap Expr.name?) a.unknowns := by
  obtain ⟨tokens, -, hd, hunknowns⟩ := derives_of_analyse h
  have hnames : a.expr.nodes.filterMap Expr.name? = tokens.filterMap (·.kind.name?) := by
    rw [Expr.filterMap_name?_nodes, hd.leaves_eq, List.filterMap_filter]
    congr 1
    funext t
    obtain ⟨kind, span⟩ := t
    cases kind <;> rfl
  have heq : a.unknowns = (a.expr.nodes.filterMap Expr.name?).eraseDups := by
    rw [hunknowns, Token.unknowns, hnames]
  have hfirst := firstAppearances_eraseDups (a.expr.nodes.filterMap Expr.name?)
  rw [← heq] at hfirst
  exact ⟨hfirst.nodup, heq, hfirst⟩

/-- The names of `b + a * (b - a)` are `b`, `a`, `b`, `a`, and its unknowns `b` and `a`. -/
theorem unknowns_of_repeated_names :
    ∃ e, (analyse {} "b + a * (b - a)").outcome = .ok ⟨e, ["b", "a"]⟩
      ∧ e.nodes.filterMap Expr.name? = ["b", "a", "b", "a"]
      ∧ ["b", "a"].Nodup ∧ FirstAppearances ["b", "a", "b", "a"] ["b", "a"] := by
  let e : Expr := .binary .add (.unknown "b" ⟨0, 1⟩)
    (.binary .mul (.unknown "a" ⟨4, 5⟩)
      (.block (.binary .sub (.unknown "b" ⟨9, 10⟩) (.unknown "a" ⟨13, 14⟩) ⟨9, 14⟩) ⟨8, 15⟩)
      ⟨4, 15⟩) ⟨0, 15⟩
  have h : (analyse {} "b + a * (b - a)").outcome = .ok ⟨e, ["b", "a"]⟩ := by cbv
  obtain ⟨hnodup, -, hfirst⟩ := unknowns_first_appear h
  exact ⟨e, h, rfl, hnodup, hfirst⟩

end Formula
