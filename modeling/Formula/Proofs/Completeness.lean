import Formula.Proofs.Reading

/-!
Reading finds every phrase that the depth limit admits.

* `Reaches`: a computation answers as another one does, unless the depth limit
  stops it; `Reaches.bind` and `Reaches.checkDepth` build this up step by step.
* `LinksUp`: reading a chain comes to the point where the operators behind it are
  read. A chain is a prefix of longer ones, so the induction over derivations
  carries this for chains, and `ReadsAs` for the other phrases.
* `readsAs_of_derives`: reading a phrase answers its tree and the place behind it,
  unless it is stopped at a depth that its tree has as well.
-/

namespace Formula.Parser

/-- The first computation answers as the second one does, or the depth limit stops
it, at a depth of at most `room` and at a token in front of the index `stop`. -/
def Reaches {α : Type} (s : Scope) (room stop : ℕ) (x y : Except Fault α) : Prop :=
  x = y ∨ ∃ fault, x = .error fault ∧ TooDeep s room stop fault

namespace Reaches

variable {α β : Type} {s : Scope} {room room' stop stop' : ℕ}

lemma refl (x : Except Fault α) : Reaches s room stop x x := Or.inl rfl

lemma mono {x y : Except Fault α} (h : Reaches s room stop x y) (hr : room ≤ room')
    (hs : stop ≤ stop') : Reaches s room' stop' x y := by
  rcases h with h | ⟨fault, hx, hd⟩
  · exact Or.inl h
  · exact Or.inr ⟨fault, hx, hd.mono hr hs⟩

lemma trans {x y z : Except Fault α} (hxy : Reaches s room stop x y)
    (hyz : Reaches s room stop y z) : Reaches s room stop x z := by
  rcases hxy with rfl | hstop
  · exact hyz
  · exact Or.inr hstop

/-- What is stopped in its first step is stopped, and what gets over it is the
second step. -/
lemma bind {x : Except Fault α} {a : α} {f : α → Except Fault β} {y : Except Fault β}
    (hx : Reaches s room stop x (.ok a)) (hf : Reaches s room stop (f a) y) :
    Reaches s room stop (x >>= f) y := by
  rcases hx with rfl | ⟨fault, rfl, hd⟩
  · exact hf
  · exact Or.inr ⟨fault, rfl, hd⟩

/-- Checking a depth passes or is stopped at that depth. -/
lemma checkDepth {depth index : ℕ} (hr : depth ≤ room) (hs : index < stop) :
    Reaches s room stop (s.checkDepth depth index) (.ok ()) := by
  rcases s.checkDepth_cases depth index with ⟨-, h⟩ | ⟨hlt, h⟩
  · exact Or.inl h
  · exact Or.inr ⟨_, h, depth, index, rfl, hlt, hr, hs⟩

end Reaches

/-- Reading a phrase answers its tree and the place behind it, unless it is stopped
at a depth that the tree has. -/
def ReadsAs (s : Scope) (phrase : Phrase) (ts : List Token) (e : Expr) : Prop :=
  ∀ index depth behind, phrase.EndsBefore behind → s.brackets.Pairs index ts →
    Reaches s (depth + e.height) (index + ts.length)
      (read s phrase ⟨index, ts ++ behind, depth⟩)
      (.ok (e, ⟨index + ts.length, behind, depth⟩))

/-- Reading a chain comes to the operators behind it, with no more operators
counted than the tree has levels. -/
def LinksUp (s : Scope) (rank : Rank) (ts : List Token) (e : Expr) : Prop :=
  ∃ n ≤ e.height, ∀ index depth behind, rank.operand.EndsBefore behind →
    s.brackets.Pairs index ts →
    Reaches s (depth + e.height) (index + ts.length)
      (read s (.chain rank) ⟨index, ts ++ behind, depth⟩)
      (readLinks s rank e (n + 1) ⟨index + ts.length, behind, depth⟩)

/-- What the induction over derivations carries for each kind of phrase. -/
def Reads (s : Scope) : Phrase → List Token → Expr → Prop
  | .chain rank => LinksUp s rank
  | phrase => ReadsAs s phrase

variable {s : Scope} {ts us : List Token}

lemma LinksUp.readsAs {rank : Rank} {e : Expr} (h : LinksUp s rank ts e) :
    ReadsAs s (.chain rank) ts e := by
  obtain ⟨n, -, h⟩ := h
  intro index depth behind hend hpairs
  rw [Phrase.endsBefore_chain] at hend
  have hr := h index depth behind hend.1 hpairs
  rwa [readLinks_stop s e (n + 1) hend.2] at hr

lemma Reads.readsAs {phrase : Phrase} {e : Expr} (h : Reads s phrase ts e) :
    ReadsAs s phrase ts e := by
  cases phrase with
  | chain rank => exact LinksUp.readsAs h
  | _ => exact h

/-! ### One case for each way to derive a phrase -/

lemma ReadsAs.first {rank : Rank} {e : Expr} (h : ReadsAs s rank.operand ts e) :
    LinksUp s rank ts e := by
  refine ⟨0, Nat.zero_le _, ?_⟩
  intro index depth behind hend hpairs
  rw [read_chain]
  exact (h index depth behind hend hpairs).bind (Reaches.refl _)

lemma LinksUp.join {rank : Rank} {op : Operator} {span : Span} {l r : Expr}
    (hl : LinksUp s rank ts l) (hop : op.rank? = some rank) (hr : ReadsAs s rank.operand us r) :
    LinksUp s rank (ts ++ ⟨.operator op, span⟩ :: us) (.binary op l r (l.span.merge r.span)) := by
  obtain ⟨n, hn, hl⟩ := hl
  have hheight :
      (Expr.binary op l r (l.span.merge r.span)).height = 1 + max l.height r.height := rfl
  refine ⟨n + 1, by omega, ?_⟩
  intro index depth behind hend hpairs
  rw [List.append_assoc, List.cons_append, add_length_append_cons]
  have hleft := hl index depth (⟨.operator op, span⟩ :: (us ++ behind))
    (Phrase.endsBefore_operand_of_rank hop span _) hpairs.left
  have hright := hr (index + ts.length + 1) depth behind hend hpairs.right.tail
  refine (hleft.mono (by omega) (by omega)).trans ?_
  rw [readLinks_join s hop]
  refine (Reaches.checkDepth (by omega) (by omega)).bind ?_
  exact (hright.mono (by omega) le_rfl).bind (Reaches.refl _)

lemma ReadsAs.base {e : Expr} (h : ReadsAs s .signed ts e) : ReadsAs s .power ts e := by
  intro index depth behind hend hpairs
  rw [read_power]
  refine (h index depth behind (fun _ _ => rfl) hpairs).bind ?_
  rw [readExponent_stop s e depth (Phrase.endsBefore_power.mp hend)]
  exact Reaches.refl _

lemma ReadsAs.raise {span : Span} {b e : Expr} (hb : ReadsAs s .signed ts b)
    (he : ReadsAs s .power us e) (hu : us ≠ []) :
    ReadsAs s .power (ts ++ ⟨.operator .pow, span⟩ :: us)
      (.binary .pow b e (b.span.merge e.span)) := by
  intro index depth behind hend hpairs
  have hheight : (Expr.binary .pow b e (b.span.merge e.span)).height = 1 + max b.height e.height :=
    rfl
  have hpos := List.length_pos_iff.mpr hu
  rw [List.append_assoc, List.cons_append, add_length_append_cons, read_power]
  have hbase := hb index depth (⟨.operator .pow, span⟩ :: (us ++ behind)) (fun _ _ => rfl)
    hpairs.left
  have hexponent := he (index + ts.length + 1) (depth + 1) behind hend hpairs.right.tail
  refine (hbase.mono (by omega) (by omega)).bind ?_
  dsimp only
  rw [readExponent_pow]
  refine (Reaches.checkDepth (by omega) (by omega)).bind ?_
  exact (hexponent.mono (by omega) le_rfl).bind (Reaches.refl _)

lemma ReadsAs.unsigned {e : Expr} (h : ReadsAs s .primary ts e)
    (hs : ∀ behind, ∀ op ∈ nextOperator? (ts ++ behind), op.sign? = none) :
    ReadsAs s .signed ts e := by
  intro index depth behind _ hpairs
  rw [read_unsigned s (hs behind)]
  exact h index depth behind (fun _ _ => rfl) hpairs

lemma ReadsAs.sign {op : Operator} {sign : Sign} {span : Span} {e : Expr}
    (hop : op.sign? = some sign) (h : ReadsAs s .signed ts e) (ht : ts ≠ []) :
    ReadsAs s .signed (⟨.operator op, span⟩ :: ts) (.signed sign e (span.merge e.span)) := by
  intro index depth behind hend hpairs
  have hheight : (Expr.signed sign e (span.merge e.span)).height = 1 + e.height := rfl
  have hpos := List.length_pos_iff.mpr ht
  have hlen : index + ((⟨.operator op, span⟩ : Token) :: ts).length = index + 1 + ts.length := by
    rw [List.length_cons]
    omega
  rw [List.cons_append, hlen, read_sign s hop]
  have hoperand := h (index + 1) (depth + 1) behind hend hpairs.tail
  refine (Reaches.checkDepth (by omega) (by omega)).bind ?_
  exact (hoperand.mono (by omega) le_rfl).bind (Reaches.refl _)

/-- A formula that takes a whole range is read to the end of the range. -/
lemma ReadsAs.all {e : Expr} (h : ReadsAs s (.chain .sum) ts e) (index depth : ℕ)
    (hpairs : s.brackets.Pairs index ts) :
    Reaches s (depth + e.height) (index + ts.length) (readAll s ⟨index, ts, depth⟩)
      (.ok (e, ⟨index + ts.length, [], depth⟩)) := by
  have hr := h index depth [] (by simp [Phrase.EndsBefore, nextOperator?]) hpairs
  rw [List.append_nil] at hr
  rw [readAll_eq]
  exact hr.bind (Reaches.refl _)

lemma ReadsAs.group {opening closing : Span} {e : Expr} (h : ReadsAs s (.chain .sum) ts e)
    (ht : ts ≠ []) (hc : Closes 0 ts) :
    ReadsAs s .primary (⟨.lparen, opening⟩ :: (ts ++ [⟨.rparen, closing⟩]))
      (.block e (opening.merge closing)) := by
  intro index depth behind _ hpairs
  have hheight : (Expr.block e (opening.merge closing)).height = 1 + e.height := rfl
  have hpos := List.length_pos_iff.mpr ht
  have hlen : index + ((⟨.lparen, opening⟩ : Token) :: (ts ++ [⟨.rparen, closing⟩])).length
      = index + 1 + ts.length + 1 := by
    rw [List.length_cons, List.length_append, List.length_singleton]
    omega
  have hgroup := s.group?_eq hpairs hc behind
  rw [List.cons_append, List.append_assoc, List.singleton_append, hlen]
  obtain ⟨t, ts, rfl⟩ := List.exists_cons_of_ne_nil ht
  rw [read_group s hgroup]
  have hinside := h.all (index + 1) (depth + 1) hpairs.tail.left
  refine (Reaches.checkDepth (by omega) (by omega)).bind ?_
  exact (hinside.mono (by omega) (by omega)).bind (Reaches.refl _)

/-! ### All phrases -/

/-- The first token of a primary is no operator. -/
lemma nextOperator?_of_primary {e : Expr} (h : Derives .primary ts e) (behind : List Token) :
    nextOperator? (ts ++ behind) = none := by
  cases h <;> rfl

lemma reads_of_derives {phrase : Phrase} {e : Expr} (h : Derives phrase ts e) :
    Reads s phrase ts e := by
  induction h using Derives.byRank with
  | first _ ih => exact ih.readsAs.first
  | join _ hop _ ihl ihr => exact LinksUp.join ihl hop ihr.readsAs
  | base _ ih => exact ReadsAs.base ih
  | raise _ he ihb ihe => exact ReadsAs.raise ihb ihe he.ne_nil
  | unsigned h ih =>
      exact ReadsAs.unsigned ih fun behind => by simp [nextOperator?_of_primary h behind]
  | sign hop h ih => exact ReadsAs.sign hop ih h.ne_nil
  | number =>
      intro index depth behind _ _
      exact Or.inl (read_number ..)
  | name =>
      intro index depth behind _ _
      exact Or.inl (read_name ..)
  | group h ih => exact ih.readsAs.group h.ne_nil h.closes

/-- **Reading finds every phrase**: reading a phrase answers its tree and the place
behind it, unless it is stopped at a depth that the tree has. -/
theorem readsAs_of_derives {phrase : Phrase} {e : Expr} (h : Derives phrase ts e) :
    ReadsAs s phrase ts e :=
  (reads_of_derives h).readsAs

end Formula.Parser
