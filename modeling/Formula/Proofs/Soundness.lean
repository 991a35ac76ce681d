import Formula.Proofs.Reading

/-!
Reading answers phrases only, and where it fails the tokens are at fault.

* `Refused`: a fault of the depth limit, or one at the place where the tokens are
  stuck.
* `Explains`: an outcome is a tree of the tokens that were read, which end where
  nothing goes on with their phrase, or else a refusal. `Explains.behind`,
  `Explains.bind`, `Explains.checkDepth` and `Explains.nest` say how outcomes are
  put together.
* `Ready`: the tokens to be read are balanced, the brackets know their partners,
  and an operand is due.
* `explainsBelow`: reading explains its outcome in every place that is ready, by
  induction on the number of tokens to be read; hence `explains_read`, and
  `explains_readAll` for a whole range.
-/

namespace Formula.Parser

/-- A fault of the depth limit, at a depth of at most `room`, or a flaw at the
place where the tokens to be read are stuck. -/
def Refused (s : Scope) (before : Option Token.Kind) (room : ℕ) (c : Cursor) (fault : Fault) :
    Prop :=
  TooDeep s room (c.stop + 1) fault
    ∨ ∃ flaw n, StuckAt before c.rest n ∧ fault = s.flawAt flaw (c.index + n)

/-- What is refused behind tokens that pass is refused in front of them. -/
lemma Refused.behind {s : Scope} {before : Option Token.Kind} {room index depth depth' : ℕ}
    {ts rest : List Token} {fault : Fault} (hp : Passes before ts)
    (h : Refused s (lastKind before ts) room ⟨index + ts.length, rest, depth'⟩ fault) :
    Refused s before room ⟨index, ts ++ rest, depth⟩ fault := by
  rcases h with h | ⟨flaw, n, hs, rfl⟩
  · refine Or.inl (h.mono le_rfl ?_)
    simp only [Cursor.stop, List.length_append]
    omega
  · exact Or.inr ⟨flaw, ts.length + n, hs.behind hp, by rw [Nat.add_assoc]⟩

lemma Refused.mono {s : Scope} {before : Option Token.Kind} {room room' : ℕ} {c : Cursor}
    {fault : Fault} (h : Refused s before room c fault) (hr : room ≤ room') :
    Refused s before room' c fault :=
  h.imp_left fun hd => hd.mono hr le_rfl

/-- An outcome of reading at a place. Where it is an expression, some tokens have
been read of which it is the tree (`D`), and what is left cannot go on with their
phrase. Where it is a fault, the tokens are refused. -/
def Explains (s : Scope) (D : List Token → Expr → Prop) (phrase : Phrase)
    (before : Option Token.Kind) (room : ℕ) (c : Cursor) : Except Fault (Expr × Cursor) → Prop
  | .ok (e, next) => ∃ ts rest, c.rest = ts ++ rest ∧ next = ⟨c.index + ts.length, rest, c.depth⟩
      ∧ D ts e ∧ phrase.EndsBefore rest
  | .error fault => Refused s before room c fault

namespace Explains

variable {s : Scope} {D D' : List Token → Expr → Prop} {phrase phrase' : Phrase}
  {before : Option Token.Kind} {room room' index depth : ℕ} {c : Cursor} {ts rest : List Token}
  {x : Except Fault (Expr × Cursor)}

/-- Tokens that pass may be put in front of those that were read. -/
lemma behind (hp : Passes before ts)
    (h : Explains s (fun us => D (ts ++ us)) phrase (lastKind before ts) room
      ⟨index + ts.length, rest, depth⟩ x) :
    Explains s D phrase before room ⟨index, ts ++ rest, depth⟩ x := by
  match x, h with
  | .ok (e, next), ⟨us, rest', hrest, hnext, hd, hend⟩ =>
      refine ⟨ts ++ us, rest', ?_, ?_, hd, hend⟩
      · simp only at hrest
        rw [hrest, List.append_assoc]
      · rw [hnext, List.length_append, Nat.add_assoc]
  | .error fault, h => exact Refused.behind hp h

/-- A token that may follow may be put in front of those that were read. -/
lemma behind_token {t : Token} (ht : flawAfter before t.kind = none)
    (h : Explains s (fun us => D (t :: us)) phrase (some t.kind) room ⟨index + 1, rest, depth⟩ x) :
    Explains s D phrase before room ⟨index, t :: rest, depth⟩ x := by
  rw [← List.singleton_append]
  exact behind ⟨ht, trivial⟩ h

/-- Reading in two steps: what the first one reads passes, and the second one goes
on behind it. -/
lemma bind {f : Expr × Cursor → Except Fault (Expr × Cursor)}
    (hx : Explains s D' phrase' before room' c x) (hr : room' ≤ room)
    (hp : ∀ ts e, D' ts e → Passes before ts)
    (hf : ∀ ts e rest, c.rest = ts ++ rest → D' ts e → phrase'.EndsBefore rest →
      Explains s (fun us => D (ts ++ us)) phrase (lastKind before ts) room
        ⟨c.index + ts.length, rest, c.depth⟩ (f (e, ⟨c.index + ts.length, rest, c.depth⟩))) :
    Explains s D phrase before room c (x >>= f) := by
  match x, hx with
  | .ok (e, next), ⟨ts, rest, hrest, hnext, hd, hend⟩ =>
      obtain ⟨index, tokens, depth⟩ := c
      simp only at hrest
      subst hrest hnext
      exact behind (hp ts e hd) (hf ts e rest rfl hd hend)
  | .error fault, hx => exact hx.mono hr

/-- A depth that is checked on the way may be refused. -/
lemma checkDepth {depth' index' : ℕ} (hd : depth' ≤ room) (hi : index' ≤ c.stop)
    (hx : Explains s D phrase before room c x) :
    Explains s D phrase before room c (s.checkDepth depth' index' >>= fun _ => x) := by
  rcases s.checkDepth_cases depth' index' with ⟨-, h⟩ | ⟨hlt, h⟩
  · rw [h]
    exact hx
  · rw [h]
    exact Or.inl ⟨depth', index', rfl, hlt, hd, Nat.lt_succ_of_le hi⟩

/-- What is read a level deeper becomes part of a larger expression. -/
lemma nest {g : Expr → Expr} {depth' : ℕ}
    (hx : Explains s D phrase before room ⟨index, rest, depth'⟩ x)
    (hg : ∀ us e, D us e → D' us (g e)) :
    Explains s D' phrase before room ⟨index, rest, depth⟩
      (x >>= fun p => pure (g p.1, { p.2 with depth := depth })) := by
  match x, hx with
  | .ok (e, next), ⟨ts, rest', hrest, hnext, hd, hend⟩ =>
      subst hnext
      exact ⟨ts, rest', hrest, rfl, hg ts e hd, hend⟩
  | .error fault, hx => exact hx

lemma mono (hx : Explains s D phrase before room' c x) (hr : room' ≤ room) :
    Explains s D phrase before room c x := by
  match x, hx with
  | .ok _, hx => exact hx
  | .error _, hx => exact Refused.mono hx hr

/-- Reading that has come to its end. -/
lemma stop {e : Expr} (hd : D [] e) (hend : phrase.EndsBefore c.rest) :
    Explains s D phrase before room c (.ok (e, c)) :=
  ⟨[], c.rest, rfl, rfl, hd, hend⟩

end Explains

/-- Reading may begin: the tokens are balanced, the brackets know their partners,
and an operand is due. -/
structure Ready (s : Scope) (before : Option Token.Kind) (c : Cursor) : Prop where
  closes : Closes 0 c.rest
  pairs : s.brackets.Pairs c.index c.rest
  due : before.any Token.Kind.endsOperand = false

/-- Behind balanced tokens with an operator behind them reading may begin again. -/
lemma Ready.behind {s : Scope} {before : Option Token.Kind} {index depth depth' : ℕ}
    {ts rest : List Token} {op : Operator} {span : Span}
    (h : Ready s before ⟨index, ts ++ ⟨.operator op, span⟩ :: rest, depth⟩) (hc : Closes 0 ts) :
    Ready s (some (.operator op)) ⟨index + ts.length + 1, rest, depth'⟩ where
  closes := (closes_plain ⟨by simp, by simp⟩).mp (hc.skip.mp h.closes)
  pairs := h.pairs.right.tail
  due := rfl

/-- Reading explains its outcome in every place that is ready and has fewer than
`n` tokens to be read. A primary is left out, since it may begin with no sign. -/
def ExplainsBelow (s : Scope) (n : ℕ) : Prop :=
  ∀ phrase before c, phrase ≠ .primary → c.rest.length < n → Ready s before c →
    Explains s (Derives phrase) phrase before (c.depth + c.rest.length) c (read s phrase c)

lemma ExplainsBelow.mono {s : Scope} {m n : ℕ} (h : ExplainsBelow s n) (hmn : m ≤ n) :
    ExplainsBelow s m :=
  fun phrase before c hp hlt => h phrase before c hp (hlt.trans_le hmn)

variable {s : Scope} {before : Option Token.Kind}

/-! ### Whole ranges and primaries -/

/-- If reading a sum explains its outcome, reading a whole range does: what is left
over begins with a token that may not follow an operand. -/
lemma explains_readAll_of_chain {c : Cursor} {room : ℕ} (h : Ready s before c)
    (hx : Explains s (Derives (.chain .sum)) (.chain .sum) before room c
      (read s (.chain .sum) c)) :
    Explains s (fun ts e => ts = c.rest ∧ Derives (.chain .sum) ts e) (.chain .sum) before room c
      (readAll s c) := by
  rw [readAll_eq]
  refine hx.bind le_rfl (fun ts e hd => (hd.passes h.due).1) ?_
  intro ts e rest hrest hd hend
  match rest, hend with
  | [], hend =>
      exact Explains.stop ⟨by rw [hrest], by rwa [List.append_nil]⟩ hend
  | t :: rest, hend =>
      have hends := (hd.passes h.due).2
      have hclose : Closes 0 (t :: rest) := hd.closes.skip.mp (hrest ▸ h.closes)
      refine Or.inr ⟨_, 0, StuckAt.flawed ?_, rfl⟩
      obtain ⟨kind, span⟩ := t
      cases kind with
      | operator op => exact absurd (hend op rfl) (by simp [Phrase.goesOnWith])
      | rparen => exact absurd hclose not_closes_zero_rparen
      | lparen => exact flawAfter_operand_ne_none hends (Or.inr rfl)
      | _ => exact flawAfter_operand_ne_none hends (Or.inl rfl)

/-- What is refused inside parentheses is refused from outside. -/
lemma Refused.in_group {room index depth depth' : ℕ} {inside behind : List Token}
    {opening close : Span} {fault : Fault}
    (hb : before.any Token.Kind.endsOperand = false)
    (h : Refused s (some .lparen) room ⟨index + 1, inside, depth'⟩ fault) :
    Refused s before room
      ⟨index, ⟨.lparen, opening⟩ :: (inside ++ ⟨.rparen, close⟩ :: behind), depth⟩ fault := by
  rcases h with h | ⟨flaw, n, hs, rfl⟩
  · refine Or.inl (h.mono le_rfl ?_)
    simp only [Cursor.stop, List.length_append, List.length_cons]
    omega
  · have hgroup : StuckAt before (⟨.lparen, opening⟩ :: (inside ++ ⟨.rparen, close⟩ :: behind))
        (n + 1) := StuckAt.next (flawAfter_operand hb (Or.inr rfl)) (hs.close close behind)
    exact Or.inr ⟨flaw, n + 1, hgroup, by rw [Nat.add_assoc, Nat.add_comm 1]⟩

/-- Reading a group explains its outcome if reading what stands inside does. -/
lemma explains_read_group {index depth : ℕ} {opening : Span} {rest : List Token}
    (ih : ExplainsBelow s (rest.length + 1))
    (h : Ready s before ⟨index, ⟨.lparen, opening⟩ :: rest, depth⟩) :
    Explains s (Derives .primary) .primary before (depth + (rest.length + 1))
      ⟨index, ⟨.lparen, opening⟩ :: rest, depth⟩
      (read s .primary ⟨index, ⟨.lparen, opening⟩ :: rest, depth⟩) := by
  obtain ⟨inside, close, behind, rfl, hin, -⟩ :=
    (closes_lparen.mp h.closes).exists_close 0 0 rfl
  have hpairs : s.brackets.Pairs index (⟨.lparen, opening⟩ :: (inside ++ [⟨.rparen, close⟩])) := by
    have hp := h.pairs
    rw [← List.singleton_append (l := behind), ← List.append_assoc, ← List.cons_append] at hp
    exact hp.left
  have hgroup := s.group?_eq hpairs hin behind
  match inside with
  | [] =>
      rw [read_group_nil s hgroup]
      have hstuck : StuckAt before (⟨.lparen, opening⟩ :: ⟨.rparen, close⟩ :: behind) 1 :=
        StuckAt.next (flawAfter_operand h.due (Or.inr rfl))
          (StuckAt.flawed (flawAfter_rparen_ne_none rfl))
      exact Or.inr ⟨_, 1, hstuck, rfl⟩
  | t :: inside =>
      rw [read_group s hgroup]
      have hready : Ready s (some .lparen) ⟨index + 1, t :: inside, depth + 1⟩ :=
        ⟨hin, hpairs.tail.left, rfl⟩
      have hall := explains_readAll_of_chain hready
        (ih (.chain .sum) _ _ (by simp) (by simp) hready)
      simp only [List.length_append, List.length_cons] at hall ⊢
      refine Explains.checkDepth (by omega) (by simp [Cursor.stop]) ?_
      match readAll s ⟨index + 1, t :: inside, depth + 1⟩, hall with
      | .ok (e, next), ⟨ts, rest, hrest, hnext, ⟨hts, hd⟩, _⟩ =>
          subst hts hnext
          refine ⟨⟨.lparen, opening⟩ :: (t :: inside ++ [⟨.rparen, close⟩]), behind, by simp, ?_,
            hd.group, fun _ _ => rfl⟩
          simp [Nat.add_comm, Nat.add_left_comm]
      | .error fault, hx => exact Refused.in_group h.due (hx.mono (by omega))

/-- Reading a primary explains its outcome, if it does not begin with a sign. -/
lemma explains_read_primary {c : Cursor} (ih : ExplainsBelow s c.rest.length)
    (h : Ready s before c) (hs : ∀ op ∈ nextOperator? c.rest, op.sign? = none) :
    Explains s (Derives .primary) .primary before (c.depth + c.rest.length) c
      (read s .primary c) := by
  obtain ⟨index, rest, depth⟩ := c
  match rest with
  | [] =>
      rw [read_nothing]
      exact Or.inr ⟨_, 0, StuckAt.due h.due, rfl⟩
  | ⟨.number value, span⟩ :: rest =>
      rw [read_number]
      exact ⟨[⟨.number value, span⟩], rest, rfl, rfl, Derives.number, fun _ _ => rfl⟩
  | ⟨.name name, span⟩ :: rest =>
      rw [read_name]
      exact ⟨[⟨.name name, span⟩], rest, rfl, rfl, Derives.name, fun _ _ => rfl⟩
  | ⟨.operator op, span⟩ :: rest =>
      rw [read_operator]
      exact Or.inr ⟨_, 0, StuckAt.flawed (flawAfter_operator_ne_none h.due (hs op rfl)), rfl⟩
  | ⟨.lparen, span⟩ :: rest => exact explains_read_group ih h
  | ⟨.rparen, span⟩ :: rest => exact absurd h.closes not_closes_zero_rparen

/-! ### Signs, powers and chains -/

lemma explains_read_signed {c : Cursor} (ih : ExplainsBelow s c.rest.length)
    (h : Ready s before c) :
    Explains s (Derives .signed) .signed before (c.depth + c.rest.length) c
      (read s .signed c) := by
  by_cases hs : ∀ op ∈ nextOperator? c.rest, op.sign? = none
  · rw [read_unsigned s hs]
    have hx := explains_read_primary ih h hs
    match read s .primary c, hx with
    | .ok (e, next), ⟨ts, rest, hrest, hnext, hd, _⟩ =>
        exact ⟨ts, rest, hrest, hnext, hd.unsigned, fun _ _ => rfl⟩
    | .error fault, hx => exact hx
  · push Not at hs
    obtain ⟨op, ho, hop⟩ := hs
    obtain ⟨sign, hsign⟩ := Option.ne_none_iff_exists'.mp hop
    obtain ⟨index, rest, depth⟩ := c
    obtain ⟨span, rest, rfl⟩ := eq_cons_of_nextOperator? ho
    rw [read_sign s hsign]
    have hready : Ready s (some (.operator op)) ⟨index + 1, rest, depth + 1⟩ :=
      ⟨(closes_plain ⟨by simp, by simp⟩).mp h.closes, h.pairs.tail, rfl⟩
    have hoperand := ih .signed _ _ (by simp) (Nat.lt_succ_self rest.length) hready
    refine Explains.checkDepth (by simp) (by simp [Cursor.stop]) ?_
    refine Explains.behind_token (flawAfter_sign before hop) ?_
    refine Explains.mono (hoperand.nest fun us e hd => hd.sign hsign) ?_
    simp only [List.length_cons]
    omega

/-- Reading behind a base explains its outcome: the tokens of the base and those
read behind it are a power. -/
lemma explains_readExponent {ts rest : List Token} {b : Expr} {index depth : ℕ}
    (ih : ExplainsBelow s rest.length) (hb : Derives .signed ts b)
    (h : Ready s before ⟨index, ts ++ rest, depth⟩) :
    Explains s (fun us => Derives .power (ts ++ us)) .power (lastKind before ts)
      (depth + rest.length) ⟨index + ts.length, rest, depth⟩
      (readExponent s b depth ⟨index + ts.length, rest, depth⟩) := by
  by_cases hop : nextOperator? rest = some .pow
  · obtain ⟨span, rest, rfl⟩ := eq_cons_of_nextOperator? hop
    rw [readExponent_pow]
    have hready : Ready s (some (.operator .pow)) ⟨index + ts.length + 1, rest, depth + 1⟩ :=
      h.behind hb.closes
    have hexponent := ih .power _ _ (by simp) (Nat.lt_succ_self rest.length) hready
    refine Explains.checkDepth (by simp) (by simp [Cursor.stop]) ?_
    refine Explains.behind_token (flawAfter_operator (hb.passes h.due).2 .pow) ?_
    refine Explains.mono (hexponent.nest fun us e hd => hb.raise hd) ?_
    simp only [List.length_cons]
    omega
  · rw [readExponent_stop s b depth hop]
    refine Explains.stop ?_ (Phrase.endsBefore_power.mpr hop)
    rw [List.append_nil]
    exact hb.base

lemma explains_read_power {c : Cursor} (ih : ExplainsBelow s c.rest.length)
    (h : Ready s before c) :
    Explains s (Derives .power) .power before (c.depth + c.rest.length) c (read s .power c) := by
  obtain ⟨index, tokens, depth⟩ := c
  rw [read_power]
  refine (explains_read_signed ih h).bind le_rfl (fun ts e hd => (hd.passes h.due).1) ?_
  intro ts e rest hrest hd _
  obtain rfl : tokens = ts ++ rest := hrest
  have hlen : rest.length ≤ (ts ++ rest).length := by simp
  exact (explains_readExponent (ih.mono hlen) hd h).mono (Nat.add_le_add_left hlen depth)

/-- Reading the operators behind a chain explains its outcome: the tokens of the
chain and those read behind it are a chain. The induction is on the number of
tokens behind the chain, which grows by a link in each step. -/
lemma explains_readLinks {rank : Rank} {n : ℕ} (ih : ExplainsBelow s n) {ts rest : List Token}
    {l : Expr} {index depth : ℕ} (hn : rest.length ≤ n) (hl : Derives (.chain rank) ts l)
    (h : Ready s before ⟨index, ts ++ rest, depth⟩) (hend : rank.operand.EndsBefore rest)
    (count : ℕ) :
    Explains s (fun us => Derives (.chain rank) (ts ++ us)) (.chain rank) (lastKind before ts)
      (depth + count + rest.length) ⟨index + ts.length, rest, depth⟩
      (readLinks s rank l count ⟨index + ts.length, rest, depth⟩) := by
  induction hm : rest.length using Nat.strong_induction_on generalizing ts rest l count with
  | _ m ihm =>
    subst hm
    by_cases hop : ∀ op ∈ nextOperator? rest, op.rank? ≠ some rank
    · rw [readLinks_stop s l count hop]
      refine Explains.stop ?_ (Phrase.endsBefore_chain.mpr ⟨hend, hop⟩)
      rwa [List.append_nil]
    · push Not at hop
      obtain ⟨op, ho, hrank⟩ := hop
      obtain ⟨span, rest, rfl⟩ := eq_cons_of_nextOperator? ho
      rw [readLinks_join s hrank]
      have hready : Ready s (some (.operator op)) ⟨index + ts.length + 1, rest, depth⟩ :=
        h.behind hl.closes
      have hoperand := ih rank.operand _ _ (by cases rank <;> simp [Rank.operand])
        (Nat.lt_of_succ_le hn) hready
      refine Explains.checkDepth (by simp) (by simp [Cursor.stop]) ?_
      refine Explains.behind_token (flawAfter_operator (hl.passes h.due).2 op) ?_
      refine hoperand.bind (by simp; omega) (fun us r hd => (hd.passes rfl).1) ?_
      intro us r rest' hrest hd hend'
      obtain rfl : rest = us ++ rest' := hrest
      have hchain : Derives (.chain rank) (ts ++ ⟨.operator op, span⟩ :: us)
          (.binary op l r (l.span.merge r.span)) := hl.join hrank hd
      have hrec := ihm rest'.length (by simp) (by simp at hn; omega) hchain (by simpa using h) hend'
        (count + 1) rfl
      rw [add_length_append_cons, lastKind_append] at hrec
      simp only [List.append_assoc, List.cons_append] at hrec
      refine hrec.mono ?_
      simp only [List.length_cons, List.length_append]
      omega

lemma explains_read_chain {rank : Rank} {c : Cursor} (ih : ExplainsBelow s c.rest.length)
    (h : Ready s before c)
    (hoperand : Explains s (Derives rank.operand) rank.operand before (c.depth + c.rest.length) c
      (read s rank.operand c)) :
    Explains s (Derives (.chain rank)) (.chain rank) before (c.depth + c.rest.length) c
      (read s (.chain rank) c) := by
  obtain ⟨index, tokens, depth⟩ := c
  rw [read_chain]
  refine hoperand.bind le_rfl (fun ts e hd => (hd.passes h.due).1) ?_
  intro ts e rest hrest hd hend
  obtain rfl : tokens = ts ++ rest := hrest
  have hpos := List.length_pos_iff.mpr hd.ne_nil
  have hlinks := explains_readLinks ih (by simp) hd.first h hend 1
  refine hlinks.mono ?_
  simp only [List.length_append]
  omega

/-! ### All places -/

/-- Reading explains its outcome, by induction on the number of tokens to be read:
with as many tokens each phrase rests on a tighter one, and all else has fewer. -/
lemma explainsBelow (s : Scope) (n : ℕ) : ExplainsBelow s n := by
  induction n with
  | zero =>
      intro phrase before c _ hlt
      exact absurd hlt (Nat.not_lt_zero _)
  | succ n ih =>
      intro phrase before c hp hlt h
      have hshort : ExplainsBelow s c.rest.length := ih.mono (Nat.le_of_lt_succ hlt)
      have hpower := explains_read_power hshort h
      have hproduct : Explains s (Derives (.chain .product)) (.chain .product) before
          (c.depth + c.rest.length) c (read s (.chain .product) c) :=
        explains_read_chain hshort h hpower
      match phrase with
      | .chain .sum => exact explains_read_chain hshort h hproduct
      | .chain .product => exact hproduct
      | .power => exact hpower
      | .signed => exact explains_read_signed hshort h
      | .primary => exact absurd rfl hp

/-- **Reading is sound**: in every place that is ready a phrase is read that the
tokens are, or the tokens are refused. -/
theorem explains_read {phrase : Phrase} (hp : phrase ≠ .primary) {c : Cursor}
    (h : Ready s before c) :
    Explains s (Derives phrase) phrase before (c.depth + c.rest.length) c (read s phrase c) :=
  explainsBelow s _ phrase before c hp (Nat.lt_succ_self _) h

/-- A whole range that is read is a formula; otherwise its tokens are refused. -/
theorem explains_readAll {c : Cursor} (h : Ready s before c) :
    Explains s (fun ts e => ts = c.rest ∧ Derives (.chain .sum) ts e) (.chain .sum) before
      (c.depth + c.rest.length) c (readAll s c) :=
  explains_readAll_of_chain h (explains_read (by simp) h)

end Formula.Parser
