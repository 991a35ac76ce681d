import Formula.Proofs.DepthLimit
import Formula.Proofs.Following

/-!
Reading stays within the tokens, whatever the pairing says.

* `Phrase.steps`: how many calls lead from a phrase down to a primary.
* `Indexed.Room`: with room for so many nested calls indexed reading follows. `room_succ` is
  the step of the induction, one lemma for each kind of phrase, and `room` its end.
* `ofTokens_cases`, `ofTokens_eq`: indexed reading of all tokens answers what reading answers.
* `reading_is_confined`: it does so for all tokens and any pairs, and the tree or the fault
  that it answers is bounded by them.
-/

namespace Formula

variable {tokens : List Token} {brackets : Brackets} {fault : Fault}

/-- How many calls lead from a phrase down to a primary. -/
def Phrase.steps : Phrase → ℕ
  | .primary => 0
  | .signed => 1
  | .power => 2
  | .chain .product => 3
  | .chain .sum => 4

lemma Phrase.steps_chain (rank : Rank) : (chain rank).steps = rank.operand.steps + 1 := by
  cases rank <;> rfl

lemma Rank.steps_operand (rank : Rank) : rank.operand.steps ≤ 3 := by
  cases rank <;> decide

namespace Indexed

open Formula.Parser (Scope Cursor Confined readLinks readAll)

variable {s : Scope} {ceiling : ℕ} {c : Cursor} {e : Expr} {n : ℕ}

/-! ### Room for nested calls -/

/-- With room for so many nested calls indexed reading follows the cursor. Four calls are
allowed for each token, as many as lead from a sum to a primary; both parentheses of a group
make up for the calls between its `(` and the sum inside. -/
structure Room (s : Scope) (ceiling calls : ℕ) : Prop where
  read : ∀ phrase c, Confined s ceiling c → 4 * c.rest.length + phrase.steps < calls →
    Follows s 0 c (read s (.upTo ceiling) calls phrase) (Parser.read s phrase c)
  links : ∀ rank left count n c, Confined s ceiling c → 4 * c.rest.length < calls →
    c.depth + count + c.rest.length ≤ ceiling → left.nodeCount ≤ n →
    Follows s n c (links s (.upTo ceiling) calls rank left count)
      (readLinks s rank left (count + 1) c)
  block : ∀ c span rest, c.rest = ⟨.lparen, span⟩ :: rest → Confined s ceiling c →
    4 * c.rest.length ≤ calls + 1 →
    Follows s 1 (c.skip 1) (block s (.upTo ceiling) calls c.index) (Parser.read s .primary c)
  range : ∀ c ts us, c.rest = ts ++ us → Confined s ceiling c → 4 * ts.length + 5 < calls →
    Follows s 0 c (range s (.upTo ceiling) calls c.index (c.index + ts.length))
      (Prod.map id (Cursor.widen us) <$> readAll s { c with rest := ts })

lemma room_zero : Room s ceiling 0 where
  read := by omega
  links := by omega
  block := by
    intro c span rest hrest _ h
    rw [hrest, List.length_cons] at h
    omega
  range := by omega

section Step

variable {calls : ℕ} (ih : Room s ceiling calls)
include ih

lemma room_chain (rank : Rank) (hc : Confined s ceiling c)
    (h : 4 * c.rest.length + Phrase.steps (.chain rank) < calls + 1) :
    Follows s 0 c (Indexed.read s (.upTo ceiling) (calls + 1) (.chain rank))
      (Parser.read s (.chain rank) c) := by
  have hd := hc.depth_le
  rw [Indexed.read, Parser.read_chain]
  rw [Phrase.steps_chain] at h
  refine (ih.read rank.operand c hc (by omega)).bind fun first k hk _ hn => ?_
  have hlength := c.length_skip k
  exact ih.links rank first 0 (0 + k) _ (hc.skip hk) (by omega)
    (by rw [Cursor.skip_depth]; omega) hn

/-- An operator that is counted has been read, and so has its right operand: the count and the
depth together leave room below the ceiling for the tokens that remain. -/
lemma room_links {rank : Rank} {left : Expr} {count : ℕ} (hc : Confined s ceiling c)
    (h : 4 * c.rest.length < calls + 1) (hd : c.depth + count + c.rest.length ≤ ceiling)
    (hn : left.nodeCount ≤ n) :
    Follows s n c (links s (.upTo ceiling) (calls + 1) rank left count)
      (readLinks s rank left (count + 1) c) := by
  rw [links]
  refine .look (answer_peek hc) ?_
  rw [head?_bind_operator?]
  cases hnext : nextOperator? c.rest with
  | none =>
      rw [Parser.readLinks_stop s left (count + 1) (by simp [hnext])]
      exact .pure hn
  | some op =>
      by_cases hop : op.rank? = some rank
      · obtain ⟨index, rest', depth⟩ := c
        obtain ⟨span, rest, rfl⟩ := eq_cons_of_nextOperator? hnext
        rw [Parser.readLinks_join s hop]
        have hpos : 0 < (⟨.operator op, span⟩ :: rest : List Token).length := Nat.succ_pos _
        have hskip := hc.skip hpos
        have hsteps := Rank.steps_operand rank
        simp only [List.length_cons] at h hd
        simp only [hop, if_true]
        refine .look (answer_sum (by omega) _) ?_
        refine .look (answer_get _) ?_
        refine .look (answer_sum (by simp only [Cursor.registers]; omega) _) ?_
        refine .checkDepth (.after hpos (answer_advance hpos) ?_)
        refine (ih.read rank.operand _ hskip ?_).bind fun right k hk _ hr => ?_
        · simp only [Cursor.length_skip, List.length_cons]
          omega
        · have hbehind := hskip.skip hk
          simp only [Cursor.length_skip, List.length_cons] at hk
          refine ih.links rank _ (count + 1) _ _ hbehind ?_ ?_ ?_
          · simp only [Cursor.length_skip, List.length_cons]
            omega
          · simp only [Cursor.length_skip, Cursor.skip_depth, List.length_cons]
            omega
          · simp only [Expr.nodeCount]
            omega
      · rw [Parser.readLinks_stop s left (count + 1) (by simpa [hnext] using hop)]
        simp only [hop, if_false]
        exact .pure hn

lemma room_power (hc : Confined s ceiling c)
    (h : 4 * c.rest.length + Phrase.steps .power < calls + 1) :
    Follows s 0 c (Indexed.read s (.upTo ceiling) (calls + 1) .power) (Parser.read s .power c) := by
  rw [Indexed.read, Parser.read_power]
  simp only [Phrase.steps] at h
  refine (ih.read .signed c hc (by simp only [Phrase.steps]; omega)).bind fun base k hk _ hn => ?_
  have hbehind := hc.skip hk
  have hlength := c.length_skip k
  rw [← c.skip_depth k]
  generalize c.skip k = d at hbehind hlength ⊢
  refine .look (answer_peek hbehind) ?_
  rw [head?_bind_operator?]
  by_cases hpow : nextOperator? d.rest = some .pow
  · obtain ⟨index, rest', depth⟩ := d
    obtain ⟨span, rest, rfl⟩ := eq_cons_of_nextOperator? hpow
    have hpos : 0 < (⟨.operator .pow, span⟩ :: rest : List Token).length := Nat.succ_pos _
    have hdeeper := hbehind.deeper_skip hpos
    have hd := hbehind.depth_le
    simp only [List.length_cons] at hlength hd
    rw [Parser.readExponent_pow, hpow]
    refine .after hpos (answer_advance hpos) ?_
    refine .above ?_ (ih.read .power _ hdeeper ?_) ?_
    · simp only [Cursor.skip_depth]
      omega
    · simp only [Phrase.steps, Cursor.deeper, Cursor.length_skip, List.length_cons]
      omega
    · intro exponent
      simp only [Expr.nodeCount]
      omega
  · rw [Parser.readExponent_stop s base _ hpow]
    split
    · next heq => exact absurd heq hpow
    · exact .pure hn

lemma room_signed (hc : Confined s ceiling c)
    (h : 4 * c.rest.length + Phrase.steps .signed < calls + 1) :
    Follows s 0 c (Indexed.read s (.upTo ceiling) (calls + 1) .signed)
      (Parser.read s .signed c) := by
  rw [Indexed.read]
  simp only [Phrase.steps] at h
  refine .look (answer_peek hc) ?_
  cases hsign : c.rest.head?.bind fun t => t.kind.sign?.map (t, ·) with
  | none =>
      have hplain : ∀ op ∈ nextOperator? c.rest, op.sign? = none := by
        intro op hop
        obtain ⟨span, rest, hrest⟩ := eq_cons_of_nextOperator? hop
        rw [hrest] at hsign
        exact Option.map_eq_none_iff.mp hsign
      rw [Parser.read_unsigned s hplain]
      exact ih.read .primary c hc (by simp only [Phrase.steps]; omega)
  | some p =>
      obtain ⟨t, sign⟩ := p
      obtain ⟨index, rest', depth⟩ := c
      obtain ⟨op, span, rest, rfl, rfl, hop⟩ := exists_of_sign? hsign
      have hpos : 0 < (⟨.operator op, span⟩ :: rest : List Token).length := Nat.succ_pos _
      have hd := hc.depth_le
      simp only [List.length_cons] at h hd
      rw [Parser.read_sign s hop]
      refine .after hpos (answer_advance hpos) ?_
      refine .above ?_ (ih.read .signed _ (hc.deeper_skip hpos) ?_) ?_
      · simp only [Cursor.skip_depth]
        omega
      · simp only [Phrase.steps, Cursor.deeper, Cursor.length_skip, List.length_cons]
        omega
      · intro operand
        simp only [Expr.nodeCount]
        omega

lemma room_primary (hc : Confined s ceiling c)
    (h : 4 * c.rest.length + Phrase.steps .primary < calls + 1) :
    Follows s 0 c (Indexed.read s (.upTo ceiling) (calls + 1) .primary)
      (Parser.read s .primary c) := by
  rw [Indexed.read]
  refine .look (answer_get _) (.look (answer_peek hc) ?_)
  obtain ⟨index, rest, depth⟩ := c
  cases rest with
  | nil =>
      rw [Parser.read_nothing]
      exact .throw (Scope.located_flawAt hc.index_le)
  | cons t rest =>
      obtain ⟨kind, span⟩ := t
      have hpos : 0 < (⟨kind, span⟩ :: rest : List Token).length := Nat.succ_pos _
      refine .after hpos (answer_advance hpos) ?_
      cases kind with
      | number value =>
          rw [Parser.read_number]
          exact .pure (Nat.le_refl 1)
      | name name =>
          rw [Parser.read_name]
          exact .pure (Nat.le_refl 1)
      | operator op =>
          rw [Parser.read_operator]
          exact .throw (Scope.located_flawAt hc.index_le)
      | lparen => exact ih.block _ span rest rfl hc h.le
      | rparen =>
          rw [Parser.read_rparen]
          exact .throw (Scope.located_flawAt hc.index_le)

/-- What is read of a range is answered to the range around it, unless tokens are left over. -/
lemma room_range {ts us : List Token} (hts : c.rest = ts ++ us) (hc : Confined s ceiling c)
    (h : 4 * ts.length + 5 < calls + 1) :
    Follows s 0 c (range s (.upTo ceiling) (calls + 1) c.index (c.index + ts.length))
      (Prod.map id (Cursor.widen us) <$> readAll s { c with rest := ts }) := by
  have hinside := hc.inside hts
  have hread := ih.read (.chain .sum) _ hinside (by simp only [Phrase.steps]; omega)
  rw [Parser.readAll_eq]
  -- The registers start at the outer cursor and the inner one is read from, which is why no
  -- rule about following applies and the answers are compared.
  generalize Parser.read s (.chain .sum) { c with rest := ts } = z at hread ⊢
  cases hread with
  | @ok e k hk hn hx =>
      have hrange := answer_range_ok (r := c.registers) hx
      have hnext : (Cursor.skip { c with rest := ts } k).registers
          = ⟨c.index + k, c.index + ts.length, c.depth⟩ := by
        rw [Cursor.registers, Cursor.stop_skip hk]
        rfl
      have hwhole : k ≤ c.rest.length := by
        rw [hts, List.length_append]
        exact Nat.le_add_right_of_le hk
      rw [hnext] at hrange
      change Follows _ _ _ _ (Prod.map id (Cursor.widen us) <$> if (ts.drop k).isEmpty
        then Except.ok (e, Cursor.skip { c with rest := ts } k)
        else .error (s.flawAt .trailingTokens (c.index + k)))
      by_cases hall : ts.length ≤ k
      · have hempty : (ts.drop k).isEmpty = true := by simpa using hall
        have houter : (⟨c.index + k, c.registers.stop, c.depth⟩ : Registers)
            = (c.skip k).registers := by
          rw [Cursor.registers, Cursor.registers, Cursor.stop_skip hwhole]
          rfl
        rw [if_neg (by simpa using hall), houter] at hrange
        rw [if_pos hempty]
        change Follows _ _ _ _ (.ok (e, (Cursor.skip { c with rest := ts } k).widen us))
        rw [Cursor.widen_skip hts hk]
        exact .ok hwhole hn hrange
      · have hleft : ¬ (ts.drop k).isEmpty = true := by simpa using hall
        rw [if_pos (by simpa using hall)] at hrange
        rw [if_neg hleft]
        exact .error (Scope.located_flawAt (hinside.skip hk).index_le) hrange rfl
  | error hf hx hr => exact .error hf (answer_range_error hx) hr

/-- The inside of a group is read one level deeper, and its `)` is passed. -/
lemma room_group {span : Span} {t close : Token} {inside behind : List Token} {stop : ℕ}
    (hrest : c.rest = ⟨.lparen, span⟩ :: (t :: inside ++ close :: behind))
    (hgroup : s.group? c.index (t :: inside ++ close :: behind) = some (t :: inside, close, behind))
    (hstop : stop = c.index + (t :: inside).length + 2) (hc : Confined s ceiling c)
    (h : 4 * c.rest.length ≤ calls + 2) :
    Follows s 1 (c.skip 1) (do
        let child ← nested s (.upTo ceiling)
          (range s (.upTo ceiling) calls (c.index + 1) (c.index + 1 + (t :: inside).length))
        modify fun r => { r with next := stop }
        let closing ← tokenAt s (c.index + 1 + (t :: inside).length)
        return .block child (span.merge closing.span))
      (Parser.read s .primary
        ⟨c.index, ⟨.lparen, span⟩ :: (t :: inside ++ close :: behind), c.depth⟩) := by
  have hlength := congrArg List.length hrest
  simp only [List.length_cons, List.length_append] at hlength
  have hpos : 0 < c.rest.length := by omega
  have hdeep : (c.skip 1).depth + 1 ≤ ceiling := by
    have := hc.depth_le
    rw [Cursor.skip_depth]
    omega
  have hskip : (c.skip 1).deeper.rest = t :: inside ++ close :: behind := by
    rw [Cursor.deeper, Cursor.skip, hrest]
    rfl
  have hrange := ih.range _ _ _ hskip (hc.deeper_skip hpos) (by rw [List.length_cons]; omega)
  have hnested := hrange.nested hdeep
  rw [Parser.read_group s hgroup]
  have hbind := hnested.bind (n := 1) (f := fun child => do
      modify fun r => { r with next := stop }
      let closing ← tokenAt s (c.index + 1 + (t :: inside).length)
      return .block child (span.merge closing.span))
    (g := fun p => Pure.pure (.block p.1 (span.merge close.span),
      ⟨p.2.index + 1, behind, p.2.depth⟩)) ?_
  · simp only [bind_assoc, pure_bind, bind_map_left] at hbind
    exact hbind
  · -- The inside has been read to its end, so that its `)` is the next token.
    intro e k hk hy hn
    have hbehind : ((c.skip 1).skip k).rest = close :: behind := Parser.rest_eq_of_widened hy
    have hcount : k = (t :: inside).length := by
      have hleft := congrArg List.length hbehind
      simp only [Cursor.length_skip, List.length_cons] at hleft ⊢
      omega
    have hindex : c.index + 1 + (t :: inside).length = ((c.skip 1).skip k).index := by
      rw [Cursor.skip_index, Cursor.skip_index, hcount]
    rw [hindex]
    refine follows_close ((hc.skip hpos).skip hk) hbehind ?_ ?_
    · rw [← hindex, hstop]
      omega
    · omega

lemma room_block (hroom : s.brackets.HasRoom) {span : Span} {rest : List Token}
    (hrest : c.rest = ⟨.lparen, span⟩ :: rest) (hc : Confined s ceiling c)
    (h : 4 * c.rest.length ≤ calls + 2) :
    Follows s 1 (c.skip 1) (block s (.upTo ceiling) (calls + 1) c.index)
      (Parser.read s .primary c) := by
  have hpos : 0 < c.rest.length := by simp [hrest]
  have hopening := hc.getElem?_index hrest
  have hstop : (c.skip 1).registers.stop = c.stop := Cursor.stop_skip hpos
  have hprimary : Parser.read s .primary c
      = Parser.read s .primary ⟨c.index, ⟨.lparen, span⟩ :: rest, c.depth⟩ := by rw [← hrest]
  rw [block, hprimary]
  refine .look (answer_tokenAt hopening _) (.look (answer_get _) ?_)
  rw [hstop]
  rcases Scope.group?_cases hroom hrest
    with ⟨hgroup, hget⟩ | ⟨b, inside, close, behind, hgroup, hget, rfl, hstart, hend⟩
  · rw [Parser.read_unclosed s hgroup, hget]
    refine .throw ?_
    intro i hi
    obtain rfl : c.index = i := Option.some.inj hi
    exact Or.inl ⟨_, hopening, rfl⟩
  · rw [hget]
    refine .look (answer_inner (by omega) _) ?_
    have hinner : b.innerStart = c.index + 1 := by rw [Block.innerStart, hstart]
    have houter : b.innerStop = c.index + 1 + inside.length := by
      rw [Block.innerStop, hend]
      omega
    simp only [hinner, houter]
    cases inside with
    | nil =>
        rw [Parser.read_group_nil s hgroup]
        simp only [List.length_nil, Nat.add_zero, le_refl, if_true]
        have hle := (hc.skip hpos).index_le
        exact .throw (Scope.located_flawAt hle)
    | cons t inside =>
        rw [if_neg (by simp)]
        exact room_group ih hrest hgroup hend hc h

/-- With room for one nested call more indexed reading follows one phrase further. -/
lemma room_succ (hroom : s.brackets.HasRoom) : Room s ceiling (calls + 1) where
  read := by
    intro phrase c hc h
    cases phrase with
    | chain rank => exact room_chain ih rank hc h
    | power => exact room_power ih hc h
    | signed => exact room_signed ih hc h
    | primary => exact room_primary ih hc h
  links := fun _ _ _ _ _ hc h hd hn => room_links ih hc h hd hn
  block := fun _ _ _ hrest hc h => room_block ih hroom hrest hc h
  range := fun _ _ _ hts hc h => room_range ih hts hc h

end Step

lemma room (hroom : s.brackets.HasRoom) (calls : ℕ) : Room s ceiling calls := by
  induction calls with
  | zero => exact room_zero
  | succ calls ih => exact room_succ ih hroom

section Whole

variable {limits : Limits} {calls : ℕ} {r : Registers}

/-- A tree that has been read by indices is held against the limit. -/
lemma ofTokens_of_range_ok
    (h : (range ⟨tokens, brackets, limits.maxDepth⟩ (.upTo ceiling) calls 0 tokens.length).answer
      ⟨0, tokens.length, 0⟩ = some (.ok e, r)) :
    ofTokens (.upTo ceiling) calls tokens brackets limits
      = some (if limits.maxDepth < e.height then
          .error (.limitExceeded .nestingDepth e.height limits.maxDepth e.deepLeaf.span.start)
        else .ok e) := by
  rw [ofTokens, tree, answer_bind_ok h]
  simp only [Expr.deepest_eq]
  split <;> rfl

lemma ofTokens_of_range_error
    (h : (range ⟨tokens, brackets, limits.maxDepth⟩ (.upTo ceiling) calls 0 tokens.length).answer
      ⟨0, tokens.length, 0⟩ = some (.error fault, r)) :
    ofTokens (.upTo ceiling) calls tokens brackets limits = some (.error fault) := by
  rw [ofTokens, tree, answer_bind_error h]
  rfl

/-- Indexed reading of all tokens answers what reading answers, within the bounds. -/
lemma ofTokens_cases (limits : Limits) (hroom : brackets.HasRoom)
    (hcalls : 4 * tokens.length + 6 ≤ calls) :
    (∃ e, ofTokens (.upTo tokens.length) calls tokens brackets limits = some (.ok e)
        ∧ Expr.ofTokens tokens brackets limits = .ok e ∧ e.nodeCount ≤ tokens.length)
      ∨ ∃ fault, ofTokens (.upTo tokens.length) calls tokens brackets limits = some (.error fault)
        ∧ Expr.ofTokens tokens brackets limits = .error fault ∧ fault.Located tokens := by
  have hstart := Confined.start ⟨tokens, brackets, limits.maxDepth⟩
  have hrange := (room hroom calls).range _ tokens [] (List.append_nil _).symm hstart hcalls
  have hregisters : Cursor.registers ⟨0, tokens, 0⟩ = ⟨0, tokens.length, 0⟩ := by
    rw [Cursor.registers, Cursor.stop, Nat.zero_add]
  rw [Nat.zero_add] at hrange
  cases hall : readAll ⟨tokens, brackets, limits.maxDepth⟩ ⟨0, tokens, 0⟩ with
  | error fault =>
      rw [hall] at hrange
      cases hrange with
      | error hf hx hr =>
          rw [hregisters] at hx
          exact Or.inr ⟨fault, ofTokens_of_range_error hx, ofTokens_of_readAll_error hall, hf⟩
  | ok p =>
      obtain ⟨e, next⟩ := p
      rw [hall] at hrange
      obtain ⟨hcount, r, hx⟩ := Follows.of_ok (p := (e, next.widen [])) hrange
      rw [hregisters] at hx
      have hindexed := ofTokens_of_range_ok hx
      have hread := ofTokens_of_readAll_ok hall
      rw [Nat.zero_add] at hcount
      by_cases hlt : limits.maxDepth < e.height
      · rw [if_pos hlt] at hindexed hread
        exact Or.inr ⟨_, hindexed, hread, Fault.located_limitExceeded⟩
      · rw [if_neg hlt] at hindexed hread
        exact Or.inl ⟨e, hindexed, hread, hcount⟩

/-- Indexed reading of all tokens needs no number beyond their number. -/
lemma ofTokens_eq (limits : Limits) (hroom : brackets.HasRoom)
    (hcalls : 4 * tokens.length + 6 ≤ calls) :
    ofTokens (.upTo tokens.length) calls tokens brackets limits
      = some (Expr.ofTokens tokens brackets limits) := by
  rcases ofTokens_cases limits hroom hcalls
    with ⟨e, hindexed, he, -⟩ | ⟨fault, hindexed, hfault, -⟩
  · rw [hindexed, he]
  · rw [hindexed, hfault]

end Whole

end Indexed

/-- **Reading is confined to its tokens**, whichever tokens the pairs belong to: indexed
reading looks up tokens only, no number becomes negative or passes the number of tokens, and
its nested calls are bounded. A tree is as low as the limit says and has no more nodes than
there are tokens; a fault names a token or the place behind the last one, and points there. -/
theorem reading_is_confined (tokens : List Token) (limits : Limits)
    (hb : brackets = Brackets.empty ∨ ∃ others, Brackets.ofTokens others = .ok brackets) :
    (∀ calls, 4 * tokens.length + 6 ≤ calls →
        Indexed.ofTokens (.upTo tokens.length) calls tokens brackets limits
          = some (Expr.ofTokens tokens brackets limits))
      ∧ (∀ e, Expr.ofTokens tokens brackets limits = .ok e →
        e.height ≤ limits.maxDepth ∧ e.nodeCount ≤ tokens.length)
      ∧ ∀ fault, Expr.ofTokens tokens brackets limits = .error fault → fault.Located tokens := by
  have hroom := Brackets.hasRoom_of_known hb
  refine ⟨fun calls hcalls => Indexed.ofTokens_eq limits hroom hcalls, ?_, ?_⟩
  · intro e he
    refine ⟨height_le_of_ofTokens he, ?_⟩
    rcases Indexed.ofTokens_cases limits hroom (le_refl (4 * tokens.length + 6))
      with ⟨e', -, he', hcount⟩ | ⟨fault, -, hfault, -⟩
    · obtain rfl := Except.ok.inj (he.symm.trans he')
      exact hcount
    · cases he.symm.trans hfault
  · intro fault hfault
    rcases Indexed.ofTokens_cases limits hroom (le_refl (4 * tokens.length + 6))
      with ⟨e, -, he, -⟩ | ⟨fault', -, hfault', hlocated⟩
    · cases hfault.symm.trans he
    · obtain rfl := Except.error.inj (hfault.symm.trans hfault')
      exact hlocated

/-- A group may be closed by an operator where the pairs are those of other tokens. -/
theorem reading_with_foreign_pairs :
    Brackets.ofTokens [⟨.lparen, ⟨0, 1⟩⟩, ⟨.name "x", ⟨1, 2⟩⟩, ⟨.rparen, ⟨2, 3⟩⟩]
        = .ok ⟨[⟨0, 3, 1⟩]⟩
      ∧ Expr.ofTokens [⟨.lparen, ⟨0, 1⟩⟩, ⟨.name "y", ⟨1, 2⟩⟩, ⟨.operator .mul, ⟨2, 3⟩⟩]
          ⟨[⟨0, 3, 1⟩]⟩ ⟨2, 3⟩ = .ok (.block (.unknown "y" ⟨1, 2⟩) ⟨0, 3⟩) := by
  have hpairs : Brackets.ofTokens [⟨.lparen, ⟨0, 1⟩⟩, ⟨.name "x", ⟨1, 2⟩⟩, ⟨.rparen, ⟨2, 3⟩⟩]
      = .ok ⟨[⟨0, 3, 1⟩]⟩ := by cbv
  have hread := (reading_is_confined
    [⟨.lparen, ⟨0, 1⟩⟩, ⟨.name "y", ⟨1, 2⟩⟩, ⟨.operator .mul, ⟨2, 3⟩⟩] ⟨2, 3⟩
    (Or.inr ⟨_, hpairs⟩)).1 18 le_rfl
  have hindexed : Indexed.ofTokens (.upTo 3) 18
      [⟨.lparen, ⟨0, 1⟩⟩, ⟨.name "y", ⟨1, 2⟩⟩, ⟨.operator .mul, ⟨2, 3⟩⟩] ⟨[⟨0, 3, 1⟩]⟩ ⟨2, 3⟩
      = some (.ok (.block (.unknown "y" ⟨1, 2⟩) ⟨0, 3⟩)) := by decide +kernel
  exact ⟨hpairs, Option.some.inj (hread.symm.trans hindexed)⟩

end Formula
