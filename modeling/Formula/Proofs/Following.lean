import Formula.Proofs.Blocks
import Formula.Proofs.Indexed
import Formula.Proofs.Reading

/-!
An indexed reader that follows a cursor.

* `Fault.Located`: a fault that names a token points at where that starts.
* `Brackets.HasRoom`: no block is too short for its parentheses, which holds of all pairs
  that pairing finds in any tokens.
* `Parser.Confined`: the rest of a range is a part of the tokens that starts at its index,
  and there are enough of them for the depth. `Scope.group?_cases`: the group behind a `(` is
  found in the rest of the range or by its index.
* `Indexed.Follows`: a piece of reading does with registers what another does with a cursor.
  It keeps to the range and to the depth, and builds no more nodes than there are tokens.
* `Follows.bind`, `Follows.after`, `Follows.nested`, `follows_close`, …: how it is put
  together.
-/

namespace Formula

variable {tokens : List Token} {brackets : Brackets} {fault : Fault}

/-! ### Places of faults -/

/-- A fault that names a token points at where that token starts, or, if it names the place
behind the last one, at where that one stops. -/
def Fault.Located (tokens : List Token) (fault : Fault) : Prop :=
  ∀ i ∈ fault.token?, (∃ t, tokens[i]? = some t ∧ fault.position? = some t.span.start)
    ∨ (i = tokens.length ∧ fault.position? = some ((tokens.getLast?.map (·.span.stop)).getD 0))

lemma Fault.located_limitExceeded {measure : Measure} {actual max position : ℕ} :
    (limitExceeded measure actual max position).Located tokens := by
  intro i hi
  cases hi

/-! ### Room for parentheses -/

/-- Every block that can be found has room for two parentheses. -/
def Brackets.HasRoom (brackets : Brackets) : Prop :=
  ∀ i b, brackets.get? i = some b → b.start + 2 ≤ b.stop

lemma Brackets.hasRoom_empty : Brackets.empty.HasRoom := by
  intro i b h
  cases h

lemma Brackets.start_add_two_le (h : Brackets.ofTokens tokens = .ok brackets) {b : Block}
    (hb : b ∈ brackets.blocks) : b.start + 2 ≤ b.stop := by
  obtain ⟨before, opening, inside, closing, behind, -, -, hstart, hstop, -⟩ :=
    exists_tokens_of_mem h hb
  omega

lemma Brackets.hasRoom_of_ofTokens (h : Brackets.ofTokens tokens = .ok brackets) :
    brackets.HasRoom :=
  fun _ _ hb => start_add_two_le h (mem_of_get? hb)

/-- Pairs have room, whichever tokens they belong to. -/
lemma Brackets.hasRoom_of_known
    (h : brackets = Brackets.empty ∨ ∃ others, Brackets.ofTokens others = .ok brackets) :
    brackets.HasRoom := by
  rcases h with rfl | ⟨others, hothers⟩
  · exact hasRoom_empty
  · exact hasRoom_of_ofTokens hothers

namespace Parser

variable {s : Scope} {ceiling : ℕ} {c : Cursor} {ts us : List Token} {t : Token} {k : ℕ}

lemma Scope.located_flawAt {flaw : Flaw} {i : ℕ} (h : i ≤ s.tokens.length) :
    (s.flawAt flaw i).Located s.tokens := by
  intro j hj
  obtain rfl : i = j := Option.some.inj hj
  rcases h.lt_or_eq with hlt | rfl
  · have ht := List.getElem?_eq_getElem hlt
    exact Or.inl ⟨_, ht, congrArg some (Token.startOf_eq_start ht)⟩
  · exact Or.inr ⟨rfl, by simp [flawAt, Fault.position?, Token.startOf]⟩

/-! ### Places of cursors -/

namespace Cursor

/-- The place behind the next tokens. -/
def skip (c : Cursor) (k : ℕ) : Cursor := ⟨c.index + k, c.rest.drop k, c.depth⟩

/-- The same place one level deeper. -/
def deeper (c : Cursor) : Cursor := { c with depth := c.depth + 1 }

/-- The same place in a range that goes on with more tokens. -/
def widen (us : List Token) (c : Cursor) : Cursor := { c with rest := c.rest ++ us }

/-- The registers of an indexed reader at the same place. -/
def registers (c : Cursor) : Indexed.Registers := ⟨c.index, c.stop, c.depth⟩

@[simp] lemma skip_index (c : Cursor) (k : ℕ) : (c.skip k).index = c.index + k := rfl

@[simp] lemma skip_depth (c : Cursor) (k : ℕ) : (c.skip k).depth = c.depth := rfl

@[simp] lemma length_skip (c : Cursor) (k : ℕ) : (c.skip k).rest.length = c.rest.length - k :=
  List.length_drop

lemma skip_skip (c : Cursor) (j k : ℕ) : (c.skip j).skip k = c.skip (j + k) := by
  simp [skip, Nat.add_assoc]

lemma stop_skip (h : k ≤ c.rest.length) : (c.skip k).stop = c.stop := by
  rw [stop, length_skip, skip_index, stop]
  omega

/-- What is read in the beginning of a range leaves the rest of the range behind. -/
lemma widen_skip (h : c.rest = ts ++ us) (hk : k ≤ ts.length) :
    (skip { c with rest := ts } k).widen us = c.skip k := by
  simp [widen, skip, h, List.drop_append_of_le_length hk]

end Cursor

/-- The rest of a range is what its index says, and as long as tokens remain the depth stays
below the ceiling: each level was opened by a token that has been read. -/
structure Confined (s : Scope) (ceiling : ℕ) (c : Cursor) : Prop where
  part : c.rest <+: s.tokens.drop c.index
  stop_le : c.stop ≤ s.tokens.length
  depth_le : c.depth + c.rest.length ≤ ceiling

namespace Confined

/-- All tokens lie where they are. -/
lemma start (s : Scope) : Confined s s.tokens.length ⟨0, s.tokens, 0⟩ where
  part := List.prefix_rfl
  stop_le := (Nat.zero_add _).le
  depth_le := (Nat.zero_add _).le

variable (hc : Confined s ceiling c)
include hc

lemma index_le : c.index ≤ s.tokens.length := le_trans (Nat.le_add_right _ _) hc.stop_le

lemma skip (h : k ≤ c.rest.length) : Confined s ceiling (c.skip k) where
  part := by
    have hpart := hc.part.drop k
    rwa [List.drop_drop] at hpart
  stop_le := (Cursor.stop_skip h).le.trans hc.stop_le
  depth_le := by
    have := hc.depth_le
    rw [Cursor.length_skip, Cursor.skip_depth]
    omega

/-- Behind a token there is room for one level more. -/
lemma deeper_skip (h : 0 < c.rest.length) : Confined s ceiling (c.skip 1).deeper where
  part := (hc.skip h).part
  stop_le := (hc.skip h).stop_le
  depth_le := by
    have hle := hc.depth_le
    simp only [Cursor.deeper, Cursor.skip_depth, Cursor.length_skip]
    omega

/-- A beginning of a range lies where the range does. -/
lemma inside (h : c.rest = ts ++ us) : Confined s ceiling { c with rest := ts } where
  part := (h ▸ List.prefix_append ts us).trans hc.part
  stop_le := by
    have hle := hc.stop_le
    simp only [Cursor.stop, h, List.length_append] at hle ⊢
    omega
  depth_le := by
    have hle := hc.depth_le
    simp only [h, List.length_append] at hle ⊢
    omega

/-- The next token is looked up by the index of the cursor. -/
lemma getElem?_index (h : c.rest = t :: us) : s.tokens[c.index]? = some t := by
  have hfirst := List.prefix_iff_getElem?.mp hc.part 0 (by simp [h])
  rw [List.getElem?_drop] at hfirst
  simpa [h] using hfirst

end Confined

/-- The cursor and the index find the same group behind a `(`, or none. -/
lemma Scope.group?_cases (hroom : s.brackets.HasRoom) {rest : List Token} (h : c.rest = t :: rest) :
    (s.group? c.index rest = none ∧ (s.brackets.get? c.index).filter (·.stop ≤ c.stop) = none)
      ∨ ∃ b inside close behind, s.group? c.index rest = some (inside, close, behind)
        ∧ (s.brackets.get? c.index).filter (·.stop ≤ c.stop) = some b
        ∧ rest = inside ++ close :: behind ∧ b.start = c.index
        ∧ b.stop = c.index + inside.length + 2 := by
  have hstop : c.stop = c.index + rest.length + 1 := by
    rw [Cursor.stop, h, List.length_cons]
    omega
  cases hget : s.brackets.get? c.index with
  | none => exact Or.inl ⟨by rw [group?, hget], rfl⟩
  | some b =>
      have hstart := Brackets.start_of_get? hget
      have hle := hroom _ _ hget
      by_cases hfits : b.stop ≤ c.stop
      · right
        obtain ⟨close, behind, hdrop⟩ := List.exists_cons_of_length_pos
          (l := rest.drop (b.stop - (c.index + 2))) (by rw [List.length_drop]; omega)
        have hgroup : s.group? c.index rest
            = some (rest.take (b.stop - (c.index + 2)), close, behind) := by
          simp only [group?, hget, hdrop]
        refine ⟨b, _, close, behind, hgroup, by simp [hfits], eq_of_group? hgroup, hstart, ?_⟩
        rw [List.length_take]
        omega
      · left
        have hdrop : rest.drop (b.stop - (c.index + 2)) = [] := by
          rw [List.drop_eq_nil_iff]
          omega
        exact ⟨by simp only [group?, hget, hdrop], by simpa using Nat.lt_of_not_le hfits⟩

/-- A whole range leaves nothing behind. -/
lemma rest_eq_nil_of_readAll {p : Expr × Cursor} (h : readAll s c = .ok p) : p.2.rest = [] := by
  rw [readAll_eq] at h
  cases hread : read s (.chain .sum) c with
  | error fault =>
      rw [hread] at h
      cases h
  | ok q =>
      rw [hread] at h
      change (if q.2.rest.isEmpty then Except.ok q
        else .error (s.flawAt .trailingTokens q.2.index)) = .ok p at h
      split at h
      · next hempty =>
        cases h
        exact List.isEmpty_iff.mp hempty
      · cases h

/-- Behind a range that has been read one level deeper the wider range goes on. -/
lemma rest_eq_of_widened {e : Expr} {d next : Cursor} {depth index : ℕ} (h : (do
      s.checkDepth depth index
      let p ← Prod.map id (Cursor.widen us) <$> readAll s d
      return (p.1, { p.2 with depth := c.depth })) = Except.ok (e, next)) : next.rest = us := by
  rcases s.checkDepth_cases depth index with ⟨-, hcheck⟩ | ⟨-, hcheck⟩
  · rw [hcheck] at h
    cases hread : readAll s d with
    | error fault =>
        rw [hread] at h
        cases h
    | ok p =>
        rw [hread] at h
        cases h
        simp [Cursor.widen, rest_eq_nil_of_readAll hread]
  · rw [hcheck] at h
    cases h

end Parser

namespace Indexed

open Formula.Parser (Scope Cursor Confined readLinks readAll)

variable {s : Scope} {ceiling : ℕ} {c : Cursor} {e : Expr} {k m n : ℕ} {x : Run Expr}
  {y : Except Fault (Expr × Cursor)}

lemma head?_bind_operator? (ts : List Token) :
    (ts.head?.bind fun t => t.kind.operator?) = nextOperator? ts := by
  cases ts <;> rfl

/-- The next token of the range is the one with the index of the cursor. -/
lemma answer_peek (hc : Confined s ceiling c) :
    (peek s).answer c.registers = some (.ok c.rest.head?, c.registers) := by
  rw [peek, answer_bind_ok (answer_get _)]
  cases hrest : c.rest with
  | nil =>
      have hstop : ¬ c.index < c.stop := by simp [Cursor.stop, hrest]
      simp only [Cursor.registers, hstop, if_false]
      rfl
  | cons t us =>
      have hstop : c.index < c.stop := by simp [Cursor.stop, hrest]
      simp only [Cursor.registers, hstop, if_true, tokenAt, hc.getElem?_index hrest]
      rfl

/-- A sign is written as an operator. -/
lemma exists_of_sign? {ts : List Token} {t : Token} {sign : Sign}
    (h : (ts.head?.bind fun t => t.kind.sign?.map (t, ·)) = some (t, sign)) :
    ∃ op span rest, ts = ⟨.operator op, span⟩ :: rest ∧ t = ⟨.operator op, span⟩
      ∧ op.sign? = some sign := by
  match ts with
  | ⟨.operator op, span⟩ :: rest =>
      obtain ⟨sign', hsign, hpair⟩ := Option.map_eq_some_iff.mp h
      obtain ⟨rfl, rfl⟩ := Prod.mk.inj hpair
      exact ⟨op, span, rest, rfl, rfl, hsign⟩

lemma answer_advance (h : 0 < c.rest.length) :
    advance.answer c.registers = some (.ok (), (c.skip 1).registers) := by
  rw [advance, answer_modify, Cursor.registers, Cursor.registers, Cursor.stop_skip h]
  rfl

/-! ### Following a cursor -/

/-- A piece of reading does with the registers what the answer given does with the cursor,
where `n` tokens have been read in front of it. It keeps to the range and builds no more
nodes than there are tokens, and the depth is the same behind it. -/
inductive Follows (s : Scope) (n : ℕ) (c : Cursor) (x : Run Expr) :
    Except Fault (Expr × Cursor) → Prop
  | ok {e : Expr} {k : ℕ} (hk : k ≤ c.rest.length) (hn : e.nodeCount ≤ n + k)
      (hx : x.answer c.registers = some (.ok e, (c.skip k).registers)) :
      Follows s n c x (.ok (e, c.skip k))
  | error {fault : Fault} {r : Registers} (hf : fault.Located s.tokens)
      (hx : x.answer c.registers = some (.error fault, r)) (hr : r.depth = c.depth) :
      Follows s n c x (.error fault)

namespace Follows

lemma pure (h : e.nodeCount ≤ n) : Follows s n c (pure e) (.ok (e, c)) :=
  .ok (k := 0) (Nat.zero_le _) h (answer_pure e _)

lemma throw {fault : Fault} (h : fault.Located s.tokens) :
    Follows s n c (throw fault) (.error fault) :=
  .error h (answer_throw fault _) rfl

/-- What moves on by some tokens is followed by what goes on behind them. -/
lemma after {α : Type} {x : Run α} {a : α} {f : α → Run Expr} (hk : k ≤ c.rest.length)
    (hx : x.answer c.registers = some (.ok a, (c.skip k).registers))
    (hf : Follows s (n + k) (c.skip k) (f a) y) : Follows s n c (x >>= f) y := by
  cases hf with
  | @ok e j hj hn hfa =>
      rw [Cursor.length_skip] at hj
      rw [Cursor.skip_skip] at hfa ⊢
      refine .ok (by omega) (by omega) ?_
      rw [answer_bind_ok hx, hfa]
  | error hfault hfa hr =>
      refine .error hfault ?_ hr
      rw [answer_bind_ok hx, hfa]

/-- What only looks is followed by what goes on at the same place. -/
lemma look {α : Type} {x : Run α} {a : α} {f : α → Run Expr}
    (hx : x.answer c.registers = some (.ok a, c.registers)) (hf : Follows s n c (f a) y) :
    Follows s n c (x >>= f) y :=
  after (k := 0) (Nat.zero_le _) hx hf

lemma bind {f : Expr → Run Expr} {g : Expr × Cursor → Except Fault (Expr × Cursor)}
    (hx : Follows s m c x y)
    (hf : ∀ e k, k ≤ c.rest.length → y = .ok (e, c.skip k) → e.nodeCount ≤ m + k →
      Follows s (n + k) (c.skip k) (f e) (g (e, c.skip k))) :
    Follows s n c (x >>= f) (y >>= g) := by
  cases hx with
  | @ok e k hk hn hx => exact after hk hx (hf e k hk rfl hn)
  | error hfault hx hr =>
      refine .error hfault ?_ hr
      rw [answer_bind_error hx]

lemma checkDepth {depth index : ℕ} {f : Unit → Run Expr} (hf : Follows s n c (f ()) y) :
    Follows s n c (checkDepth s depth index >>= f) (s.checkDepth depth index >>= fun _ => y) := by
  rcases s.checkDepth_cases depth index with ⟨-, hcheck⟩ | ⟨-, hcheck⟩
  · have hrun : Indexed.checkDepth s depth index = Pure.pure () := by
      rw [Indexed.checkDepth, hcheck]
    rw [hrun, hcheck]
    exact hf
  · have hrun : Indexed.checkDepth s depth index = MonadExcept.throw
        (.limitExceeded .nestingDepth depth s.maxDepth (Token.startOf s.tokens index)) := by
      rw [Indexed.checkDepth, hcheck]
    rw [hrun, hcheck]
    exact .error Fault.located_limitExceeded rfl rfl

/-- What is read one level deeper follows, if there is room for the level. -/
lemma nested (hd : c.depth + 1 ≤ ceiling) (h : Follows s n c.deeper x y) :
    Follows s n c (nested s (.upTo ceiling) x) (do
      s.checkDepth (c.depth + 1) c.index
      let p ← y
      return (p.1, { p.2 with depth := c.depth })) := by
  -- The check of the depth belongs to what is read deeper: a fault of either one leaves
  -- through the place where the depth is set back.
  have hcheck : Follows s n c.deeper (do Indexed.checkDepth s (c.depth + 1) c.index; x)
      (do s.checkDepth (c.depth + 1) c.index; y) := h.checkDepth
  rw [← bind_assoc]
  generalize (do s.checkDepth (c.depth + 1) c.index; y) = z at hcheck ⊢
  cases hcheck with
  | @ok e k hk hn hx =>
      have hnested := answer_nested (r := c.registers) hd hx rfl
      exact .ok hk hn hnested
  | error hf hx hr => exact .error hf (answer_nested (r := c.registers) hd hx hr) rfl

/-- A node above what is read one level deeper. -/
lemma above {node : Expr → Expr} (hd : c.depth + 1 ≤ ceiling) (h : Follows s 0 c.deeper x y)
    (hnode : ∀ e, (node e).nodeCount ≤ n + e.nodeCount) :
    Follows s n c (do return node (← Indexed.nested s (.upTo ceiling) x)) (do
      s.checkDepth (c.depth + 1) c.index
      let p ← y
      return (node p.1, { p.2 with depth := c.depth })) := by
  have hbind := (h.nested hd).bind (n := n) (f := fun e => Pure.pure (node e))
    (g := fun p => Pure.pure (node p.1, p.2)) fun e k _ _ hn => .pure (by
      have := hnode e
      omega)
  simpa only [bind_assoc, pure_bind] using hbind

/-- No more nodes are built than tokens remain. -/
lemma of_ok {p : Expr × Cursor} (h : Follows s n c x (.ok p)) :
    p.1.nodeCount ≤ n + c.rest.length
      ∧ ∃ r, x.answer c.registers = some (.ok p.1, r) := by
  cases h with
  | ok hk hn hx => exact ⟨hn.trans (Nat.add_le_add_left hk n), _, hx⟩

end Follows

/-- Behind the inside of a group the token that closes it is passed. -/
lemma follows_close {span : Span} {close : Token} {behind : List Token} {stop : ℕ}
    (hc : Confined s ceiling c) (hrest : c.rest = close :: behind) (hstop : stop = c.index + 1)
    (hn : e.nodeCount ≤ n) :
    Follows s n c (do
        modify fun r => { r with next := stop }
        let closing ← tokenAt s c.index
        return .block e (span.merge closing.span))
      (.ok (.block e (span.merge close.span), ⟨c.index + 1, behind, c.depth⟩)) := by
  have hpos : 0 < c.rest.length := by simp [hrest]
  have hjump : (modify fun r => { r with next := stop } : Run Unit).answer c.registers
      = some (.ok (), (c.skip 1).registers) := by
    rw [hstop]
    exact answer_advance hpos
  have hnext : (⟨c.index + 1, behind, c.depth⟩ : Cursor) = c.skip 1 := by
    rw [Cursor.skip, hrest]
    rfl
  rw [hnext]
  refine .after hpos hjump (.look (answer_tokenAt (hc.getElem?_index hrest) _) (.pure ?_))
  rw [Expr.nodeCount]
  omega

end Indexed

end Formula
