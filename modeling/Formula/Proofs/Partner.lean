import Formula.Proofs.Pairing

/-!
Parentheses with a partner and without one.

* `Partners`: a `(` and the `)` behind balanced tokens. `LoneClose`, `LoneOpen`:
  a parenthesis that has no partner.
* `LeavesOpen`: where the parentheses stand that some tokens leave open;
  `LeavesOpen.append`, and `Pairing.leavesOpen_of_run`: the stack of the walk
  holds just these. `LeavesOpen.closes_closers`: as many `)` close them all.
* `isLeast_loneClose`, `isLeast_loneOpen`: the first lone `)` is the one behind
  balanced tokens, and so is the first lone `(` if there is no lone `)`.
* `closes_of_forall_not_lone`: tokens without a lone parenthesis are balanced.
* `Brackets.ofTokens_of_loneClose`, `Brackets.ofTokens_of_loneOpen`: pairing reports
  the first lone `)`, or else the first lone `(`.
* `unmatchedClose?_eq_some_iff`: counting finds the first lone `)` as well.
-/

namespace Formula

/-- The `(` with the index `i` and the `)` with the index `j` have balanced tokens
between them. -/
def Partners (tokens : List Token) (i j : ℕ) : Prop :=
  ∃ before opening inside closing behind,
    tokens = before ++ ⟨.lparen, opening⟩ :: (inside ++ ⟨.rparen, closing⟩ :: behind)
      ∧ Closes 0 inside ∧ i = before.length ∧ j = before.length + inside.length + 1

/-- The token with the index `j` is a `)` and closes nothing. -/
def LoneClose (tokens : List Token) (j : ℕ) : Prop :=
  (∃ span, tokens[j]? = some ⟨.rparen, span⟩) ∧ ∀ i, ¬ Partners tokens i j

/-- The token with the index `i` is a `(` and is never closed. -/
def LoneOpen (tokens : List Token) (i : ℕ) : Prop :=
  (∃ span, tokens[i]? = some ⟨.lparen, span⟩) ∧ ∀ j, ¬ Partners tokens i j

variable {ts us before inside behind tokens : List Token} {span opening closing : Span}
  {i j : ℕ}

/-- A token stands between those in front of it and those behind it. -/
lemma exists_append_of_getElem? {t : Token} (h : tokens[i]? = some t) :
    ∃ before behind, tokens = before ++ t :: behind ∧ before.length = i := by
  obtain ⟨hi, ht⟩ := List.getElem?_eq_some_iff.mp h
  refine ⟨tokens.take i, tokens.drop (i + 1), ?_, by simp; omega⟩
  rw [← ht, List.cons_getElem_drop_succ, List.take_append_drop]

/-- The end of tokens that close all that was open in front of them closes what the
beginning leaves open. -/
lemma Closes.exists_of_append {depth : ℕ} (h : Closes depth (ts ++ us)) : ∃ n, Closes n us := by
  induction ts generalizing depth with
  | nil => exact ⟨depth, h⟩
  | cons t ts ih =>
      cases h with
      | opening h => exact ih h
      | closing h => exact ih h
      | plain _ h => exact ih h

/-- Balanced tokens leave nothing open. -/
lemma Closes.ne_append_lparen (h : Closes 0 ts) (hu : Closes 0 us) :
    ts ≠ before ++ ⟨.lparen, span⟩ :: us := by
  rintro rfl
  obtain ⟨n, hn⟩ := h.exists_of_append
  have hopen : Closes (n + 1) (us ++ []) := by simpa using hn
  exact absurd (closes_nil.mp (hu.skip.mp hopen)) (by omega)

/-- A `(` among balanced tokens has a partner. -/
lemma Closes.exists_partner_of_lparen (h : Closes 0 (before ++ ⟨.lparen, span⟩ :: behind)) :
    ∃ inside closing rest, behind = inside ++ ⟨.rparen, closing⟩ :: rest ∧ Closes 0 inside := by
  obtain ⟨n, hn⟩ := h.exists_of_append
  obtain ⟨inside, closing, rest, rfl, hin, -⟩ := (closes_lparen.mp hn).exists_close 0 n (by omega)
  exact ⟨inside, closing, rest, rfl, hin⟩

/-! ### Lone parentheses -/

lemma loneClose_append :
    LoneClose (before ++ ⟨.rparen, span⟩ :: behind) before.length
      ↔ ∀ front opening inside, before = front ++ ⟨.lparen, opening⟩ :: inside →
        ¬ Closes 0 inside := by
  refine ⟨?_, ?_⟩
  · rintro ⟨-, hlone⟩ front opening inside rfl hin
    refine hlone front.length ⟨front, opening, inside, span, behind, by simp, hin, rfl, ?_⟩
    rw [List.length_append, List.length_cons, Nat.add_assoc]
  · intro hlone
    refine ⟨⟨span, by simp⟩, ?_⟩
    rintro i ⟨front, opening, inside, closing, rest, heq, hin, -, hj⟩
    have hlen : before.length = (front ++ ⟨.lparen, opening⟩ :: inside).length := by
      rw [hj, List.length_append, List.length_cons, Nat.add_assoc]
    rw [← List.cons_append, ← List.append_assoc] at heq
    exact hlone front opening inside (List.append_inj heq hlen).1 hin

lemma loneOpen_append :
    LoneOpen (before ++ ⟨.lparen, span⟩ :: behind) before.length
      ↔ ∀ inside closing rest, behind = inside ++ ⟨.rparen, closing⟩ :: rest →
        ¬ Closes 0 inside := by
  refine ⟨?_, ?_⟩
  · rintro ⟨-, hlone⟩ inside closing rest rfl hin
    exact hlone _ ⟨before, span, inside, closing, rest, rfl, hin, rfl, rfl⟩
  · intro hlone
    refine ⟨⟨span, by simp⟩, ?_⟩
    rintro j ⟨front, opening, inside, closing, rest, heq, hin, hi, -⟩
    obtain ⟨-, htail⟩ := List.append_inj heq hi
    exact hlone inside closing rest (List.cons.inj htail).2 hin

/-! ### What the walk leaves open -/

/-- The parentheses at some indices, the innermost first, are left open by the
tokens: in front of each of them, between them and behind them all is balanced. -/
inductive LeavesOpen : List Token → List ℕ → Prop
  | balanced {ts : List Token} (h : Closes 0 ts) : LeavesOpen ts []
  | opening {ts us : List Token} {is : List ℕ} {span : Span} (h : LeavesOpen ts is)
      (hu : Closes 0 us) : LeavesOpen (ts ++ ⟨.lparen, span⟩ :: us) (ts.length :: is)

/-- As many closing parentheses as the number says. -/
def closers (n : ℕ) : List Token := List.replicate n ⟨.rparen, Span.point 0⟩

namespace LeavesOpen

variable {is : List ℕ}

/-- Balanced tokens change nothing of what is left open. -/
lemma append (h : LeavesOpen ts is) (hu : Closes 0 us) : LeavesOpen (ts ++ us) is := by
  cases h with
  | balanced h => exact balanced (h.skip.mpr hu)
  | opening h hv =>
      rw [List.append_assoc, List.cons_append]
      exact h.opening (hv.skip.mpr hu)

/-- A `)` behind the tokens is a partner of the innermost parenthesis left open. -/
lemma close (h : LeavesOpen ts (i :: is)) (span : Span) :
    LeavesOpen (ts ++ [⟨.rparen, span⟩]) is := by
  cases h with
  | @opening ts us _ open_ h hu =>
      rw [List.append_assoc, List.cons_append]
      exact h.append (hu.skip.mpr Closes.nil.closing).opening

/-- Tokens that close what is left open make up balanced tokens with those that
leave it open. -/
lemma closes_append (h : LeavesOpen ts is) (hu : Closes is.length us) : Closes 0 (ts ++ us) := by
  induction h generalizing us with
  | balanced h => exact h.skip.mpr hu
  | opening _ hv ih =>
      rw [List.append_assoc, List.cons_append]
      exact ih (hv.skip.mpr hu).opening

/-- As many `)` as parentheses are left open make up balanced tokens. -/
lemma closes_closers (h : LeavesOpen ts is) : Closes 0 (ts ++ closers is.length) := by
  have hclosers : ∀ n, Closes n (closers n) := by
    intro n
    induction n with
    | zero => exact Closes.nil
    | succ n ih => exact ih.closing
  exact h.closes_append (hclosers is.length)

/-- Behind balanced tokens there is no `)`. -/
lemma ne_append_rparen (h : LeavesOpen ts is) (hb : Closes 0 before) :
    ts ≠ before ++ ⟨.rparen, span⟩ :: behind := by
  rintro rfl
  have hall := h.closes_closers
  rw [List.append_assoc, List.cons_append, hb.skip] at hall
  exact not_closes_zero_rparen hall

/-- The outermost parenthesis left open stands behind balanced tokens, and the
tokens behind it leave the others open. -/
lemma exists_outermost (h : LeavesOpen ts is) (hi : is.getLast? = some i) :
    ∃ before span behind rest, ts = before ++ ⟨.lparen, span⟩ :: behind ∧ before.length = i
      ∧ Closes 0 before ∧ LeavesOpen behind rest := by
  induction h with
  | balanced _ => simp at hi
  | @opening ts us is span h hu ih =>
      cases h with
      | @balanced _ h =>
          obtain rfl : ts.length = i := by simpa using hi
          exact ⟨ts, span, us, [], rfl, rfl, h, balanced hu⟩
      | @opening ts vs is span' h hv =>
          rw [List.getLast?_cons_cons] at hi
          obtain ⟨before, open_, behind, rest, heq, hlen, hb, hrest⟩ := ih hi
          refine ⟨before, open_, behind ++ ⟨.lparen, span⟩ :: us, _, ?_, hlen, hb, hrest.opening hu⟩
          rw [heq, List.append_assoc, List.cons_append]

end LeavesOpen

namespace Pairing

/-- The stack of a walk holds what the tokens leave open. The induction is on the
tokens from their end: the last one is put on the stack, takes one off or leaves it
alone. -/
lemma leavesOpen_of_run {q : Pairing} (h : start.run 0 ts = (q, none)) :
    LeavesOpen ts (q.openings.map Prod.fst) := by
  induction ts using List.reverseRecOn generalizing q with
  | nil =>
      obtain ⟨rfl, -⟩ := Prod.mk.inj h
      exact LeavesOpen.balanced Closes.nil
  | append_singleton ts t ih =>
      obtain ⟨p, hp, hq⟩ := exists_run_of_append h
      have hopen := ih hp
      obtain ⟨p', hs, hr⟩ := run_cons_eq hq
      obtain ⟨rfl, -⟩ := Prod.mk.inj hr
      rcases t.paren_cases with ⟨span, rfl⟩ | ⟨span, rfl⟩ | ht
      · obtain rfl := Option.some.inj hs
        rw [Nat.zero_add]
        exact hopen.opening Closes.nil
      · rw [step] at hs
        split at hs
        · simp at hs
        · next o _ openings ho =>
          obtain rfl := Option.some.inj hs
          rw [ho, List.map_cons] at hopen
          exact hopen.close span
      · rw [step_plain p _ ht] at hs
        obtain rfl := Option.some.inj hs
        exact hopen.append (Closes.nil.plain ht)

/-- A walk that ends early has come to a `)` with nothing open. -/
lemma exists_of_run_some {p q : Pairing} {index : ℕ} (h : p.run index ts = (q, some j)) :
    ∃ before span behind, ts = before ++ ⟨.rparen, span⟩ :: behind ∧ j = index + before.length
      ∧ p.run index before = (q, none) ∧ q.openings = [] := by
  induction ts generalizing p index with
  | nil => simp [run] at h
  | cons t ts ih =>
      rw [run] at h
      split at h
      · next hs =>
        obtain ⟨rfl, hj⟩ := Prod.mk.inj h
        obtain ⟨kind, span⟩ := t
        cases kind with
        | rparen =>
            rw [step] at hs
            split at hs
            · next ho => exact ⟨[], span, ts, rfl, (Option.some.inj hj).symm, rfl, ho⟩
            · simp at hs
        | _ => simp [step] at hs
      · next p' hs =>
        obtain ⟨before, span, behind, rfl, rfl, hr, ho⟩ := ih h
        refine ⟨t :: before, span, behind, rfl, ?_, by rw [run, hs]; exact hr, ho⟩
        rw [List.length_cons, Nat.add_assoc, Nat.add_comm 1]

/-- Counting keeps step with the walk: it knows the number of parentheses on the
stack. -/
lemma snd_run (p : Pairing) (index : ℕ) (ts : List Token) :
    (p.run index ts).2 = unmatchedCloseFrom? p.openings.length index ts := by
  induction ts generalizing p index with
  | nil => rfl
  | cons t ts ih =>
      obtain ⟨kind, span⟩ := t
      cases kind with
      | lparen => exact ih _ _
      | rparen =>
          rcases ho : p.openings with _ | ⟨o, openings⟩
          · simp [run, step, unmatchedCloseFrom?, ho]
          · simp [run, step, unmatchedCloseFrom?, ho, ih]
      | _ => exact ih p _

end Pairing

/-- The brackets of a `)` among tokens that the walk gets through: it has a
partner. -/
lemma Closes.exists_partner_of_rparen (h : Closes 0 (before ++ ⟨.rparen, span⟩ :: behind)) :
    ∃ front opening inside, before = front ++ ⟨.lparen, opening⟩ :: inside ∧ Closes 0 inside := by
  obtain ⟨q, hr, -⟩ := Pairing.run_of_closes h (p := Pairing.start) [] [] rfl rfl 0
  obtain ⟨p, hp, hq⟩ := Pairing.exists_run_of_append hr
  obtain ⟨p', hs, -⟩ := Pairing.run_cons_eq hq
  have hopen := Pairing.leavesOpen_of_run hp
  rw [Pairing.step] at hs
  split at hs
  · simp at hs
  · next ho =>
    rw [ho, List.map_cons] at hopen
    cases hopen with
    | opening _ hu => exact ⟨_, _, _, rfl, hu⟩

/-! ### The first lone parenthesis -/

/-- The `)` behind balanced tokens is the first lone one. -/
lemma isLeast_loneClose (h : Closes 0 before) :
    IsLeast {j | LoneClose (before ++ ⟨.rparen, span⟩ :: behind) j} before.length := by
  refine ⟨?_, ?_⟩
  · refine loneClose_append.mpr ?_
    rintro front opening inside rfl hin
    exact h.ne_append_lparen hin rfl
  · intro j hj
    by_contra hlt
    obtain ⟨close, hclose⟩ := hj.1
    rw [List.getElem?_append_left (Nat.lt_of_not_le hlt)] at hclose
    obtain ⟨front, rest, rfl, rfl⟩ := exists_append_of_getElem? hclose
    obtain ⟨front, opening, inside, rfl, hin⟩ := h.exists_partner_of_rparen
    rw [Set.mem_ofPred_eq, List.append_assoc, List.cons_append] at hj
    exact loneClose_append.mp hj front opening inside rfl hin

/-- The `(` behind balanced tokens is the first lone one if no `)` behind it is
lone. -/
lemma isLeast_loneOpen {is : List ℕ} (h : Closes 0 before) (hb : LeavesOpen behind is) :
    IsLeast {i | LoneOpen (before ++ ⟨.lparen, span⟩ :: behind) i} before.length := by
  refine ⟨?_, ?_⟩
  · refine loneOpen_append.mpr ?_
    intro inside closing rest heq hin
    exact hb.ne_append_rparen hin heq
  · intro i hi
    by_contra hlt
    obtain ⟨open_, hopen⟩ := hi.1
    rw [List.getElem?_append_left (Nat.lt_of_not_le hlt)] at hopen
    obtain ⟨front, rest, rfl, rfl⟩ := exists_append_of_getElem? hopen
    obtain ⟨inside, closing, rest, rfl, hin⟩ := h.exists_partner_of_lparen
    rw [Set.mem_ofPred_eq, List.append_assoc, List.cons_append] at hi
    exact loneOpen_append.mp hi inside closing _ (by rw [List.append_assoc, List.cons_append]) hin

/-- Tokens that only leave parentheses open have no lone `)`. -/
lemma LeavesOpen.not_loneClose {is : List ℕ} (h : LeavesOpen tokens is) : ¬ LoneClose tokens j := by
  intro hj
  obtain ⟨close, hclose⟩ := hj.1
  obtain ⟨before, behind, rfl, rfl⟩ := exists_append_of_getElem? hclose
  have hall := h.closes_closers
  rw [List.append_assoc, List.cons_append] at hall
  obtain ⟨front, opening, inside, rfl, hin⟩ := hall.exists_partner_of_rparen
  exact loneClose_append.mp hj front opening inside rfl hin

/-- Balanced tokens have no lone `(`. -/
lemma Closes.not_loneOpen (h : Closes 0 tokens) : ¬ LoneOpen tokens i := by
  intro hi
  obtain ⟨open_, hopen⟩ := hi.1
  obtain ⟨before, behind, rfl, rfl⟩ := exists_append_of_getElem? hopen
  obtain ⟨inside, closing, rest, rfl, hin⟩ := h.exists_partner_of_lparen
  exact loneOpen_append.mp hi inside closing rest rfl hin

namespace Pairing

/-- A walk that ends early ends at the first lone `)`. -/
lemma isLeast_of_run_some {q : Pairing} (h : start.run 0 tokens = (q, some j)) :
    IsLeast {j | LoneClose tokens j} j := by
  obtain ⟨before, span, behind, rfl, rfl, hr, ho⟩ := exists_of_run_some h
  rw [Nat.zero_add]
  exact isLeast_loneClose (closes_of_run hr ho)

/-- The bottom of the stack of a walk that comes to its end is the first lone
`(`. -/
lemma isLeast_of_run_none {q : Pairing} {level : ℕ} (h : start.run 0 tokens = (q, none))
    (ho : q.openings.getLast? = some (i, level)) : IsLeast {i | LoneOpen tokens i} i := by
  have hlast : (q.openings.map Prod.fst).getLast? = some i := by
    rw [List.getLast?_map, ho, Option.map_some]
  obtain ⟨before, span, behind, rest, rfl, rfl, hb, hrest⟩ :=
    (leavesOpen_of_run h).exists_outermost hlast
  exact isLeast_loneOpen hb hrest

end Pairing

/-- Counting finds the first lone `)`. -/
lemma unmatchedClose?_eq_some_iff :
    unmatchedClose? tokens = some j ↔ IsLeast {j | LoneClose tokens j} j := by
  have hcount : (Pairing.start.run 0 tokens).2 = unmatchedClose? tokens :=
    Pairing.snd_run Pairing.start 0 tokens
  rcases hr : Pairing.start.run 0 tokens with ⟨q, _ | j'⟩
  · rw [← hcount, hr]
    refine ⟨by simp, ?_⟩
    intro hj
    exact absurd hj.1 (Pairing.leavesOpen_of_run hr).not_loneClose
  · rw [← hcount, hr]
    have hj' := Pairing.isLeast_of_run_some hr
    refine ⟨?_, ?_⟩
    · rintro ⟨⟩
      exact hj'
    · intro hj
      rw [hj.unique hj']

lemma unmatchedClose?_eq_none_iff :
    unmatchedClose? tokens = none ↔ ∀ j, ¬ LoneClose tokens j := by
  refine ⟨?_, ?_⟩
  · intro hnone j hj
    -- the walk comes to its end, since counting does
    rcases hr : Pairing.start.run 0 tokens with ⟨q, _ | j'⟩
    · exact (Pairing.leavesOpen_of_run hr).not_loneClose hj
    · rw [unmatchedClose?_eq_some_iff.mpr (Pairing.isLeast_of_run_some hr)] at hnone
      cases hnone
  · intro hnone
    refine Option.eq_none_iff_forall_ne_some.mpr ?_
    intro j hj
    exact hnone j (unmatchedClose?_eq_some_iff.mp hj).1

namespace Brackets

/-- Pairing reports the first lone `)`. -/
lemma ofTokens_of_loneClose (h : IsLeast {j | LoneClose tokens j} j) :
    ofTokens tokens = .error (.unbalanced .unmatchedClose j (Token.startOf tokens j)) := by
  rw [ofTokens]
  rcases hr : Pairing.start.run 0 tokens with ⟨q, _ | j'⟩
  · exact absurd h.1 (Pairing.leavesOpen_of_run hr).not_loneClose
  · rw [h.unique (Pairing.isLeast_of_run_some hr)]

/-- Without a lone `)` pairing succeeds, or it reports the first lone `(`. -/
lemma ofTokens_of_forall_not_loneClose (hc : ∀ j, ¬ LoneClose tokens j) :
    Closes 0 tokens ∨ ∃ i, IsLeast {i | LoneOpen tokens i} i
      ∧ ofTokens tokens = .error (.unbalanced .unclosed i (Token.startOf tokens i)) := by
  rcases hr : Pairing.start.run 0 tokens with ⟨q, _ | j⟩
  · rcases ho : q.openings.getLast? with _ | ⟨i, level⟩
    · exact Or.inl (Pairing.closes_of_run hr (List.getLast?_eq_none_iff.mp ho))
    · refine Or.inr ⟨i, Pairing.isLeast_of_run_none hr ho, ?_⟩
      rw [ofTokens, hr]
      simp only [ho]
  · exact absurd (Pairing.isLeast_of_run_some hr).1 (hc j)

/-- Without a lone `)` pairing reports the first lone `(`. -/
lemma ofTokens_of_loneOpen (hc : ∀ j, ¬ LoneClose tokens j)
    (h : IsLeast {i | LoneOpen tokens i} i) :
    ofTokens tokens = .error (.unbalanced .unclosed i (Token.startOf tokens i)) := by
  rcases ofTokens_of_forall_not_loneClose hc with hclose | ⟨i', hi', ho⟩
  · exact absurd h.1 hclose.not_loneOpen
  · rw [h.unique hi', ho]

end Brackets

/-- Tokens without lone parentheses are balanced. -/
lemma closes_of_forall_not_lone (hc : ∀ j, ¬ LoneClose tokens j) (ho : ∀ i, ¬ LoneOpen tokens i) :
    Closes 0 tokens := by
  rcases Brackets.ofTokens_of_forall_not_loneClose hc with hclose | ⟨i, hi, -⟩
  · exact hclose
  · exact absurd hi.1 (ho i)

end Formula
