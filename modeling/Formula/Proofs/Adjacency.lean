import Formula.Proofs.Balance
import Formula.Adjacency

/-!
Where the neighbours of a list of tokens first go wrong.

* `lastKind`: the token in front of what follows some tokens.
* `Passes`: each token may follow its neighbour; `passes_append`.
* `StuckAt`: how many tokens pass in front of the first one that may not follow,
  or of the end, if an operand is due there. `StuckAt.behind` puts tokens that
  pass in front, `StuckAt.close` puts a `)` behind.
* `Passes.check`, `StuckAt.check`: what the check answers in either case. Only
  for an operator at the end it names the token in front of the place where the
  tokens are stuck (`DanglesAtEnd`).
-/

namespace Formula

/-! ### Tokens that pass and tokens that do not -/

/-- The last of some tokens that follow the one given. -/
def lastKind (before : Option Token.Kind) : List Token → Option Token.Kind
  | [] => before
  | t :: ts => lastKind (some t.kind) ts

@[simp] lemma lastKind_append (before : Option Token.Kind) (ts us : List Token) :
    lastKind before (ts ++ us) = lastKind (lastKind before ts) us := by
  induction ts generalizing before with
  | nil => rfl
  | cons t ts ih => exact ih (some t.kind)

/-- Each of some tokens may follow its neighbour, the first one the token
given. -/
def Passes (before : Option Token.Kind) : List Token → Prop
  | [] => True
  | t :: ts => flawAfter before t.kind = none ∧ Passes (some t.kind) ts

lemma passes_append {before : Option Token.Kind} {ts us : List Token} :
    Passes before (ts ++ us) ↔ Passes before ts ∧ Passes (lastKind before ts) us := by
  induction ts generalizing before with
  | nil => simp [Passes, lastKind]
  | cons t ts ih => simp [Passes, lastKind, ih, and_assoc]

/-- The first `n` of some tokens pass, and then comes one that may not follow, or
the end although an operand is due. -/
inductive StuckAt : Option Token.Kind → List Token → ℕ → Prop
  | flawed {before : Option Token.Kind} {t : Token} {ts : List Token}
      (h : flawAfter before t.kind ≠ none) : StuckAt before (t :: ts) 0
  | due {before : Option Token.Kind} (h : before.any Token.Kind.endsOperand = false) :
      StuckAt before [] 0
  | next {before : Option Token.Kind} {t : Token} {ts : List Token} {n : ℕ}
      (h : flawAfter before t.kind = none) (hs : StuckAt (some t.kind) ts n) :
      StuckAt before (t :: ts) (n + 1)

/-! ### The classes of tokens -/

/-- An operand may begin behind a token that does not end one. -/
lemma flawAfter_operand {before : Option Token.Kind} (h : before.any Token.Kind.endsOperand = false)
    {kind : Token.Kind} (hk : kind.isOperand ∨ kind = .lparen) : flawAfter before kind = none := by
  cases kind with
  | operator op => simp [Token.Kind.isOperand] at hk
  | rparen => simp [Token.Kind.isOperand] at hk
  | _ => simp [flawAfter, h]

/-- An operand may not begin behind a token that ends one. -/
lemma flawAfter_operand_ne_none {before : Option Token.Kind}
    (h : before.any Token.Kind.endsOperand = true) {kind : Token.Kind}
    (hk : kind.isOperand ∨ kind = .lparen) : flawAfter before kind ≠ none := by
  cases kind with
  | operator op => simp [Token.Kind.isOperand] at hk
  | rparen => simp [Token.Kind.isOperand] at hk
  | _ => simp [flawAfter, h]

/-- An operator may follow a token that ends an operand. -/
lemma flawAfter_operator {before : Option Token.Kind}
    (h : before.any Token.Kind.endsOperand = true) (op : Operator) :
    flawAfter before (.operator op) = none := by
  cases op <;> simp [flawAfter, h]

/-- A sign may follow any token. -/
lemma flawAfter_sign (before : Option Token.Kind) {op : Operator} (h : op.sign? ≠ none) :
    flawAfter before (.operator op) = none := by
  cases op <;> first | rfl | exact absurd rfl h

/-- An operator that is no sign may not follow a token that ends no operand. -/
lemma flawAfter_operator_ne_none {before : Option Token.Kind}
    (h : before.any Token.Kind.endsOperand = false) {op : Operator} (hop : op.sign? = none) :
    flawAfter before (.operator op) ≠ none := by
  cases op <;> simp_all [flawAfter, Operator.sign?]

/-- A `)` may follow a token that ends an operand. -/
lemma flawAfter_rparen {before : Option Token.Kind}
    (h : before.any Token.Kind.endsOperand = true) : flawAfter before .rparen = none := by
  rcases before with _ | kind
  · rfl
  · cases kind <;> simp_all [flawAfter, Token.Kind.endsOperand, Token.Kind.isOperand]

/-- A `)` may follow only a token that ends an operand, unless it comes first. -/
lemma flawAfter_rparen_ne_none {kind : Token.Kind} (h : kind.endsOperand = false) :
    flawAfter (some kind) .rparen ≠ none := by
  cases kind <;> simp_all [flawAfter, Token.Kind.endsOperand, Token.Kind.isOperand]

/-- A place behind tokens that pass is as far from the first of them as it is from
the last, and their number more. -/
lemma StuckAt.behind {before : Option Token.Kind} {ts us : List Token} {n : ℕ}
    (hp : Passes before ts) (h : StuckAt (lastKind before ts) us n) :
    StuckAt before (ts ++ us) (ts.length + n) := by
  induction ts generalizing before with
  | nil => rwa [List.nil_append, List.length_nil, Nat.zero_add]
  | cons t ts ih =>
      rw [List.cons_append, List.length_cons, Nat.add_right_comm]
      exact StuckAt.next hp.1 (ih hp.2 h)

/-- Tokens that are stuck in front of a `)` are stuck at the same place with it:
where an operand is due, a `)` may not follow. -/
lemma StuckAt.close {kind : Token.Kind} {ts : List Token} {n : ℕ} (h : StuckAt (some kind) ts n)
    (span : Span) (us : List Token) : StuckAt (some kind) (ts ++ ⟨.rparen, span⟩ :: us) n := by
  generalize hb : some kind = before at h
  induction h generalizing kind with
  | flawed h => exact StuckAt.flawed h
  | due h =>
      subst hb
      exact StuckAt.flawed (flawAfter_rparen_ne_none h)
  | next h _ ih => exact StuckAt.next h (ih rfl)

/-! ### What the check reports -/

/-- What is wrong with ending where an operand is due. -/
lemma exists_flawAtEnd {before : Option Token.Kind}
    (h : before.any Token.Kind.endsOperand = false) : ∃ flaw, flawAtEnd before = some flaw := by
  rcases before with _ | kind
  · exact ⟨_, rfl⟩
  · cases kind <;> simp_all [flawAtEnd, Token.Kind.endsOperand, Token.Kind.isOperand]

lemma flawAtEnd_eq_none {before : Option Token.Kind}
    (h : before.any Token.Kind.endsOperand = true) : flawAtEnd before = none := by
  rcases before with _ | kind
  · simp at h
  · cases kind <;> simp_all [flawAtEnd, Token.Kind.endsOperand, Token.Kind.isOperand]

/-- An operand that is due at the end is due behind an operator or a `(`. -/
lemma operator_of_flawAtEnd {kind : Token.Kind} {flaw : Flaw}
    (h : flawAtEnd (some kind) = some flaw) (hk : kind ≠ .lparen) :
    flaw = .danglingOperator ∧ kind.isOperator = true := by
  cases kind with
  | operator op => exact ⟨(Option.some.inj h).symm, rfl⟩
  | lparen => exact absurd rfl hk
  | _ => simp [flawAtEnd] at h

/-- Tokens that pass and end an operand have no flaw. -/
lemma Passes.flawFrom? {before : Option Token.Kind} {ts : List Token} (h : Passes before ts)
    (he : (lastKind before ts).any Token.Kind.endsOperand = true) (index : ℕ) :
    flawFrom? before index ts = none := by
  induction ts generalizing before index with
  | nil =>
      have hend : flawAtEnd before = none := flawAtEnd_eq_none he
      rw [Formula.flawFrom?, hend, Option.map_none]
  | cons t ts ih =>
      rw [Formula.flawFrom?, h.1]
      exact ih h.2 he (index + 1)

/-- The first flaw of tokens that are stuck is that of the token they are stuck
at, or that of the end, which is reported one place before it. -/
lemma StuckAt.flawFrom? {before : Option Token.Kind} {ts : List Token} {n : ℕ}
    (h : StuckAt before ts n) (index : ℕ) :
    (∃ t flaw before', ts[n]? = some t ∧ flawAfter before' t.kind = some flaw
        ∧ flawFrom? before index ts = some (flaw, index + n))
      ∨ (n = ts.length ∧ ∃ flaw, flawAtEnd (lastKind before ts) = some flaw
        ∧ flawFrom? before index ts = some (flaw, index + n - 1)) := by
  induction h generalizing index with
  | @flawed before t ts h =>
      obtain ⟨flaw, hf⟩ := Option.ne_none_iff_exists'.mp h
      exact Or.inl ⟨t, flaw, before, rfl, hf, by rw [Formula.flawFrom?, hf]; rfl⟩
  | due h =>
      obtain ⟨flaw, hf⟩ := exists_flawAtEnd h
      exact Or.inr ⟨rfl, flaw, hf, by rw [Formula.flawFrom?, hf]; rfl⟩
  | @next before t ts n h _ ih =>
      have hstep : Formula.flawFrom? before index (t :: ts)
          = Formula.flawFrom? (some t.kind) (index + 1) ts := by
        rw [Formula.flawFrom?, h]
      rw [hstep]
      rcases ih (index + 1) with ⟨u, flaw, before', hu, hf, hr⟩ | ⟨rfl, flaw, hf, hr⟩
      · refine Or.inl ⟨u, flaw, before', by simpa using hu, hf, ?_⟩
        rw [hr, Nat.add_right_comm, Nat.add_assoc]
      · refine Or.inr ⟨rfl, flaw, hf, ?_⟩
        rw [hr, Nat.add_right_comm, Nat.add_assoc]

/-- Tokens that pass and end an operand are handed on. -/
lemma Passes.check {tokens : List Token} (h : Passes none tokens)
    (he : (lastKind none tokens).any Token.Kind.endsOperand = true) :
    check tokens = .ok tokens := by
  rw [Formula.check, firstFlaw?, h.flawFrom? he]

/-- The flaw is an operator at the end of the tokens, and the index is that of the
operator. -/
def DanglesAtEnd (tokens : List Token) (flaw : Flaw) (index : ℕ) : Prop :=
  flaw = .danglingOperator ∧ index + 1 = tokens.length
    ∧ ∃ t ∈ tokens.getLast?, t.kind.isOperator = true

/-- An operator that may not follow lacks an operand, so it does not dangle. -/
lemma not_danglesAtEnd {tokens : List Token} {t : Token} {n : ℕ} {flaw : Flaw}
    {before : Option Token.Kind} (ht : tokens[n]? = some t)
    (hf : flawAfter before t.kind = some flaw) : ¬ DanglesAtEnd tokens flaw n := by
  rintro ⟨rfl, hn, u, hu, ho⟩
  have hlast : u = t := by
    rw [List.getLast?_eq_getElem?, ← hn, Nat.add_sub_cancel, ht] at hu
    exact (Option.some.inj hu).symm
  subst hlast
  obtain ⟨kind, span⟩ := u
  cases kind with
  | operator op => cases op <;> simp [flawAfter] at hf
  | _ => simp [Token.Kind.isOperator, Token.Kind.operator?] at ho

/-- The check of balanced tokens that are stuck reports the place where they are
stuck; an operator at the end is reported itself, and the tokens are stuck behind
it. -/
lemma StuckAt.check {tokens : List Token} {n : ℕ} (h : StuckAt none tokens n)
    (hc : Closes 0 tokens) :
    ∃ flaw index, check tokens = .error (.malformed flaw index (Token.startOf tokens index))
      ∧ (DanglesAtEnd tokens flaw index → n = tokens.length)
      ∧ (¬ DanglesAtEnd tokens flaw index → n = index) := by
  have hcheck : ∀ flaw index, Formula.flawFrom? none 0 tokens = some (flaw, index) →
      Formula.check tokens = .error (.malformed flaw index (Token.startOf tokens index)) := by
    intro flaw index hf
    rw [Formula.check, firstFlaw?, hf]
    simp [unmatchedClose?, hc.unmatchedCloseFrom? 0]
  rcases h.flawFrom? 0 with ⟨t, flaw, before, ht, hf, hr⟩ | ⟨rfl, flaw, hf, hr⟩
  · rw [Nat.zero_add] at hr
    refine ⟨flaw, n, hcheck flaw n hr, ?_, fun _ => rfl⟩
    intro hd
    exact absurd hd (not_danglesAtEnd ht hf)
  · rw [Nat.zero_add] at hr
    refine ⟨flaw, tokens.length - 1, hcheck flaw _ hr, fun _ => rfl, ?_⟩
    intro hd
    rcases List.eq_nil_or_concat tokens with rfl | ⟨ts, t, rfl⟩
    · rfl
    · rw [List.concat_eq_append] at hc hf hd
      rw [lastKind_append] at hf
      have hparen : t.kind ≠ .lparen := hc.ne_lparen_of_getLast? (by simp)
      obtain ⟨rfl, ho⟩ := operator_of_flawAtEnd hf hparen
      exact absurd ⟨rfl, by simp, t, by simp, ho⟩ hd

end Formula
