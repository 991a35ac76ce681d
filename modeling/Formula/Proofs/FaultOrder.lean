import Formula.Proofs.Acceptance
import Formula.Proofs.Misfit
import Formula.Proofs.Partner

/-!
Which fault of a source is reported.

* `FirstFlaw`: a token that may not follow its neighbour behind tokens that pass, or
  else the end; `firstFlaw?_eq_some_iff`.
* `build_of_loneClose`, `build_of_firstFlaw`, `build_of_loneOpen`: a lone `)` comes
  before all flaws, and these come before a lone `(`.
* `exists_derives_of_faultless`: tokens without any of the three are a formula.
* `Diagnosis`, `diagnosis`: the first of the three that some tokens have, or none.
* `FaultsInOrder`: what tokens are answered with, by the first fault in this order.
* `faults_reported_in_order`: this is how a source is analysed, and no other fault
  is reported.
-/

namespace Formula

variable {limits : Limits} {tokens : List Token} {flaw : Flaw} {i j : ℕ}

/-! ### The first flaw -/

/-- The first flaw of some tokens and the index it is reported at: that of a token
which may not follow its neighbour while all tokens in front of it pass, or that of
the end, reported at the last token. -/
inductive FirstFlaw (tokens : List Token) : Flaw → ℕ → Prop
  | neighbour {before behind : List Token} {t : Token} {flaw : Flaw}
      (h : tokens = before ++ t :: behind) (hp : Passes none before)
      (hf : flawAfter (lastKind none before) t.kind = some flaw) :
      FirstFlaw tokens flaw before.length
  | ending {flaw : Flaw} (hp : Passes none tokens)
      (hf : flawAtEnd (lastKind none tokens) = some flaw) :
      FirstFlaw tokens flaw (tokens.length - 1)

/-- The first flaw of some tokens behind others that pass. -/
lemma firstFlaw_of_flawFrom? {before rest : List Token} (hp : Passes none before)
    (h : flawFrom? (lastKind none before) before.length rest = some (flaw, i)) :
    FirstFlaw (before ++ rest) flaw i := by
  induction rest generalizing before with
  | nil =>
      obtain ⟨flaw', hf, hi⟩ := Option.map_eq_some_iff.mp h
      obtain ⟨rfl, rfl⟩ := Prod.mk.inj hi
      rw [List.append_nil]
      exact FirstFlaw.ending hp hf
  | cons t rest ih =>
      rw [flawFrom?] at h
      split at h
      · next flaw' hf =>
        obtain ⟨rfl, rfl⟩ := Prod.mk.inj (Option.some.inj h)
        exact FirstFlaw.neighbour rfl hp hf
      · next hf =>
        have hpt : Passes none (before ++ [t]) := passes_append.mpr ⟨hp, hf, trivial⟩
        have hrest : FirstFlaw (before ++ [t] ++ rest) flaw i := by
          refine ih hpt ?_
          rw [lastKind_append, List.length_append]
          exact h
        rwa [List.append_assoc] at hrest

/-- Tokens that pass and have no flaw at the end have none. -/
lemma flawFrom?_append {before : Option Token.Kind} {ts : List Token} (hp : Passes before ts)
    (index : ℕ) (rest : List Token) :
    flawFrom? before index (ts ++ rest)
      = flawFrom? (lastKind before ts) (index + ts.length) rest := by
  induction ts generalizing before index with
  | nil => rfl
  | cons t ts ih =>
      rw [List.cons_append, flawFrom?, hp.1]
      simp only [ih hp.2, lastKind, List.length_cons, Nat.add_assoc, Nat.add_comm 1]

/-- The search finds the first flaw. -/
lemma firstFlaw?_eq_some_iff : firstFlaw? tokens = some (flaw, i) ↔ FirstFlaw tokens flaw i := by
  refine ⟨fun h => ?_, fun h => ?_⟩
  · have hnone : Passes none [] := trivial
    exact firstFlaw_of_flawFrom? hnone h
  · rw [firstFlaw?]
    cases h with
    | neighbour h hp hf =>
        rw [h, flawFrom?_append hp, flawFrom?, hf, Nat.zero_add]
    | ending hp hf =>
        rw [← List.append_nil tokens, flawFrom?_append hp, flawFrom?, hf, Nat.zero_add,
          List.append_nil]
        rfl

lemma firstFlaw?_eq_none_iff : firstFlaw? tokens = none ↔ ∀ flaw i, ¬ FirstFlaw tokens flaw i := by
  simp only [← firstFlaw?_eq_some_iff, Option.eq_none_iff_forall_ne_some, Prod.forall, ne_eq]

lemma flawAfter_ne_trailingTokens (before : Option Token.Kind) (kind : Token.Kind) :
    flawAfter before kind ≠ some .trailingTokens := by
  cases kind with
  | operator op => cases op <;> simp [flawAfter]
  | rparen =>
      simp only [flawAfter]
      split <;> simp
  | _ => simp [flawAfter]

lemma flawAtEnd_ne_trailingTokens (before : Option Token.Kind) :
    flawAtEnd before ≠ some .trailingTokens := by
  rcases before with _ | kind
  · simp [flawAtEnd]
  · cases kind <;> simp [flawAtEnd]

/-- Tokens are never left over: the flaw of the neighbours is found before. -/
lemma FirstFlaw.ne_trailingTokens (h : FirstFlaw tokens flaw i) : flaw ≠ .trailingTokens := by
  rintro rfl
  cases h with
  | neighbour _ _ hf => exact flawAfter_ne_trailingTokens _ _ hf
  | ending _ hf => exact flawAtEnd_ne_trailingTokens _ hf

/-! ### What is built -/

/-- A lone `)` is left for pairing to report, whatever flaws there are. -/
lemma check_of_loneClose (h : LoneClose tokens j) : check tokens = .ok tokens := by
  rcases hu : unmatchedClose? tokens with _ | k
  · exact absurd h (unmatchedClose?_eq_none_iff.mp hu j)
  · rw [check, hu]
    split <;> rfl

/-- The first lone `)` is reported. -/
lemma build_of_loneClose (h : IsLeast {j | LoneClose tokens j} j) :
    Expr.build limits tokens
      = .error (.unbalanced .unmatchedClose j (Token.startOf tokens j)) := by
  rw [Expr.build, check_of_loneClose h.1]
  simp only [bind, Except.bind, Brackets.ofTokens_of_loneClose h]

/-- Where no `)` is lone, the first flaw is reported. -/
lemma build_of_firstFlaw (hc : ∀ j, ¬ LoneClose tokens j) (h : FirstFlaw tokens flaw i) :
    Expr.build limits tokens = .error (.malformed flaw i (Token.startOf tokens i)) := by
  rw [Expr.build, check, firstFlaw?_eq_some_iff.mpr h, unmatchedClose?_eq_none_iff.mpr hc]
  rfl

lemma check_of_flawless (h : ∀ flaw i, ¬ FirstFlaw tokens flaw i) : check tokens = .ok tokens := by
  rw [check, firstFlaw?_eq_none_iff.mpr h]

/-- Where no `)` is lone and there is no flaw, a lone `(` is reported. -/
lemma build_of_loneOpen (hc : ∀ j, ¬ LoneClose tokens j) (hf : ∀ flaw i, ¬ FirstFlaw tokens flaw i)
    (h : IsLeast {i | LoneOpen tokens i} i) :
    Expr.build limits tokens = .error (.unbalanced .unclosed i (Token.startOf tokens i)) := by
  rw [Expr.build, check_of_flawless hf]
  simp only [bind, Except.bind, Brackets.ofTokens_of_loneOpen hc h]

/-- Tokens without a lone parenthesis and without a flaw are a formula. -/
lemma exists_derives_of_faultless (hc : ∀ j, ¬ LoneClose tokens j)
    (ho : ∀ i, ¬ LoneOpen tokens i) (hf : ∀ flaw i, ¬ FirstFlaw tokens flaw i) :
    ∃ e, Derives (.chain .sum) tokens e := by
  obtain ⟨brackets, hb⟩ := Brackets.exists_ofTokens_iff.mpr (closes_of_forall_not_lone hc ho)
  exact (check_eq_ok_iff hb).mp (check_of_flawless hf)

/-- The first fault that some tokens have, or none. -/
inductive Diagnosis (tokens : List Token) : Prop
  | loneClose {j : ℕ} (h : IsLeast {j | LoneClose tokens j} j)
  | flaw {flaw : Flaw} {i : ℕ} (hc : ∀ j, ¬ LoneClose tokens j) (h : FirstFlaw tokens flaw i)
  | loneOpen {i : ℕ} (hc : ∀ j, ¬ LoneClose tokens j) (hf : ∀ flaw i, ¬ FirstFlaw tokens flaw i)
      (h : IsLeast {i | LoneOpen tokens i} i)
  | faultless (hc : ∀ j, ¬ LoneClose tokens j) (hf : ∀ flaw i, ¬ FirstFlaw tokens flaw i)
      (ho : ∀ i, ¬ LoneOpen tokens i)

/-- All tokens have a diagnosis. -/
lemma diagnosis (tokens : List Token) : Diagnosis tokens := by
  rcases hc : unmatchedClose? tokens with _ | j
  swap
  · exact .loneClose (unmatchedClose?_eq_some_iff.mp hc)
  have hclose := unmatchedClose?_eq_none_iff.mp hc
  rcases hf : firstFlaw? tokens with _ | ⟨flaw, i⟩
  swap
  · exact .flaw hclose (firstFlaw?_eq_some_iff.mp hf)
  have hflawless := firstFlaw?_eq_none_iff.mp hf
  rcases Brackets.ofTokens_of_forall_not_loneClose hclose with hbalanced | ⟨i, hi, -⟩
  · exact .faultless hclose hflawless fun i => hbalanced.not_loneOpen
  · exact .loneOpen hclose hflawless hi

/-- A formula whose tree is too high is refused, at a depth that the tree has. -/
lemma build_of_height_lt {e : Expr} (hd : Derives (.chain .sum) tokens e)
    (hlt : limits.maxDepth < e.height) :
    ∃ depth position, Expr.build limits tokens
        = .error (.limitExceeded .nestingDepth depth limits.maxDepth position)
      ∧ limits.maxDepth < depth ∧ depth ≤ e.height := by
  obtain ⟨brackets, hb⟩ := Brackets.exists_ofTokens_iff.mpr hd.closes
  obtain ⟨depth, position, ho, hdepth⟩ := tooDeep_of_derives hb hd hlt
  refine ⟨depth, position, ?_, hdepth⟩
  rw [Expr.build, hd.check]
  simp only [bind, Except.bind, hb, ho]

/-! ### What is reported -/

/-- The outcome of an analysis is settled by the first fault of the tokens, in the
order of the fields. -/
structure FaultsInOrder (limits : Limits) (tokens : List Token)
    (outcome : Except Fault Analysis) : Prop where
  /-- Too many tokens are reported at the first one beyond the limit. -/
  tokenCount : limits.maxTokens < tokens.length →
    ∃ t, tokens[limits.maxTokens]? = some t ∧ outcome
      = .error (.limitExceeded .tokenCount tokens.length limits.maxTokens t.span.start)
  /-- The first `)` that closes nothing is reported, whatever flaws there are. -/
  unmatchedClose : tokens.length ≤ limits.maxTokens →
    ∀ j, IsLeast {j | LoneClose tokens j} j →
      outcome = .error (.unbalanced .unmatchedClose j (Token.startOf tokens j))
  /-- The first flaw is reported, whether all parentheses are closed or not. -/
  flaw : tokens.length ≤ limits.maxTokens → (∀ j, ¬ LoneClose tokens j) →
    ∀ flaw i, FirstFlaw tokens flaw i →
      outcome = .error (.malformed flaw i (Token.startOf tokens i))
  /-- The first `(` that is never closed is reported. -/
  unclosed : tokens.length ≤ limits.maxTokens → (∀ j, ¬ LoneClose tokens j) →
    (∀ flaw i, ¬ FirstFlaw tokens flaw i) → ∀ i, IsLeast {i | LoneOpen tokens i} i →
      outcome = .error (.unbalanced .unclosed i (Token.startOf tokens i))
  /-- There is a tree; it is the answer, or the depth limit is reported because the
  tree is higher. -/
  tree : tokens.length ≤ limits.maxTokens → (∀ j, ¬ LoneClose tokens j) →
    (∀ flaw i, ¬ FirstFlaw tokens flaw i) → (∀ i, ¬ LoneOpen tokens i) →
      ∃ e, Derives (.chain .sum) tokens e
        ∧ (limits.maxDepth < e.height → ∃ depth position,
            outcome = .error (.limitExceeded .nestingDepth depth limits.maxDepth position)
              ∧ limits.maxDepth < depth ∧ depth ≤ e.height)
        ∧ (e.height ≤ limits.maxDepth → outcome = .ok ⟨e, Token.unknowns tokens⟩)

/-- Tokens are answered with their first fault. -/
lemma faultsInOrder {source : String} (hlex : lex source = .ok tokens) :
    FaultsInOrder limits tokens (analyse limits source).outcome where
  tokenCount := by
    intro hlt
    refine ⟨tokens[limits.maxTokens], List.getElem?_eq_getElem hlt, ?_⟩
    have hstart : Token.startOf tokens limits.maxTokens = tokens[limits.maxTokens].span.start :=
      Token.startOf_eq_start (List.getElem?_eq_getElem hlt)
    rw [outcome_analyse, hlex]
    simp only [bind, Except.bind, checkCount_of_lt hlt, hstart]
  unmatchedClose := by
    intro hcount j hj
    rw [outcome_analyse_of_lex hlex hcount, build_of_loneClose hj]
    rfl
  flaw := by
    intro hcount hc flaw i hi
    rw [outcome_analyse_of_lex hlex hcount, build_of_firstFlaw hc hi]
    rfl
  unclosed := by
    intro hcount hc hf i hi
    rw [outcome_analyse_of_lex hlex hcount, build_of_loneOpen hc hf hi]
    rfl
  tree := by
    intro hcount hc hf ho
    obtain ⟨e, hd⟩ := exists_derives_of_faultless hc ho hf
    rw [outcome_analyse_of_lex hlex hcount]
    refine ⟨e, hd, ?_, ?_⟩
    · intro hlt
      obtain ⟨depth, position, hb, hdepth⟩ := build_of_height_lt hd hlt
      exact ⟨depth, position, by rw [hb]; rfl, hdepth⟩
    · intro hle
      rw [build_of_derives hd hle]
      rfl

/-- A fault of tokens is a limit that is passed, a lone parenthesis or the first
flaw. -/
lemma FaultsInOrder.fault_cases {outcome : Except Fault Analysis} {fault : Fault}
    (h : FaultsInOrder limits tokens outcome) (he : outcome = .error fault) :
    (∃ measure actual max position, fault = .limitExceeded measure actual max position)
      ∨ (∃ imbalance i position, fault = .unbalanced imbalance i position)
      ∨ ∃ flaw i position, FirstFlaw tokens flaw i ∧ fault = .malformed flaw i position := by
  rcases Nat.lt_or_ge limits.maxTokens tokens.length with hlt | hle
  · obtain ⟨t, -, ho⟩ := h.tokenCount hlt
    exact Or.inl ⟨_, _, _, _, Except.error.inj (he.symm.trans ho)⟩
  cases diagnosis tokens with
  | loneClose hj =>
      have ho := h.unmatchedClose hle _ hj
      exact Or.inr (Or.inl ⟨_, _, _, Except.error.inj (he.symm.trans ho)⟩)
  | flaw hc hflaw =>
      have ho := h.flaw hle hc _ _ hflaw
      exact Or.inr (Or.inr ⟨_, _, _, hflaw, Except.error.inj (he.symm.trans ho)⟩)
  | loneOpen hc hf hi =>
      have ho := h.unclosed hle hc hf _ hi
      exact Or.inr (Or.inl ⟨_, _, _, Except.error.inj (he.symm.trans ho)⟩)
  | faultless hc hf ho =>
      obtain ⟨e, -, hdeep, hok⟩ := h.tree hle hc hf ho
      rcases Nat.lt_or_ge limits.maxDepth e.height with hlt | hheight
      · obtain ⟨depth, position, ho, -⟩ := hdeep hlt
        exact Or.inl ⟨_, _, _, _, Except.error.inj (he.symm.trans ho)⟩
      · have ho := hok hheight
        rw [he] at ho
        cases ho

/-- What cannot be cut into tokens has a character that begins none. -/
lemma exists_of_scan_error {offset : ℕ} {text : List Char} {fault : Fault}
    (h : Token.scan offset text = .error fault) :
    ∃ c position, fault = .unexpectedCharacter c position := by
  obtain ⟨front, c, rest, ts, -, -, -, hfault⟩ := Token.exists_misfit_of_scan h
  exact ⟨c, offset + front.length, hfault⟩

/-- **Faults are reported in order**: a character that begins no token comes first,
then too many tokens, then a `)` that closes nothing, then the first flaw of the
neighbours or of the end, then a `(` that is never closed, then a tree above the depth
limit, and a source without all of these has its tree as the answer. Left-over tokens,
a wrong number of values and a missing value are never reported. -/
theorem faults_reported_in_order (limits : Limits) (source : String) :
    (∀ fault, lex source = .error fault →
        (∃ c position, fault = .unexpectedCharacter c position)
          ∧ (analyse limits source).outcome = .error fault)
      ∧ (∀ tokens, lex source = .ok tokens →
        FaultsInOrder limits tokens (analyse limits source).outcome)
      ∧ ∀ fault, (analyse limits source).outcome = .error fault →
        (∀ token position, fault ≠ .malformed .trailingTokens token position)
          ∧ (∀ expected got, fault ≠ .arity expected got)
          ∧ ∀ name, fault ≠ .missingVariable name := by
  have hlexical : ∀ fault, lex source = .error fault →
      (∃ c position, fault = .unexpectedCharacter c position)
        ∧ (analyse limits source).outcome = .error fault := by
    intro fault hlex
    refine ⟨exists_of_scan_error hlex, ?_⟩
    rw [outcome_analyse, hlex]
    rfl
  refine ⟨hlexical, fun tokens hlex => faultsInOrder hlex, ?_⟩
  intro fault he
  rcases hlex : lex source with fault' | tokens
  · obtain ⟨⟨c, position, rfl⟩, ho⟩ := hlexical fault' hlex
    obtain rfl := Except.error.inj (he.symm.trans ho)
    simp
  · rcases (faultsInOrder hlex).fault_cases he with ⟨_, _, _, _, rfl⟩ | ⟨_, _, _, rfl⟩
      | ⟨flaw, i, _, hflaw, rfl⟩
    · simp
    · simp
    · simp [hflaw.ne_trailingTokens]

/-- The `)` at the end outranks the missing operand at the start. -/
example : (analyse {} "*x)").outcome = .error (.unbalanced .unmatchedClose 2 2) := by cbv

end Formula
