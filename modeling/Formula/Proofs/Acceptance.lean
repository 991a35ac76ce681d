import Formula.Proofs.Compilation
import Formula.Proofs.DepthLimit
import Formula.Proofs.Lexing

/-!
Which sources are analysed.

* `outcome_analyse_of_lex`: a source with no more tokens than the limit is judged by
  its tokens alone.
* `build_ok_iff_derives`: the trees that are built are those of formulas below the
  depth limit.
* `unknowns_eq`: the unknowns are the names in the tree.
* `outcome_analyse_ok_iff`: a source is analysed exactly if its tokens are few enough
  and a formula that is low enough. Later statements on analyses rest on this one.
* `outcome_compile_evaluate`: compiling what is analysed and evaluating it is
  evaluating the source once.
-/

namespace Formula

variable {limits : Limits} {source : String} {tokens : List Token} {e : Expr} {a : Analysis}

lemma checkCount_of_le (h : tokens.length ≤ limits.maxTokens) :
    checkCount limits tokens = .ok () := by
  rw [checkCount, if_neg (Nat.not_lt_of_le h)]

lemma checkCount_of_lt (h : limits.maxTokens < tokens.length) :
    checkCount limits tokens = .error (.limitExceeded .tokenCount tokens.length limits.maxTokens
      (Token.startOf tokens limits.maxTokens)) := by
  rw [checkCount, if_pos h]

/-- A source with few enough tokens is judged by its tokens alone. -/
lemma outcome_analyse_of_lex (hlex : lex source = .ok tokens)
    (hcount : tokens.length ≤ limits.maxTokens) :
    (analyse limits source).outcome
      = (Expr.build limits tokens).map fun e => ⟨e, Token.unknowns tokens⟩ := by
  rw [outcome_analyse, hlex]
  simp only [bind, Except.bind, checkCount_of_le hcount]
  cases Expr.build limits tokens <;> rfl

/-- The trees that are built are those of formulas below the depth limit. -/
lemma build_ok_iff_derives :
    Expr.build limits tokens = .ok e
      ↔ Derives (.chain .sum) tokens e ∧ e.height ≤ limits.maxDepth := by
  refine ⟨?_, ?_⟩
  · intro h
    refine ⟨derives_of_build h, ?_⟩
    obtain ⟨checked, -, h⟩ := bind_eq_ok_iff.mp h
    obtain ⟨brackets, -, h⟩ := bind_eq_ok_iff.mp h
    exact height_le_of_ofTokens h
  · rintro ⟨hd, hle⟩
    exact build_of_derives hd hle

/-- The unknowns are the names in the tree, each where it first appears. -/
lemma unknowns_eq (hd : Derives (.chain .sum) tokens e) :
    Token.unknowns tokens = e.names.eraseDups := by
  rw [Token.unknowns, hd.names]

/-- A source is analysed exactly if its tokens are few enough and a formula that is
low enough. -/
theorem outcome_analyse_ok_iff :
    (analyse limits source).outcome = .ok a
      ↔ ∃ tokens, Token.Lexes 0 source.toList tokens ∧ tokens.length ≤ limits.maxTokens
        ∧ Derives (.chain .sum) tokens a.expr ∧ a.expr.height ≤ limits.maxDepth
        ∧ a.unknowns = a.expr.names.eraseDups := by
  refine ⟨?_, ?_⟩
  · intro h
    obtain ⟨tokens, hlex, -, -⟩ := derives_of_analyse h
    rcases Nat.lt_or_ge limits.maxTokens tokens.length with hlt | hle
    · rw [outcome_analyse, hlex] at h
      simp [bind, Except.bind, checkCount_of_lt hlt] at h
    · rw [outcome_analyse_of_lex hlex hle] at h
      rcases hb : Expr.build limits tokens with _ | e
      · rw [hb] at h
        cases h
      · rw [hb] at h
        obtain rfl := Except.ok.inj h
        obtain ⟨hd, hheight⟩ := build_ok_iff_derives.mp hb
        exact ⟨tokens, lex_eq_ok_iff.mp hlex, hle, hd, hheight, unknowns_eq hd⟩
  · rintro ⟨tokens, hlex, hle, hd, hheight, hu⟩
    rw [outcome_analyse_of_lex (lex_eq_ok_iff.mpr hlex) hle,
      build_ok_iff_derives.mpr ⟨hd, hheight⟩, Except.map, unknowns_eq hd, ← hu]

/-- Compiling what is analysed and evaluating the result is evaluating its tree. -/
lemma outcome_compile_evaluate (h : (analyse limits source).outcome = .ok a) (b : Bindings) :
    ((compile limits source).outcome >>= fun c => c.evaluate b) = a.expr.evaluate a.unknowns b := by
  obtain ⟨p, hp, hc⟩ := compile_of_analyse h
  rw [hc]
  exact Compiled.evaluate_eq hp b

lemma evaluateOnce_of_analyse (h : (analyse limits source).outcome = .ok a) (b : Bindings) :
    evaluateOnce limits source b = a.expr.evaluate a.unknowns b := by
  rw [evaluateOnce, h]
  rfl

end Formula
