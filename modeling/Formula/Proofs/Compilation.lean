import Formula.Analysis
import Formula.Proofs.Lowering
import Formula.Proofs.Recognition

/-!
Compiling a source and evaluating it once.

* `outcome_analyse`, `outcome_compile`: the outcomes, without what is recorded.
* `derives_of_analyse`: a source is analysed as a formula made of its tokens.
* `mem_unknowns_of_analyse`: each name in the tree is an unknown, although the
  unknowns are collected before there is a tree.
* `compile_agrees_with_evaluateOnce`: a compiled source gives what evaluating it once
  gives, and compiling fails only where the analysis does.
-/

namespace Formula

/-! ### Outcomes without records -/

namespace Logged

variable {α β : Type}

lemma outcome_bind (x : Logged α) (f : α → Logged β) :
    (x >>= f).outcome = x.outcome >>= fun a => (f a).outcome := by
  show (bind x f).outcome = _
  rw [bind]
  cases x.outcome <;> rfl

lemma outcome_record (events : List Event) : (record events).outcome = .ok () := rfl

lemma outcome_pure (a : α) : (pure a : Logged α).outcome = .ok a := rfl

lemma outcome_lift (x : Except Fault α) : (liftM x : Logged α).outcome = x := rfl

end Logged

/-- The analysis cuts a source into tokens, counts them and builds their tree. -/
lemma outcome_analyse (limits : Limits) (source : String) :
    (analyse limits source).outcome = (do
      let tokens ← lex source
      checkCount limits tokens
      let expr ← Expr.build limits tokens
      return ⟨expr, Token.unknowns tokens⟩) := by
  simp only [analyse, Logged.outcome_bind, Logged.outcome_record, Logged.outcome_pure,
    Logged.outcome_lift, Expr.build, bind_assoc]
  rfl

/-- Compiling goes on with the outcome of the analysis. -/
lemma outcome_compile (limits : Limits) (source : String) :
    (compile limits source).outcome = (do
      let analysis ← (analyse limits source).outcome
      Compiled.ofExpr analysis.expr analysis.unknowns) := by
  simp only [compile, Logged.outcome_bind, Logged.outcome_record, Logged.outcome_pure,
    Logged.outcome_lift]
  congr 1
  funext analysis
  cases Compiled.ofExpr analysis.expr analysis.unknowns <;> rfl

variable {limits : Limits} {source : String} {a : Analysis} {fault : Fault}

/-! ### What an analysis knows -/

/-- A source is analysed as a formula made of its tokens. -/
lemma derives_of_analyse (h : (analyse limits source).outcome = .ok a) :
    ∃ tokens, lex source = .ok tokens ∧ Derives (.chain .sum) tokens a.expr
      ∧ a.unknowns = Token.unknowns tokens := by
  rw [outcome_analyse] at h
  obtain ⟨tokens, hlex, h⟩ := bind_eq_ok_iff.mp h
  obtain ⟨-, -, h⟩ := bind_eq_ok_iff.mp h
  obtain ⟨e, hbuild, h⟩ := bind_eq_ok_iff.mp h
  obtain rfl := Except.ok.inj h
  exact ⟨tokens, hlex, derives_of_build hbuild, rfl⟩

/-- Each name in the tree is an unknown. -/
lemma mem_unknowns_of_analyse (h : (analyse limits source).outcome = .ok a) :
    ∀ name ∈ a.expr.names, name ∈ a.unknowns := by
  obtain ⟨tokens, -, hd, hu⟩ := derives_of_analyse h
  intro name hname
  rw [hd.names] at hname
  rw [hu, Token.unknowns, List.mem_eraseDups]
  exact hname

/-! ### Compiling after the analysis -/

/-- What is analysed is compiled, with a program of its tree. -/
lemma compile_of_analyse (h : (analyse limits source).outcome = .ok a) :
    ∃ p, Program.ofExpr a.unknowns a.expr = .ok p
      ∧ (compile limits source).outcome = .ok ⟨a.expr, a.unknowns, p⟩ := by
  obtain ⟨p, hp⟩ := Program.exists_ofExpr_iff.mpr (mem_unknowns_of_analyse h)
  refine ⟨p, hp, ?_⟩
  rw [outcome_compile, h]
  show Compiled.ofExpr a.expr a.unknowns = _
  exact bind_eq_ok_iff.mpr ⟨p, hp, rfl⟩

lemma compile_of_analyse_error (h : (analyse limits source).outcome = .error fault) :
    (compile limits source).outcome = .error fault := by
  rw [outcome_compile, h]
  rfl

/-- **Compiling agrees with evaluating once**: under all bindings a compiled source
gives the value, or the fault, that evaluating the source once gives, and compiling
fails exactly where the analysis does, with the same fault. -/
theorem compile_agrees_with_evaluateOnce (limits : Limits) (source : String) :
    (∀ b : Bindings, ((compile limits source).outcome >>= fun c => c.evaluate b)
        = evaluateOnce limits source b)
      ∧ ∀ fault, (compile limits source).outcome = .error fault
          ↔ (analyse limits source).outcome = .error fault := by
  refine ⟨?_, ?_⟩
  · intro b
    rcases ha : (analyse limits source).outcome with fault | a
    · rw [evaluateOnce, compile_of_analyse_error ha, ha]
      rfl
    · obtain ⟨p, hp, hc⟩ := compile_of_analyse ha
      rw [evaluateOnce, hc, ha]
      exact Compiled.evaluate_eq hp b
  · intro fault
    refine ⟨?_, ?_⟩
    · intro h
      rcases ha : (analyse limits source).outcome with fault' | a
      · rw [compile_of_analyse_error ha] at h
        obtain rfl := Except.error.inj h
        rfl
      · obtain ⟨p, -, hc⟩ := compile_of_analyse ha
        rw [hc] at h
        cases h
    · intro h
      exact compile_of_analyse_error h

end Formula
