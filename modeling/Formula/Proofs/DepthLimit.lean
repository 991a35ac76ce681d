import Formula.Proofs.Recognition

/-!
What the depth limit admits.

A tree that is too high is noticed early, at a parenthesis, a sign or an exponent
that lies too deep and at a chain that has grown too long, or at the latest when it
is finished. The early refusals only anticipate the last one.

* `height_le_of_ofTokens`: no tree above the limit is answered.
* `ofTokens_eq_ok_iff`: what is answered are the trees of formulas below the limit.
* `ofTokens_mono`: raising the limit changes no tree.
* `depth_limit_exact`: a formula is answered or refused by the height of its tree
  alone.
-/

namespace Formula

open Formula.Parser

variable {tokens : List Token} {brackets : Brackets} {limits : Limits} {e : Expr}

/-- No tree above the limit is answered, whatever the pairing. -/
lemma height_le_of_ofTokens (h : Expr.ofTokens tokens brackets limits = .ok e) :
    e.height ≤ limits.maxDepth := by
  rcases hr : readAll ⟨tokens, brackets, limits.maxDepth⟩ ⟨0, tokens, 0⟩ with fault | ⟨e', next⟩
  · rw [ofTokens_of_readAll_error hr] at h
    cases h
  · rw [ofTokens_of_readAll_ok hr] at h
    split at h
    · cases h
    · next hle =>
      obtain rfl := Except.ok.inj h
      exact Nat.le_of_not_lt hle

/-- The trees that are answered are those of formulas below the limit. -/
lemma ofTokens_eq_ok_iff (hb : Brackets.ofTokens tokens = .ok brackets) :
    Expr.ofTokens tokens brackets limits = .ok e
      ↔ Derives (.chain .sum) tokens e ∧ e.height ≤ limits.maxDepth := by
  refine ⟨?_, ?_⟩
  · intro h
    exact ⟨derives_of_ofTokens hb h, height_le_of_ofTokens h⟩
  · rintro ⟨hd, hle⟩
    exact ofTokens_of_derives hb hd hle

/-- Raising the limit changes no tree. -/
lemma ofTokens_mono {limits' : Limits} (hb : Brackets.ofTokens tokens = .ok brackets)
    (hle : limits.maxDepth ≤ limits'.maxDepth)
    (h : Expr.ofTokens tokens brackets limits = .ok e) :
    Expr.ofTokens tokens brackets limits' = .ok e := by
  obtain ⟨hd, hheight⟩ := (ofTokens_eq_ok_iff hb).mp h
  exact (ofTokens_eq_ok_iff hb).mpr ⟨hd, hheight.trans hle⟩

/-- **The depth limit is exact**: tokens that pass the check have one tree, the one
that a limit no lower than their number answers. Every limit answers just this tree
if it is no lower than the tree is high, and otherwise it is reported with a depth
above it that the tree has. Raising a limit never changes what it answered. -/
theorem depth_limit_exact (hc : ∃ checked, check tokens = .ok checked)
    (hb : Brackets.ofTokens tokens = .ok brackets) :
    ∃ e, (∀ limits : Limits, tokens.length ≤ limits.maxDepth →
          Expr.ofTokens tokens brackets limits = .ok e)
      ∧ (∀ limits : Limits,
          (e.height ≤ limits.maxDepth → Expr.ofTokens tokens brackets limits = .ok e)
            ∧ (limits.maxDepth < e.height → ∃ depth position,
              Expr.ofTokens tokens brackets limits
                  = .error (.limitExceeded .nestingDepth depth limits.maxDepth position)
                ∧ limits.maxDepth < depth ∧ depth ≤ e.height))
      ∧ ∀ (limits limits' : Limits) (e' : Expr), limits.maxDepth ≤ limits'.maxDepth →
          Expr.ofTokens tokens brackets limits = .ok e' →
          Expr.ofTokens tokens brackets limits' = .ok e' := by
  obtain ⟨checked, hc⟩ := hc
  obtain rfl := eq_of_check hc
  obtain ⟨e, hd⟩ := (check_eq_ok_iff hb).mp hc
  refine ⟨e, ?_, ?_, ?_⟩
  · intro limits hlen
    have hle : e.height ≤ limits.maxDepth := le_of_lt (hd.height_lt.trans_le hlen)
    exact ofTokens_of_derives hb hd hle
  · intro limits
    exact ⟨ofTokens_of_derives hb hd, tooDeep_of_derives hb hd⟩
  · intro limits limits' e' hle h
    exact ofTokens_mono hb hle h

/-- The tokens of `x + (y)`, whose tree has the height two: the limit two answers it,
and the limit one is exceeded by exactly one. -/
theorem depth_limit_of_sum :
    let tokens : List Token := [⟨.name "x", ⟨0, 1⟩⟩, ⟨.operator .add, ⟨2, 3⟩⟩,
      ⟨.lparen, ⟨4, 5⟩⟩, ⟨.name "y", ⟨5, 6⟩⟩, ⟨.rparen, ⟨6, 7⟩⟩]
    let e : Expr := .binary .add (.unknown "x" ⟨0, 1⟩) (.block (.unknown "y" ⟨5, 6⟩) ⟨4, 7⟩) ⟨0, 7⟩
    check tokens = .ok tokens ∧ Brackets.ofTokens tokens = .ok ⟨[⟨2, 5, 1⟩]⟩
      ∧ Expr.ofTokens tokens ⟨[⟨2, 5, 1⟩]⟩ ⟨2, 5⟩ = .ok e
      ∧ ∃ position, Expr.ofTokens tokens ⟨[⟨2, 5, 1⟩]⟩ ⟨1, 5⟩
        = .error (.limitExceeded .nestingDepth 2 1 position) := by
  intro tokens e
  have hc : check tokens = .ok tokens := rfl
  have hb : Brackets.ofTokens tokens = .ok ⟨[⟨2, 5, 1⟩]⟩ := by cbv
  obtain ⟨e', htree, hlimit, -⟩ := depth_limit_exact ⟨tokens, hc⟩ hb
  have hlarge : Expr.ofTokens tokens ⟨[⟨2, 5, 1⟩]⟩ ⟨5, 5⟩ = .ok e := by cbv
  obtain rfl : e' = e := Except.ok.inj ((htree ⟨5, 5⟩ le_rfl).symm.trans hlarge)
  obtain ⟨depth, position, hr, hlt, hle⟩ := (hlimit ⟨1, 5⟩).2 (by decide)
  obtain rfl : depth = 2 := le_antisymm hle hlt
  exact ⟨hc, hb, (hlimit ⟨2, 5⟩).1 le_rfl, position, hr⟩

end Formula
