import Formula.Proofs.Completeness
import Formula.Proofs.Deepest
import Formula.Proofs.Soundness

/-!
Which tokens have a tree, and where the others go wrong.

* `derives_of_ofTokens`, `ofTokens_of_derives`: what is read is derived, and what is
  derived is read if it is low enough; otherwise the limit is reported
  (`tooDeep_of_derives`).
* `exists_derives_or_stuckAt`: tokens that can be paired are a formula, or they are
  stuck.
* `Expr.build`: the tokens are checked, paired and read.
* `build_eq_ok_iff`: exactly the trees of formulas are built, at most one for some
  tokens.
* `check_agrees_with_reading`: the check and the reading agree on what is well
  formed and on the place of a fault.
-/

namespace Formula

open Formula.Parser

variable {tokens : List Token} {brackets : Brackets} {limits : Limits} {e : Expr}

/-- A tree that has been read is held against the limit. -/
lemma ofTokens_of_readAll_ok {next : Cursor}
    (h : readAll ⟨tokens, brackets, limits.maxDepth⟩ ⟨0, tokens, 0⟩ = .ok (e, next)) :
    Expr.ofTokens tokens brackets limits
      = if limits.maxDepth < e.height then
          .error (.limitExceeded .nestingDepth e.height limits.maxDepth e.deepLeaf.span.start)
        else .ok e := by
  rw [readAll] at h
  rw [Expr.ofTokens]
  rcases hc : complete ⟨tokens, brackets, limits.maxDepth⟩ ⟨0, tokens, 0⟩ with _ | root
  · rw [hc] at h
    cases h
  · rw [hc] at h
    obtain ⟨rfl, -⟩ := Prod.mk.inj (Except.ok.inj h)
    by_cases hlt : limits.maxDepth < root.expr.height
    · simp [hlt, Expr.deepest_eq, bind, Except.bind, throw, throwThe, MonadExceptOf.throw]
    · simp [hlt, Expr.deepest_eq, bind, Except.bind, pure, Except.pure]

lemma ofTokens_of_readAll_error {fault : Fault}
    (h : readAll ⟨tokens, brackets, limits.maxDepth⟩ ⟨0, tokens, 0⟩ = .error fault) :
    Expr.ofTokens tokens brackets limits = .error fault := by
  rw [readAll] at h
  rw [Expr.ofTokens]
  rcases hc : complete ⟨tokens, brackets, limits.maxDepth⟩ ⟨0, tokens, 0⟩ with fault' | root
  · rw [hc] at h
    obtain rfl : fault' = fault := Except.error.inj h
    rfl
  · rw [hc] at h
    cases h

/-- Where pairing succeeds reading may begin. -/
lemma ready_of_ofTokens (hb : Brackets.ofTokens tokens = .ok brackets) (maxDepth : ℕ) :
    Ready ⟨tokens, brackets, maxDepth⟩ none ⟨0, tokens, 0⟩ where
  closes := Brackets.exists_ofTokens_iff.mp ⟨brackets, hb⟩
  pairs := Brackets.pairs_of_ofTokens hb
  due := rfl

/-- What reading all tokens answers: a tree of them, or a refusal. -/
lemma readAll_cases (hb : Brackets.ofTokens tokens = .ok brackets) (maxDepth : ℕ) :
    (∃ e next, readAll ⟨tokens, brackets, maxDepth⟩ ⟨0, tokens, 0⟩ = .ok (e, next)
        ∧ Derives (.chain .sum) tokens e)
      ∨ ∃ fault, readAll ⟨tokens, brackets, maxDepth⟩ ⟨0, tokens, 0⟩ = .error fault
        ∧ Refused ⟨tokens, brackets, maxDepth⟩ none tokens.length ⟨0, tokens, 0⟩ fault := by
  have hx := explains_readAll (ready_of_ofTokens hb maxDepth)
  rcases hr : readAll ⟨tokens, brackets, maxDepth⟩ ⟨0, tokens, 0⟩ with fault | ⟨e, next⟩
  · rw [hr, Nat.zero_add] at hx
    exact Or.inr ⟨fault, rfl, hx⟩
  · rw [hr] at hx
    obtain ⟨ts, rest, -, -, ⟨rfl, hd⟩, -⟩ := hx
    exact Or.inl ⟨e, next, rfl, hd⟩

/-- What is read is derived. -/
lemma derives_of_ofTokens (hb : Brackets.ofTokens tokens = .ok brackets)
    (h : Expr.ofTokens tokens brackets limits = .ok e) : Derives (.chain .sum) tokens e := by
  rcases readAll_cases hb limits.maxDepth with ⟨e', next, hr, hd⟩ | ⟨fault, hr, -⟩
  · rw [ofTokens_of_readAll_ok hr] at h
    split at h
    · cases h
    · obtain rfl := Except.ok.inj h
      exact hd
  · rw [ofTokens_of_readAll_error hr] at h
    cases h

/-- Reading a formula answers its tree, or it is stopped at a depth of the tree. -/
lemma reaches_readAll (hb : Brackets.ofTokens tokens = .ok brackets) (maxDepth : ℕ)
    (hd : Derives (.chain .sum) tokens e) :
    Reaches ⟨tokens, brackets, maxDepth⟩ e.height tokens.length
      (readAll ⟨tokens, brackets, maxDepth⟩ ⟨0, tokens, 0⟩) (.ok (e, ⟨tokens.length, [], 0⟩)) := by
  simpa using (readsAs_of_derives hd).all 0 0 (ready_of_ofTokens hb maxDepth).pairs

/-- A formula is read if its tree is low enough. -/
lemma ofTokens_of_derives (hb : Brackets.ofTokens tokens = .ok brackets)
    (hd : Derives (.chain .sum) tokens e) (hle : e.height ≤ limits.maxDepth) :
    Expr.ofTokens tokens brackets limits = .ok e := by
  rcases reaches_readAll hb limits.maxDepth hd with hr | ⟨_, -, depth, _, -, hlt, hd', -⟩
  · rw [ofTokens_of_readAll_ok hr, if_neg (Nat.not_lt_of_le hle)]
  · exact absurd (hlt.trans_le hd') (Nat.not_lt_of_le hle)

/-- A formula whose tree is too high is refused, at a depth that the tree has. -/
lemma tooDeep_of_derives (hb : Brackets.ofTokens tokens = .ok brackets)
    (hd : Derives (.chain .sum) tokens e) (hlt : limits.maxDepth < e.height) :
    ∃ depth position, Expr.ofTokens tokens brackets limits
        = .error (.limitExceeded .nestingDepth depth limits.maxDepth position)
      ∧ limits.maxDepth < depth ∧ depth ≤ e.height := by
  rcases reaches_readAll hb limits.maxDepth hd with hr | ⟨_, hr, depth, _, rfl, hdepth, hle, -⟩
  · exact ⟨e.height, _, by rw [ofTokens_of_readAll_ok hr, if_pos hlt], hlt, le_rfl⟩
  · exact ⟨depth, _, ofTokens_of_readAll_error hr, hdepth, hle⟩

/-- A limit that is no lower than the number of tokens stops nothing: the tokens are
stuck where they are refused. -/
lemma Parser.Refused.stuckAt {s : Scope} {fault : Fault} (hs : tokens.length ≤ s.maxDepth)
    (h : Refused s none tokens.length ⟨0, tokens, 0⟩ fault) :
    ∃ flaw n, StuckAt none tokens n ∧ fault = s.flawAt flaw n := by
  rcases h with ⟨depth, _, -, hlt, hle, -⟩ | ⟨flaw, n, hn, rfl⟩
  · exact absurd (hlt.trans_le hle) (Nat.not_lt_of_le hs)
  · exact ⟨flaw, n, hn, by rw [Nat.zero_add]⟩

/-- Tokens that can be paired are a formula, or they are stuck. -/
lemma exists_derives_or_stuckAt (hb : Brackets.ofTokens tokens = .ok brackets) :
    (∃ e, Derives (.chain .sum) tokens e) ∨ ∃ n, StuckAt none tokens n := by
  rcases readAll_cases hb tokens.length with ⟨e, _, -, hd⟩ | ⟨fault, -, hrefused⟩
  · exact Or.inl ⟨e, hd⟩
  · obtain ⟨_, n, hn, -⟩ := hrefused.stuckAt le_rfl
    exact Or.inr ⟨n, hn⟩

/-- A formula passes the check. -/
lemma Derives.check (hd : Derives (.chain .sum) tokens e) : check tokens = .ok tokens := by
  have hnone : (none : Option Token.Kind).any Token.Kind.endsOperand = false := rfl
  obtain ⟨hp, he⟩ := hd.passes hnone
  exact hp.check he

/-- Tokens that can be paired pass the check exactly if they are a formula. -/
lemma check_eq_ok_iff (hb : Brackets.ofTokens tokens = .ok brackets) :
    check tokens = .ok tokens ↔ ∃ e, Derives (.chain .sum) tokens e := by
  refine ⟨?_, ?_⟩
  · intro hc
    rcases exists_derives_or_stuckAt hb with hd | ⟨n, hn⟩
    · exact hd
    · have hclose := Brackets.exists_ofTokens_iff.mp ⟨brackets, hb⟩
      obtain ⟨flaw, index, he, -⟩ := hn.check hclose
      rw [he] at hc
      cases hc
  · rintro ⟨e, hd⟩
    exact hd.check

/-! ### From tokens to their tree -/

/-- The tree of some tokens, which are checked and paired before they are read. -/
def Expr.build (limits : Limits) (tokens : List Token) : Except Fault Expr := do
  let checked ← check tokens
  let brackets ← Brackets.ofTokens checked
  Expr.ofTokens checked brackets limits

/-- What is built is derived. -/
lemma derives_of_build (h : Expr.build limits tokens = .ok e) :
    Derives (.chain .sum) tokens e := by
  rw [Expr.build] at h
  rcases hc : check tokens with _ | checked
  · rw [hc] at h
    cases h
  · obtain rfl := eq_of_check hc
    rcases hb : Brackets.ofTokens checked with _ | brackets
    · rw [hc] at h
      simp [bind, Except.bind, hb] at h
    · rw [hc] at h
      simp only [bind, Except.bind, hb] at h
      exact derives_of_ofTokens hb h

/-- A formula whose tree is low enough is built. -/
lemma build_of_derives (hd : Derives (.chain .sum) tokens e) (hle : e.height ≤ limits.maxDepth) :
    Expr.build limits tokens = .ok e := by
  obtain ⟨brackets, hb⟩ := Brackets.exists_ofTokens_iff.mpr hd.closes
  rw [Expr.build, hd.check]
  simp only [bind, Except.bind, hb]
  exact ofTokens_of_derives hb hd hle

/-- A formula has one tree: a limit that is high enough for two of them answers
both. -/
lemma Derives.unique {e' : Expr} (hd : Derives (.chain .sum) tokens e)
    (hd' : Derives (.chain .sum) tokens e') : e = e' := by
  have hbuild : (.ok e : Except Fault Expr) = .ok e' :=
    calc .ok e = Expr.build ⟨max e.height e'.height, 0⟩ tokens :=
          (build_of_derives hd (le_max_left ..)).symm
      _ = .ok e' := build_of_derives hd' (le_max_right ..)
  exact Except.ok.inj hbuild

/-- **The grammar is recognised**: with a limit no lower than the number of tokens
exactly the trees of formulas are built, and no formula has two trees. -/
theorem build_eq_ok_iff (tokens : List Token) :
    (∀ limits : Limits, tokens.length ≤ limits.maxDepth → ∀ e,
        Expr.build limits tokens = .ok e ↔ Derives (.chain .sum) tokens e)
      ∧ ∀ e e', Derives (.chain .sum) tokens e → Derives (.chain .sum) tokens e' → e = e' := by
  refine ⟨?_, ?_⟩
  · intro limits hlen e
    refine ⟨derives_of_build, ?_⟩
    intro hd
    have hle : e.height ≤ limits.maxDepth := le_of_lt (hd.height_lt.trans_le hlen)
    exact build_of_derives hd hle
  · intro e e' hd hd'
    exact hd.unique hd'

/-- The tree of `-x ^ (y) + 2 * z - x`: the sign belongs to the base of the power, the product
binds tighter than the sum, and the difference is that of the sum and `x`. -/
theorem build_sum_of_power_and_product :
    let tokens : List Token := [⟨.operator .sub, ⟨0, 1⟩⟩, ⟨.name "x", ⟨1, 2⟩⟩,
      ⟨.operator .pow, ⟨3, 4⟩⟩, ⟨.lparen, ⟨5, 6⟩⟩, ⟨.name "y", ⟨6, 7⟩⟩, ⟨.rparen, ⟨7, 8⟩⟩,
      ⟨.operator .add, ⟨9, 10⟩⟩, ⟨.number 2, ⟨11, 12⟩⟩, ⟨.operator .mul, ⟨13, 14⟩⟩,
      ⟨.name "z", ⟨15, 16⟩⟩, ⟨.operator .sub, ⟨17, 18⟩⟩, ⟨.name "x", ⟨19, 20⟩⟩]
    tokens.length ≤ 12 ∧ Expr.build ⟨12, 12⟩ tokens
      = .ok (.binary .sub
          (.binary .add
            (.binary .pow (.signed .minus (.unknown "x" ⟨1, 2⟩) ⟨0, 2⟩)
              (.block (.unknown "y" ⟨6, 7⟩) ⟨5, 8⟩) ⟨0, 8⟩)
            (.binary .mul (.literal 2 ⟨11, 12⟩) (.unknown "z" ⟨15, 16⟩) ⟨11, 16⟩) ⟨0, 16⟩)
          (.unknown "x" ⟨19, 20⟩) ⟨0, 20⟩) := by
  intro tokens
  refine ⟨by decide, ((build_eq_ok_iff tokens).1 ⟨12, 12⟩ (by decide) _).mpr ?_⟩
  have hbase : Derives .signed [⟨.operator .sub, ⟨0, 1⟩⟩, ⟨.name "x", ⟨1, 2⟩⟩]
      (.signed .minus (.unknown "x" ⟨1, 2⟩) ⟨0, 2⟩) := Derives.name.unsigned.minus
  have hexponent : Derives .power [⟨.lparen, ⟨5, 6⟩⟩, ⟨.name "y", ⟨6, 7⟩⟩, ⟨.rparen, ⟨7, 8⟩⟩]
      (.block (.unknown "y" ⟨6, 7⟩) ⟨5, 8⟩) :=
    Derives.name.unsigned.base.formula.group.unsigned.base
  have hfactor : Derives (.chain .product) [⟨.number 2, ⟨11, 12⟩⟩] (.literal 2 ⟨11, 12⟩) :=
    .first Derives.number.unsigned.base
  have hproduct : Derives (.chain .product)
      [⟨.number 2, ⟨11, 12⟩⟩, ⟨.operator .mul, ⟨13, 14⟩⟩, ⟨.name "z", ⟨15, 16⟩⟩]
      (.binary .mul (.literal 2 ⟨11, 12⟩) (.unknown "z" ⟨15, 16⟩) ⟨11, 16⟩) :=
    hfactor.product (Or.inl rfl) Derives.name.unsigned.base
  have hlast : Derives (.chain .product) [⟨.name "x", ⟨19, 20⟩⟩] (.unknown "x" ⟨19, 20⟩) :=
    .first Derives.name.unsigned.base
  have hpower : Derives (.chain .sum) (tokens.take 6)
      (.binary .pow (.signed .minus (.unknown "x" ⟨1, 2⟩) ⟨0, 2⟩)
        (.block (.unknown "y" ⟨6, 7⟩) ⟨5, 8⟩) ⟨0, 8⟩) := (hbase.raise hexponent).formula
  have hsum : Derives (.chain .sum) (tokens.take 10)
      (.binary .add (.binary .pow (.signed .minus (.unknown "x" ⟨1, 2⟩) ⟨0, 2⟩)
        (.block (.unknown "y" ⟨6, 7⟩) ⟨5, 8⟩) ⟨0, 8⟩)
        (.binary .mul (.literal 2 ⟨11, 12⟩) (.unknown "z" ⟨15, 16⟩) ⟨11, 16⟩) ⟨0, 16⟩) :=
    hpower.sum (Or.inl rfl) hproduct
  exact hsum.sum (Or.inr rfl) hlast

/-- **The check and the reading agree**: tokens that can be paired and pass the check
are read, unless the depth limit stops it. With a limit no lower than the number of
tokens the check and the reading accept the same tokens, and where both fail they
name the same token, except for an operator at the end, which the check names while
the reading names the end. -/
theorem check_agrees_with_reading (hb : Brackets.ofTokens tokens = .ok brackets) :
    (∀ limits : Limits, (∃ checked, check tokens = .ok checked) →
        (∃ e, Expr.ofTokens tokens brackets limits = .ok e)
          ∨ ∃ depth position, Expr.ofTokens tokens brackets limits
            = .error (.limitExceeded .nestingDepth depth limits.maxDepth position))
      ∧ ∀ limits : Limits, tokens.length ≤ limits.maxDepth →
        ((∃ checked, check tokens = .ok checked)
            ↔ ∃ e, Expr.ofTokens tokens brackets limits = .ok e)
          ∧ ∀ fault fault', check tokens = .error fault →
            Expr.ofTokens tokens brackets limits = .error fault' →
            ∃ flaw index position flaw' index' position',
              fault = .malformed flaw index position
                ∧ fault' = .malformed flaw' index' position'
                ∧ (DanglesAtEnd tokens flaw index → index' = tokens.length)
                ∧ (¬ DanglesAtEnd tokens flaw index → index' = index) := by
  have hclose := Brackets.exists_ofTokens_iff.mp ⟨brackets, hb⟩
  have hformula :
      (∃ checked, check tokens = .ok checked) ↔ ∃ e, Derives (.chain .sum) tokens e := by
    rw [← check_eq_ok_iff hb]
    refine ⟨?_, ?_⟩
    · rintro ⟨checked, hc⟩
      obtain rfl := eq_of_check hc
      exact hc
    · intro hc
      exact ⟨tokens, hc⟩
  refine ⟨?_, ?_⟩
  · intro limits hc
    obtain ⟨e, hd⟩ := hformula.mp hc
    rcases Nat.lt_or_ge limits.maxDepth e.height with hlt | hle
    · obtain ⟨depth, position, ho, -, -⟩ := tooDeep_of_derives hb hd hlt
      exact Or.inr ⟨depth, position, ho⟩
    · exact Or.inl ⟨e, ofTokens_of_derives hb hd hle⟩
  · intro limits hlen
    refine ⟨hformula.trans ⟨?_, ?_⟩, ?_⟩
    · rintro ⟨e, hd⟩
      have hle : e.height ≤ limits.maxDepth := le_of_lt (hd.height_lt.trans_le hlen)
      exact ⟨e, ofTokens_of_derives hb hd hle⟩
    · rintro ⟨e, ho⟩
      exact ⟨e, derives_of_ofTokens hb ho⟩
    · intro fault fault' hc ho
      rcases readAll_cases hb limits.maxDepth with ⟨e, _, -, hd⟩ | ⟨refusal, hr, hrefused⟩
      · rw [hd.check] at hc
        cases hc
      · -- both stop where the tokens are stuck
        rw [ofTokens_of_readAll_error hr] at ho
        obtain rfl := Except.error.inj ho
        obtain ⟨flaw', n, hn, rfl⟩ := hrefused.stuckAt hlen
        obtain ⟨flaw, index, he, hend, hother⟩ := hn.check hclose
        rw [he] at hc
        obtain rfl := Except.error.inj hc
        exact ⟨flaw, index, _, flaw', n, _, rfl, rfl, hend, hother⟩

/-- The tokens of `(x) +`: the check names the dangling operator, and the reading
names the end behind it. -/
theorem reading_names_end_of_dangling :
    let tokens : List Token := [⟨.lparen, ⟨0, 1⟩⟩, ⟨.name "x", ⟨1, 2⟩⟩, ⟨.rparen, ⟨2, 3⟩⟩,
      ⟨.operator .add, ⟨4, 5⟩⟩]
    Brackets.ofTokens tokens = .ok ⟨[⟨0, 3, 1⟩]⟩
      ∧ check tokens = .error (.malformed .danglingOperator 3 4)
      ∧ ∃ flaw position, Expr.ofTokens tokens ⟨[⟨0, 3, 1⟩]⟩ ⟨4, 4⟩
        = .error (.malformed flaw tokens.length position) := by
  intro tokens
  have hb : Brackets.ofTokens tokens = .ok ⟨[⟨0, 3, 1⟩]⟩ := by cbv
  have hc : check tokens = .error (.malformed .danglingOperator 3 4) := rfl
  obtain ⟨haccept, hplace⟩ := (check_agrees_with_reading hb).2 ⟨4, 4⟩ le_rfl
  rcases ho : Expr.ofTokens tokens ⟨[⟨0, 3, 1⟩]⟩ ⟨4, 4⟩ with fault | e
  · obtain ⟨flaw, index, _, flaw', _, position, hfault, rfl, hend, -⟩ := hplace _ _ hc ho
    obtain ⟨rfl, rfl, -⟩ := Fault.malformed.inj hfault
    have hdangles : DanglesAtEnd tokens .danglingOperator 3 := ⟨rfl, rfl, _, rfl, rfl⟩
    exact ⟨hb, hc, flaw', position, by rw [hend hdangles]⟩
  · obtain ⟨_, hok⟩ := haccept.mpr ⟨e, ho⟩
    rw [hc] at hok
    cases hok

end Formula
