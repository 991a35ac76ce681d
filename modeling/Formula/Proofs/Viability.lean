import Formula.Proofs.Blocks
import Formula.Proofs.FaultOrder

/-!
Where the check stops.

* `IsFormula`, `Viable`: tokens that are a formula, and tokens that begin one.
* `isFormula_iff`: a formula is balanced, its tokens may follow their neighbours, and its
  last token ends an operand.
* `isFormula_closers`: what lacks nothing else is completed by closing parentheses.
* `viable_iff`: tokens begin a formula exactly if each may follow its neighbour and no `)`
  is lone. An operand, if one is due, and closing parentheses complete them.
* `EndsOperand`, `OperandDue`: what the last token says about the end of a formula;
  `Viable.operandDue_iff`.
* `StopsAt`: the tokens up to a place can be continued and those up to the next one cannot,
  or the place is the end and an operand is due there; `FirstFlaw.stopsAt`.
* `check_stops_at_first_inviable`: the check stops there, and with no flaw it does not stop.
-/

namespace Formula

variable {tokens ts us : List Token} {flaw : Flaw} {i j : ℕ} {is : List ℕ}
  {before : Option Token.Kind}

/-- Some tokens are a formula. -/
def IsFormula (ts : List Token) : Prop := ∃ e, Derives (.chain .sum) ts e

/-- Some tokens can be continued to a formula. -/
def Viable (ts : List Token) : Prop := ∃ us, IsFormula (ts ++ us)

/-- A formula is balanced, its tokens may follow their neighbours, and its last token ends
an operand. -/
lemma isFormula_iff : IsFormula ts ↔ Closes 0 ts ∧ Passes none ts
    ∧ (lastKind none ts).any Token.Kind.endsOperand = true := by
  refine ⟨?_, ?_⟩
  · rintro ⟨e, hd⟩
    have hnone : (none : Option Token.Kind).any Token.Kind.endsOperand = false := rfl
    exact ⟨hd.closes, hd.passes hnone⟩
  · rintro ⟨hclose, hp, he⟩
    obtain ⟨brackets, hb⟩ := Brackets.exists_ofTokens_iff.mpr hclose
    exact (check_eq_ok_iff hb).mp (hp.check he)

lemma IsFormula.viable (h : IsFormula ts) : Viable ts := ⟨[], by rwa [List.append_nil]⟩

/-- The beginning of viable tokens is viable. -/
lemma Viable.of_append (h : Viable (ts ++ us)) : Viable ts := by
  obtain ⟨vs, hf⟩ := h
  exact ⟨us ++ vs, by rwa [← List.append_assoc]⟩

/-! ### Completing tokens -/

/-- Closing parentheses may follow the end of an operand, and the last one is such an end. -/
lemma passes_closers (h : before.any Token.Kind.endsOperand = true) (n : ℕ) :
    Passes before (closers n)
      ∧ (lastKind before (closers n)).any Token.Kind.endsOperand = true := by
  induction n generalizing before with
  | zero => exact ⟨trivial, h⟩
  | succ n ih =>
      have hrparen : (some Token.Kind.rparen).any Token.Kind.endsOperand = true := rfl
      obtain ⟨hp, he⟩ := ih hrparen
      exact ⟨⟨flawAfter_rparen h, hp⟩, he⟩

/-- Tokens that end an operand lack only what closes their open parentheses. -/
lemma isFormula_closers (hp : Passes none ts)
    (he : (lastKind none ts).any Token.Kind.endsOperand = true) (ho : LeavesOpen ts is) :
    IsFormula (ts ++ closers is.length) := by
  obtain ⟨hpc, hec⟩ := passes_closers he is.length
  refine isFormula_iff.mpr ⟨ho.closes_closers, passes_append.mpr ⟨hp, hpc⟩, ?_⟩
  rwa [lastKind_append]

/-- Tokens that pass and close nothing that is not open are viable: one operand completes
the last one if it is due, and closing parentheses do the rest. -/
lemma viable_of_passes (hp : Passes none ts) (ho : LeavesOpen ts is) : Viable ts := by
  rcases he : (lastKind none ts).any Token.Kind.endsOperand
  · have hpass : Passes none (ts ++ [⟨.name "x", Span.point 0⟩]) :=
      passes_append.mpr ⟨hp, flawAfter_operand he (Or.inl rfl), trivial⟩
    have hend : (lastKind none (ts ++ [⟨.name "x", Span.point 0⟩])).any Token.Kind.endsOperand
        = true := by
      rw [lastKind_append]
      rfl
    have hopen : LeavesOpen (ts ++ [⟨.name "x", Span.point 0⟩]) is :=
      ho.append (Closes.nil.plain ⟨by simp, by simp⟩)
    exact (isFormula_closers hpass hend hopen).viable.of_append.of_append
  · exact (isFormula_closers hp he ho).viable.of_append

/-- Without a lone `)` tokens only leave parentheses open. -/
lemma exists_leavesOpen (hc : ∀ j, ¬ LoneClose ts j) : ∃ is, LeavesOpen ts is := by
  rcases hr : Pairing.start.run 0 ts with ⟨q, _ | j⟩
  · exact ⟨_, Pairing.leavesOpen_of_run hr⟩
  · exact absurd (Pairing.isLeast_of_run_some hr).1 (hc j)

/-- The beginning of tokens that only leave parentheses open does the same. -/
lemma LeavesOpen.exists_of_append (h : LeavesOpen (ts ++ us) is) : ∃ is', LeavesOpen ts is' := by
  have hclose := h.closes_closers
  rw [List.append_assoc] at hclose
  exact hclose.exists_leavesOpen

/-- **The viable tokens** are those that may follow their neighbours and have no `)`
without a partner. -/
lemma viable_iff : Viable ts ↔ Passes none ts ∧ ∀ j, ¬ LoneClose ts j := by
  refine ⟨?_, ?_⟩
  · rintro ⟨us, hf⟩
    obtain ⟨hclose, hp, -⟩ := isFormula_iff.mp hf
    obtain ⟨is, ho⟩ := hclose.exists_leavesOpen
    exact ⟨(passes_append.mp hp).1, fun j => ho.not_loneClose⟩
  · rintro ⟨hp, hc⟩
    obtain ⟨is, ho⟩ := exists_leavesOpen hc
    exact viable_of_passes hp ho

/-! ### The end of the tokens -/

/-- The last of some tokens is a number, a name or a `)`. -/
def EndsOperand (ts : List Token) : Prop :=
  ∃ t ∈ ts.getLast?,
    (∃ value, t.kind = .number value) ∨ (∃ letters, t.kind = .name letters) ∨ t.kind = .rparen

/-- An operand is due behind some tokens: closing parentheses alone do not complete them. -/
def OperandDue (ts : List Token) : Prop :=
  ∀ us : List Token, (∀ u ∈ us, u.kind = .rparen) → ¬ IsFormula (ts ++ us)

lemma endsOperand_iff :
    EndsOperand ts ↔ (lastKind none ts).any Token.Kind.endsOperand = true := by
  rcases List.eq_nil_or_concat ts with rfl | ⟨ts, t, rfl⟩
  · simp [EndsOperand, lastKind]
  · rw [List.concat_eq_append, lastKind_append]
    obtain ⟨kind, span⟩ := t
    cases kind <;>
      simp [EndsOperand, lastKind, Token.Kind.endsOperand, Token.Kind.isOperand]

lemma EndsOperand.ne_nil (h : EndsOperand ts) : ts ≠ [] := by
  rintro rfl
  obtain ⟨t, ht, -⟩ := h
  simp at ht

/-- Behind viable tokens an operand is due exactly if the last one does not end one. -/
lemma Viable.operandDue_iff (h : Viable ts) : OperandDue ts ↔ ¬ EndsOperand ts := by
  obtain ⟨hp, hc⟩ := viable_iff.mp h
  obtain ⟨is, ho⟩ := exists_leavesOpen hc
  refine ⟨?_, ?_⟩
  · intro hdue hend
    refine hdue (closers is.length) ?_ (isFormula_closers hp (endsOperand_iff.mp hend) ho)
    intro u hu
    rw [List.eq_of_mem_replicate hu]
  · rintro hend us hus hf
    rw [endsOperand_iff] at hend
    obtain ⟨hclose, hpass, he⟩ := isFormula_iff.mp hf
    cases us with
    | nil =>
        rw [List.append_nil] at he
        exact hend he
    | cons u us =>
        obtain ⟨kind, span⟩ := u
        obtain rfl : kind = .rparen := hus _ List.mem_cons_self
        have hfollows := (passes_append.mp hpass).2.1
        -- a `)` may follow what ends no operand only where it comes first
        rcases hl : lastKind none ts with _ | kind
        · rcases List.eq_nil_or_concat ts with rfl | ⟨ts, t, rfl⟩
          · exact not_closes_zero_rparen hclose
          · rw [List.concat_eq_append, lastKind_append] at hl
            simp [lastKind] at hl
        · rw [hl] at hfollows hend
          exact flawAfter_rparen_ne_none (Bool.eq_false_of_not_eq_true hend) hfollows

/-! ### What the check reports -/

/-- Some tokens stop being the beginning of a formula at an index: with the token there they
can no longer be continued, or it is the last one, or `0` if there is none, and an operand
is due behind it. -/
inductive StopsAt (tokens : List Token) (flaw : Flaw) (i : ℕ) : Prop
  | token (hi : i < tokens.length) (hbefore : Viable (tokens.take i))
      (hupto : ¬ Viable (tokens.take (i + 1)))
  | ending (hv : Viable tokens) (hdue : OperandDue tokens) (hi : i = tokens.length - 1)
      (hempty : tokens = [] → flaw = .emptyExpression)

/-- Where no `)` is lone, the first flaw is where the tokens stop being the beginning of a
formula. -/
lemma FirstFlaw.stopsAt (h : FirstFlaw tokens flaw i) (hc : ∀ j, ¬ LoneClose tokens j) :
    StopsAt tokens flaw i := by
  cases h with
  | @neighbour before behind t _ h hp hf =>
      subst h
      obtain ⟨is, ho⟩ := exists_leavesOpen hc
      obtain ⟨is', ho'⟩ := ho.exists_of_append
      refine StopsAt.token (by simp) ?_ ?_
      · rw [List.take_left]
        exact viable_of_passes hp ho'
      · rw [List.take_length_add_append]
        intro hv
        have hpt := (passes_append.mp (viable_iff.mp hv).1).2.1
        rw [hf] at hpt
        cases hpt
  | ending hp hf =>
      have hv : Viable tokens := viable_iff.mpr ⟨hp, hc⟩
      refine StopsAt.ending hv (hv.operandDue_iff.mpr ?_) rfl ?_
      · intro hend
        rw [flawAtEnd_eq_none (endsOperand_iff.mp hend)] at hf
        cases hf
      · rintro rfl
        exact (Option.some.inj hf).symm

/-- There is no flaw exactly if the tokens pass and end an operand. -/
lemma flawFrom?_eq_none_iff {index : ℕ} : flawFrom? before index ts = none
    ↔ Passes before ts ∧ (lastKind before ts).any Token.Kind.endsOperand = true := by
  refine ⟨?_, fun h => h.1.flawFrom? h.2 index⟩
  intro h
  induction ts generalizing before index with
  | nil =>
      refine ⟨trivial, ?_⟩
      rcases hend : before.any Token.Kind.endsOperand
      · obtain ⟨flaw, hf⟩ := exists_flawAtEnd hend
        rw [flawFrom?, hf] at h
        cases h
      · exact hend
  | cons t ts ih =>
      rw [flawFrom?] at h
      split at h
      · cases h
      · next hf =>
        obtain ⟨hp, hend⟩ := ih h
        exact ⟨⟨hf, hp⟩, hend⟩

/-- Where no `)` is lone, the check reports the first flaw. -/
lemma exists_of_check_error {fault : Fault} (hc : ∀ j, ¬ LoneClose tokens j)
    (h : check tokens = .error fault) :
    ∃ flaw i, FirstFlaw tokens flaw i ∧ fault = .malformed flaw i (Token.startOf tokens i) := by
  rw [check, unmatchedClose?_eq_none_iff.mpr hc] at h
  split at h
  · cases h
  · next flaw i hf => exact ⟨flaw, i, firstFlaw?_eq_some_iff.mp hf, (Except.error.inj h).symm⟩

/-- Where no `)` is lone, the tokens that are handed on are viable and end an operand. -/
lemma exists_check_iff (hc : ∀ j, ¬ LoneClose tokens j) :
    (∃ checked, check tokens = .ok checked) ↔ Viable tokens ∧ EndsOperand tokens := by
  refine ⟨?_, ?_⟩
  · rintro ⟨checked, h⟩
    rw [check, unmatchedClose?_eq_none_iff.mpr hc] at h
    split at h
    · next hf =>
      obtain ⟨hp, hend⟩ := flawFrom?_eq_none_iff.mp hf
      exact ⟨viable_iff.mpr ⟨hp, hc⟩, endsOperand_iff.mpr hend⟩
    · cases h
  · rintro ⟨hv, hend⟩
    exact ⟨tokens, (viable_iff.mp hv).1.check (endsOperand_iff.mp hend)⟩

/-- **The check stops at the first token that cannot be continued**: where no `)` is lone,
the tokens that pass are those that begin a formula and end an operand, and the index that
is reported is the first one where the tokens stop being the beginning of a formula. Tokens
with a lone `)` pass, and what passes is handed on as it is. -/
theorem check_stops_at_first_inviable (tokens : List Token) :
    ((∀ j, ¬ LoneClose tokens j) →
        ((∃ checked, check tokens = .ok checked)
            ↔ tokens ≠ [] ∧ Viable tokens ∧ EndsOperand tokens)
          ∧ ∀ fault, check tokens = .error fault →
            ∃ flaw i, fault = .malformed flaw i (Token.startOf tokens i)
              ∧ StopsAt tokens flaw i)
      ∧ ((∃ j, LoneClose tokens j) → ∃ checked, check tokens = .ok checked)
      ∧ ∀ checked, check tokens = .ok checked → checked = tokens := by
  refine ⟨fun hc => ⟨?_, ?_⟩, ?_, fun checked h => eq_of_check h⟩
  · rw [exists_check_iff hc]
    exact ⟨fun h => ⟨h.2.ne_nil, h⟩, And.right⟩
  · intro fault h
    obtain ⟨flaw, i, hf, hfault⟩ := exists_of_check_error hc h
    exact ⟨flaw, i, hfault, hf.stopsAt hc⟩
  · rintro ⟨j, hj⟩
    exact ⟨tokens, check_of_loneClose hj⟩

/-- `(x +` can be continued, and `(x +)` cannot. -/
example : check [⟨.lparen, ⟨0, 1⟩⟩, ⟨.name "x", ⟨1, 2⟩⟩, ⟨.operator .add, ⟨3, 4⟩⟩,
    ⟨.rparen, ⟨4, 5⟩⟩] = .error (.malformed .danglingOperator 3 4) := rfl

end Formula
