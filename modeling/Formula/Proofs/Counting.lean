import Formula.Proofs.Record

/-!
Counting the open parentheses.

The parentheses that are open are counted three times: by the stack of the walk that pairs
them, by the level of that walk, and by the search for a `)` that closes nothing, which keeps
no stack at all.

* `Pairing.level_eq_length`, `Pairing.level_le_length`: the level is the height of the stack,
  and no more parentheses are open than tokens have been passed.
* `Pairing.level_pos_of_step`: where a `)` takes the level down, it is positive.
* `unmatchedClose?_append`: the search has counted as many as the level says, wherever the
  walk stands.
* `Brackets.ofTokens_eq_unmatchedClose_iff`: both end at the same `)`.
* `counting_agrees_with_pairing`: so tokens with a flaw that are let through are refused by
  pairing and never read.
-/

namespace Formula

variable {tokens front behind : List Token} {flaw : Flaw} {i position : ℕ} {limits : Limits}
  {source : String}

namespace Pairing

variable {p q : Pairing} {index : ℕ}

/-- The level counts the parentheses on the stack. -/
lemma level_eq_length (h : start.run 0 front = (q, none)) : q.level = q.openings.length := by
  have hlevel := (keeps_of_run h).level
  have hopen := (leavesOpen_of_run h).excess_eq
  rw [List.length_map] at hopen
  omega

/-- Each open parenthesis is one of the tokens passed. -/
lemma level_le_length (h : start.run 0 front = (q, none)) : q.level ≤ front.length := by
  have hlevel := (keeps_of_run h).level
  have hcount : front.countP (·.kind == .lparen) ≤ front.length := List.countP_le_length
  rw [excess] at hlevel
  omega

/-- A `)` that closes a parenthesis takes the level down, which is positive then. -/
lemma level_pos_of_step (h : start.run 0 front = (p, none))
    (hs : p.step index .rparen = some q) : 0 < p.level ∧ q.level = p.level - 1 := by
  have hlevel := level_eq_length h
  rw [step] at hs
  split at hs
  · cases hs
  · next hopen =>
    obtain rfl := Option.some.inj hs
    rw [hopen, List.length_cons] at hlevel
    exact ⟨by omega, rfl⟩

end Pairing

/-- Behind tokens that the walk has passed the search goes on with as many open parentheses
as the level says. -/
lemma unmatchedClose?_append {q : Pairing} (h : Pairing.start.run 0 front = (q, none))
    (behind : List Token) :
    unmatchedClose? (front ++ behind) = unmatchedCloseFrom? q.level front.length behind := by
  have hall : (Pairing.start.run 0 (front ++ behind)).2 = unmatchedClose? (front ++ behind) :=
    Pairing.snd_run Pairing.start 0 (front ++ behind)
  rw [← hall, Pairing.run_append h, Nat.zero_add, Pairing.level_eq_length h, Pairing.snd_run]

/-- The search finds the `)` that pairing reports to close nothing. -/
lemma Brackets.ofTokens_eq_unmatchedClose_iff :
    ofTokens tokens = .error (.unbalanced .unmatchedClose i position)
      ↔ unmatchedClose? tokens = some i ∧ position = Token.startOf tokens i := by
  have hcount : (Pairing.start.run 0 tokens).2 = unmatchedClose? tokens :=
    Pairing.snd_run Pairing.start 0 tokens
  rw [ofTokens, ← hcount]
  rcases Pairing.start.run 0 tokens with ⟨q, _ | j⟩
  · rcases ho : q.openings.getLast? with _ | o <;> simp [ho]
  · simp only [Except.error.injEq, Fault.unbalanced.injEq, true_and, Option.some.injEq]
    refine and_congr_right ?_
    rintro rfl
    exact eq_comm

/-- Tokens with a flaw pass the check only if some `)` closes nothing. -/
lemma exists_unmatchedClose_of_check {checked : List Token}
    (hf : FirstFlaw tokens flaw i) (hc : check tokens = .ok checked) :
    ∃ j, unmatchedClose? tokens = some j := by
  rw [check, firstFlaw?_eq_some_iff.mpr hf] at hc
  simp only at hc
  split at hc
  · next hsome => exact Option.isSome_iff_exists.mp hsome
  · cases hc

/-- Tokens with a flaw are refused before anything reads them. -/
lemma exists_refusal_of_flaw (hf : FirstFlaw tokens flaw i) :
    (∃ fault, check tokens = .error fault)
      ∨ check tokens = .ok tokens ∧ ∃ j, Brackets.ofTokens tokens
        = .error (.unbalanced .unmatchedClose j (Token.startOf tokens j)) := by
  rcases hc : check tokens with fault | checked
  · exact Or.inl ⟨fault, rfl⟩
  · obtain rfl := eq_of_check hc
    obtain ⟨j, hj⟩ := exists_unmatchedClose_of_check hf hc
    exact Or.inr ⟨rfl, j, Brackets.ofTokens_eq_unmatchedClose_iff.mpr ⟨hj, rfl⟩⟩

/-- The tokens of a source with a flaw are never recorded as paired, which they are before
they are read. -/
lemma paired_notMem_of_flaw (hlex : lex source = .ok tokens)
    (hf : FirstFlaw tokens flaw i) (blocks maxLevel : ℕ) :
    .paired blocks maxLevel ∉ (analyse limits source).entries := by
  rcases Nat.lt_or_ge limits.maxTokens tokens.length with hlt | hcount
  · rw [analyse_of_checkCount_error hlex (checkCount_of_lt hlt)]
    simp [lexedAs]
  rcases exists_refusal_of_flaw hf with ⟨fault, hc⟩ | ⟨hc, j, hb⟩
  · rw [analyse_of_check_error hlex hcount hc]
    simp [lexedAs]
  · rw [analyse_of_pairing_error hlex hcount hc hb]
    simp [lexedAs]

/-- **Counting agrees with pairing**: the search, which only counts, is in step with the stack
in front of each token, and it finds a `)` exactly where pairing reports that one closes
nothing. So where tokens with a flaw pass the check, pairing refuses them; whatever would read
them behind pairing, the outcome is the same fault, and no analysis comes to read them. -/
theorem counting_agrees_with_pairing (tokens : List Token) :
    (∀ i, unmatchedClose? tokens = some i
        ↔ ∃ position, Brackets.ofTokens tokens
          = .error (.unbalanced .unmatchedClose i position))
      ∧ (∀ front behind q, tokens = front ++ behind → Pairing.start.run 0 front = (q, none) →
        q.level = q.openings.length
          ∧ unmatchedClose? tokens = unmatchedCloseFrom? q.level front.length behind)
      ∧ ∀ flaw i, FirstFlaw tokens flaw i →
        (∀ checked, check tokens = .ok checked → checked = tokens
          ∧ ∃ j position, Brackets.ofTokens checked
            = .error (.unbalanced .unmatchedClose j position))
        ∧ (∃ fault, ∀ {α : Type} (read : List Token → Brackets → Except Fault α), (do
            let checked ← check tokens
            let brackets ← Brackets.ofTokens checked
            read checked brackets) = .error fault)
        ∧ ∀ limits source, lex source = .ok tokens → ∀ blocks maxLevel,
          .paired blocks maxLevel ∉ (analyse limits source).entries := by
  refine ⟨?_, ?_, ?_⟩
  · intro i
    refine ⟨?_, ?_⟩
    · intro h
      exact ⟨_, Brackets.ofTokens_eq_unmatchedClose_iff.mpr ⟨h, rfl⟩⟩
    · rintro ⟨position, h⟩
      exact (Brackets.ofTokens_eq_unmatchedClose_iff.mp h).1
  · rintro front behind q rfl h
    exact ⟨Pairing.level_eq_length h, unmatchedClose?_append h behind⟩
  · intro flaw i hf
    refine ⟨?_, ?_, fun limits source hlex => paired_notMem_of_flaw hlex hf⟩
    · intro checked hc
      obtain rfl := eq_of_check hc
      obtain ⟨j, hj⟩ := exists_unmatchedClose_of_check hf hc
      exact ⟨rfl, j, _, Brackets.ofTokens_eq_unmatchedClose_iff.mpr ⟨hj, rfl⟩⟩
    · rcases exists_refusal_of_flaw hf with ⟨fault, hc⟩ | ⟨hc, j, hb⟩
      · exact ⟨fault, fun read => by rw [hc]; rfl⟩
      · refine ⟨.unbalanced .unmatchedClose j (Token.startOf tokens j), fun read => ?_⟩
        rw [hc]
        simp only [bind, Except.bind, hb]

end Formula
