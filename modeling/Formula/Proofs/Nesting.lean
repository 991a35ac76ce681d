import Formula.Proofs.Pairing

/-!
The blocks of balanced tokens.

* `Nests`: the blocks of some balanced tokens in the order in which they open, each with
  its level, by the way the tokens are made up of groups; `Nests.append`.
* `Closes.exists_nests`, `Nests.closes`: exactly balanced tokens have such blocks.
* `Nests.run`: the walk over the tokens closes just these blocks, in some order.
* `Brackets.ofTokens_eq_ok_iff_nests`: they are what pairing answers, in their order.
* `Nests.within`, `Nests.pairwise`, `Nests.level_eq`: a block lies among its tokens, of two
  blocks the first one encloses the other or stands in front of it, and the level of a
  block counts those that enclose it.
-/

namespace Formula

/-- The blocks of some tokens in the order in which they open. The first token has the given
index, and the tokens lie in as many blocks as the level says. -/
inductive Nests : ℕ → ℕ → List Token → List Block → Prop
  | nil {index level : ℕ} : Nests index level [] []
  | plain {index level : ℕ} {t : Token} {ts : List Token} {bs : List Block}
      (ht : t.kind.IsPlain) (h : Nests (index + 1) level ts bs) : Nests index level (t :: ts) bs
  | group {index level : ℕ} {opening closing : Span} {inside behind : List Token}
      {bs cs : List Block} (hin : Nests (index + 1) (level + 1) inside bs)
      (hbehind : Nests (index + inside.length + 2) level behind cs) :
      Nests index level (⟨.lparen, opening⟩ :: (inside ++ ⟨.rparen, closing⟩ :: behind))
        (⟨index, index + inside.length + 2, level + 1⟩ :: (bs ++ cs))

lemma Block.encloses_iff {b c : Block} :
    b.encloses c = true ↔ b.start < c.start ∧ c.stop < b.stop := decide_eq_true_iff

variable {index level : ℕ} {ts us tokens : List Token} {bs cs : List Block} {b : Block}

namespace Nests

/-- Tokens with blocks are balanced. -/
lemma closes (h : Nests index level ts bs) : Closes 0 ts := by
  induction h with
  | nil => exact Closes.nil
  | plain ht _ ih => exact ih.plain ht
  | group _ _ ihin ihbehind => exact (ihin.skip.mpr ihbehind.closing).opening

/-- The blocks of tokens behind others follow the blocks of these. -/
lemma append (h : Nests index level ts bs) (h' : Nests (index + ts.length) level us cs) :
    Nests index level (ts ++ us) (bs ++ cs) := by
  induction h with
  | nil => exact h'
  | @plain index level t ts bs ht _ ih =>
      refine plain ht (ih ?_)
      rwa [List.length_cons, Nat.add_comm ts.length, ← Nat.add_assoc] at h'
  | @group index level opening closing inside behind _ _ hin _ _ ih =>
      have hlen : index + inside.length + 2 + behind.length
          = index + (⟨.lparen, opening⟩ :: (inside ++ ⟨.rparen, closing⟩ :: behind) :
              List Token).length := by
        simp only [List.length_cons, List.length_append]
        omega
      rw [← hlen] at h'
      rw [List.cons_append, List.cons_append, List.append_assoc, List.append_assoc,
        List.cons_append]
      exact group hin (ih h')

/-- A group by itself has its own block and the blocks inside. -/
lemma single {opening closing : Span} (h : Nests (index + 1) (level + 1) ts bs) :
    Nests index level (⟨.lparen, opening⟩ :: (ts ++ [⟨.rparen, closing⟩]))
      (⟨index, index + ts.length + 2, level + 1⟩ :: bs) := by
  have hgroup := @group _ _ opening closing _ [] _ [] h nil
  rwa [List.append_nil] at hgroup

/-- The walk closes the blocks of the tokens and leaves all else as it was. -/
lemma run (h : Nests index level ts bs) (openings : List (ℕ × ℕ)) (closed : List Block) :
    ∃ cs, cs.Perm bs ∧ Pairing.run ⟨openings, level, closed⟩ index ts
      = (⟨openings, level, cs ++ closed⟩, none) := by
  induction h generalizing openings closed with
  | nil => exact ⟨[], List.Perm.refl [], rfl⟩
  | plain ht _ ih =>
      obtain ⟨cs, hperm, hrun⟩ := ih openings closed
      exact ⟨cs, hperm, by rw [Pairing.run, Pairing.step_plain _ _ ht]; exact hrun⟩
  | @group index level opening closing inside behind bs cs _ _ ihin ihbehind =>
      obtain ⟨ins, hins, hin⟩ := ihin ((index, level + 1) :: openings) closed
      obtain ⟨outs, houts, hout⟩ := ihbehind openings
        (⟨index, index + inside.length + 2, level + 1⟩ :: (ins ++ closed))
      refine ⟨outs ++ ⟨index, index + inside.length + 2, level + 1⟩ :: ins, ?_, ?_⟩
      · exact List.perm_middle.trans (((houts.append hins).trans List.perm_append_comm).cons _)
      · have hnext : index + 1 + inside.length + 1 = index + inside.length + 2 := by omega
        rw [Pairing.run, Pairing.step]
        simp only [Pairing.run_append hin]
        rw [Pairing.run, Pairing.step]
        simp only [hnext, Nat.add_sub_cancel, hout, List.append_assoc, List.cons_append]

/-! ### How blocks lie -/

/-- A block lies among its tokens and has at least its parentheses. -/
lemma within (h : Nests index level ts bs) :
    ∀ b ∈ bs, index ≤ b.start ∧ b.start + 2 ≤ b.stop ∧ b.stop ≤ index + ts.length := by
  induction h with
  | nil => simp
  | plain _ _ ih =>
      intro b hb
      have := ih b hb
      rw [List.length_cons]
      omega
  | group _ _ ihin ihbehind =>
      simp only [List.length_cons, List.length_append]
      refine List.forall_mem_cons.mpr ⟨by simp only; omega, List.forall_mem_append.mpr ⟨?_, ?_⟩⟩
      · intro b hb
        have := ihin b hb
        omega
      · intro c hc
        have := ihbehind c hc
        omega

/-- Of two blocks the one that opens first encloses the other or closes in front of it. -/
lemma pairwise (h : Nests index level ts bs) :
    bs.Pairwise fun b c => b.start < c.start ∧ (b.encloses c = true ∨ b.stop ≤ c.start) := by
  induction h with
  | nil => exact List.Pairwise.nil
  | plain _ _ ih => exact ih
  | group hin hbehind ihin ihbehind =>
      simp only [Block.encloses_iff] at ihin ihbehind ⊢
      refine List.pairwise_cons.mpr
        ⟨List.forall_mem_append.mpr ⟨?_, ?_⟩, List.pairwise_append.mpr ⟨ihin, ihbehind, ?_⟩⟩
      · intro b hb
        have := hin.within b hb
        simp only
        omega
      · intro c hc
        have := hbehind.within c hc
        simp only
        omega
      · intro b hb c hc
        have := hin.within b hb
        have := hbehind.within c hc
        omega

/-- No block encloses another that opens in front of it or stands behind it. -/
lemma countP_encloses_eq_zero (hb : b.start ≤ b.stop)
    (h : ∀ c ∈ cs, b.start ≤ c.start ∨ c.stop ≤ b.start) : cs.countP (·.encloses b) = 0 := by
  refine List.countP_eq_zero.mpr fun c hc henc => ?_
  have := Block.encloses_iff.mp henc
  have := h c hc
  omega

/-- The level of a block counts the blocks that enclose it. -/
lemma level_eq (h : Nests index level ts bs) :
    ∀ b ∈ bs, b.level = level + 1 + bs.countP (·.encloses b) := by
  induction h with
  | nil => simp
  | plain _ _ ih => exact ih
  | @group index level _ _ inside behind bs cs hin hbehind ihin ihbehind =>
      refine List.forall_mem_cons.mpr ⟨?_, List.forall_mem_append.mpr ⟨?_, ?_⟩⟩
      · rw [countP_encloses_eq_zero, Nat.add_zero]
        · simp only
          omega
        · refine List.forall_mem_cons.mpr ⟨Or.inl le_rfl, List.forall_mem_append.mpr ⟨?_, ?_⟩⟩
          · intro b hb
            have := hin.within b hb
            simp only
            omega
          · intro c hc
            have := hbehind.within c hc
            simp only
            omega
      · intro b hb
        have hb' := hin.within b hb
        have hgroup :
            (⟨index, index + inside.length + 2, level + 1⟩ : Block).encloses b = true := by
          simp only [Block.encloses_iff]
          omega
        have hcs : cs.countP (·.encloses b) = 0 := by
          refine countP_encloses_eq_zero (by omega) fun c hc => ?_
          have := hbehind.within c hc
          omega
        rw [List.countP_cons, if_pos hgroup, List.countP_append, hcs, ihin b hb]
        omega
      · intro c hc
        have hc' := hbehind.within c hc
        have hgroup :
            ¬ (⟨index, index + inside.length + 2, level + 1⟩ : Block).encloses c = true := by
          simp only [Block.encloses_iff]
          omega
        have hbs : bs.countP (·.encloses c) = 0 := by
          refine countP_encloses_eq_zero (by omega) fun b hb => ?_
          have := hin.within b hb
          omega
        rw [List.countP_cons, if_neg hgroup, List.countP_append, hbs, ihbehind c hc]
        omega

end Nests

/-- Balanced tokens have blocks. A group at their head is closed behind balanced tokens, and
fewer tokens stand inside and behind. -/
lemma Closes.exists_nests (h : Closes 0 ts) (index level : ℕ) : ∃ bs, Nests index level ts bs := by
  induction hn : ts.length using Nat.strong_induction_on generalizing ts index level with
  | _ n ih =>
    subst hn
    cases h with
    | nil => exact ⟨[], Nests.nil⟩
    | @plain _ t ts ht h =>
        obtain ⟨bs, hbs⟩ := ih ts.length (by simp) h (index + 1) level rfl
        exact ⟨bs, hbs.plain ht⟩
    | @opening _ span ts h =>
        obtain ⟨inside, closing, behind, rfl, hin, hbehind⟩ := h.exists_close 0 0 rfl
        obtain ⟨bs, hbs⟩ := ih inside.length (by simp) hin (index + 1) (level + 1) rfl
        obtain ⟨cs, hcs⟩ := ih behind.length (by simp; omega) hbehind
          (index + inside.length + 2) level rfl
        exact ⟨_, hbs.group hcs⟩

namespace Brackets

/-- What pairing answers are the blocks of the tokens: the walk closes them in another order,
but only one order is that of the openings. -/
theorem ofTokens_eq_ok_iff_nests {brackets : Brackets} :
    ofTokens tokens = .ok brackets ↔ Nests 0 0 tokens brackets.blocks := by
  have hanswer : ∀ bs, Nests 0 0 tokens bs → ofTokens tokens = .ok ⟨bs⟩ := by
    intro bs h
    obtain ⟨cs, hperm, hrun⟩ := h.run [] []
    rw [List.append_nil] at hrun
    refine ofTokens_eq_ok_iff.mpr ⟨_, hrun, rfl, congrArg Brackets.mk ?_⟩
    have hordered : bs.Pairwise fun b c => b.start < c.start := h.pairwise.imp And.left
    have hsort := (List.mergeSort_perm cs fun b c => decide (b.start ≤ c.start)).trans hperm
    refine (hsort.eq_of_pairwise ?_ (pairwise_mergeSort cs)
      (hordered.imp fun hlt => decide_eq_true hlt.le)).symm
    intro b c hb hc hbc hcb
    have hnodup : (bs.map Block.start).Nodup := List.pairwise_map.mpr (hordered.imp Nat.ne_of_lt)
    exact List.inj_on_of_nodup_map hnodup (hsort.mem_iff.mp hb) hc
      (Nat.le_antisymm (of_decide_eq_true hbc) (of_decide_eq_true hcb))
  refine ⟨?_, hanswer brackets.blocks⟩
  intro h
  obtain ⟨bs, hbs⟩ := (exists_ofTokens_iff.mp ⟨brackets, h⟩).exists_nests 0 0
  obtain rfl := Except.ok.inj (h.symm.trans (hanswer bs hbs))
  exact hbs

end Brackets

end Formula
