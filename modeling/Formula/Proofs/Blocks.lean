import Formula.Proofs.Nesting
import Formula.Proofs.Partner

/-!
The structure that pairing finds in a list of tokens.

* `excess`: by how much the `(` among some tokens outnumber the `)`.
* `Balanced`: no beginning of some tokens has more `)` than `(`, and together they have as
  many; `closes_iff` and `closes_zero_iff`: these are the tokens that close all they open.
* `LeavesOpen.excess_eq`: the excess counts the parentheses that are left open.
* `Nests.exists_of_mem`: a block stands around balanced tokens, and its level is the excess
  behind its `(`.
* `Structured`: the blocks are ordered, one for each parenthesis of either kind, one inside
  the other or apart, with levels that count how deep they lie; `structured_of_ofTokens`.
* `isLeast_excess_neg`: the first place where `)` outnumber `(` is behind balanced tokens.
* `pairing_structures_tokens`: pairing succeeds exactly for balanced tokens, and then it finds
  their structure; otherwise it names the first parenthesis without a partner.
-/

namespace Formula

variable {ts us front before inside behind tokens : List Token} {t : Token} {depth i j : ℕ}
  {span opening closing : Span} {brackets : Brackets} {index level : ℕ} {bs : List Block}
  {b : Block}

/-! ### Counting parentheses -/

/-- By how much the opening parentheses among some tokens outnumber the closing ones. -/
def excess (ts : List Token) : ℤ :=
  ts.countP (·.kind == .lparen) - ts.countP (·.kind == .rparen)

/-- No beginning of some tokens has more closing parentheses than opening ones, and all of the
tokens have as many. -/
structure Balanced (ts : List Token) : Prop where
  nonneg : ∀ front, front <+: ts → 0 ≤ excess front
  settled : excess ts = 0

@[simp] lemma excess_nil : excess [] = 0 := rfl

@[simp] lemma excess_append (ts us : List Token) : excess (ts ++ us) = excess ts + excess us := by
  simp only [excess, List.countP_append]
  omega

@[simp] lemma excess_lparen (span : Span) (ts : List Token) :
    excess (⟨.lparen, span⟩ :: ts) = excess ts + 1 := by
  simp [excess]
  omega

@[simp] lemma excess_rparen (span : Span) (ts : List Token) :
    excess (⟨.rparen, span⟩ :: ts) = excess ts - 1 := by
  simp [excess]
  omega

lemma excess_plain (ht : t.kind.IsPlain) (ts : List Token) : excess (t :: ts) = excess ts := by
  simp [excess, ht.1, ht.2]

/-- The beginnings of a list are the empty one and those of the rest with the first entry. -/
lemma forall_prefix_cons {P : List Token → Prop} :
    (∀ front, front <+: t :: ts → P front) ↔ P [] ∧ ∀ front, front <+: ts → P (t :: front) := by
  refine ⟨?_, ?_⟩
  · intro h
    exact ⟨h [] List.nil_prefix, fun front hf => h _ (List.cons_prefix_cons.mpr ⟨rfl, hf⟩)⟩
  · rintro ⟨hnil, hcons⟩ front hf
    rcases List.prefix_cons_iff.mp hf with rfl | ⟨front', rfl, hf'⟩
    · exact hnil
    · exact hcons front' hf'

/-- Tokens close what is open in front of them and what they open if the parentheses are as
many in the end and never too few before. -/
lemma closes_iff :
    Closes depth ts
      ↔ (∀ front, front <+: ts → 0 ≤ depth + excess front) ∧ depth + excess ts = 0 := by
  induction ts generalizing depth with
  | nil => simp [closes_nil]
  | cons t ts ih =>
      rw [forall_prefix_cons]
      rcases t.paren_cases with ⟨span, rfl⟩ | ⟨span, rfl⟩ | ht
      · have hadd : ∀ x : ℤ, (depth : ℤ) + (x + 1) = ((depth + 1 : ℕ) : ℤ) + x := by
          intro x
          omega
        simp only [closes_lparen, ih, excess_lparen, hadd, excess_nil]
        exact ⟨fun h => ⟨⟨by omega, h.1⟩, h.2⟩, fun h => ⟨h.1.2, h.2⟩⟩
      · cases depth with
        | zero =>
            simp only [not_closes_zero_rparen, false_iff, excess_rparen]
            rintro ⟨⟨-, hfront⟩, -⟩
            have := hfront [] List.nil_prefix
            simp at this
        | succ depth =>
            have hsub : ∀ x : ℤ, ((depth + 1 : ℕ) : ℤ) + (x - 1) = (depth : ℤ) + x := by
              intro x
              omega
            simp only [closes_rparen_succ, ih, excess_rparen, hsub, excess_nil]
            exact ⟨fun h => ⟨⟨by omega, h.1⟩, h.2⟩, fun h => ⟨h.1.2, h.2⟩⟩
      · simp only [closes_plain ht, ih, excess_plain ht, excess_nil]
        exact ⟨fun h => ⟨⟨by omega, h.1⟩, h.2⟩, fun h => ⟨h.1.2, h.2⟩⟩

lemma closes_zero_iff : Closes 0 ts ↔ Balanced ts := by
  simp only [closes_iff, Nat.cast_zero, zero_add]
  exact ⟨fun h => ⟨h.1, h.2⟩, fun h => ⟨h.nonneg, h.settled⟩⟩

lemma Closes.excess_eq (h : Closes 0 ts) : excess ts = 0 := (closes_zero_iff.mp h).settled

/-- The excess of some tokens counts the parentheses that they leave open. -/
lemma LeavesOpen.excess_eq {is : List ℕ} (h : LeavesOpen ts is) : excess ts = is.length := by
  induction h with
  | balanced h => exact h.excess_eq
  | opening _ hu ih =>
      rw [excess_append, excess_lparen, ih, hu.excess_eq, List.length_cons]
      omega

/-- Balanced tokens leave parentheses open where they are cut off. -/
lemma Closes.exists_leavesOpen (h : Closes 0 (ts ++ us)) : ∃ is, LeavesOpen ts is := by
  obtain ⟨q, hr, -⟩ := Pairing.run_of_closes h (p := Pairing.start) [] [] rfl rfl 0
  obtain ⟨p, hp, -⟩ := Pairing.exists_run_of_append hr
  exact ⟨_, Pairing.leavesOpen_of_run hp⟩

/-! ### Blocks and their tokens -/

/-- Two blocks stand apart, or one of them encloses the other. -/
def Block.Laminar (b c : Block) : Prop :=
  b.stop ≤ c.start ∨ c.stop ≤ b.start ∨ b.encloses c = true ∨ c.encloses b = true

instance : Std.Symm Block.Laminar where
  symm b c h := by
    rcases h with h | h | h | h
    · exact Or.inr (Or.inl h)
    · exact Or.inl h
    · exact Or.inr (Or.inr (Or.inr h))
    · exact Or.inr (Or.inr (Or.inl h))

/-- A block stands around balanced tokens, and its level is the excess behind its `(`. -/
lemma Nests.exists_of_mem (h : Nests index level ts bs) (hb : b ∈ bs) :
    ∃ before opening inside closing behind,
      ts = before ++ ⟨.lparen, opening⟩ :: (inside ++ ⟨.rparen, closing⟩ :: behind)
        ∧ Closes 0 inside ∧ b.start = index + before.length
        ∧ b.stop = index + before.length + inside.length + 2
        ∧ (b.level : ℤ) = level + excess before + 1 := by
  induction h with
  | nil => simp at hb
  | @plain index level t ts bs ht _ ih =>
      obtain ⟨before, opening, inside, closing, behind, rfl, hin, hstart, hstop, hlevel⟩ := ih hb
      refine ⟨t :: before, opening, inside, closing, behind, rfl, hin, ?_, ?_, ?_⟩
      · rw [hstart, List.length_cons]
        omega
      · rw [hstop, List.length_cons]
        omega
      · rw [hlevel, excess_plain ht]
  | @group index level opening closing inside behind bs cs hin _ ihin ihbehind =>
      rcases List.mem_cons.mp hb with rfl | hb
      · refine ⟨[], opening, inside, closing, behind, rfl, hin.closes, rfl, rfl, ?_⟩
        simp
      rcases List.mem_append.mp hb with hb | hb
      · obtain ⟨before, opening', inside', closing', behind', rfl, hin', hstart, hstop, hlevel⟩ :=
          ihin hb
        refine ⟨⟨.lparen, opening⟩ :: before, opening', inside', closing',
          behind' ++ ⟨.rparen, closing⟩ :: behind, by simp, hin', ?_, ?_, ?_⟩
        · rw [hstart, List.length_cons]
          omega
        · rw [hstop, List.length_cons]
          omega
        · rw [hlevel, excess_lparen]
          omega
      · obtain ⟨before, opening', inside', closing', behind', rfl, hin', hstart, hstop, hlevel⟩ :=
          ihbehind hb
        refine ⟨⟨.lparen, opening⟩ :: (inside ++ ⟨.rparen, closing⟩ :: before), opening', inside',
          closing', behind', by simp, hin', ?_, ?_, ?_⟩
        · rw [hstart, List.length_cons, List.length_append, List.length_cons]
          omega
        · rw [hstop, List.length_cons, List.length_append, List.length_cons]
          omega
        · rw [hlevel, excess_lparen, excess_append, excess_rparen, hin.closes.excess_eq]
          omega

/-! ### The greatest level -/

namespace Brackets

lemma maxLevel_le_iff {n : ℕ} : brackets.maxLevel ≤ n ↔ ∀ b ∈ brackets.blocks, b.level ≤ n := by
  have hfold : ∀ (levels : List ℕ) (m : ℕ),
      levels.foldl max m ≤ n ↔ m ≤ n ∧ ∀ l ∈ levels, l ≤ n := by
    intro levels
    induction levels with
    | nil => simp
    | cons l levels ih => simp [ih, and_assoc]
  rw [maxLevel, hfold]
  simp

/-- The greatest level is one of the levels, if there are blocks. -/
lemma exists_level_eq_maxLevel (h : brackets.maxLevel ≠ 0) :
    ∃ b ∈ brackets.blocks, b.level = brackets.maxLevel := by
  by_contra hnone
  push Not at hnone
  have hle : brackets.maxLevel ≤ brackets.maxLevel - 1 := by
    refine maxLevel_le_iff.mpr fun b hb => ?_
    have := maxLevel_le_iff.mp (le_refl brackets.maxLevel) b hb
    have := hnone b hb
    omega
  omega

/-! ### The structure of paired tokens -/

/-- What the blocks of some tokens tell about them. -/
structure Structured (brackets : Brackets) (tokens : List Token) : Prop where
  /-- The blocks stand in the order in which they open. -/
  ordered : brackets.blocks.Pairwise fun b c => b.start < c.start
  /-- Each `(` opens just one block. -/
  opening : ∀ i, (∃ span, tokens[i]? = some ⟨.lparen, span⟩)
    ↔ ∃! b, b ∈ brackets.blocks ∧ b.start = i
  /-- Each `)` closes just one block. -/
  closing : ∀ j, (∃ span, tokens[j]? = some ⟨.rparen, span⟩)
    ↔ ∃! b, b ∈ brackets.blocks ∧ b.stop = j + 1
  /-- The tokens inside a block are balanced by themselves. -/
  inside : ∀ b ∈ brackets.blocks,
    b.innerStart ≤ b.innerStop ∧ Balanced ((tokens.take b.innerStop).drop b.innerStart)
  /-- Two blocks stand apart, or one of them encloses the other. -/
  laminar : ∀ b ∈ brackets.blocks, ∀ c ∈ brackets.blocks, b ≠ c → b.Laminar c
  /-- The level of a block counts the blocks that enclose it, and the block itself. -/
  level : ∀ b ∈ brackets.blocks, b.level = 1 + brackets.blocks.countP (·.encloses b)
  /-- The greatest level is the greatest excess of a beginning of the tokens. -/
  maxLevel : IsGreatest {d : ℤ | ∃ front, front <+: tokens ∧ excess front = d} brackets.maxLevel
  /-- Looking up an index finds a block exactly if the token there is a `(`. -/
  lookup : ∀ i, (∃ b, brackets.get? i = some b) ↔ ∃ span, tokens[i]? = some ⟨.lparen, span⟩
  /-- The block that is found is the one that opens there. -/
  found : ∀ i b, brackets.get? i = some b → b ∈ brackets.blocks ∧ b.start = i

section Paired

variable (h : ofTokens tokens = .ok brackets)
include h

/-- The parentheses of a block and the balanced tokens between them. -/
lemma exists_tokens_of_mem (hb : b ∈ brackets.blocks) :
    ∃ before opening inside closing behind,
      tokens = before ++ ⟨.lparen, opening⟩ :: (inside ++ ⟨.rparen, closing⟩ :: behind)
        ∧ Closes 0 inside ∧ b.start = before.length
        ∧ b.stop = before.length + inside.length + 2
        ∧ (b.level : ℤ) = excess before + 1 := by
  have hmem := (ofTokens_eq_ok_iff_nests.mp h).exists_of_mem hb
  simpa only [Nat.zero_add, Nat.cast_zero, zero_add] using hmem

/-- A block opens with a `(`. -/
lemma exists_lparen_of_mem (hb : b ∈ brackets.blocks) :
    ∃ span, tokens[b.start]? = some ⟨.lparen, span⟩ := by
  obtain ⟨before, opening, inside, closing, behind, rfl, -, hstart, -⟩ := exists_tokens_of_mem h hb
  exact ⟨opening, by rw [hstart]; simp⟩

/-- A block closes with a `)`. -/
lemma exists_rparen_of_mem (hb : b ∈ brackets.blocks) (hj : b.stop = j + 1) :
    ∃ span, tokens[j]? = some ⟨.rparen, span⟩ := by
  obtain ⟨before, opening, inside, closing, behind, rfl, -, -, hstop, -⟩ :=
    exists_tokens_of_mem h hb
  obtain rfl : j = (before ++ ⟨.lparen, opening⟩ :: inside).length := by
    rw [List.length_append, List.length_cons]
    omega
  refine ⟨closing, ?_⟩
  rw [← List.cons_append, ← List.append_assoc, List.getElem?_append_right le_rfl, Nat.sub_self]
  rfl

/-- The tokens inside a block are balanced. -/
lemma balanced_inside (hb : b ∈ brackets.blocks) :
    b.innerStart ≤ b.innerStop ∧ Balanced ((tokens.take b.innerStop).drop b.innerStart) := by
  obtain ⟨before, opening, inside, closing, behind, rfl, hin, hstart, hstop, -⟩ :=
    exists_tokens_of_mem h hb
  have hinner : b.innerStart = (before ++ [(⟨.lparen, opening⟩ : Token)]).length := by
    rw [Block.innerStart, hstart, List.length_append, List.length_singleton]
  have houter : b.innerStop = (before ++ [(⟨.lparen, opening⟩ : Token)] ++ inside).length := by
    rw [Block.innerStop, hstop]
    simp only [List.length_append, List.length_singleton]
    omega
  have hsplit : before ++ ⟨.lparen, opening⟩ :: (inside ++ ⟨.rparen, closing⟩ :: behind)
      = before ++ [⟨.lparen, opening⟩] ++ inside ++ ⟨.rparen, closing⟩ :: behind := by simp
  rw [hsplit, houter, hinner, List.take_left, List.drop_left]
  exact ⟨by simp, closes_zero_iff.mp hin⟩

/-- A block is found under the index of each `(`. -/
lemma exists_get?_of_lparen (ht : tokens[i]? = some ⟨.lparen, span⟩) :
    ∃ b, brackets.get? i = some b := by
  obtain ⟨before, behind, rfl, rfl⟩ := exists_append_of_getElem? ht
  have hclose := exists_ofTokens_iff.mp ⟨brackets, h⟩
  obtain ⟨inside, closing, rest, rfl, hin⟩ := hclose.exists_partner_of_lparen
  obtain ⟨b, hb, -⟩ := pairs_of_ofTokens h before inside rest span closing rfl hin
  rw [Nat.zero_add] at hb
  exact ⟨b, hb⟩

/-- A block closes with each `)`. -/
lemma exists_stop_of_rparen (ht : tokens[j]? = some ⟨.rparen, span⟩) :
    ∃ b ∈ brackets.blocks, b.stop = j + 1 := by
  obtain ⟨before, behind, rfl, rfl⟩ := exists_append_of_getElem? ht
  have hclose := exists_ofTokens_iff.mp ⟨brackets, h⟩
  obtain ⟨front, opening, inside, rfl, hin⟩ := hclose.exists_partner_of_rparen
  obtain ⟨b, hb, hstop⟩ := pairs_of_ofTokens h front inside behind opening span (by simp) hin
  refine ⟨b, mem_of_get? hb, ?_⟩
  rw [hstop, List.length_append, List.length_cons]
  omega

/-- Blocks that close with the same `)` are the same. -/
lemma eq_of_stop_eq {c : Block} (hb : b ∈ brackets.blocks) (hc : c ∈ brackets.blocks)
    (hstop : b.stop = c.stop) : b = c := by
  have hn := ofTokens_eq_ok_iff_nests.mp h
  have hnodup : (brackets.blocks.map Block.stop).Nodup := by
    refine List.pairwise_map.mpr (hn.pairwise.imp_of_mem ?_)
    intro b c hb hc hlie
    have := hn.within b hb
    have := hn.within c hc
    simp only [Block.encloses_iff] at hlie
    omega
  exact List.inj_on_of_nodup_map hnodup hb hc hstop

/-- Blocks that open with the same `(` are the same. -/
lemma eq_of_start_eq {c : Block} (hb : b ∈ brackets.blocks) (hc : c ∈ brackets.blocks)
    (hstart : b.start = c.start) : b = c := by
  have hnodup : (brackets.blocks.map Block.start).Nodup :=
    List.pairwise_map.mpr
      ((ofTokens_eq_ok_iff_nests.mp h).pairwise.imp fun hlie => Nat.ne_of_lt hlie.1)
  exact List.inj_on_of_nodup_map hnodup hb hc hstart

/-- A beginning of paired tokens has no greater excess than the greatest level: the last
parenthesis that it leaves open has a block, whose level is the excess. -/
lemma excess_le_maxLevel (hf : front <+: tokens) :
    excess front ≤ brackets.maxLevel := by
  obtain ⟨rest, rfl⟩ := hf
  obtain ⟨is, hopen⟩ := (exists_ofTokens_iff.mp ⟨brackets, h⟩).exists_leavesOpen
  cases hopen with
  | balanced hclose =>
      rw [hclose.excess_eq]
      exact Int.natCast_nonneg _
  | @opening before inside is span hopen hin =>
      have hget : (before ++ ⟨.lparen, span⟩ :: inside ++ rest)[before.length]?
          = some ⟨.lparen, span⟩ := by simp
      obtain ⟨b, hb⟩ := exists_get?_of_lparen h hget
      have hmem := mem_of_get? hb
      obtain ⟨before', _, _, _, _, heq, -, hstart, -, hlevel⟩ := exists_tokens_of_mem h hmem
      rw [start_of_get? hb] at hstart
      rw [List.append_assoc] at heq
      obtain rfl := (List.append_inj heq hstart).1
      have hle : (b.level : ℤ) ≤ brackets.maxLevel :=
        Int.ofNat_le.mpr (maxLevel_le_iff.mp le_rfl b hmem)
      rw [excess_append, excess_lparen, hin.excess_eq]
      omega

/-- The greatest level is the excess of a beginning of the tokens. -/
lemma exists_excess_eq_maxLevel :
    ∃ front, front <+: tokens ∧ excess front = brackets.maxLevel := by
  by_cases hzero : brackets.maxLevel = 0
  · exact ⟨[], List.nil_prefix, by rw [hzero]; rfl⟩
  · obtain ⟨b, hb, hmax⟩ := exists_level_eq_maxLevel hzero
    obtain ⟨before, opening, inside, closing, behind, rfl, -, -, -, hlevel⟩ :=
      exists_tokens_of_mem h hb
    refine ⟨before ++ [⟨.lparen, opening⟩], ⟨inside ++ ⟨.rparen, closing⟩ :: behind, by simp⟩, ?_⟩
    rw [← hmax, hlevel, excess_append, excess_lparen, excess_nil]
    omega

/-- The brackets that pairing answers tell the structure of the tokens. -/
lemma structured_of_ofTokens : brackets.Structured tokens where
  ordered := (ofTokens_eq_ok_iff_nests.mp h).pairwise.imp And.left
  opening := by
    intro i
    refine ⟨?_, ?_⟩
    · rintro ⟨span, ht⟩
      obtain ⟨b, hb⟩ := exists_get?_of_lparen h ht
      have hmem := mem_of_get? hb
      refine ⟨b, ⟨hmem, start_of_get? hb⟩, ?_⟩
      rintro c ⟨hc, hstart⟩
      exact eq_of_start_eq h hc hmem (hstart.trans (start_of_get? hb).symm)
    · rintro ⟨b, ⟨hb, rfl⟩, -⟩
      exact exists_lparen_of_mem h hb
  closing := by
    intro j
    refine ⟨?_, ?_⟩
    · rintro ⟨span, ht⟩
      obtain ⟨b, hb, hstop⟩ := exists_stop_of_rparen h ht
      exact ⟨b, ⟨hb, hstop⟩, fun c hc => eq_of_stop_eq h hc.1 hb (hc.2.trans hstop.symm)⟩
    · rintro ⟨b, ⟨hb, hj⟩, -⟩
      exact exists_rparen_of_mem h hb hj
  inside := fun b hb => balanced_inside h hb
  laminar := by
    have hlie : brackets.blocks.Pairwise Block.Laminar := by
      refine (ofTokens_eq_ok_iff_nests.mp h).pairwise.imp ?_
      rintro b c ⟨-, henc | hapart⟩
      · exact Or.inr (Or.inr (Or.inl henc))
      · exact Or.inl hapart
    exact fun b hb c hc hne => hlie.forall hb hc hne
  level := by
    intro b hb
    rw [(ofTokens_eq_ok_iff_nests.mp h).level_eq b hb, Nat.zero_add]
  maxLevel := by
    refine ⟨exists_excess_eq_maxLevel h, ?_⟩
    rintro d ⟨front, hf, rfl⟩
    exact excess_le_maxLevel h hf
  lookup := by
    intro i
    refine ⟨?_, ?_⟩
    · rintro ⟨b, hb⟩
      have hspan := exists_lparen_of_mem h (mem_of_get? hb)
      rwa [start_of_get? hb] at hspan
    · rintro ⟨span, ht⟩
      exact exists_get?_of_lparen h ht
  found := fun i b hb => ⟨mem_of_get? hb, start_of_get? hb⟩

end Paired

end Brackets

/-! ### Tokens that cannot be paired -/

/-- Behind balanced tokens the `)` outnumber the `(` for the first time with a `)`. -/
lemma isLeast_excess_neg (h : Closes 0 before) :
    IsLeast {j | excess ((before ++ ⟨.rparen, span⟩ :: behind).take (j + 1)) < 0}
      before.length := by
  have hbefore := closes_zero_iff.mp h
  refine ⟨?_, ?_⟩
  · show excess ((before ++ ⟨.rparen, span⟩ :: behind).take (before.length + 1)) < 0
    rw [List.take_length_add_append, excess_append, hbefore.settled]
    simp
  · intro j hj
    by_contra hlt
    have hle : j + 1 ≤ before.length := Nat.lt_of_not_le hlt
    rw [Set.mem_ofPred_eq, List.take_append_of_le_length hle] at hj
    exact absurd (hbefore.nonneg _ (List.take_prefix _ _)) (not_le.mpr hj)

/-- A walk that comes to its end finds nowhere more `)` than `(`. -/
lemma LeavesOpen.excess_nonneg {is : List ℕ} (h : LeavesOpen tokens is) (hf : front <+: tokens) :
    0 ≤ excess front := by
  have hall := closes_zero_iff.mp h.closes_closers
  exact hall.nonneg front (hf.trans (List.prefix_append _ _))

/-- **Pairing structures tokens**: exactly balanced tokens can be paired, and their blocks
tell their structure. In other tokens the first `)` is reported with which the `)` outnumber
the `(`, and if there is none, the first `(` that has no partner behind it. -/
theorem pairing_structures_tokens (tokens : List Token) :
    ((∃ brackets, Brackets.ofTokens tokens = .ok brackets) ↔ Balanced tokens)
      ∧ (∀ brackets, Brackets.ofTokens tokens = .ok brackets → brackets.Structured tokens)
      ∧ ∀ fault, Brackets.ofTokens tokens = .error fault →
        (∃ j, IsLeast {j | excess (tokens.take (j + 1)) < 0} j
            ∧ fault = .unbalanced .unmatchedClose j (Token.startOf tokens j))
          ∨ ((∀ front, front <+: tokens → 0 ≤ excess front)
            ∧ ∃ i, IsLeast {i | LoneOpen tokens i} i
              ∧ fault = .unbalanced .unclosed i (Token.startOf tokens i)) := by
  refine ⟨Brackets.exists_ofTokens_iff.trans closes_zero_iff,
    fun brackets h => Brackets.structured_of_ofTokens h, ?_⟩
  intro fault h
  rcases hr : Pairing.start.run 0 tokens with ⟨q, _ | j⟩
  · have hopen := Pairing.leavesOpen_of_run hr
    rcases Brackets.ofTokens_of_forall_not_loneClose (fun j => hopen.not_loneClose)
      with hclose | ⟨i, hi, ho⟩
    · obtain ⟨brackets, hb⟩ := Brackets.exists_ofTokens_iff.mpr hclose
      rw [hb] at h
      cases h
    · obtain rfl := Except.error.inj (h.symm.trans ho)
      exact Or.inr ⟨fun front hf => hopen.excess_nonneg hf, i, hi, rfl⟩
  · have ho := Brackets.ofTokens_of_loneClose (Pairing.isLeast_of_run_some hr)
    obtain rfl := Except.error.inj (h.symm.trans ho)
    obtain ⟨before, span, behind, rfl, rfl, hrun, hnone⟩ := Pairing.exists_of_run_some hr
    rw [Nat.zero_add]
    exact Or.inl ⟨before.length, isLeast_excess_neg (Pairing.closes_of_run hrun hnone), rfl⟩

end Formula
