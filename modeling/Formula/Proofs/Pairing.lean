import Formula.Proofs.Balance

/-!
The pairs that the walk over balanced tokens finds.

* `Pairing.run_of_closes`, `Pairing.closes_of_run`: the walk comes to its end
  with nothing open exactly over balanced tokens, hence
  `Brackets.exists_ofTokens_iff`.
* `Pairing.Distinct`: each opening index is kept once; `Distinct.step` and
  `Distinct.run` carry this along the walk.
* `Brackets.get?_start`: the binary search finds each of the sorted blocks under the
  index at which it opens.
* `Brackets.Pairs`: the brackets know the partner of each `(` among some tokens,
  the `)` behind a balanced list. `Brackets.pairs_of_ofTokens`: those that
  pairing answers do.
-/

namespace Formula

/-! ### The walk over balanced tokens -/

namespace Pairing

lemma step_plain (p : Pairing) (index : ℕ) {kind : Token.Kind} (h : kind.IsPlain) :
    p.step index kind = some p := by
  cases kind with
  | lparen => exact absurd rfl h.1
  | rparen => exact absurd rfl h.2
  | _ => rfl

/-- One step of a walk that comes to its end. -/
lemma run_cons_eq {p q : Pairing} {index : ℕ} {t : Token} {ts : List Token}
    (h : p.run index (t :: ts) = (q, none)) :
    ∃ p', p.step index t.kind = some p' ∧ p'.run (index + 1) ts = (q, none) := by
  rw [run] at h
  split at h
  · simp at h
  · next p' hs => exact ⟨p', hs, h⟩

/-- A walk over two lists is a walk over the first, then one over the second. -/
lemma run_append {p q : Pairing} {index : ℕ} {ts : List Token} (h : p.run index ts = (q, none))
    (us : List Token) : p.run index (ts ++ us) = q.run (index + ts.length) us := by
  induction ts generalizing p index with
  | nil =>
      obtain ⟨rfl, -⟩ := Prod.mk.inj h
      rfl
  | cons t ts ih =>
      obtain ⟨p', hs, hr⟩ := run_cons_eq h
      rw [List.cons_append, run, hs]
      simp only [ih hr, List.length_cons, Nat.add_assoc, Nat.add_comm 1]

/-- A walk that comes to its end does so on every beginning of the tokens. -/
lemma exists_run_of_append {p q : Pairing} {index : ℕ} {ts us : List Token}
    (h : p.run index (ts ++ us) = (q, none)) :
    ∃ p', p.run index ts = (p', none) ∧ p'.run (index + ts.length) us = (q, none) := by
  induction ts generalizing p index with
  | nil => exact ⟨p, rfl, h⟩
  | cons t ts ih =>
      obtain ⟨p₁, hs, hr⟩ := run_cons_eq h
      obtain ⟨p₂, h₁, h₂⟩ := ih hr
      refine ⟨p₂, by rw [run, hs]; exact h₁, ?_⟩
      rwa [List.length_cons, Nat.add_comm ts.length, ← Nat.add_assoc]

/-- A step closes at most one pair and forgets none. -/
lemma closed_suffix_of_step {p p' : Pairing} {index : ℕ} {kind : Token.Kind}
    (h : p.step index kind = some p') : p.closed <:+ p'.closed := by
  cases kind with
  | rparen =>
      rw [step] at h
      split at h
      · simp at h
      · obtain rfl := Option.some.inj h
        exact List.suffix_cons _ _
  | _ =>
      obtain rfl := Option.some.inj h
      exact List.suffix_rfl

/-- A walk forgets no pair it has closed. -/
lemma closed_suffix_of_run {p q : Pairing} {index : ℕ} {ts : List Token}
    (h : p.run index ts = (q, none)) : p.closed <:+ q.closed := by
  induction ts generalizing p index with
  | nil =>
      obtain ⟨rfl, -⟩ := Prod.mk.inj h
      exact List.suffix_rfl
  | cons t ts ih =>
      obtain ⟨p', hs, hr⟩ := run_cons_eq h
      exact (closed_suffix_of_step hs).trans (ih hr)

/-- Over tokens that close `depth` parentheses the walk takes the `depth`
innermost ones off its stack. -/
lemma run_of_closes {depth : ℕ} {ts : List Token} (h : Closes depth ts) {p : Pairing}
    (front back : List (ℕ × ℕ)) (hp : p.openings = front ++ back) (hd : front.length = depth)
    (index : ℕ) : ∃ q, p.run index ts = (q, none) ∧ q.openings = back := by
  induction h generalizing p front index with
  | nil =>
      obtain rfl := List.eq_nil_of_length_eq_zero hd
      exact ⟨p, rfl, hp⟩
  | @opening depth span ts _ ih =>
      rw [run, step]
      exact ih ((index, p.level + 1) :: front) (by rw [hp]; rfl) (by rw [List.length_cons, hd])
        (index + 1)
  | @closing depth span ts _ ih =>
      cases front with
      | nil => simp at hd
      | cons o front =>
          rw [List.cons_append] at hp
          rw [run, step, hp]
          exact ih front rfl (by simpa using hd) (index + 1)
  | @plain depth t ts ht _ ih =>
      rw [run, step_plain p index ht]
      exact ih front hp hd (index + 1)

/-- Tokens over which the walk ends with nothing open close all that was open. -/
lemma closes_of_run {p q : Pairing} {index : ℕ} {ts : List Token}
    (h : p.run index ts = (q, none)) (hq : q.openings = []) : Closes p.openings.length ts := by
  induction ts generalizing p index with
  | nil =>
      obtain ⟨rfl, -⟩ := Prod.mk.inj h
      rw [hq]
      exact Closes.nil
  | cons t ts ih =>
      obtain ⟨p', hs, hr⟩ := run_cons_eq h
      have hc := ih hr
      rcases t.paren_cases with ⟨span, rfl⟩ | ⟨span, rfl⟩ | ht
      · obtain rfl := Option.some.inj hs
        exact hc.opening
      · rw [step] at hs
        split at hs
        · simp at hs
        · next o _ openings ho =>
          obtain rfl := Option.some.inj hs
          rw [ho, List.length_cons]
          exact hc.closing
      · rw [step_plain p index ht] at hs
        obtain rfl := Option.some.inj hs
        exact hc.plain ht

/-- The opening indices the walk has met, those of the parentheses still open
first. -/
def starts (p : Pairing) : List ℕ := p.openings.map Prod.fst ++ p.closed.map Block.start

/-- Each opening index is kept once, and all of them lie behind the walk. -/
structure Distinct (p : Pairing) (index : ℕ) : Prop where
  nodup : p.starts.Nodup
  lt : ∀ i ∈ p.starts, i < index

lemma distinct_start : start.Distinct 0 := ⟨List.nodup_nil, by simp [starts, start]⟩

/-- A closed pair moves from one part of the indices to the other. -/
lemma Distinct.step {p p' : Pairing} {index : ℕ} {kind : Token.Kind} (h : p.Distinct index)
    (hs : p.step index kind = some p') : p'.Distinct (index + 1) := by
  cases kind with
  | lparen =>
      obtain rfl := Option.some.inj hs
      have hnew : index ∉ p.starts := fun hi => Nat.lt_irrefl _ (h.lt index hi)
      refine ⟨List.nodup_cons.mpr ⟨hnew, h.nodup⟩, ?_⟩
      intro i hi
      rcases List.mem_cons.mp hi with rfl | hi
      · exact Nat.lt_succ_self _
      · exact Nat.lt_succ_of_lt (h.lt i hi)
  | rparen =>
      rw [Pairing.step] at hs
      split at hs
      · simp at hs
      · next opening level openings ho =>
        obtain rfl := Option.some.inj hs
        have hperm :
            p.starts.Perm (openings.map Prod.fst ++ opening :: p.closed.map Block.start) := by
          rw [starts, ho]
          exact List.perm_middle.symm
        refine ⟨hperm.nodup_iff.mp h.nodup, ?_⟩
        intro i hi
        exact Nat.lt_succ_of_lt (h.lt i (hperm.mem_iff.mpr hi))
  | _ =>
      obtain rfl := Option.some.inj hs
      refine ⟨h.nodup, ?_⟩
      intro i hi
      exact Nat.lt_succ_of_lt (h.lt i hi)

lemma Distinct.run {p q : Pairing} {index : ℕ} {ts : List Token} (h : p.Distinct index)
    (hr : p.run index ts = (q, none)) : q.Distinct (index + ts.length) := by
  induction ts generalizing p index with
  | nil =>
      obtain ⟨rfl, -⟩ := Prod.mk.inj hr
      exact h
  | cons t ts ih =>
      obtain ⟨p', hs, hr⟩ := run_cons_eq hr
      have hq := ih (h.step hs) hr
      rwa [Nat.add_assoc, Nat.add_comm 1] at hq

/-- The walk closes a `(` with the `)` behind the balanced tokens that follow
it. -/
lemma mem_closed_of_run {p q : Pairing} {index : ℕ} {before inside behind : List Token}
    {opening close : Span} (hin : Closes 0 inside)
    (h : p.run index (before ++ ⟨.lparen, opening⟩ :: (inside ++ ⟨.rparen, close⟩ :: behind))
      = (q, none)) :
    ∃ level, ⟨index + before.length, index + before.length + inside.length + 2, level⟩
      ∈ q.closed := by
  obtain ⟨p₁, -, h⟩ := exists_run_of_append h
  obtain ⟨p₂, hs, h⟩ := run_cons_eq h
  obtain rfl := Option.some.inj hs
  obtain ⟨p₃, h₃, ho⟩ := run_of_closes hin [] _ rfl rfl (index + before.length + 1)
  rw [run_append h₃] at h
  obtain ⟨p₄, hs, h⟩ := run_cons_eq h
  rw [Pairing.step, ho] at hs
  obtain rfl := Option.some.inj hs
  have hmem := (closed_suffix_of_run h).mem List.mem_cons_self
  refine ⟨p₁.level + 1, ?_⟩
  convert hmem using 2
  omega

end Pairing

/-! ### The brackets of balanced tokens -/

namespace Brackets

/-- The brackets know the partner of each `(` among some tokens of which the
first has the given index: the `)` behind a balanced list. -/
def Pairs (brackets : Brackets) (index : ℕ) (ts : List Token) : Prop :=
  ∀ before inside behind opening close,
    ts = before ++ ⟨.lparen, opening⟩ :: (inside ++ ⟨.rparen, close⟩ :: behind) →
    Closes 0 inside →
    ∃ b, brackets.get? (index + before.length) = some b
      ∧ b.stop = index + before.length + inside.length + 2

namespace Pairs

variable {brackets : Brackets} {index : ℕ} {ts us : List Token}

/-- Brackets that know the partners among some tokens know them in each beginning
of these tokens. -/
lemma left (h : brackets.Pairs index (ts ++ us)) : brackets.Pairs index ts := by
  rintro before inside behind opening close rfl hin
  exact h before inside (behind ++ us) opening close (by simp) hin

/-- Brackets that know the partners among some tokens know them in each end of
these tokens. -/
lemma right (h : brackets.Pairs index (ts ++ us)) : brackets.Pairs (index + ts.length) us := by
  rintro before inside behind opening close rfl hin
  obtain ⟨b, hb, hs⟩ := h (ts ++ before) inside behind opening close (by simp) hin
  rw [List.length_append, ← Nat.add_assoc] at hb hs
  exact ⟨b, hb, hs⟩

lemma tail {t : Token} (h : brackets.Pairs index (t :: ts)) : brackets.Pairs (index + 1) ts := by
  rw [← List.singleton_append] at h
  exact h.right

end Pairs

/-- Pairing succeeds when the walk comes to its end with nothing open. -/
lemma ofTokens_eq_ok_iff {tokens : List Token} {brackets : Brackets} :
    ofTokens tokens = .ok brackets ↔ ∃ q, Pairing.start.run 0 tokens = (q, none)
      ∧ q.openings = []
      ∧ brackets = ⟨q.closed.mergeSort fun a b => decide (a.start ≤ b.start)⟩ := by
  rw [ofTokens]
  rcases hr : Pairing.start.run 0 tokens with ⟨q, _ | i⟩
  · rcases ho : q.openings with _ | ⟨o, openings⟩
    · simp [ho, eq_comm]
    · have hlast : (o :: openings).getLast? = some ((o :: openings).getLast (by simp)) :=
        List.getLast?_eq_some_getLast _
      simp only [ho, hlast]
      simp [ho]
  · simp

/-- Exactly balanced tokens can be paired. -/
lemma exists_ofTokens_iff {tokens : List Token} :
    (∃ brackets, ofTokens tokens = .ok brackets) ↔ Closes 0 tokens := by
  refine ⟨?_, ?_⟩
  · rintro ⟨brackets, h⟩
    obtain ⟨q, hr, ho, -⟩ := ofTokens_eq_ok_iff.mp h
    exact Pairing.closes_of_run hr ho
  · intro h
    obtain ⟨q, hr, ho⟩ := Pairing.run_of_closes h (p := Pairing.start) [] [] rfl rfl 0
    exact ⟨_, ofTokens_eq_ok_iff.mpr ⟨q, hr, ho, rfl⟩⟩

/-- Among sorted blocks the search for a block never leaves out its place. The
induction is on the rounds, of which there are enough to narrow the search down
to one place. -/
lemma narrow_eq {blocks : List Block} (hs : blocks.Pairwise fun b c => b.start < c.start)
    {i : ℕ} (hi : i < blocks.length) {rounds base size : ℕ} (hbase : base ≤ i)
    (hstop : i < base + size) (hlen : base + size ≤ blocks.length) (hsize : size ≤ rounds + 1) :
    narrow blocks blocks[i].start rounds base size = i := by
  induction rounds generalizing base size with
  | zero =>
      rw [narrow]
      omega
  | succ rounds ih =>
      rw [narrow]
      by_cases hone : size ≤ 1
      · rw [if_pos hone]
        omega
      have hmiddle : base + size / 2 < blocks.length := by omega
      rw [if_neg hone, List.getElem?_eq_getElem hmiddle, Option.any_some]
      rcases Nat.lt_or_ge i (base + size / 2) with hlt | hle
      · have hgreater := List.pairwise_iff_getElem.mp hs i _ hi hmiddle hlt
        rw [if_neg (by simpa using hgreater)]
        exact ih hbase (by omega) (by omega) (by omega)
      · have hnot : blocks[base + size / 2].start ≤ blocks[i].start := by
          rcases hle.eq_or_lt with heq | hlt
          · simp only [heq, le_refl]
          · exact (List.pairwise_iff_getElem.mp hs _ i hmiddle hi hlt).le
        rw [if_pos (by simpa using hnot)]
        exact ih hle (by omega) (by omega) (by omega)

/-- Among sorted blocks each one is found under the index at which it opens. -/
lemma get?_start {brackets : Brackets} {b : Block} (hb : b ∈ brackets.blocks)
    (hs : brackets.blocks.Pairwise fun b c => b.start < c.start) :
    brackets.get? b.start = some b := by
  obtain ⟨i, hi, rfl⟩ := List.getElem_of_mem hb
  rw [get?, narrow_eq hs hi (Nat.zero_le i) (by omega) (by omega) (by omega),
    List.getElem?_eq_getElem hi]
  simp

/-- Blocks are sorted by the indices at which they open. -/
lemma pairwise_mergeSort (blocks : List Block) :
    (blocks.mergeSort fun b c => decide (b.start ≤ c.start)).Pairwise
      fun b c => decide (b.start ≤ c.start) = true :=
  List.pairwise_mergeSort (fun a b c => by simpa using Nat.le_trans)
    (fun a b => by simpa using Nat.le_total a.start b.start) blocks

/-- Blocks that open at different indices are sorted strictly. -/
lemma pairwise_mergeSort_of_nodup {blocks : List Block} (hd : (blocks.map Block.start).Nodup) :
    (blocks.mergeSort fun b c => decide (b.start ≤ c.start)).Pairwise
      fun b c => b.start < c.start := by
  have hperm := List.mergeSort_perm blocks fun b c => decide (b.start ≤ c.start)
  have hne := List.pairwise_map.mp ((hperm.map Block.start).nodup_iff.mpr hd)
  exact ((pairwise_mergeSort blocks).and hne).imp fun h =>
    lt_of_le_of_ne (of_decide_eq_true h.1) h.2

/-- The brackets of some tokens know all partners. -/
theorem pairs_of_ofTokens {tokens : List Token} {brackets : Brackets}
    (h : ofTokens tokens = .ok brackets) : brackets.Pairs 0 tokens := by
  obtain ⟨q, hr, ho, rfl⟩ := ofTokens_eq_ok_iff.mp h
  rintro before inside behind opening close rfl hin
  have hperm := List.mergeSort_perm q.closed fun a b => decide (a.start ≤ b.start)
  have hnodup : (q.closed.map Block.start).Nodup := by
    have hq := (Pairing.distinct_start.run hr).nodup
    rwa [Pairing.starts, ho, List.map_nil, List.nil_append] at hq
  obtain ⟨level, hmem⟩ := Pairing.mem_closed_of_run hin hr
  have hfound := get?_start (hperm.mem_iff.mpr hmem) (pairwise_mergeSort_of_nodup hnodup)
  exact ⟨_, hfound, rfl⟩

end Brackets

end Formula
