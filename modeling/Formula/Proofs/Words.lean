import Formula.Proofs.Counting
import Formula.Proofs.Discipline

/-!
Counters that are words of 32 bits.

A word begins again at zero behind its greatest value, and so a counter in a word may lose
count. Those of pairing and of reading do not, if there are fewer than `2 ^ 32` tokens.

* `Word.add`, `Word.sub`: sums and differences in words; `add_eq` and `sub_eq` say when they
  are exact.
* `Pairing.runByWord`: the walk that pairs parentheses, with its level in a word.
* `Indexed.Counters.inWords`: a reader that counts in words and never stops at a number.
* `Indexed.Agrees`: what is answered with exact numbers up to a ceiling is answered with words
  as well. `Indexed.allAgree` is the induction over the calls.
* `counters_fit_in_words`: pairing and reading answer with words what they answer without.
-/

namespace Formula

/-! ### Words -/

namespace Word

variable {m n : ℕ}

/-- The sum of two numbers in a word. -/
def add (m n : ℕ) : ℕ := (UInt32.ofNat m + UInt32.ofNat n).toNat

/-- The difference of two numbers in a word. -/
def sub (m n : ℕ) : ℕ := (UInt32.ofNat m - UInt32.ofNat n).toNat

/-- A sum that a word can hold is exact. -/
lemma add_eq (h : m + n < 2 ^ 32) : add m n = m + n := by
  rw [add, ← UInt32.ofNat_add, UInt32.toNat_ofNat_of_lt' h]

/-- The next number behind the greatest one is zero. -/
example : add (2 ^ 32 - 1) 1 = 0 := by decide

/-- A difference that is not negative is exact. -/
lemma sub_eq (hm : m < 2 ^ 32) (h : n ≤ m) : sub m n = m - n := by
  rw [sub, ← UInt32.ofNat_sub h, UInt32.toNat_ofNat_of_lt' (Nat.lt_of_le_of_lt (Nat.sub_le m n) hm)]

end Word

/-- A step of the walk that keeps its level in a word. -/
def Pairing.stepByWord (p : Pairing) (index : ℕ) : Token.Kind → Option Pairing
  | .lparen =>
      some ⟨(index, Word.add p.level 1) :: p.openings, Word.add p.level 1, p.closed⟩
  | .rparen =>
      match p.openings with
      | [] => none
      | (opening, level) :: openings =>
          some ⟨openings, Word.sub p.level 1, ⟨opening, index + 1, level⟩ :: p.closed⟩
  | _ => some p

/-- While a word can hold the number of tokens the steps are the same. -/
lemma Pairing.stepByWord_eq {front : List Token} {q : Pairing} (h : start.run 0 front = (q, none))
    (hlen : front.length + 1 < 2 ^ 32) (kind : Token.Kind) :
    q.stepByWord front.length kind = q.step front.length kind := by
  have hlevel := level_le_length h
  cases kind with
  | lparen => rw [stepByWord, step, Word.add_eq (by omega)]
  | rparen =>
      have hopen := level_eq_length h
      rw [stepByWord, step]
      cases hopenings : q.openings with
      | nil => rfl
      | cons o openings =>
          rw [hopenings, List.length_cons] at hopen
          rw [Word.sub_eq (by omega) (by omega)]
  | _ => rfl

/-- The walk over tokens of which the first has the given index, with its level in a word. -/
def Pairing.runByWord (p : Pairing) (index : ℕ) : List Token → Pairing × Option ℕ
  | [] => (p, none)
  | t :: tokens =>
      match p.stepByWord index t.kind with
      | none => (p, some index)
      | some q => q.runByWord (index + 1) tokens

/-- While a word can hold the number of tokens the walk goes on in the same way. -/
lemma Pairing.runByWord_eq {front behind : List Token} {q : Pairing}
    (h : start.run 0 front = (q, none)) (hlen : (front ++ behind).length < 2 ^ 32) :
    q.runByWord front.length behind = q.run front.length behind := by
  induction behind generalizing front q with
  | nil => rfl
  | cons t behind ih =>
      rw [List.length_append, List.length_cons] at hlen
      rw [runByWord, run, stepByWord_eq h (by omega)]
      cases hstep : q.step front.length t.kind with
      | none => rfl
      | some p =>
          have hnext : start.run 0 (front ++ [t]) = (p, none) := by
            rw [run_append h, Nat.zero_add, run, hstep]
            rfl
          have hgoes := ih hnext (by simp only [List.length_append, List.length_singleton]; omega)
          rwa [List.length_append, List.length_singleton] at hgoes

/-! ### Reading by words -/

namespace Indexed

open Formula.Parser (Scope)

/-- Sums and differences in words, which may begin again at zero. -/
def Counters.inWords : Counters where
  sum m n := pure (Word.add m n)
  difference m n := pure (Word.sub m n)

section Agreement

variable {α β : Type} {s : Scope} {ceiling calls m n : ℕ} {x y : Run α} {f g : α → Run β}

/-- What is answered with numbers up to a ceiling is answered with words as well, and the
depth is up to the ceiling again. -/
def Agrees (ceiling : ℕ) (x y : Run α) : Prop :=
  ∀ r outcome r', r.depth ≤ ceiling → x.answer r = some (outcome, r') →
    y.answer r = some (outcome, r') ∧ r'.depth ≤ ceiling

namespace Agrees

lemma of_looks (h : ∀ r, x.Looks r) : Agrees ceiling x x := by
  intro r outcome r' hd hx
  obtain rfl := h r outcome r' hx
  exact ⟨hx, hd⟩

lemma bind (hx : Agrees ceiling x y) (hf : ∀ a, Agrees ceiling (f a) (g a)) :
    Agrees ceiling (x >>= f) (y >>= g) := by
  intro r outcome r' hd h
  rcases bind_cases h with ⟨fault, hfault, rfl⟩ | ⟨a, r₁, ha, hrest⟩
  · obtain ⟨hy, hd'⟩ := hx _ _ _ hd hfault
    exact ⟨answer_bind_error hy g, hd'⟩
  · obtain ⟨hy, hd₁⟩ := hx _ _ _ hd ha
    rw [answer_bind_ok hy]
    exact hf a _ _ _ hd₁ hrest

lemma get {f g : Registers → Run β} (h : ∀ r, r.depth ≤ ceiling → Agrees ceiling (f r) (g r)) :
    Agrees ceiling (MonadState.get >>= f) (MonadState.get >>= g) := by
  intro r outcome r' hd hx
  rw [answer_bind_ok (answer_get r)] at hx ⊢
  exact h r hd _ _ _ hd hx

lemma set {r : Registers} {f g : PUnit → Run β} (hd : r.depth ≤ ceiling)
    (h : Agrees ceiling (f ⟨⟩) (g ⟨⟩)) :
    Agrees ceiling (MonadStateOf.set r >>= f) (MonadStateOf.set r >>= g) := by
  intro r₀ outcome r' _ hx
  exact h _ _ _ hd hx

/-- Changing the place leaves the depth as it was. -/
lemma modify {h : Registers → Registers} (hd : ∀ r, (h r).depth = r.depth) :
    Agrees ceiling (modify h : Run Unit) (modify h) := by
  intro r outcome r' hr hx
  obtain ⟨rfl, rfl⟩ := Prod.mk.inj (Option.some.inj hx)
  exact ⟨rfl, (hd r).trans_le hr⟩

/-- A sum up to the ceiling is the same in words. There is no answer to agree with where it
passes the ceiling. -/
lemma sum {f g : ℕ → Run β} (hceiling : ceiling < 2 ^ 32)
    (h : m + n ≤ ceiling → Agrees ceiling (f (m + n)) (g (m + n))) :
    Agrees ceiling ((Counters.upTo ceiling).sum m n >>= f) (Counters.inWords.sum m n >>= g) := by
  by_cases hle : m + n ≤ ceiling
  · have hword : Counters.inWords.sum m n = pure (m + n) :=
      congrArg pure (Word.add_eq (hle.trans_lt hceiling))
    rw [sum_upTo hle, hword, pure_bind, pure_bind]
    exact h hle
  · intro r outcome r' _ hx
    rw [sum_upTo_of_lt hle] at hx
    cases hx

/-- A difference that is not negative is the same in words. -/
lemma difference {f g : ℕ → Run β} (hceiling : ceiling < 2 ^ 32) (hm : m ≤ ceiling)
    (h : Agrees ceiling (f (m - n)) (g (m - n))) :
    Agrees ceiling ((Counters.upTo ceiling).difference m n >>= f)
      (Counters.inWords.difference m n >>= g) := by
  by_cases hle : n ≤ m
  · have hword : Counters.inWords.difference m n = pure (m - n) :=
      congrArg pure (Word.sub_eq (hm.trans_lt hceiling) hle)
    rw [difference_upTo hle, hword, pure_bind, pure_bind]
    exact h
  · intro r outcome r' _ hx
    rw [difference_upTo_of_lt hle] at hx
    cases hx

lemma attempt (h : Agrees ceiling x y) :
    Agrees ceiling (Indexed.attempt x) (Indexed.attempt y) := by
  intro r outcome r' hd hx
  rw [attempt_eq] at hx ⊢
  obtain ⟨⟨inside, r₁⟩, hinside, heq⟩ := Option.map_eq_some_iff.mp hx
  obtain ⟨rfl, rfl⟩ := Prod.mk.inj heq
  obtain ⟨hy, hd'⟩ := h _ _ _ hd hinside
  exact ⟨by rw [hy]; rfl, hd'⟩

/-- One level deeper the depth is counted, so that a word can hold it; behind it the depth is
positive, so that a word can give it back. -/
lemma nested (hceiling : ceiling < 2 ^ 32) (h : Agrees ceiling x y) :
    Agrees ceiling (Indexed.nested s (.upTo ceiling) x) (Indexed.nested s .inWords y) := by
  rw [Indexed.nested, Indexed.nested]
  refine .get fun r _ => .sum hceiling fun hle => ?_
  have hcheck : Agrees ceiling (checkDepth s (r.depth + 1) r.next)
      (checkDepth s (r.depth + 1) r.next) := .of_looks fun _ => looks_checkDepth
  have hinside := hcheck.bind fun _ => h
  refine .set hle (.bind hinside.attempt fun outcome => .get fun r hd => ?_)
  refine .difference hceiling hd (.set ((Nat.sub_le r.depth 1).trans hd) ?_)
  cases outcome with
  | error fault => exact .of_looks fun _ => looks_throw
  | ok a => exact .of_looks fun _ => looks_pure a

end Agrees

/-- With room for so many nested calls reading by words agrees with reading by numbers. -/
structure AllAgree (s : Scope) (ceiling calls : ℕ) : Prop where
  read : ∀ phrase,
    Agrees ceiling (read s (.upTo ceiling) calls phrase) (read s .inWords calls phrase)
  links : ∀ rank left count,
    Agrees ceiling (links s (.upTo ceiling) calls rank left count)
      (links s .inWords calls rank left count)
  block : ∀ index,
    Agrees ceiling (block s (.upTo ceiling) calls index) (block s .inWords calls index)
  range : ∀ start stop,
    Agrees ceiling (range s (.upTo ceiling) calls start stop) (range s .inWords calls start stop)

section Step

variable (hceiling : ceiling < 2 ^ 32) (ih : AllAgree s ceiling calls)
include ih

lemma agrees_primary :
    Agrees ceiling (read s (.upTo ceiling) (calls + 1) .primary)
      (read s .inWords (calls + 1) .primary) := by
  rw [read, read]
  refine .get fun r _ => .bind (.of_looks fun _ => looks_peek) fun t? => ?_
  cases t? with
  | none => exact .of_looks fun _ => looks_throw
  | some t =>
      refine .bind (.modify fun _ => rfl) fun _ => ?_
      cases t.kind with
      | number value => exact .of_looks fun _ => looks_pure _
      | name name => exact .of_looks fun _ => looks_pure _
      | lparen => exact ih.block r.next
      | _ => exact .of_looks fun _ => looks_throw

lemma agrees_range (start stop : ℕ) :
    Agrees ceiling (range s (.upTo ceiling) (calls + 1) start stop)
      (range s .inWords (calls + 1) start stop) := by
  rw [range, range]
  refine .get fun outer hd => .set hd (.bind (ih.read _) fun whole => .get fun r hd' => ?_)
  split
  · exact .of_looks fun _ => looks_throw
  · exact .set hd' (.of_looks fun _ => looks_pure whole)

include hceiling

/-- Both the number of operators and the depth below them are counted, so that a word can hold
either. -/
lemma agrees_links (rank : Rank) (left : Expr) (count : ℕ) :
    Agrees ceiling (links s (.upTo ceiling) (calls + 1) rank left count)
      (links s .inWords (calls + 1) rank left count) := by
  rw [links, links]
  refine .bind (.of_looks fun _ => looks_peek) fun t? => ?_
  cases t?.bind (·.kind.operator?) with
  | none => exact .of_looks fun _ => looks_pure left
  | some op =>
      by_cases hop : op.rank? = some rank
      · simp only [hop, if_true]
        refine .sum hceiling fun _ => .get fun r _ => .sum hceiling fun _ => ?_
        exact .bind (.of_looks fun _ => looks_checkDepth) fun _ =>
          .bind (.modify fun _ => rfl) fun _ => .bind (ih.read _) fun right => ih.links _ _ _
      · simp only [hop, if_false]
        exact .of_looks fun _ => looks_pure left

lemma agrees_power :
    Agrees ceiling (read s (.upTo ceiling) (calls + 1) .power)
      (read s .inWords (calls + 1) .power) := by
  rw [read, read]
  refine .bind (ih.read .signed) fun base => .bind (.of_looks fun _ => looks_peek) fun t? => ?_
  rcases t?.bind (·.kind.operator?) with _ | op
  · exact .of_looks fun _ => looks_pure base
  · cases op with
    | pow =>
        exact .bind (.modify fun _ => rfl) fun _ =>
          .bind (.nested hceiling (ih.read .power)) fun exponent => .of_looks fun _ => looks_pure _
    | _ => exact .of_looks fun _ => looks_pure base

lemma agrees_signed :
    Agrees ceiling (read s (.upTo ceiling) (calls + 1) .signed)
      (read s .inWords (calls + 1) .signed) := by
  rw [read, read]
  refine .bind (.of_looks fun _ => looks_peek) fun t? => ?_
  cases t?.bind fun t => t.kind.sign?.map (t, ·) with
  | none => exact ih.read .primary
  | some p =>
      exact .bind (.modify fun _ => rfl) fun _ =>
        .bind (.nested hceiling (ih.read .signed)) fun operand => .of_looks fun _ => looks_pure _

lemma agrees_block (index : ℕ) :
    Agrees ceiling (block s (.upTo ceiling) (calls + 1) index)
      (block s .inWords (calls + 1) index) := by
  rw [block, block]
  refine .bind (.of_looks fun _ => looks_tokenAt) fun opening => .get fun r _ => ?_
  cases (s.brackets.get? index).filter (·.stop ≤ r.stop) with
  | none => exact .of_looks fun _ => looks_throw
  | some b =>
      refine .bind (.of_looks fun _ => looks_inner) fun inside => ?_
      obtain ⟨start, stop⟩ := inside
      by_cases hempty : stop ≤ start
      · simp only [hempty, if_true]
        exact .of_looks fun _ => looks_throw
      · simp only [hempty, if_false]
        exact .bind (.nested hceiling (ih.range start stop)) fun child =>
          .bind (.modify fun _ => rfl) fun _ => .bind (.of_looks fun _ => looks_tokenAt)
            fun closing => .of_looks fun _ => looks_pure _

end Step

lemma allAgree (hceiling : ceiling < 2 ^ 32) (s : Scope) (calls : ℕ) :
    AllAgree s ceiling calls := by
  induction calls with
  | zero =>
      refine ⟨fun phrase => ?_, fun rank left count => ?_, fun index => ?_, fun start stop => ?_⟩
      · rw [read, read]
        exact .of_looks fun _ => looks_stuck
      · rw [links, links]
        exact .of_looks fun _ => looks_stuck
      · rw [block, block]
        exact .of_looks fun _ => looks_stuck
      · rw [range, range]
        exact .of_looks fun _ => looks_stuck
  | succ calls ih =>
      refine ⟨fun phrase => ?_, agrees_links hceiling ih, agrees_block hceiling ih,
        agrees_range ih⟩
      cases phrase with
      | chain rank =>
          rw [read, read]
          exact .bind (ih.read _) fun first => ih.links rank first 0
      | power => exact agrees_power hceiling ih
      | signed => exact agrees_signed hceiling ih
      | primary => exact agrees_primary ih

/-- Reading by words answers whatever reading by numbers answers below a ceiling that a word
can hold. -/
lemma ofTokens_inWords {tokens : List Token} {brackets : Brackets} {limits : Limits}
    {outcome : Except Fault Expr} (hceiling : ceiling < 2 ^ 32)
    (h : ofTokens (.upTo ceiling) calls tokens brackets limits = some outcome) :
    ofTokens .inWords calls tokens brackets limits = some outcome := by
  obtain ⟨⟨outcome, r⟩, htree, rfl⟩ := Option.map_eq_some_iff.mp h
  have hagrees : Agrees ceiling
      (tree ⟨tokens, brackets, limits.maxDepth⟩ (.upTo ceiling) calls)
      (tree ⟨tokens, brackets, limits.maxDepth⟩ .inWords calls) := by
    rw [tree, tree]
    refine .bind ((allAgree hceiling _ calls).range _ _) fun root => .of_looks fun r => ?_
    simp only
    split
    · exact looks_throw
    · exact looks_pure root
  rw [ofTokens, (hagrees _ _ _ (Nat.zero_le ceiling) htree).1]
  rfl

end Agreement

end Indexed

/-- **Counters fit in words**, whichever tokens the pairs belong to and whatever the limit on
the depth: the level of pairing is the number of open parentheses, no more than the tokens
passed, and positive where it is taken down; each pair has room for its parentheses; and no
depth, no number of operators and no sum of both passes the number of tokens. So pairing and
reading that count in words, and begin again at zero behind the greatest one, answer what
exact counting answers: no limit is missed. -/
theorem counters_fit_in_words {tokens : List Token} (hlen : tokens.length < 2 ^ 32)
    {brackets : Brackets}
    (hb : brackets = Brackets.empty ∨ ∃ others, Brackets.ofTokens others = .ok brackets)
    (limits : Limits) :
    (∀ front behind q, tokens = front ++ behind → Pairing.start.run 0 front = (q, none) →
        q.level = q.openings.length ∧ q.level ≤ front.length
          ∧ ∀ index q', q.step index .rparen = some q' → 0 < q.level ∧ q'.level = q.level - 1)
      ∧ Pairing.start.runByWord 0 tokens = Pairing.start.run 0 tokens
      ∧ (∀ b ∈ brackets.blocks,
        b.start + 2 ≤ b.stop ∧ b.innerStop + 1 = b.stop ∧ b.innerStart ≤ b.innerStop)
      ∧ ∀ calls, 4 * tokens.length + 6 ≤ calls →
        Indexed.ofTokens (.upTo tokens.length) calls tokens brackets limits
            = some (Expr.ofTokens tokens brackets limits)
          ∧ Indexed.ofTokens .inWords calls tokens brackets limits
            = some (Expr.ofTokens tokens brackets limits) := by
  have hstart : Pairing.start.run 0 [] = (Pairing.start, none) := rfl
  refine ⟨?_, Pairing.runByWord_eq hstart hlen, ?_, ?_⟩
  · rintro front behind q - h
    exact ⟨Pairing.level_eq_length h, Pairing.level_le_length h,
      fun index q' hs => Pairing.level_pos_of_step h hs⟩
  · intro b hmem
    have hroom : b.start + 2 ≤ b.stop := by
      rcases hb with rfl | ⟨others, hothers⟩
      · cases hmem
      · exact Brackets.start_add_two_le hothers hmem
    rw [Block.innerStart, Block.innerStop]
    exact ⟨hroom, by omega, by omega⟩
  · intro calls hcalls
    have hindexed := Indexed.ofTokens_eq limits (Brackets.hasRoom_of_known hb) hcalls
    exact ⟨hindexed, Indexed.ofTokens_inWords hlen hindexed⟩

/-- The limit on the depth may be the greatest word. -/
theorem counters_below_greatest_limit :
    Indexed.ofTokens .inWords 26 [⟨.lparen, ⟨0, 1⟩⟩, ⟨.name "x", ⟨1, 2⟩⟩, ⟨.rparen, ⟨2, 3⟩⟩,
        ⟨.operator .pow, ⟨3, 4⟩⟩, ⟨.name "y", ⟨4, 5⟩⟩] ⟨[⟨0, 3, 1⟩]⟩ ⟨2 ^ 32 - 1, 5⟩
      = some (.ok (.binary .pow (.block (.unknown "x" ⟨1, 2⟩) ⟨0, 3⟩) (.unknown "y" ⟨4, 5⟩)
        ⟨0, 5⟩)) := by
  have hpairs : Brackets.ofTokens [⟨.lparen, ⟨0, 1⟩⟩, ⟨.name "x", ⟨1, 2⟩⟩, ⟨.rparen, ⟨2, 3⟩⟩,
      ⟨.operator .pow, ⟨3, 4⟩⟩, ⟨.name "y", ⟨4, 5⟩⟩] = .ok ⟨[⟨0, 3, 1⟩]⟩ := by cbv
  have hlen : [(⟨.lparen, ⟨0, 1⟩⟩ : Token), ⟨.name "x", ⟨1, 2⟩⟩, ⟨.rparen, ⟨2, 3⟩⟩,
      ⟨.operator .pow, ⟨3, 4⟩⟩, ⟨.name "y", ⟨4, 5⟩⟩].length < 2 ^ 32 := by decide
  have hread := (counters_fit_in_words hlen (Or.inr ⟨_, hpairs⟩) ⟨2 ^ 32 - 1, 5⟩).2.2.2 26 le_rfl
  rw [hread.2, ← hread.1]
  decide +kernel

end Formula
