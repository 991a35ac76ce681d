import Mathlib.Tactic
import Formula.Bracket

/-!
Balanced tokens.

* `Closes`: some tokens close exactly the parentheses that are open in front of
  them, and each one that they open; `Closes 0` is balance.
* `Closes.append_iff`, `Closes.skip`: what closes `depth` parentheses leaves the
  others to the tokens behind it, so balanced tokens may be skipped.
* `Closes.exists_close`: an open parenthesis is closed behind balanced tokens.
* `Closes.unmatchedCloseFrom?`: counting finds no `)` that closes nothing.
-/

namespace Formula

/-- A token that is no parenthesis. -/
def Token.Kind.IsPlain (kind : Token.Kind) : Prop := kind ≠ .lparen ∧ kind ≠ .rparen

/-- A token opens a parenthesis, closes one, or does neither. -/
lemma Token.paren_cases (t : Token) :
    (∃ span, t = ⟨.lparen, span⟩) ∨ (∃ span, t = ⟨.rparen, span⟩) ∨ t.kind.IsPlain := by
  obtain ⟨kind, span⟩ := t
  cases kind with
  | lparen => exact Or.inl ⟨span, rfl⟩
  | rparen => exact Or.inr (Or.inl ⟨span, rfl⟩)
  | _ => exact Or.inr (Or.inr ⟨by simp, by simp⟩)

/-- The tokens close the `depth` parentheses open in front of them and each one
that they open, and no `)` is left over. -/
inductive Closes : ℕ → List Token → Prop
  | nil : Closes 0 []
  | opening {depth : ℕ} {span : Span} {ts : List Token} (h : Closes (depth + 1) ts) :
      Closes depth (⟨.lparen, span⟩ :: ts)
  | closing {depth : ℕ} {span : Span} {ts : List Token} (h : Closes depth ts) :
      Closes (depth + 1) (⟨.rparen, span⟩ :: ts)
  | plain {depth : ℕ} {t : Token} {ts : List Token} (ht : t.kind.IsPlain) (h : Closes depth ts) :
      Closes depth (t :: ts)

@[simp] lemma closes_nil {depth : ℕ} : Closes depth [] ↔ depth = 0 := by
  refine ⟨?_, ?_⟩
  · intro h
    cases h with
    | nil => rfl
  · rintro rfl
    exact Closes.nil

@[simp] lemma closes_lparen {depth : ℕ} {span : Span} {ts : List Token} :
    Closes depth (⟨.lparen, span⟩ :: ts) ↔ Closes (depth + 1) ts := by
  refine ⟨?_, Closes.opening⟩
  intro h
  cases h with
  | opening h => exact h
  | plain ht _ => exact absurd rfl ht.1

@[simp] lemma closes_rparen_succ {depth : ℕ} {span : Span} {ts : List Token} :
    Closes (depth + 1) (⟨.rparen, span⟩ :: ts) ↔ Closes depth ts := by
  refine ⟨?_, Closes.closing⟩
  intro h
  cases h with
  | closing h => exact h
  | plain ht _ => exact absurd rfl ht.2

@[simp] lemma not_closes_zero_rparen {span : Span} {ts : List Token} :
    ¬ Closes 0 (⟨.rparen, span⟩ :: ts) := by
  intro h
  cases h with
  | plain ht _ => exact ht.2 rfl

lemma closes_plain {depth : ℕ} {t : Token} {ts : List Token} (ht : t.kind.IsPlain) :
    Closes depth (t :: ts) ↔ Closes depth ts := by
  refine ⟨?_, Closes.plain ht⟩
  intro h
  cases h with
  | opening _ => exact absurd rfl ht.1
  | closing _ => exact absurd rfl ht.2
  | plain _ h => exact h

/-- Behind tokens that close `depth` parentheses, what is left has to close the
others. -/
lemma Closes.append_iff {depth : ℕ} {ts : List Token} (h : Closes depth ts) (more : ℕ)
    (us : List Token) : Closes (depth + more) (ts ++ us) ↔ Closes more us := by
  induction h with
  | nil => rw [Nat.zero_add, List.nil_append]
  | opening _ ih => rw [List.cons_append, closes_lparen, Nat.add_right_comm, ih]
  | closing _ ih => rw [List.cons_append, Nat.add_right_comm, closes_rparen_succ, ih]
  | plain ht _ ih => rw [List.cons_append, closes_plain ht, ih]

/-- Balanced tokens may be skipped. -/
lemma Closes.skip {ts : List Token} (h : Closes 0 ts) {depth : ℕ} {us : List Token} :
    Closes depth (ts ++ us) ↔ Closes depth us := by
  simpa using h.append_iff depth us

/-- Tokens that close more than `inner` parentheses have a `)` with just these
`inner` closed in front of it. -/
lemma Closes.exists_close {n : ℕ} {ts : List Token} (h : Closes n ts) (inner depth : ℕ)
    (hn : n = inner + (depth + 1)) :
    ∃ inside span behind, ts = inside ++ ⟨.rparen, span⟩ :: behind
      ∧ Closes inner inside ∧ Closes depth behind := by
  induction h generalizing inner with
  | nil => omega
  | @opening n open_ ts _ ih =>
      obtain ⟨inside, span, behind, rfl, hin, hbe⟩ := ih (inner + 1) (by omega)
      exact ⟨⟨.lparen, open_⟩ :: inside, span, behind, rfl, hin.opening, hbe⟩
  | @closing n close ts h ih =>
      cases inner with
      | zero =>
          obtain rfl : n = depth := by omega
          exact ⟨[], close, ts, rfl, Closes.nil, h⟩
      | succ inner =>
          obtain ⟨inside, span, behind, rfl, hin, hbe⟩ := ih inner (by omega)
          exact ⟨⟨.rparen, close⟩ :: inside, span, behind, rfl, hin.closing, hbe⟩
  | @plain n t ts ht _ ih =>
      obtain ⟨inside, span, behind, rfl, hin, hbe⟩ := ih inner hn
      exact ⟨t :: inside, span, behind, rfl, hin.plain ht, hbe⟩

/-- The last of some tokens that leave nothing open is no `(`. -/
lemma Closes.ne_lparen_of_getLast? {depth : ℕ} {ts : List Token} (h : Closes depth ts) {t : Token}
    (ht : t ∈ ts.getLast?) : t.kind ≠ .lparen := by
  induction h with
  | nil => simp at ht
  | @opening depth span ts h ih =>
      cases ts with
      | nil => exact absurd (closes_nil.mp h) (by omega)
      | cons u ts => exact ih (by simpa using ht)
  | @closing depth span ts h ih =>
      cases ts with
      | nil =>
          obtain rfl : (⟨.rparen, span⟩ : Token) = t := by simpa using ht
          simp
      | cons u ts => exact ih (by simpa using ht)
  | @plain depth u ts hu h ih =>
      cases ts with
      | nil =>
          obtain rfl : u = t := by simpa using ht
          exact hu.1
      | cons v ts => exact ih (by simpa using ht)

/-- Counting finds no `)` that closes nothing among tokens that close all that is
open. -/
lemma Closes.unmatchedCloseFrom? {depth : ℕ} {ts : List Token} (h : Closes depth ts)
    (index : ℕ) : unmatchedCloseFrom? depth index ts = none := by
  induction h generalizing index with
  | nil => rfl
  | opening _ ih => exact ih (index + 1)
  | closing _ ih => exact ih (index + 1)
  | @plain depth t ts ht _ ih =>
      obtain ⟨kind, span⟩ := t
      cases kind with
      | lparen => exact absurd rfl ht.1
      | rparen => exact absurd rfl ht.2
      | _ => exact ih (index + 1)

end Formula
