import Formula.Proofs.Confinement

/-!
What reading does to its registers.

* `Kept`: the depth is what it was, and the next token still lies in the range; if reading
  answers, the range goes on as before, and some tokens have been passed.
* `Run.Keeps`: a piece of reading keeps its place so, as often as it answers at all, whatever
  the ceiling and the room for calls; `Keeps.bind`, `Keeps.look`, `Keeps.nested`, …: how it is
  put together.
* `nested_cases`: what comes of reading one level deeper.
* `RangeRead`: what has come of reading a whole range, which changes the range for a time.
* `Disciplined`: all phrases keep their place; `disciplined` is the induction over the calls.
* `answers_read`, `answers_block`, `answers_range`: with room enough the answer is what a
  cursor answers.
* `reading_keeps_place`: both together, for each way of reading.
-/

namespace Formula

lemma Phrase.steps_le (phrase : Phrase) : phrase.steps ≤ 4 := by
  cases phrase with
  | chain rank => cases rank <;> decide
  | _ => decide

namespace Indexed

open Formula.Parser (Scope Cursor Confined)

variable {α β : Type} {s : Scope} {ceiling calls n m index start stop : ℕ} {r r' : Registers}
  {x : Run α} {f : α → Run β} {outcome : Except Fault α} {fault : Fault}

/-- What is kept of the registers, whatever has come of reading. A fault may leave the range
narrower than it was. -/
structure Kept (progress : ℕ) (r : Registers) (outcome : Except Fault α) (r' : Registers) :
    Prop where
  depth_eq : r'.depth = r.depth
  le_next : r.next ≤ r'.next
  next_le : r'.next ≤ r'.stop
  stop_le : r'.stop ≤ r.stop
  of_ok : ∀ a, outcome = .ok a → r'.stop = r.stop ∧ r.next + progress ≤ r'.next

/-- A fault need not have passed any token. -/
lemma Kept.of_error (hdepth : r'.depth = r.depth) (hle : r.next ≤ r'.next)
    (hnext : r'.next ≤ r'.stop) (hstop : r'.stop ≤ r.stop) (fault : Fault) :
    Kept n r (.error fault : Except Fault α) r' :=
  ⟨hdepth, hle, hnext, hstop, fun _ ha => nomatch ha⟩

/-- What is kept by whatever has come of reading is kept by a fault as well. -/
lemma Kept.error (h : Kept n r outcome r') (fault : Fault) :
    Kept n r (.error fault : Except Fault β) r' :=
  .of_error h.depth_eq h.le_next h.next_le h.stop_le fault

/-- A piece of reading keeps its place as often as it answers. -/
def Run.Keeps (x : Run α) (progress : ℕ) (r : Registers) : Prop :=
  ∀ outcome r', x.answer r = some (outcome, r') → Kept progress r outcome r'

/-! ### Pieces that only look -/

/-- A piece of reading leaves the registers as they are as often as it answers. -/
def Run.Looks (x : Run α) (r : Registers) : Prop :=
  ∀ outcome r', x.answer r = some (outcome, r') → r' = r

/-- Two pieces one behind the other end with a fault of the first, or as the second does. -/
lemma bind_cases {outcome : Except Fault β} (h : Run.answer (x >>= f) r = some (outcome, r')) :
    (∃ fault, x.answer r = some (.error fault, r') ∧ outcome = .error fault)
      ∨ ∃ a r₁, x.answer r = some (.ok a, r₁) ∧ (f a).answer r₁ = some (outcome, r') := by
  rw [answer_bind] at h
  obtain ⟨⟨fault | a, r₁⟩, hx, hrest⟩ := Option.bind_eq_some_iff.mp h
  · obtain ⟨rfl, rfl⟩ := Prod.mk.inj (Option.some.inj hrest)
    exact Or.inl ⟨fault, hx, rfl⟩
  · exact Or.inr ⟨a, r₁, hx, hrest⟩

lemma looks_pure (a : α) : Run.Looks (pure a) r := by
  rintro outcome r' h
  obtain ⟨-, rfl⟩ := Prod.mk.inj (Option.some.inj h)
  rfl

lemma looks_stuck : Run.Looks (stuck : Run α) r := by
  rintro outcome r' ⟨⟩

lemma looks_throw : Run.Looks (throw fault : Run α) r := by
  rintro outcome r' h
  obtain ⟨-, rfl⟩ := Prod.mk.inj (Option.some.inj h)
  rfl

lemma looks_sum : ((Counters.upTo ceiling).sum m n).Looks r := by
  by_cases h : m + n ≤ ceiling
  · rw [sum_upTo h]
    exact looks_pure (m + n)
  · rw [sum_upTo_of_lt h]
    exact looks_stuck

lemma looks_tokenAt : (tokenAt s index).Looks r := by
  rw [tokenAt]
  split
  · exact looks_pure _
  · exact looks_stuck

lemma looks_checkDepth {depth : ℕ} : (checkDepth s depth index).Looks r := by
  rw [checkDepth]
  split
  · exact looks_pure _
  · exact looks_throw

lemma looks_inner {b : Block} : (inner b).Looks r := by
  rw [inner]
  split
  · exact looks_pure _
  · exact looks_stuck

lemma attempt_eq : (attempt x).answer r = (x.answer r).map fun p => (.ok p.1, p.2) := by
  have hunfold : (attempt x).answer r = (x.answer r).bind fun p => some (.ok p.1, p.2) := rfl
  rw [hunfold, Option.map_eq_bind]
  rfl

/-- Peeking finds the token with the index of the next one, in front of the end of the range,
or nothing at the end. -/
lemma peek_cases {t? : Except Fault (Option Token)} (h : (peek s).answer r = some (t?, r')) :
    r' = r ∧ ((t? = .ok none ∧ r.stop ≤ r.next) ∨ ∃ t, t? = .ok (some t) ∧ r.next < r.stop) := by
  rw [peek, answer_bind_ok (answer_get r)] at h
  by_cases hlt : r.next < r.stop
  · rw [if_pos hlt, map_eq_pure_bind, tokenAt] at h
    cases ht : s.tokens[r.next]? with
    | none =>
        rw [ht] at h
        cases h
    | some t =>
        rw [ht, pure_bind] at h
        obtain ⟨rfl, rfl⟩ := Prod.mk.inj (Option.some.inj h)
        exact ⟨rfl, Or.inr ⟨t, rfl, hlt⟩⟩
  · rw [if_neg hlt] at h
    obtain ⟨rfl, rfl⟩ := Prod.mk.inj (Option.some.inj h)
    exact ⟨rfl, Or.inl ⟨rfl, Nat.le_of_not_lt hlt⟩⟩

lemma looks_peek : (peek s).Looks r := fun _ _ h => (peek_cases h).1

/-! ### How keeping is put together -/

namespace Run.Keeps

lemma pure (hr : r.next ≤ r.stop) (a : α) : Run.Keeps (pure a) 0 r := by
  intro outcome r' h
  obtain ⟨-, rfl⟩ := Prod.mk.inj (Option.some.inj h)
  exact ⟨rfl, le_rfl, hr, le_rfl, fun _ _ => ⟨rfl, le_rfl⟩⟩

lemma throw (hr : r.next ≤ r.stop) : Run.Keeps (throw fault : Run α) n r := by
  intro outcome r' h
  obtain ⟨rfl, rfl⟩ := Prod.mk.inj (Option.some.inj h)
  exact .of_error rfl le_rfl hr le_rfl fault

/-- What follows begins where the first piece ended, in the same range. -/
lemma bind (hx : x.Keeps n r) (hf : ∀ a r', r'.next ≤ r'.stop → (f a).Keeps 0 r') :
    Run.Keeps (x >>= f) n r := by
  intro outcome r' h
  rcases bind_cases h with ⟨fault, hfault, rfl⟩ | ⟨a, r₁, ha, hrest⟩
  · exact (hx _ _ hfault).error fault
  · have hk := hx _ _ ha
    obtain ⟨hstop, hnext⟩ := hk.of_ok a rfl
    have hk' := hf a r₁ hk.next_le _ _ hrest
    refine ⟨hk'.depth_eq.trans hk.depth_eq, hk.le_next.trans hk'.le_next, hk'.next_le,
      hk'.stop_le.trans hk.stop_le, fun b hb => ?_⟩
    exact ⟨(hk'.of_ok b hb).1.trans hstop, hnext.trans hk'.le_next⟩

/-- What follows a look begins at the same place. -/
lemma look (hr : r.next ≤ r.stop) (hx : x.Looks r)
    (hf : ∀ a, x.answer r = some (.ok a, r) → (f a).Keeps n r) : Run.Keeps (x >>= f) n r := by
  intro outcome r' h
  rcases bind_cases h with ⟨fault, hfault, rfl⟩ | ⟨a, r₁, ha, hrest⟩
  · obtain rfl := hx _ _ hfault
    exact throw hr _ _ rfl
  · obtain rfl := hx _ _ ha
    exact hf a ha _ _ hrest

lemma get {g : Registers → Run β} (h : (g r).Keeps n r) : Run.Keeps (MonadState.get >>= g) n r := by
  intro outcome r' hx
  exact h outcome r' hx

/-- Whoever passes some tokens keeps his place all the same. -/
lemma weaken (hx : x.Keeps n r) : x.Keeps 0 r := by
  intro outcome r' ha
  have hk := hx outcome r' ha
  exact ⟨hk.depth_eq, hk.le_next, hk.next_le, hk.stop_le,
    fun a hok => ⟨(hk.of_ok a hok).1, hk.le_next⟩⟩

/-- What goes on behind the next token has passed that token. -/
lemma advance {g : Unit → Run β} (h : (g ()).Keeps 0 { r with next := r.next + 1 }) :
    Run.Keeps (Indexed.advance >>= g) 1 r := by
  intro outcome r' ha
  have hk := h outcome r' ha
  exact ⟨hk.depth_eq, (Nat.le_succ _).trans hk.le_next, hk.next_le, hk.stop_le,
    fun a hok => ⟨(hk.of_ok a hok).1, hk.le_next⟩⟩

end Run.Keeps

/-! ### One level deeper -/

/-- What is read one level deeper comes of what is read there, or of the limit, which refuses
the level. Behind it the level is taken back, also after a fault. -/
lemma nested_cases (h : (nested s (.upTo ceiling) x).answer r = some (outcome, r')) :
    (∃ fault, outcome = .error fault ∧ r' = r)
      ∨ ∃ r₁, x.answer { r with depth := r.depth + 1 } = some (outcome, r₁)
        ∧ r' = { r₁ with depth := r₁.depth - 1 } := by
  rw [nested, answer_bind_ok (answer_get r)] at h
  by_cases hd : r.depth + 1 ≤ ceiling
  swap
  · rw [sum_upTo_of_lt hd] at h
    cases h
  rw [answer_bind_ok (answer_sum hd r), answer_bind_ok (answer_set r _)] at h
  rcases hx : Run.answer (do checkDepth s (r.depth + 1) r.next; x) { r with depth := r.depth + 1 }
    with _ | ⟨outcome₁, r₁⟩
  · rw [answer_bind, attempt_eq, hx] at h
    cases h
  rw [answer_bind_ok (answer_attempt hx), answer_bind_ok (answer_get r₁)] at h
  by_cases hpos : 1 ≤ r₁.depth
  swap
  · rw [difference_upTo_of_lt hpos] at h
    cases h
  rw [answer_bind_ok (answer_difference hpos r₁), answer_bind_ok (answer_set r₁ _)] at h
  have heq : outcome = outcome₁ ∧ r' = { r₁ with depth := r₁.depth - 1 } := by
    cases outcome₁ <;> obtain ⟨rfl, rfl⟩ := Prod.mk.inj (Option.some.inj h) <;> exact ⟨rfl, rfl⟩
  obtain ⟨rfl, rfl⟩ := heq
  rcases bind_cases hx with ⟨fault, hcheck, rfl⟩ | ⟨_, r₂, hcheck, hrest⟩
  · obtain rfl := looks_checkDepth _ _ hcheck
    exact Or.inl ⟨fault, rfl, rfl⟩
  · obtain rfl := looks_checkDepth _ _ hcheck
    exact Or.inr ⟨r₁, hrest, rfl⟩

/-- Reading one level deeper takes back the level, whatever comes of it, if what is read there
leaves the depth as it found it. -/
lemma depth_eq_of_nested
    (hx : ∀ outcome r₁, x.answer { r with depth := r.depth + 1 } = some (outcome, r₁) →
      r₁.depth = r.depth + 1)
    (h : (nested s (.upTo ceiling) x).answer r = some (outcome, r')) : r'.depth = r.depth := by
  rcases nested_cases h with ⟨_, -, rfl⟩ | ⟨r₁, h₁, rfl⟩
  · rfl
  · simp only [hx _ _ h₁, Nat.add_sub_cancel]

lemma Run.Keeps.nested (hr : r.next ≤ r.stop) (h : x.Keeps n { r with depth := r.depth + 1 }) :
    (nested s (.upTo ceiling) x).Keeps n r := by
  intro outcome r' ha
  have hdepth := depth_eq_of_nested (fun _ _ h₁ => (h _ _ h₁).depth_eq) ha
  rcases nested_cases ha with ⟨fault, rfl, rfl⟩ | ⟨r₁, h₁, rfl⟩
  · exact throw hr _ _ rfl
  · have hk := h _ _ h₁
    exact ⟨hdepth, hk.le_next, hk.next_le, hk.stop_le, hk.of_ok⟩

/-- A node above what is read one level deeper behind the next token. -/
lemma Run.Keeps.above (hlt : r.next < r.stop) (h : x.Keeps 1 ⟨r.next + 1, r.stop, r.depth + 1⟩)
    (node : α → β) :
    Run.Keeps (do
      Indexed.advance
      let a ← Indexed.nested s (.upTo ceiling) x
      return node a) 1 r := by
  have hbehind : r.next + 1 ≤ r.stop := hlt
  have hnested : (Indexed.nested s (.upTo ceiling) x).Keeps 0 { r with next := r.next + 1 } :=
    .nested hbehind h.weaken
  exact .advance (hnested.bind fun a r' hr' => .pure hr' (node a))

/-! ### Phrases -/

/-- What comes of reading a whole range. At its end the outer range goes on as before; a fault
leaves the cursor somewhere in the range. -/
inductive RangeRead (start stop : ℕ) (r : Registers) : Except Fault Expr → Registers → Prop
  | ok (e : Expr) : RangeRead start stop r (.ok e) ⟨stop, r.stop, r.depth⟩
  | error {fault : Fault} {r' : Registers}
      (h : Kept 1 ⟨start, stop, r.depth⟩ (.error fault : Except Fault Expr) r') :
      RangeRead start stop r (.error fault) r'

/-- With room for so many nested calls all that is read keeps its place. A phrase passes at
least one token, and so does a group behind its `(`. A range that is read to its end leaves
the cursor there, and the outer range as it was. -/
structure Disciplined (s : Scope) (ceiling calls : ℕ) : Prop where
  read : ∀ phrase r, r.next ≤ r.stop → (Indexed.read s (.upTo ceiling) calls phrase).Keeps 1 r
  links : ∀ rank left count r, r.next ≤ r.stop →
    (Indexed.links s (.upTo ceiling) calls rank left count).Keeps 0 r
  block : ∀ index r, r.next = index + 1 → r.next ≤ r.stop →
    (Indexed.block s (.upTo ceiling) calls index).Keeps 1 r
  range : ∀ start stop r outcome r', start ≤ stop →
    (Indexed.range s (.upTo ceiling) calls start stop).answer r = some (outcome, r') →
      RangeRead start stop r outcome r'

lemma disciplined_zero : Disciplined s ceiling 0 where
  read := by
    rintro phrase r - outcome r' h
    rw [Indexed.read] at h
    cases h
  links := by
    rintro rank left count r - outcome r' h
    rw [Indexed.links] at h
    cases h
  block := by
    rintro index r - - outcome r' h
    rw [Indexed.block] at h
    cases h
  range := by
    rintro start stop r outcome r' - h
    rw [Indexed.range] at h
    cases h

section Step

variable (ih : Disciplined s ceiling calls) (hr : r.next ≤ r.stop)
include ih hr

lemma keeps_links (rank : Rank) (left : Expr) (count : ℕ) :
    (links s (.upTo ceiling) (calls + 1) rank left count).Keeps 0 r := by
  rw [links]
  refine .look hr looks_peek fun t? ht => ?_
  rcases peek_cases ht with ⟨-, ⟨hnone, -⟩ | ⟨t, hsome, hlt⟩⟩
  · obtain rfl := Except.ok.inj hnone
    exact .pure hr left
  obtain rfl := Except.ok.inj hsome
  rw [Option.bind_some]
  split
  · split
    · refine .look hr looks_sum fun count' _ => .get ?_
      refine .look hr looks_sum fun depth _ => .look hr looks_checkDepth fun _ _ => ?_
      have hread := ih.read rank.operand { r with next := r.next + 1 } hlt
      exact (Run.Keeps.advance (hread.bind fun _ r' hr' => ih.links _ _ _ r' hr').weaken).weaken
    · exact .pure hr left
  · exact .pure hr left

lemma keeps_power : (read s (.upTo ceiling) (calls + 1) .power).Keeps 1 r := by
  rw [read]
  refine (ih.read .signed r hr).bind fun base r' hr' => ?_
  refine .look hr' looks_peek fun t? ht => ?_
  rcases peek_cases ht with ⟨-, ⟨hnone, -⟩ | ⟨t, hsome, hlt⟩⟩
  · obtain rfl := Except.ok.inj hnone
    exact .pure hr' base
  obtain rfl := Except.ok.inj hsome
  split
  · exact (Run.Keeps.above hlt (ih.read .power _ hlt) _).weaken
  · exact .pure hr' base

lemma keeps_signed : (read s (.upTo ceiling) (calls + 1) .signed).Keeps 1 r := by
  rw [read]
  refine .look hr looks_peek fun t? ht => ?_
  rcases peek_cases ht with ⟨-, ⟨hnone, -⟩ | ⟨t, hsome, hlt⟩⟩
  · obtain rfl := Except.ok.inj hnone
    exact ih.read .primary r hr
  obtain rfl := Except.ok.inj hsome
  split
  · exact .above hlt (ih.read .signed _ hlt) _
  · exact ih.read .primary r hr

lemma keeps_primary : (read s (.upTo ceiling) (calls + 1) .primary).Keeps 1 r := by
  rw [read]
  refine .get (.look hr looks_peek fun t? ht => ?_)
  rcases peek_cases ht with ⟨-, ⟨hnone, -⟩ | ⟨t, hsome, hlt⟩⟩
  · obtain rfl := Except.ok.inj hnone
    exact .throw hr
  obtain rfl := Except.ok.inj hsome
  have hbehind : ({ r with next := r.next + 1 } : Registers).next ≤ r.stop := hlt
  refine .advance ?_
  split
  · exact .pure hbehind _
  · exact .pure hbehind _
  · exact (ih.block r.next _ rfl hbehind).weaken
  · exact .throw hbehind

end Step

lemma rangeRead (ih : Disciplined s ceiling calls) (hle : start ≤ stop)
    {outcome : Except Fault Expr}
    (h : (range s (.upTo ceiling) (calls + 1) start stop).answer r = some (outcome, r')) :
    RangeRead start stop r outcome r' := by
  rw [range, answer_bind_ok (answer_get r), answer_bind_ok (answer_set r _)] at h
  have hread := ih.read (.chain .sum) ⟨start, stop, r.depth⟩ hle
  rcases bind_cases h with ⟨fault, hfault, rfl⟩ | ⟨e, r₁, he, hrest⟩
  · exact .error (hread _ _ hfault)
  · have hk := hread _ _ he
    obtain ⟨hstop, -⟩ := hk.of_ok e rfl
    rw [answer_bind_ok (answer_get r₁)] at hrest
    by_cases hlt : r₁.next < r₁.stop
    · rw [if_pos hlt] at hrest
      obtain ⟨rfl, rfl⟩ := Prod.mk.inj (Option.some.inj hrest)
      exact .error (hk.error _)
    · rw [if_neg hlt] at hrest
      obtain ⟨rfl, rfl⟩ := Prod.mk.inj (Option.some.inj hrest)
      have hend : r₁.next = stop := (le_antisymm hk.next_le (Nat.le_of_not_lt hlt)).trans hstop
      rw [hend, hk.depth_eq]
      exact .ok e

/-- The inside of a group lies in the range, and so does what stands behind the group. -/
lemma keeps_group (ih : Disciplined s ceiling calls) (hnext : r.next = index + 1) {b : Block}
    (hstart : b.start = index) (hb : b.start + 2 ≤ b.stop) (hstop : b.stop ≤ r.stop)
    (opening : Token) :
    Run.Keeps (do
      let child ← nested s (.upTo ceiling) (range s (.upTo ceiling) calls b.innerStart b.innerStop)
      modify fun r => { r with next := b.stop }
      let closing ← tokenAt s b.innerStop
      return Expr.block child (opening.span.merge closing.span)) 1 r := by
  have hinner : b.innerStart = r.next := by rw [Block.innerStart, hstart, hnext]
  have houter : b.innerStop + 1 = b.stop := by rw [Block.innerStop]; omega
  have hle : b.innerStart ≤ b.innerStop := by omega
  intro outcome r' h
  rcases bind_cases h with ⟨fault, hfault, rfl⟩ | ⟨child, r₁, hchild, hrest⟩
  · rcases nested_cases hfault with ⟨_, -, rfl⟩ | ⟨r₁, hrange, rfl⟩
    · exact Run.Keeps.throw (by omega) _ _ rfl
    · cases ih.range _ _ _ _ _ hle hrange with
      | error hk =>
          have hbehind : r₁.stop ≤ b.innerStop := hk.stop_le
          refine .of_error ?_ ?_ ?_ ?_ fault
          · simp only [hk.depth_eq, Nat.add_sub_cancel]
          · exact hinner ▸ hk.le_next
          · exact hk.next_le
          · exact hbehind.trans (by omega)
  · rcases nested_cases hchild with ⟨_, hfault, -⟩ | ⟨r₁, hrange, rfl⟩
    · cases hfault
    cases ih.range _ _ _ _ _ hle hrange
    rw [answer_bind_ok (answer_modify _ _)] at hrest
    have hclosing : Run.Keeps (do
        let closing ← tokenAt s b.innerStop
        return Expr.block child (opening.span.merge closing.span)) 0 ⟨b.stop, r.stop, r.depth⟩ :=
      .look hstop looks_tokenAt fun _ _ => .pure hstop _
    have hk := hclosing _ _ hrest
    have hnext' : b.stop ≤ r'.next := hk.le_next
    exact ⟨hk.depth_eq, by omega, hk.next_le, hk.stop_le,
      fun a ha => ⟨(hk.of_ok a ha).1, by omega⟩⟩

lemma keeps_block (ih : Disciplined s ceiling calls) (hnext : r.next = index + 1)
    (hr : r.next ≤ r.stop) : (block s (.upTo ceiling) (calls + 1) index).Keeps 1 r := by
  rw [block]
  refine .look hr looks_tokenAt fun opening _ => .get ?_
  split
  · exact .throw hr
  · next b hb =>
    obtain ⟨hget, hstop⟩ := Option.filter_eq_some_iff.mp hb
    have hstart := Brackets.start_of_get? hget
    refine .look hr looks_inner fun inside hinside => ?_
    rw [inner] at hinside
    split at hinside
    · next hroom =>
      obtain rfl := Except.ok.inj (Prod.mk.inj (Option.some.inj hinside)).1
      simp only
      split
      · exact .throw hr
      · exact keeps_group ih hnext hstart hroom (of_decide_eq_true hstop) opening
    · cases hinside

/-- All phrases keep their place, whatever the room for calls. -/
lemma disciplined (s : Scope) (ceiling calls : ℕ) : Disciplined s ceiling calls := by
  induction calls with
  | zero => exact disciplined_zero
  | succ calls ih =>
      refine ⟨?_, fun _ _ _ _ hr => keeps_links ih hr _ _ _, fun _ _ => keeps_block ih,
        fun _ _ _ _ _ hle h => rangeRead ih hle h⟩
      intro phrase r hr
      cases phrase with
      | chain rank =>
          rw [read]
          exact (ih.read rank.operand r hr).bind fun first r' hr' => ih.links _ _ _ r' hr'
      | power => exact keeps_power ih hr
      | signed => exact keeps_signed ih hr
      | primary => exact keeps_primary ih hr

/-! ### Answers -/

/-- The cursor at the same place, with the tokens of the range that are still to be read. -/
def Registers.cursor (tokens : List Token) (r : Registers) : Cursor :=
  ⟨r.next, (tokens.take r.stop).drop r.next, r.depth⟩

section Cursor

variable (hnext : r.next ≤ r.stop) (hstop : r.stop ≤ s.tokens.length)
include hstop

lemma length_cursor : (r.cursor s.tokens).rest.length = r.stop - r.next := by
  simp [Registers.cursor, Nat.min_eq_left hstop]

include hnext

lemma stop_cursor : (r.cursor s.tokens).stop = r.stop := by
  rw [Cursor.stop, length_cursor hstop]
  exact Nat.add_sub_of_le hnext

lemma registers_cursor : (r.cursor s.tokens).registers = r := by
  rw [Cursor.registers, stop_cursor hnext hstop]
  rfl

lemma confined_cursor (hd : r.depth + (r.stop - r.next) ≤ ceiling) :
    Confined s ceiling (r.cursor s.tokens) where
  part := by
    rw [Registers.cursor, List.drop_take]
    exact List.take_prefix _ _
  stop_le := (stop_cursor hnext hstop).trans_le hstop
  depth_le := by
    rw [length_cursor hstop]
    exact hd

end Cursor

/-- A piece of reading answers what is answered with a cursor; `place` tells the registers
behind it. -/
inductive Answers (x : Run Expr) (r : Registers) (place : Cursor → Registers) :
    Except Fault (Expr × Cursor) → Prop
  | ok {e : Expr} {c : Cursor} (h : x.answer r = some (.ok e, place c)) :
      Answers x r place (.ok (e, c))
  | error {fault : Fault} {r' : Registers} (h : x.answer r = some (.error fault, r')) :
      Answers x r place (.error fault)

lemma Answers.of_follows {c : Cursor} {x : Run Expr} {y : Except Fault (Expr × Cursor)}
    (h : Follows s n c x y) : Answers x c.registers Cursor.registers y := by
  cases h with
  | ok _ _ hx => exact .ok hx
  | error _ hx _ => exact .error hx

section Answers

variable (hroom : s.brackets.HasRoom)
include hroom

/-- With room for the tokens of the range each phrase is answered. -/
lemma answers_read (hnext : r.next ≤ r.stop) (hstop : r.stop ≤ s.tokens.length)
    (hd : r.depth + (r.stop - r.next) ≤ ceiling) (hcalls : 4 * (r.stop - r.next) + 5 ≤ calls)
    (phrase : Phrase) :
    Answers (read s (.upTo ceiling) calls phrase) r Cursor.registers
      (Parser.read s phrase (r.cursor s.tokens)) := by
  have hsteps := phrase.steps_le
  have hread := (room hroom calls : Room s ceiling calls).read phrase _
    (confined_cursor hnext hstop hd) (by rw [length_cursor hstop]; omega)
  have hanswers := Answers.of_follows hread
  rwa [registers_cursor hnext hstop] at hanswers

/-- A group is answered behind its `(`. -/
lemma answers_block {span : Span} (hopen : s.tokens[r.next]? = some ⟨.lparen, span⟩)
    (hlt : r.next < r.stop) (hstop : r.stop ≤ s.tokens.length)
    (hd : r.depth + (r.stop - r.next) ≤ ceiling) (hcalls : 4 * (r.stop - r.next) ≤ calls + 1) :
    Answers (block s (.upTo ceiling) calls r.next) { r with next := r.next + 1 } Cursor.registers
      (Parser.read s .primary (r.cursor s.tokens)) := by
  have hlength := length_cursor hstop
  have hrest : (r.cursor s.tokens).rest
      = ⟨.lparen, span⟩ :: (s.tokens.take r.stop).drop (r.next + 1) := by
    obtain ⟨hlt', hget⟩ := List.getElem?_eq_some_iff.mp hopen
    have htake : r.next < (s.tokens.take r.stop).length := by
      rw [List.length_take]
      omega
    rw [Registers.cursor, List.drop_eq_getElem_cons htake, List.getElem_take, hget]
  have hblock := (room hroom calls : Room s ceiling calls).block _ _ _ hrest
    (confined_cursor hlt.le hstop hd) (by rw [hlength]; exact hcalls)
  have hregisters : ((r.cursor s.tokens).skip 1).registers = { r with next := r.next + 1 } := by
    rw [Cursor.registers, Cursor.stop_skip (by rw [hlength]; omega), stop_cursor hlt.le hstop]
    rfl
  have hanswers := Answers.of_follows hblock
  rwa [hregisters] at hanswers

/-- A whole range is answered wherever the reader stands in front of it. -/
lemma answers_range (hle : start ≤ stop) (hstop : stop ≤ s.tokens.length)
    (hd : r.depth + (stop - start) ≤ ceiling) (hcalls : 4 * (stop - start) + 6 ≤ calls) :
    Answers (range s (.upTo ceiling) calls start stop) r (fun _ => ⟨stop, r.stop, r.depth⟩)
      (Parser.readAll s (Registers.cursor s.tokens ⟨start, stop, r.depth⟩)) := by
  obtain ⟨calls, rfl⟩ : ∃ k, calls = k + 1 := ⟨calls - 1, by omega⟩
  have hread := answers_read (r := ⟨start, stop, r.depth⟩) hroom hle hstop hd
    (Nat.le_of_succ_le_succ hcalls) (.chain .sum)
  rw [Parser.readAll_eq]
  generalize Parser.read s (.chain .sum) (Registers.cursor s.tokens ⟨start, stop, r.depth⟩) = y
    at hread ⊢
  cases hread with
  | error h => exact .error (answer_range_error h)
  | @ok e c h =>
      have hk := (disciplined s ceiling calls).read (.chain .sum) ⟨start, stop, r.depth⟩ hle _ _ h
      have hend : c.stop = stop := (hk.of_ok e rfl).1
      have hdepth : c.depth = r.depth := hk.depth_eq
      have hrange := answer_range_ok (r := r) h
      change Answers _ _ _ (if c.rest.isEmpty then Except.ok (e, c)
        else .error (s.flawAt .trailingTokens c.index))
      rw [Cursor.registers, hend, hdepth] at hrange
      rw [Cursor.stop] at hend
      cases hrest : c.rest with
      | nil =>
          rw [hrest, List.length_nil, Nat.add_zero] at hend
          rw [hend, if_neg (lt_irrefl stop)] at hrange
          exact .ok hrange
      | cons t rest =>
          rw [hrest, List.length_cons] at hend
          rw [if_pos (show c.index < stop by omega)] at hrange
          exact .error hrange

end Answers

/-- **Reading keeps its place**: as often as it answers, whatever the ceiling and the room for
calls, each phrase leaves the depth as it was and the cursor in the range, also after a fault;
if it succeeds, the range goes on as before and the cursor has moved on. So does a group behind
its `(`. A whole range is read to its end, and the outer range goes on. Reading one level
deeper takes the level back. With room for the tokens of the range each of them answers what
reading answers. -/
theorem reading_keeps_place {s : Scope}
    (hb : s.brackets = Brackets.empty ∨ ∃ others, Brackets.ofTokens others = .ok s.brackets)
    {r : Registers} (hnext : r.next ≤ r.stop) (hstop : r.stop ≤ s.tokens.length)
    (ceiling calls : ℕ) :
    (∀ phrase, (read s (.upTo ceiling) calls phrase).Keeps 1 r)
      ∧ (∀ index, r.next = index + 1 → (block s (.upTo ceiling) calls index).Keeps 1 r)
      ∧ (∀ start stop, start ≤ stop → ∀ outcome r',
        (range s (.upTo ceiling) calls start stop).answer r = some (outcome, r') →
          RangeRead start stop r outcome r')
      ∧ (∀ {α : Type} (x : Run α),
        (∀ outcome r₁, x.answer { r with depth := r.depth + 1 } = some (outcome, r₁) →
          r₁.depth = r.depth + 1) →
        ∀ outcome r', (nested s (.upTo ceiling) x).answer r = some (outcome, r') →
          r'.depth = r.depth)
      ∧ (r.depth + (r.stop - r.next) < ceiling → 4 * (r.stop - r.next) + 5 ≤ calls →
        (∀ phrase, Answers (read s (.upTo ceiling) calls phrase) r Cursor.registers
            (Parser.read s phrase (r.cursor s.tokens)))
          ∧ ∀ index span, s.tokens[index]? = some ⟨.lparen, span⟩ → r.next = index + 1 →
            Answers (block s (.upTo ceiling) calls index) r Cursor.registers
              (Parser.read s .primary (Registers.cursor s.tokens ⟨index, r.stop, r.depth⟩)))
      ∧ ∀ start stop, start ≤ stop → stop ≤ s.tokens.length →
        r.depth + (stop - start) ≤ ceiling → 4 * (stop - start) + 6 ≤ calls →
          Answers (range s (.upTo ceiling) calls start stop) r (fun _ => ⟨stop, r.stop, r.depth⟩)
            (Parser.readAll s (Registers.cursor s.tokens ⟨start, stop, r.depth⟩)) := by
  have hroom := Brackets.hasRoom_of_known hb
  have hall := disciplined s ceiling calls
  refine ⟨fun phrase => hall.read phrase r hnext, fun index hi => hall.block index r hi hnext,
    fun start stop hle outcome r' => hall.range start stop r outcome r' hle,
    fun x hx outcome r' => depth_eq_of_nested hx, ?_, ?_⟩
  · intro hd hcalls
    refine ⟨answers_read hroom hnext hstop hd.le hcalls, fun index span hopen hi => ?_⟩
    obtain ⟨next, stop, depth⟩ := r
    obtain rfl : next = index + 1 := hi
    simp only at hnext hd hcalls
    exact answers_block (r := ⟨index, stop, depth⟩) hroom hopen hnext hstop
      (by simp only; omega) (by simp only; omega)
  · intro start stop hle hstop'
    exact answers_range hroom hle hstop'

/-- The group `(x)` in front of `^` is read in a range of its own, two levels deep. -/
theorem place_behind_group :
    let tokens : List Token := [⟨.lparen, ⟨0, 1⟩⟩, ⟨.name "x", ⟨1, 2⟩⟩, ⟨.rparen, ⟨2, 3⟩⟩,
      ⟨.operator .pow, ⟨3, 4⟩⟩, ⟨.name "y", ⟨4, 5⟩⟩]
    let group : Expr := .block (.unknown "x" ⟨1, 2⟩) ⟨0, 3⟩
    Brackets.ofTokens tokens = .ok ⟨[⟨0, 3, 1⟩]⟩ ∧ 0 ≤ 3 ∧ 3 ≤ tokens.length
      ∧ (read ⟨tokens, ⟨[⟨0, 3, 1⟩]⟩, 9⟩ (.upTo 6) 17 (.chain .sum)).answer ⟨0, 3, 2⟩
        = some (.ok group, ⟨3, 3, 2⟩)
      ∧ Kept 1 ⟨0, 3, 2⟩ (.ok group : Except Fault Expr) ⟨3, 3, 2⟩ := by
  intro tokens group
  have hpairs : Brackets.ofTokens tokens = .ok ⟨[⟨0, 3, 1⟩]⟩ := by cbv
  have hread : (read ⟨tokens, ⟨[⟨0, 3, 1⟩]⟩, 9⟩ (.upTo 6) 17 (.chain .sum)).answer ⟨0, 3, 2⟩
      = some (.ok group, ⟨3, 3, 2⟩) := by decide +kernel
  have hkept := (reading_keeps_place (s := ⟨tokens, ⟨[⟨0, 3, 1⟩]⟩, 9⟩) (Or.inr ⟨_, hpairs⟩)
    (r := ⟨0, 3, 2⟩) (by decide) (by decide) 6 17).1 (.chain .sum)
  exact ⟨hpairs, by decide, by decide, hread, hkept _ _ hread⟩

end Indexed

end Formula
