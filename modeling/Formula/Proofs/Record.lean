import Formula.Proofs.Viability

/-!
What is recorded while a source is compiled.

* `ClosedBy`: the blocks that some tokens close, in the order of their `)`.
* `Pairing.Keeps`: what the walk knows of the tokens it has passed; `Keeps.step` and
  `keeps_of_run` carry this along the walk, also where parentheses stay open.
* `closedBy_closings`, `closedBy_closings_take`: the pairs that are recorded, if the walk
  comes to its end and if it does not; `Brackets.perm_closings`: those of the answer.
* `analyse_of_lex_error` and those behind it: the record of an analysis, by the step at which
  it ends.
* `Event.message_closed_inj`: a line about a block tells the block.
* `Recorded`: the record that belongs to each outcome of compiling; `Recorded.pairwise`.
* `record_tells_stage`: compiling leaves the record that belongs to its outcome.
-/

namespace Formula

variable {ts us tokens : List Token} {blocks : List Block} {b : Block} {span : Span} {t : Token}
  {i j level : ℕ}

/-! ### The blocks that tokens close -/

/-- The blocks that some tokens close. Parentheses may stay open. -/
structure ClosedBy (tokens : List Token) (blocks : List Block) : Prop where
  /-- Each `)` closes one block, and the blocks stand in the order of these. -/
  stops : blocks.map Block.stop = (tokens.findIdxs (·.kind == .rparen)).map (· + 1)
  /-- A block reaches from a `(` to its partner. -/
  partners : ∀ b ∈ blocks, Partners tokens b.start b.innerStop
  /-- The level of a block counts the parentheses that are open behind its `(`. -/
  level : ∀ b ∈ blocks, (b.level : ℤ) = excess (tokens.take b.innerStart)

lemma Partners.append (h : Partners ts i j) (us : List Token) : Partners (ts ++ us) i j := by
  obtain ⟨before, opening, inside, closing, behind, rfl, hin, hi, hj⟩ := h
  exact ⟨before, opening, inside, closing, behind ++ us, by simp, hin, hi, hj⟩

lemma Partners.lt (h : Partners ts i j) : i < j := by
  obtain ⟨before, opening, inside, closing, behind, -, -, rfl, rfl⟩ := h
  omega

lemma Partners.lt_length (h : Partners ts i j) : i < ts.length := by
  obtain ⟨before, opening, inside, closing, behind, rfl, -, rfl, -⟩ := h
  simp

namespace ClosedBy

/-- A block that closes later stops later. -/
lemma ordered (h : ClosedBy tokens blocks) : blocks.Pairwise fun b c => b.stop < c.stop := by
  rw [← List.pairwise_map, h.stops, List.pairwise_map]
  exact List.pairwise_findIdxs.imp Nat.succ_lt_succ

/-- The blocks stay what they are in front of further tokens. -/
lemma level_append (h : ClosedBy ts blocks) (us : List Token) :
    ∀ b ∈ blocks, (b.level : ℤ) = excess ((ts ++ us).take b.innerStart) := by
  intro b hb
  have hinner : b.innerStart ≤ ts.length := (h.partners b hb).lt_length
  rw [List.take_append_of_le_length hinner]
  exact h.level b hb

/-- A token that is no `)` closes no block. -/
lemma append_other (h : ClosedBy ts blocks) (ht : t.kind ≠ .rparen) :
    ClosedBy (ts ++ [t]) blocks where
  stops := by
    rw [List.findIdxs_append, List.findIdxs_singleton, if_neg (by simpa using ht),
      List.append_nil]
    exact h.stops
  partners := fun b hb => (h.partners b hb).append [t]
  level := h.level_append [t]

/-- A `)` closes one more block, around what is behind the last open `(`. -/
lemma append_rparen (h : ClosedBy ts blocks)
    (hp : Partners (ts ++ [⟨.rparen, span⟩]) i ts.length)
    (hl : (level : ℤ) = excess (ts.take (i + 1))) :
    ClosedBy (ts ++ [⟨.rparen, span⟩]) (blocks ++ [⟨i, ts.length + 1, level⟩]) where
  stops := by
    simp [h.stops, List.findIdxs_append]
  partners := by
    refine List.forall_mem_append.mpr ⟨fun b hb => (h.partners b hb).append _, ?_⟩
    rw [List.forall_mem_singleton]
    exact hp
  level := by
    refine List.forall_mem_append.mpr ⟨h.level_append _, ?_⟩
    rw [List.forall_mem_singleton]
    show (level : ℤ) = excess ((ts ++ [(⟨.rparen, span⟩ : Token)]).take (i + 1))
    rwa [List.take_append_of_le_length hp.lt]

end ClosedBy

namespace Pairing

/-- What a walk keeps that has passed some tokens. -/
structure Keeps (q : Pairing) (ts : List Token) : Prop where
  /-- The blocks closed so far, the last one first. -/
  closedBy : ClosedBy ts q.closed.reverse
  /-- The level counts the parentheses that are open. -/
  level : (q.level : ℤ) = excess ts
  /-- Each open parenthesis is kept with the level it has reached. -/
  openings : ∀ o ∈ q.openings, o.1 < ts.length ∧ (o.2 : ℤ) = excess (ts.take (o.1 + 1))

lemma keeps_start : start.Keeps [] :=
  ⟨⟨rfl, by simp [start], by simp [start]⟩, rfl, by simp [start]⟩

/-- Further tokens leave the open parentheses where they are. -/
lemma Keeps.openings_append {q : Pairing} (h : q.Keeps ts) (us : List Token) :
    ∀ o ∈ q.openings, o.1 < (ts ++ us).length
      ∧ (o.2 : ℤ) = excess ((ts ++ us).take (o.1 + 1)) := by
  intro o ho
  obtain ⟨hlt, hlevel⟩ := h.openings o ho
  rw [List.take_append_of_le_length hlt, List.length_append]
  exact ⟨Nat.lt_add_right _ hlt, hlevel⟩

/-- One step keeps all this. The innermost open parenthesis is the partner of a `)`. -/
lemma Keeps.step {p q : Pairing} (h : p.Keeps ts)
    (ho : LeavesOpen ts (p.openings.map Prod.fst)) (hs : p.step ts.length t.kind = some q) :
    q.Keeps (ts ++ [t]) := by
  rcases t.paren_cases with ⟨span, rfl⟩ | ⟨span, rfl⟩ | ht
  · obtain rfl := Option.some.inj hs
    refine ⟨h.closedBy.append_other (by simp), ?_, ?_⟩
    · simp [h.level]
    · refine List.forall_mem_cons.mpr ⟨⟨by simp, ?_⟩, h.openings_append _⟩
      rw [List.take_of_length_le (by simp)]
      simp [h.level]
  · rw [Pairing.step] at hs
    split at hs
    · simp at hs
    · next opening level openings hopen =>
      obtain rfl := Option.some.inj hs
      rw [hopen, List.map_cons] at ho
      have hcount := ho.excess_eq
      have hall := h.openings_append [(⟨.rparen, span⟩ : Token)]
      rw [hopen] at hall
      obtain ⟨-, hlevel⟩ := h.openings (opening, level) (hopen ▸ List.mem_cons_self)
      have hpartner : Partners (ts ++ [⟨.rparen, span⟩]) opening ts.length := by
        cases ho with
        | @opening before inside _ open_ _ hin =>
            exact ⟨before, open_, inside, span, [], by simp, hin, rfl, by simp; omega⟩
      refine ⟨?_, ?_, (List.forall_mem_cons.mp hall).2⟩
      · rw [List.reverse_cons]
        exact h.closedBy.append_rparen hpartner hlevel
      · have := h.level
        rw [List.length_cons] at hcount
        simp
        omega
  · rw [step_plain p _ ht] at hs
    obtain rfl := Option.some.inj hs
    refine ⟨h.closedBy.append_other ht.2, ?_, h.openings_append _⟩
    rw [excess_append, excess_plain ht, h.level]
    simp

/-- A walk that comes to its end keeps all this of the tokens. -/
lemma keeps_of_run {q : Pairing} (h : start.run 0 ts = (q, none)) : q.Keeps ts := by
  induction ts using List.reverseRecOn generalizing q with
  | nil =>
      obtain ⟨rfl, -⟩ := Prod.mk.inj h
      exact keeps_start
  | append_singleton ts t ih =>
      obtain ⟨p, hp, hq⟩ := exists_run_of_append h
      obtain ⟨p', hs, hr⟩ := run_cons_eq hq
      obtain ⟨rfl, -⟩ := Prod.mk.inj hr
      rw [Nat.zero_add] at hs
      exact (ih hp).step (leavesOpen_of_run hp) hs

end Pairing

/-- The walk records the blocks of tokens over which it comes to its end. -/
lemma closedBy_closings {q : Pairing} (h : Pairing.start.run 0 tokens = (q, none)) :
    ClosedBy tokens (closings tokens) := by
  rw [closings, h]
  exact (Pairing.keeps_of_run h).closedBy

/-- A walk that ends early records the blocks of the tokens in front of the `)` at which
it ends. -/
lemma closedBy_closings_take {q : Pairing} (h : Pairing.start.run 0 tokens = (q, some j)) :
    ClosedBy (tokens.take j) (closings tokens) := by
  obtain ⟨before, span, behind, rfl, rfl, hr, -⟩ := Pairing.exists_of_run_some h
  rw [closings, h, Nat.zero_add, List.take_left]
  exact (Pairing.keeps_of_run hr).closedBy

/-- The brackets that pairing answers are the blocks recorded before, in another order. -/
lemma Brackets.perm_closings {brackets : Brackets} (h : ofTokens tokens = .ok brackets) :
    (closings tokens).Perm brackets.blocks := by
  obtain ⟨q, hr, -, rfl⟩ := ofTokens_eq_ok_iff.mp h
  rw [closings, hr]
  exact (List.reverse_perm _).trans (List.mergeSort_perm _ _).symm

/-! ### The record of a computation -/

namespace Logged

variable {α β : Type}

lemma lift_ok_bind (a : α) (f : α → Logged β) :
    ((liftM (.ok a : Except Fault α) : Logged α) >>= f) = f a := rfl

lemma lift_error_bind (fault : Fault) (f : α → Logged β) :
    ((liftM (.error fault : Except Fault α) : Logged α) >>= f) = ⟨[], .error fault⟩ := rfl

lemma record_bind (events : List Event) (f : Unit → Logged β) :
    (record events >>= f) = ⟨events ++ (f ()).entries, (f ()).outcome⟩ := rfl

end Logged

/-- The record of a source that has been cut into some tokens. -/
def lexedAs (tokens : List Token) : Event :=
  .lexed tokens.length (Token.unknowns tokens).length

/-- The record of a source whose tokens have been paired, without what follows. -/
def pairedAs (brackets : Brackets) : Event := .paired brackets.size brackets.maxLevel

section Analysis

variable {limits : Limits} {source : String} {fault : Fault} {brackets : Brackets} {e : Expr}

lemma analyse_of_lex_error (hlex : lex source = .error fault) :
    analyse limits source = ⟨[], .error fault⟩ := by
  rw [analyse, hlex]
  rfl

lemma analyse_of_checkCount_error (hlex : lex source = .ok tokens)
    (hcount : checkCount limits tokens = .error fault) :
    analyse limits source = ⟨[lexedAs tokens], .error fault⟩ := by
  rw [analyse, hlex, Logged.lift_ok_bind, hcount]
  rfl

variable (hlex : lex source = .ok tokens) (hcount : tokens.length ≤ limits.maxTokens)
include hlex hcount

lemma analyse_of_check_error (hc : check tokens = .error fault) :
    analyse limits source = ⟨[lexedAs tokens], .error fault⟩ := by
  rw [analyse, hlex, Logged.lift_ok_bind, checkCount_of_le hcount, hc]
  rfl

variable (hc : check tokens = .ok tokens)
include hc

lemma analyse_of_pairing_error (hb : Brackets.ofTokens tokens = .error fault) :
    analyse limits source
      = ⟨lexedAs tokens :: (closings tokens).map .closed, .error fault⟩ := by
  rw [analyse, hlex, Logged.lift_ok_bind, checkCount_of_le hcount, hc]
  simp only [Logged.lift_ok_bind, hb, Logged.lift_error_bind, Logged.record_bind, List.append_nil]
  rfl

variable (hb : Brackets.ofTokens tokens = .ok brackets)
include hb

lemma analyse_of_reading_error (he : Expr.ofTokens tokens brackets limits = .error fault) :
    analyse limits source
      = ⟨lexedAs tokens :: (closings tokens).map .closed ++ [pairedAs brackets],
        .error fault⟩ := by
  rw [analyse, hlex, Logged.lift_ok_bind, checkCount_of_le hcount, hc]
  simp only [Logged.lift_ok_bind, hb, he, Logged.lift_error_bind, Logged.record_bind]
  rfl

lemma analyse_of_reading_ok (he : Expr.ofTokens tokens brackets limits = .ok e) :
    analyse limits source
      = ⟨lexedAs tokens :: (closings tokens).map .closed
          ++ [pairedAs brackets, .parsed e.nodeCount],
        .ok ⟨e, Token.unknowns tokens⟩⟩ := by
  rw [analyse, hlex, Logged.lift_ok_bind, checkCount_of_le hcount, hc]
  simp only [Logged.lift_ok_bind, hb, he, Logged.record_bind]
  rfl

end Analysis

section Compile

variable {limits : Limits} {source : String} {fault : Fault} {a : Analysis} {events : List Event}

lemma compile_eq_of_analyse_error (h : analyse limits source = ⟨events, .error fault⟩) :
    compile limits source = ⟨events, .error fault⟩ := by
  rw [compile, h]
  rfl

/-- What is analysed is compiled, and this is recorded last. -/
lemma compile_eq_of_analyse_ok (h : analyse limits source = ⟨events, .ok a⟩) :
    ∃ c, compile limits source = ⟨events ++ [.compiled c.unknowns], .ok c⟩ ∧ c.expr = a.expr := by
  have ho : (analyse limits source).outcome = .ok a := by rw [h]
  obtain ⟨p, hp⟩ := Program.exists_ofExpr_iff.mpr (mem_unknowns_of_analyse ho)
  have hc : Compiled.ofExpr a.expr a.unknowns = .ok ⟨a.expr, a.unknowns, p⟩ :=
    bind_eq_ok_iff.mpr ⟨p, hp, rfl⟩
  refine ⟨⟨a.expr, a.unknowns, p⟩, ?_, rfl⟩
  rw [compile, h]
  show Logged.bind ⟨events, .ok a⟩ _ = _
  rw [Logged.bind]
  simp only [hc]
  rfl

end Compile

/-! ### Lines -/

/-- A number is read off the digits in front of what is no digit. -/
lemma toDigits_append_inj {m n : ℕ} {x y : List Char} (hx : Stops Char.isDigit x)
    (hy : Stops Char.isDigit y) (h : Nat.toDigits 10 m ++ x = Nat.toDigits 10 n ++ y) :
    m = n ∧ x = y := by
  have hdigits : ∀ k, ∀ c ∈ Nat.toDigits 10 k, c.isDigit = true := fun k c hc =>
    Nat.isDigit_of_mem_toDigits (by decide) (by decide) hc
  have hnumber := congrArg (List.takeWhile Char.isDigit) h
  have hrest := congrArg (List.dropWhile Char.isDigit) h
  rw [takeWhile_append_of_stops (hdigits m) hx, takeWhile_append_of_stops (hdigits n) hy] at hnumber
  rw [dropWhile_append_of_stops (hdigits m) hx, dropWhile_append_of_stops (hdigits n) hy] at hrest
  refine ⟨?_, hrest⟩
  calc m = Nat.ofDigitChars 10 (Nat.toDigits 10 m) 0 := Nat.ofDigitChars_ten_toDigits.symm
    _ = Nat.ofDigitChars 10 (Nat.toDigits 10 n) 0 := by rw [hnumber]
    _ = n := Nat.ofDigitChars_ten_toDigits

namespace Event

/-- Exactly the blocks are recorded as details. -/
lemma level_eq_trace_iff {event : Event} : event.level = .trace ↔ ∃ b, event = .closed b := by
  cases event <;> simp [level]

/-- The line about a block, with its numbers written out. -/
lemma toList_message_closed (b : Block) :
    (closed b).message.toList = "paren block ".toList ++ (Nat.toDigits 10 b.start
      ++ ("..".toList ++ (Nat.toDigits 10 b.stop ++ (" at level ".toList
        ++ (Nat.toDigits 10 b.level ++ []))))) := by
  change ("paren block " ++ toString b.start ++ ".." ++ toString b.stop ++ " at level "
    ++ toString b.level).toList = _
  simp only [String.toList_append, Nat.toString_eq_ofList_toDigits, String.toList_ofList,
    List.append_assoc, List.append_nil]

/-- The line about a block tells the block. -/
lemma message_closed_inj {b c : Block} (h : (closed b).message = (closed c).message) : b = c := by
  have hlist := congrArg String.toList h
  rw [toList_message_closed, toList_message_closed] at hlist
  have hpoints : ∀ x, Stops Char.isDigit ("..".toList ++ x) := fun x => by simp
  have hwords : ∀ x, Stops Char.isDigit (" at level ".toList ++ x) := fun x => by simp
  obtain ⟨hstart, hlist⟩ :=
    toDigits_append_inj (hpoints _) (hpoints _) (List.append_cancel_left hlist)
  obtain ⟨hstop, hlist⟩ := toDigits_append_inj (hwords _) (hwords _) (List.append_cancel_left hlist)
  obtain ⟨hlevel, -⟩ := toDigits_append_inj stops_nil stops_nil (List.append_cancel_left hlist)
  cases b
  cases c
  simp_all

end Event

/-! ### The stage at which the work ends -/

/-- The record of compiling a source, by the way this ends. -/
inductive Recorded (source : String) : List Event → Except Fault Compiled → Prop
  /-- A character that begins no token leaves no record. -/
  | unlexed {c : Char} {position : ℕ}
      (hlex : lex source = .error (.unexpectedCharacter c position)) :
      Recorded source [] (.error (.unexpectedCharacter c position))
  /-- Too many tokens have been cut … -/
  | crowded {tokens : List Token} {actual max position : ℕ} (hlex : lex source = .ok tokens) :
      Recorded source [lexedAs tokens] (.error (.limitExceeded .tokenCount actual max position))
  /-- … and so have tokens in a wrong order. -/
  | malformed {tokens : List Token} {flaw : Flaw} {i position : ℕ}
      (hlex : lex source = .ok tokens) :
      Recorded source [lexedAs tokens] (.error (.malformed flaw i position))
  /-- The blocks in front of a `)` that closes nothing have been closed … -/
  | unmatchedClose {tokens : List Token} {blocks : List Block} {j position : ℕ}
      (hlex : lex source = .ok tokens) (hblocks : ClosedBy (tokens.take j) blocks) :
      Recorded source (lexedAs tokens :: blocks.map .closed)
        (.error (.unbalanced .unmatchedClose j position))
  /-- … and all blocks, where some `(` is never closed. -/
  | unclosed {tokens : List Token} {blocks : List Block} {i position : ℕ}
      (hlex : lex source = .ok tokens) (hblocks : ClosedBy tokens blocks) :
      Recorded source (lexedAs tokens :: blocks.map .closed)
        (.error (.unbalanced .unclosed i position))
  /-- The tokens of a tree above the depth limit have been paired. -/
  | tooDeep {tokens : List Token} {blocks : List Block} {brackets : Brackets}
      {actual max position : ℕ} (hlex : lex source = .ok tokens)
      (hbrackets : Brackets.ofTokens tokens = .ok brackets) (hblocks : ClosedBy tokens blocks)
      (hperm : blocks.Perm brackets.blocks) :
      Recorded source (lexedAs tokens :: blocks.map .closed ++ [pairedAs brackets])
        (.error (.limitExceeded .nestingDepth actual max position))
  /-- A source without faults has passed all stages. -/
  | compiled {tokens : List Token} {blocks : List Block} {brackets : Brackets} {c : Compiled}
      (hlex : lex source = .ok tokens) (hbrackets : Brackets.ofTokens tokens = .ok brackets)
      (hblocks : ClosedBy tokens blocks) (hperm : blocks.Perm brackets.blocks) :
      Recorded source
        (lexedAs tokens :: blocks.map .closed
          ++ [pairedAs brackets, .parsed c.expr.nodeCount, .compiled c.unknowns])
        (.ok c)

section Stages

variable {limits : Limits} {source : String} {fault : Fault} {brackets : Brackets}
  {entries : List Event} {outcome : Except Fault Compiled}

/-- Blocks are recorded in the order in which they stop. -/
def StopOrdered (x y : Event) : Prop := ∀ b c, x = .closed b → y = .closed c → b.stop < c.stop

lemma ClosedBy.pairwise_stopOrdered (h : ClosedBy tokens blocks) :
    (blocks.map Event.closed).Pairwise StopOrdered := by
  refine List.pairwise_map.mpr (h.ordered.imp ?_)
  rintro b c hlt _ _ ⟨⟩ ⟨⟩
  exact hlt

/-- Events that are no blocks may stand around the blocks. -/
lemma ClosedBy.pairwise_lexedAs (h : ClosedBy tokens blocks) (behind : List Event)
    (hb : ∀ x ∈ behind, ∀ b, x ≠ .closed b) :
    (lexedAs us :: blocks.map .closed ++ behind).Pairwise StopOrdered := by
  have hbehind : behind.Pairwise StopOrdered :=
    List.pairwise_of_forall_mem_list fun x hx _ _ b _ hxb _ => absurd hxb (hb x hx b)
  refine List.pairwise_cons.mpr ⟨?_, List.pairwise_append.mpr ⟨h.pairwise_stopOrdered, hbehind, ?_⟩⟩
  · rintro y - b c ⟨⟩
  · intro x _ y hy b c _ hyc
    exact absurd hyc (hb y hy c)

lemma Recorded.pairwise (h : Recorded source entries outcome) :
    entries.Pairwise StopOrdered := by
  cases h with
  | unlexed => exact List.Pairwise.nil
  | crowded | malformed => exact List.pairwise_singleton _ _
  | unmatchedClose _ hblocks | unclosed _ hblocks =>
      simpa using hblocks.pairwise_lexedAs [] (by simp)
  | tooDeep _ _ hblocks _ => exact hblocks.pairwise_lexedAs _ (by simp [pairedAs])
  | compiled _ _ hblocks _ => exact hblocks.pairwise_lexedAs _ (by simp [pairedAs])

/-- Only the order of tokens is checked. -/
lemma exists_malformed_of_check (h : check tokens = .error fault) :
    ∃ flaw i position, fault = .malformed flaw i position := by
  have hc : ∀ j, ¬ LoneClose tokens j := by
    intro j hj
    rw [check_of_loneClose hj] at h
    cases h
  obtain ⟨flaw, i, -, hfault⟩ := exists_of_check_error hc h
  exact ⟨flaw, i, _, hfault⟩

/-- Tokens that cannot be paired are recorded up to the `)` at fault, or to their end. -/
lemma recorded_of_pairing_error (hlex : lex source = .ok tokens)
    (h : Brackets.ofTokens tokens = .error fault) :
    Recorded source (lexedAs tokens :: (closings tokens).map .closed) (.error fault) := by
  rw [Brackets.ofTokens] at h
  rcases hr : Pairing.start.run 0 tokens with ⟨q, _ | j⟩
  · rw [hr] at h
    rcases ho : q.openings.getLast? with _ | ⟨i, level⟩
    · simp [ho] at h
    · simp only [ho] at h
      obtain rfl := Except.error.inj h
      exact Recorded.unclosed hlex (closedBy_closings hr)
  · rw [hr] at h
    obtain rfl := Except.error.inj h
    exact Recorded.unmatchedClose hlex (closedBy_closings_take hr)

/-- Tokens that are checked and paired are refused only by the depth limit. -/
lemma exists_nestingDepth_of_reading (hc : check tokens = .ok tokens)
    (hb : Brackets.ofTokens tokens = .ok brackets)
    (h : Expr.ofTokens tokens brackets limits = .error fault) :
    ∃ actual max position, fault = .limitExceeded .nestingDepth actual max position := by
  obtain ⟨e, hd⟩ := (check_eq_ok_iff hb).mp hc
  rcases Nat.lt_or_ge limits.maxDepth e.height with hlt | hle
  · obtain ⟨depth, position, ho, -⟩ := tooDeep_of_derives hb hd hlt
    exact ⟨depth, _, position, Except.error.inj (h.symm.trans ho)⟩
  · rw [ofTokens_of_derives hb hd hle] at h
    cases h

/-- **The record tells the stage**: each way in which compiling a source ends leaves its own
record. Nothing is recorded where a character begins no token. Otherwise the tokens are
recorded first, and nothing else where they are too many or in a wrong order. Where the
parentheses do not pair up, each `)` that closes a block follows, up to the one at fault if
there is one. A tree above the depth limit is refused behind the record of all pairs, and
success is recorded behind that with the tree and the program. Blocks are recorded in the
order in which they stop. They are the events at trace level, and different ones have
different lines. -/
theorem record_tells_stage (limits : Limits) (source : String) :
    Recorded source (compile limits source).entries (compile limits source).outcome
      ∧ (compile limits source).entries.Pairwise StopOrdered
      ∧ (∀ event ∈ (compile limits source).entries, event.level = .trace ↔ ∃ b, event = .closed b)
      ∧ ∀ x ∈ (compile limits source).entries, ∀ y ∈ (compile limits source).entries,
        x.level = .trace → y.level = .trace → x.message = y.message → x = y := by
  suffices h : Recorded source (compile limits source).entries (compile limits source).outcome by
    refine ⟨h, h.pairwise, fun event _ => Event.level_eq_trace_iff, ?_⟩
    rintro x - y - hx hy hmessage
    obtain ⟨b, rfl⟩ := Event.level_eq_trace_iff.mp hx
    obtain ⟨c, rfl⟩ := Event.level_eq_trace_iff.mp hy
    rw [Event.message_closed_inj hmessage]
  rcases hlex : lex source with fault | tokens
  · rw [compile_eq_of_analyse_error (analyse_of_lex_error hlex)]
    obtain ⟨c, position, rfl⟩ := exists_of_scan_error hlex
    exact Recorded.unlexed hlex
  rcases Nat.lt_or_ge limits.maxTokens tokens.length with hlt | hcount
  · rw [compile_eq_of_analyse_error (analyse_of_checkCount_error hlex (checkCount_of_lt hlt))]
    exact Recorded.crowded hlex
  rcases hc : check tokens with fault | checked
  · rw [compile_eq_of_analyse_error (analyse_of_check_error hlex hcount hc)]
    obtain ⟨flaw, i, position, rfl⟩ := exists_malformed_of_check hc
    exact Recorded.malformed hlex
  obtain rfl := eq_of_check hc
  rcases hb : Brackets.ofTokens checked with fault | brackets
  · rw [compile_eq_of_analyse_error (analyse_of_pairing_error hlex hcount hc hb)]
    exact recorded_of_pairing_error hlex hb
  obtain ⟨q, hr, -⟩ := Brackets.ofTokens_eq_ok_iff.mp hb
  have hblocks := closedBy_closings hr
  have hperm := Brackets.perm_closings hb
  rcases he : Expr.ofTokens checked brackets limits with fault | e
  · rw [compile_eq_of_analyse_error (analyse_of_reading_error hlex hcount hc hb he)]
    obtain ⟨actual, max, position, rfl⟩ := exists_nestingDepth_of_reading hc hb he
    exact Recorded.tooDeep hlex hb hblocks hperm
  · obtain ⟨c, hcompile, hexpr⟩ :=
      compile_eq_of_analyse_ok (analyse_of_reading_ok hlex hcount hc hb he)
    obtain rfl : c.expr = e := hexpr
    rw [hcompile, List.append_assoc]
    exact Recorded.compiled hlex hb hblocks hperm

end Stages

/-- The inner pair is recorded, although the outer `(` is never closed. -/
example : (compile {} "((x)").entries = [.lexed 4 1, .closed ⟨1, 4, 2⟩] := by cbv

end Formula
