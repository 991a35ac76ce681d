import Formula.Proofs.FaultOrder
import Formula.Proofs.Leaves

/-!
Where faults point.

* `Source.Place`: an offset in a source with only ASCII text in front of it.
* `Fault.PointsAt`: a fault points at the start of a token and names no other token.
* `pointsAt_of_build`: faults in the order of tokens, in their parentheses and of the depth
  limit point at a token. The limit is passed at a token that is still to be read, or at
  the deepest leaf of a tree, which is a token as well.
* `fault_points_at_place`: each fault of a source points at a character that begins no
  token or at a token, if there is one.
-/

namespace Formula

variable {front rest : List Char} {source : String} {limits : Limits} {tokens : List Token}
  {fault : Fault} {flaw : Flaw} {e : Expr} {i : ℕ}

/-! ### Places in a source -/

/-- An offset divides a source where a character begins or the source ends, and the text in
front is ASCII, so that characters and bytes are counted alike. -/
structure Source.Place (source : String) (offset : ℕ) (front rest : List Char) : Prop where
  within : offset ≤ source.utf8ByteSize
  split : splitAt? source.toList offset = some (front, rest)
  ascii : ∀ c ∈ front, c.utf8Size = 1
  length : front.length = offset

lemma Source.place (hsource : source.toList = front ++ rest) (hf : ∀ c ∈ front, c.utf8Size = 1) :
    Place source front.length front rest where
  within := by
    rw [← String.ofList_toList (s := source), String.utf8ByteSize_ofList, hsource,
      String.utf8Len_append, utf8Len_of_ascii hf]
    exact Nat.le_add_right _ _
  split := by
    rw [hsource]
    exact splitAt?_append hf
  ascii := hf
  length := rfl

/-- Where a token starts is a place. -/
lemma Token.Lexes.place {t : Token} (h : Lexes 0 source.toList tokens) (ht : t ∈ tokens) :
    ∃ front rest, Source.Place source t.span.start front rest := by
  obtain ⟨front, lexeme, rest, hsource, hspan, -⟩ := h.lexesBefore_nil.spelled t ht
  have hascii := h.ascii
  rw [hsource] at hascii
  rw [hspan, Nat.zero_add]
  exact ⟨front, lexeme ++ rest, Source.place hsource (List.forall_mem_append.mp hascii).1⟩

/-! ### Faults of tokens -/

/-- A fault points at the start of a token, and if it names a token, at the one that it
names. -/
def Fault.PointsAt (tokens : List Token) (fault : Fault) : Prop :=
  ∃ t ∈ tokens, fault.position? = some t.span.start ∧ ∀ i ∈ fault.token?, tokens[i]? = some t

/-- A fault at the start of the token that it names points at this one. -/
lemma Fault.pointsAt_of_lt (hi : i < tokens.length)
    (hp : fault.position? = some (Token.startOf tokens i)) (ht : ∀ j ∈ fault.token?, j = i) :
    fault.PointsAt tokens := by
  have hget : tokens[i]? = some tokens[i] := List.getElem?_eq_getElem hi
  refine ⟨tokens[i], List.getElem_mem hi, ?_, ?_⟩
  · rw [hp, Token.startOf_eq_start hget]
  · intro j hj
    rw [ht j hj, hget]

/-- The first flaw is reported at a token, if there is one. -/
lemma FirstFlaw.lt_length (h : FirstFlaw tokens flaw i) (hne : tokens ≠ []) :
    i < tokens.length := by
  cases h with
  | neighbour h _ _ =>
      rw [h, List.length_append, List.length_cons]
      omega
  | ending _ _ =>
      have hpos := List.length_pos_iff.mpr hne
      omega

/-- Without tokens there is no expression, and this is reported at the start. -/
lemma build_nil (limits : Limits) :
    Expr.build limits [] = .error (.malformed .emptyExpression 0 0) := rfl

/-- A tree that is too high is reported at one of its tokens. -/
lemma pointsAt_of_derives (hd : Derives (.chain .sum) tokens e)
    (h : Expr.build limits tokens = .error fault) : fault.PointsAt tokens := by
  obtain ⟨brackets, hb⟩ := Brackets.exists_ofTokens_iff.mpr hd.closes
  rw [Expr.build, hd.check] at h
  simp only [bind, Except.bind, hb] at h
  rcases reaches_readAll hb limits.maxDepth hd with hr | ⟨_, hr, depth, i, rfl, -, -, hi⟩
  · rw [ofTokens_of_readAll_ok hr] at h
    split at h
    · obtain rfl := Except.error.inj h
      obtain ⟨t, ht, hspan⟩ := e.deepLeaf_mem_leaves
      rw [hd.leaves_eq] at ht
      refine ⟨t, List.mem_of_mem_filter ht, ?_, by simp [Fault.token?]⟩
      rw [hspan, Fault.position?]
    · cases h
  · rw [ofTokens_of_readAll_error hr] at h
    obtain rfl := Except.error.inj h
    exact Fault.pointsAt_of_lt hi rfl (by simp [Fault.token?])

/-- What is wrong with tokens is reported at one of them. -/
lemma pointsAt_of_build (hne : tokens ≠ []) (h : Expr.build limits tokens = .error fault) :
    fault.PointsAt tokens := by
  cases diagnosis tokens with
  | @loneClose j hj =>
      obtain ⟨span, hget⟩ := hj.1.1
      rw [build_of_loneClose hj] at h
      obtain rfl := Except.error.inj h
      exact Fault.pointsAt_of_lt (List.getElem?_eq_some_iff.mp hget).1 rfl (by simp [Fault.token?])
  | @flaw flaw i hc hflaw =>
      rw [build_of_firstFlaw hc hflaw] at h
      obtain rfl := Except.error.inj h
      exact Fault.pointsAt_of_lt (hflaw.lt_length hne) rfl (by simp [Fault.token?])
  | @loneOpen i hc hf hi =>
      obtain ⟨span, hget⟩ := hi.1.1
      rw [build_of_loneOpen hc hf hi] at h
      obtain rfl := Except.error.inj h
      exact Fault.pointsAt_of_lt (List.getElem?_eq_some_iff.mp hget).1 rfl (by simp [Fault.token?])
  | faultless hc hf ho =>
      obtain ⟨e, hd⟩ := exists_derives_of_faultless hc ho hf
      exact pointsAt_of_derives hd h

/-! ### Faults of a source -/

/-- The faults of a source that has tokens point at one of them. Without tokens there is
only one fault. -/
lemma pointsAt_of_analyse (hlex : lex source = .ok tokens)
    (h : (analyse limits source).outcome = .error fault) :
    (tokens = [] ∧ fault.position? = some 0 ∧ fault.token? = some 0) ∨ fault.PointsAt tokens := by
  rcases Nat.lt_or_ge limits.maxTokens tokens.length with hlt | hle
  · rw [outcome_analyse, hlex] at h
    simp only [bind, Except.bind, checkCount_of_lt hlt] at h
    obtain rfl := Except.error.inj h
    exact Or.inr (Fault.pointsAt_of_lt hlt rfl (by simp [Fault.token?]))
  · rw [outcome_analyse_of_lex hlex hle] at h
    rcases hb : Expr.build limits tokens with fault' | e
    · rw [hb] at h
      obtain rfl := Except.error.inj h
      by_cases hne : tokens = []
      · subst hne
        rw [build_nil] at hb
        obtain rfl := Except.error.inj hb
        exact Or.inl ⟨rfl, rfl, rfl⟩
      · exact Or.inr (pointsAt_of_build hne hb)
    · rw [hb] at h
      cases h

/-- No fault of tokens names a character. -/
lemma ne_unexpectedCharacter_of_analyse (hlex : lex source = .ok tokens)
    (h : (analyse limits source).outcome = .error fault) (c : Char) (offset : ℕ) :
    fault ≠ .unexpectedCharacter c offset := by
  rintro rfl
  rcases (faultsInOrder hlex).fault_cases h with ⟨_, _, _, _, hf⟩ | ⟨_, _, _, hf⟩
    | ⟨_, _, _, -, hf⟩ <;> cases hf

/-- **Faults point at real places**: each fault of an analysis points into the source, with
only ASCII text in front of the place. A character that begins no token is the one at the
place. If the fault is another one, the whole source is ASCII and has tokens, and the fault
points at the start of one of them, which is the one it names if it names any. In a source
without tokens it points at the start and names the first token. -/
theorem fault_points_at_place (h : (analyse limits source).outcome = .error fault) :
    ∃ offset front rest, fault.position? = some offset
      ∧ Source.Place source offset front rest
      ∧ (∀ c position, fault = .unexpectedCharacter c position → rest.head? = some c)
      ∧ ((∀ c position, fault ≠ .unexpectedCharacter c position) →
        (∀ c ∈ source.toList, c.utf8Size = 1) ∧ ∃ tokens, lex source = .ok tokens
          ∧ ((tokens = [] ∧ offset = 0 ∧ fault.token? = some 0) ∨ fault.PointsAt tokens)) := by
  rcases hlex : lex source with fault' | tokens
  · rw [outcome_analyse, hlex] at h
    obtain rfl : fault' = fault := Except.error.inj h
    obtain ⟨front, c, rest, ts, hsource, hfront, -, rfl⟩ := lex_eq_error_iff.mp hlex
    refine ⟨front.length, front, c :: rest, rfl, Source.place hsource hfront.lexes.ascii, ?_, ?_⟩
    · intro d position he
      obtain ⟨rfl, -⟩ := Fault.unexpectedCharacter.inj he
      rfl
    · intro hne
      exact absurd rfl (hne c front.length)
  · have hlexes := lex_eq_ok_iff.mp hlex
    have hne := ne_unexpectedCharacter_of_analyse hlex h
    rcases pointsAt_of_analyse hlex h with ⟨rfl, hposition, htoken⟩ | hpoints
    · refine ⟨0, [], source.toList, hposition, Source.place rfl (List.forall_mem_nil _),
        fun c p he => absurd he (hne c p), fun _ => ⟨hlexes.ascii, [], rfl, ?_⟩⟩
      exact Or.inl ⟨rfl, rfl, htoken⟩
    · have ⟨t, ht, hposition, _⟩ := hpoints
      obtain ⟨front, rest, hplace⟩ := hlexes.place ht
      exact ⟨t.span.start, front, rest, hposition, hplace, fun c p he => absurd he (hne c p),
        fun _ => ⟨hlexes.ascii, tokens, rfl, Or.inr hpoints⟩⟩

/-- With at most three edges on a path, `x * (y - -z)` is too high, and the fault points at
the deepest leaf. -/
theorem fault_at_deepest_leaf :
    let fault : Fault := .limitExceeded .nestingDepth 4 3 10
    (analyse ⟨3, 16⟩ "x * (y - -z)").outcome = .error fault
      ∧ ∃ front rest, Source.Place "x * (y - -z)" 10 front rest
        ∧ ∃ tokens, lex "x * (y - -z)" = .ok tokens ∧ fault.PointsAt tokens := by
  intro fault
  have h : (analyse ⟨3, 16⟩ "x * (y - -z)").outcome = .error fault := by cbv
  obtain ⟨offset, front, rest, hposition, hplace, -, htokens⟩ := fault_points_at_place h
  obtain rfl : 10 = offset := Option.some.inj hposition
  obtain ⟨-, tokens, hlex, (⟨-, hzero, -⟩ | hpoints)⟩ := htokens (by simp [fault])
  · cases hzero
  · exact ⟨h, front, rest, hplace, tokens, hlex, hpoints⟩

end Formula
