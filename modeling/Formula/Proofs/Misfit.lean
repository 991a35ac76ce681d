import Formula.Proofs.Lexing

/-!
Characters that begin no token.

* `Token.blanks`, `Token.symbols`: the characters between tokens, and those that are tokens
  by themselves. `Token.symbolOf`: the tokens that these are.
* `Token.Misfit`: a character that is no blank and begins no name, numeral or symbol. A point
  is one as well, since only digits in front of it make it part of a token.
* `Token.LexesBefore`: a text consists of tokens and blanks, and what stands behind it
  does not make its tokens longer. `LexesBefore.lexes`: then it does so by itself.
* `Token.scan_eq_error_iff`: cutting fails exactly at a misfit behind such a text, and
  names this character and its place.
* `LexesBefore.spelled`: the text of each token, and that what it stands in front of does
  not make it longer.
-/

namespace Formula

namespace Token

/-- Space, tab, line feed, form feed and carriage return. -/
def blanks : List Char := [' ', '\t', '\n', '\x0c', '\r']

/-- The operators and the parentheses. -/
def symbols : List Char := ['+', '-', '*', '/', '^', '(', ')']

/-- The kinds of token that are written as one character, and this character. -/
def symbolOf : List (Kind × Char) :=
  [(.operator .add, '+'), (.operator .sub, '-'), (.operator .mul, '*'), (.operator .div, '/'),
    (.operator .pow, '^'), (.lparen, '('), (.rparen, ')')]

/-- No token begins with the character, and it is no blank. -/
structure Misfit (c : Char) : Prop where
  not_blank : c ∉ blanks
  not_alphanum : c.isAlphanum = false
  not_underscore : c ≠ '_'
  not_symbol : c ∉ symbols

variable {offset : ℕ} {c : Char} {text rest behind : List Char} {ts : List Token}
  {fault : Fault}

lemma isBlank_iff_mem : isBlank c = true ↔ c ∈ blanks := by
  simp [isBlank, blanks, or_assoc]

lemma ofSymbol?_eq_some_iff {kind : Kind} :
    Kind.ofSymbol? c = some kind ↔ (kind, c) ∈ symbolOf := by
  refine ⟨?_, ?_⟩
  · intro h
    unfold Kind.ofSymbol? at h
    split at h <;> cases h <;> simp [symbolOf]
  · intro h
    simp only [symbolOf, List.mem_cons, List.not_mem_nil, Prod.mk.injEq, or_false] at h
    rcases h with ⟨rfl, rfl⟩ | ⟨rfl, rfl⟩ | ⟨rfl, rfl⟩ | ⟨rfl, rfl⟩ | ⟨rfl, rfl⟩ | ⟨rfl, rfl⟩
      | ⟨rfl, rfl⟩ <;> rfl

lemma isSome_ofSymbol?_iff_mem :
    (Kind.ofSymbol? c).isSome = true ↔ c ∈ symbols := by
  have hsymbols : symbols = symbolOf.map Prod.snd := rfl
  simp only [Option.isSome_iff_exists, ofSymbol?_eq_some_iff, hsymbols, List.mem_map, Prod.exists,
    exists_eq_right]

/-- No token is cut off at a character that is no digit, begins no name and is no
symbol. -/
lemma munch_eq_none_iff :
    munch c rest = none
      ↔ c.isDigit = false ∧ isNameStart c = false ∧ Kind.ofSymbol? c = none := by
  rw [munch]
  by_cases hd : c.isDigit = true
  · simp [hd]
  by_cases hn : isNameStart c = true
  · simp [hd, hn]
  · simp [hd, hn]

/-- Misfits are the characters at which neither a blank is skipped nor a token cut off. -/
lemma misfit_iff : Misfit c ↔ isBlank c = false ∧ munch c rest = none := by
  have hblank : c ∉ blanks ↔ isBlank c = false := by
    rw [← isBlank_iff_mem, Bool.not_eq_true]
  have hsymbol : c ∉ symbols ↔ Kind.ofSymbol? c = none := by
    rw [← isSome_ofSymbol?_iff_mem, Bool.not_eq_true, Option.isSome_eq_false_iff,
      Option.isNone_iff_eq_none]
  have hclass : c.isDigit = false ∧ isNameStart c = false ↔ c.isAlphanum = false ∧ c ≠ '_' := by
    simp only [isNameStart, Char.isAlphanum, Bool.or_eq_false_iff, beq_eq_false_iff_ne]
    tauto
  rw [munch_eq_none_iff, ← and_assoc, ← and_assoc, and_assoc (b := c.isDigit = false), hclass]
  refine ⟨?_, ?_⟩
  · rintro ⟨hb, ha, hu, hs⟩
    exact ⟨⟨hblank.mp hb, ha, hu⟩, hsymbol.mp hs⟩
  · rintro ⟨⟨hb, ha, hu⟩, hs⟩
    exact ⟨hblank.mpr hb, ha, hu, hsymbol.mpr hs⟩

/-! ### Texts in front of others -/

/-- A text that begins at some offset consists of some tokens and of blanks, and what
stands behind it does not make the tokens longer. -/
inductive LexesBefore (behind : List Char) : ℕ → List Char → List Token → Prop
  | nil {offset : ℕ} : LexesBefore behind offset [] []
  | blank {offset : ℕ} {c : Char} {text : List Char} {ts : List Token} (hc : isBlank c = true)
      (h : LexesBefore behind (offset + 1) text ts) : LexesBefore behind offset (c :: text) ts
  | token {offset : ℕ} {kind : Kind} {lexeme text : List Char} {ts : List Token}
      (ht : Takes kind lexeme (text ++ behind))
      (h : LexesBefore behind (offset + lexeme.length) text ts) :
      LexesBefore behind offset (lexeme ++ text)
        (⟨kind, ⟨offset, offset + lexeme.length⟩⟩ :: ts)

/-- In front of nothing a text stands by itself. -/
lemma Lexes.lexesBefore_nil (h : Lexes offset text ts) : LexesBefore [] offset text ts := by
  induction h with
  | nil => exact LexesBefore.nil
  | blank hc _ ih => exact ih.blank hc
  | token ht _ ih => exact LexesBefore.token (by rwa [List.append_nil]) ih

namespace LexesBefore

/-- A text that others stand behind may stand by itself. -/
lemma lexes (h : LexesBefore behind offset text ts) : Lexes offset text ts := by
  induction h with
  | nil => exact Lexes.nil
  | blank hc _ ih => exact ih.blank hc
  | token ht _ ih => exact ih.token (ht.congr (EndsAlike.of_append _ _))

/-- Cutting a text in front of others goes on behind it. -/
lemma scan_append (h : LexesBefore behind offset text ts) :
    scan offset (text ++ behind) = (scan (offset + text.length) behind).map (ts ++ ·) := by
  induction h with
  | nil =>
      rw [List.nil_append, List.length_nil, Nat.add_zero]
      cases scan _ behind <;> rfl
  | @blank offset c text ts hc _ ih =>
      rw [List.cons_append, scan_blank hc, ih, List.length_cons, Nat.add_right_comm, Nat.add_assoc]
  | @token offset kind lexeme text ts ht _ ih =>
      rw [List.append_assoc, scan_of_takes ht, ih, List.length_append, Nat.add_assoc]
      cases scan _ behind <;> rfl

/-- Each token has its text between two others, and the one behind does not make it
longer. -/
lemma spelled (h : LexesBefore behind offset text ts) :
    ∀ t ∈ ts, ∃ front lexeme rest, text = front ++ (lexeme ++ rest)
      ∧ t.span = ⟨offset + front.length, offset + front.length + lexeme.length⟩
      ∧ Takes t.kind lexeme (rest ++ behind) := by
  induction h with
  | nil => simp
  | @blank offset c text ts hc _ ih =>
      intro t ht
      obtain ⟨front, lexeme, rest, rfl, hspan, htakes⟩ := ih t ht
      refine ⟨c :: front, lexeme, rest, rfl, ?_, htakes⟩
      rw [hspan, List.length_cons, Nat.add_right_comm, Nat.add_assoc]
  | @token offset kind lexeme text ts ht _ ih =>
      refine List.forall_mem_cons.mpr ⟨⟨[], lexeme, text, rfl, rfl, ht⟩, ?_⟩
      intro t hmem
      obtain ⟨front, lexeme', rest, rfl, hspan, htakes⟩ := ih t hmem
      refine ⟨lexeme ++ front, lexeme', rest, by rw [List.append_assoc], ?_, htakes⟩
      rw [hspan, List.length_append, Nat.add_assoc offset]

end LexesBefore

/-! ### Where cutting fails -/

lemma scan_misfit (h : Misfit c) (offset : ℕ) (rest : List Char) :
    scan offset (c :: rest) = .error (.unexpectedCharacter c offset) := by
  obtain ⟨hb, hm⟩ := misfit_iff.mp h
  rw [scan, if_neg (by simp [hb]), hm]

lemma exists_misfit_of_scan (h : scan offset text = .error fault) :
    ∃ front c rest ts, text = front ++ c :: rest ∧ LexesBefore (c :: rest) offset front ts
      ∧ Misfit c ∧ fault = .unexpectedCharacter c (offset + front.length) := by
  fun_induction scan offset text with
  | case1 => cases h
  | case2 offset c cs hc ih =>
      obtain ⟨front, d, rest, ts, rfl, hf, hd, rfl⟩ := ih h
      refine ⟨c :: front, d, rest, ts, rfl, hf.blank hc, hd, ?_⟩
      rw [List.length_cons, Nat.add_right_comm, Nat.add_assoc]
  | case3 offset c cs hc hm =>
      have hb : isBlank c = false := by simpa using hc
      exact ⟨[], c, cs, [], rfl, LexesBefore.nil, misfit_iff.mpr ⟨hb, hm⟩,
        (Except.error.inj h).symm⟩
  | case4 offset c cs hc kind more hm ih =>
      obtain ⟨lexeme, rest, rfl, rfl, ht⟩ := takes_of_munch hm
      rw [List.drop_left] at h ih
      rcases hs : scan (offset + lexeme.length + 1) rest with fault' | us
      · rw [hs] at h
        obtain rfl : fault' = fault := Except.error.inj h
        obtain ⟨front, d, rest, ts, rfl, hf, hd, rfl⟩ := ih hs
        have htoken := @LexesBefore.token _ offset kind (c :: lexeme) front _ ht hf
        refine ⟨c :: (lexeme ++ front), d, rest, _, by simp, htoken, hd, ?_⟩
        rw [List.length_cons, List.length_append]
        congr 1
        omega
      · rw [hs] at h
        cases h

/-- Cutting a text fails exactly at a misfit behind tokens and blanks, and names it with
its place. -/
theorem scan_eq_error_iff :
    scan offset text = .error fault
      ↔ ∃ front c rest ts, text = front ++ c :: rest ∧ LexesBefore (c :: rest) offset front ts
        ∧ Misfit c ∧ fault = .unexpectedCharacter c (offset + front.length) := by
  refine ⟨exists_misfit_of_scan, ?_⟩
  rintro ⟨front, c, rest, ts, rfl, hf, hc, rfl⟩
  rw [hf.scan_append, scan_misfit hc]
  rfl

end Token

/-- A source is not cut into tokens exactly if a misfit stands behind some of them. -/
lemma lex_eq_error_iff {source : String} {fault : Fault} :
    lex source = .error fault
      ↔ ∃ front c rest ts, source.toList = front ++ c :: rest
        ∧ Token.LexesBefore (c :: rest) 0 front ts ∧ Token.Misfit c
        ∧ fault = .unexpectedCharacter c front.length := by
  rw [lex, Token.scan_eq_error_iff]
  simp only [Nat.zero_add]

end Formula
