import Formula.Proofs.Misfit

/-!
The tokens of a source tile it.

* `Token.Spelling`: a token of some kind may be written as some text.
* `Token.Longest`: nothing of what follows a text makes a longer token with it;
  `Takes.longest`: the tokens that are cut off are the longest ones.
* `Token.Tiles`: tokens that follow each other in a source, each written as its kind may
  be and none shorter than it could be, with blanks in all other places.
* `tokens_tile_source` (**nothing is lost**): the tokens of a source tile it. A source
  that is not cut into tokens is refused at a character that begins none, and the text in
  front of this character is cut into tokens by itself.
-/

namespace Formula

namespace Token

/-- A token of some kind may be written as some text. -/
inductive Spelling : Kind → List Char → Prop
  /-- A number is digits … -/
  | whole {ws : List Char} (hw : ws ≠ []) (hd : ∀ c ∈ ws, c.isDigit = true) :
      Spelling (.number (Decimal.ofDigits ws []).toFloat) ws
  /-- … or digits around a point. -/
  | fraction {ws fs : List Char} (hw : ws ≠ []) (hd : ∀ c ∈ ws, c.isDigit = true)
      (hf : fs ≠ []) (hfd : ∀ c ∈ fs, c.isDigit = true) :
      Spelling (.number (Decimal.ofDigits ws fs).toFloat) (ws ++ '.' :: fs)
  /-- A name is a letter or an underscore, and letters, digits and underscores. -/
  | name {c : Char} {part : List Char} (hc : c.isAlpha = true ∨ c = '_')
      (hp : ∀ c ∈ part, c.isAlphanum = true ∨ c = '_') :
      Spelling (.name (String.ofList (c :: part))) (c :: part)
  /-- An operator or a parenthesis is its symbol. -/
  | symbol {c : Char} {kind : Kind} (h : (kind, c) ∈ symbolOf) : Spelling kind [c]

/-- What follows a text does not begin with anything that makes a token together with
the text. -/
def Longest (lexeme rest : List Char) : Prop :=
  ∀ more kind, more <+: rest → Spelling kind (lexeme ++ more) → more = []

/-- Tokens and blanks make up a source. -/
structure Tiles (source : String) (tokens : List Token) : Prop where
  ascii : ∀ c ∈ source.toList, c.utf8Size = 1
  ordered : Ordered tokens
  within : ∀ t ∈ tokens, t.span.stop ≤ source.utf8ByteSize
  spelled : ∀ t ∈ tokens, ∃ lexeme, t.lexeme? source.toList = some lexeme
    ∧ Spelling t.kind lexeme ∧ Longest lexeme (source.toList.drop t.span.stop)
  blank : ∀ i c, source.toList[i]? = some c →
    (∀ t ∈ tokens, i < t.span.start ∨ t.span.stop ≤ i) → c ∈ blanks

/-- A text ends with a number without a fraction. -/
def EndsWithWhole (text : List Char) (tokens : List Token) : Prop :=
  ∃ t ∈ tokens, ∃ value lexeme, t.kind = .number value ∧ t.span.stop = text.length
    ∧ t.lexeme? text = some lexeme ∧ '.' ∉ lexeme

variable {kind kind' : Kind} {lexeme text rest behind : List Char} {offset n : ℕ} {c : Char}
  {ts : List Token}

/-! ### The longest token -/

lemma isNameStart_iff : isNameStart c = true ↔ c.isAlpha = true ∨ c = '_' := by
  simp [isNameStart]

lemma isNamePart_iff : isNamePart c = true ↔ c.isAlphanum = true ∨ c = '_' := by
  simp [isNamePart]

lemma Takes.spelling (h : Takes kind lexeme rest) : Spelling kind lexeme := by
  cases h with
  | whole hw hd _ _ => exact Spelling.whole hw hd
  | fraction hw hd hf hfd _ => exact Spelling.fraction hw hd hf hfd
  | name hc hp _ =>
      exact Spelling.name (isNameStart_iff.mp hc) fun c hmem => isNamePart_iff.mp (hp c hmem)
  | symbol hk => exact Spelling.symbol (ofSymbol?_eq_some_iff.mp hk)

/-- Whatever token the text begins with, no less of it is cut off. -/
lemma Spelling.le_munch {cs : List Char} (h : Spelling kind (c :: cs))
    (hm : munch c (cs ++ rest) = some (kind', n)) : cs.length ≤ n := by
  generalize hl : c :: cs = lexeme at h
  cases h with
  | whole hw hd =>
      subst hl
      have hcs : ∀ d ∈ cs, d.isDigit = true := fun d hd' => hd d (List.mem_cons_of_mem _ hd')
      rw [munch, if_pos (hd c List.mem_cons_self), List.takeWhile_append_of_pos hcs] at hm
      obtain ⟨-, rfl⟩ := Prod.mk.inj (Option.some.inj hm)
      rw [List.length_append]
      omega
  | @fraction ws fs hw hd hf hfd =>
      obtain ⟨w, ws, rfl⟩ := List.exists_cons_of_ne_nil hw
      rw [List.cons_append] at hl
      obtain ⟨rfl, rfl⟩ := List.cons.inj hl
      have hws : ∀ d ∈ ws, d.isDigit = true := fun d hd' => hd d (List.mem_cons_of_mem _ hd')
      have hpoint : Stops Char.isDigit ('.' :: (fs ++ rest)) := stops_cons.mpr (by decide)
      rw [List.append_assoc, List.cons_append, munch, if_pos (hd c List.mem_cons_self),
        takeWhile_append_of_stops hws hpoint, dropWhile_append_of_stops hws hpoint] at hm
      obtain ⟨-, rfl⟩ := Prod.mk.inj (Option.some.inj hm)
      rw [fractionLength, fractionDigits_point, List.takeWhile_append_of_pos hfd,
        if_neg (by simp [hf])]
      simp only [List.length_append, List.length_cons]
      omega
  | name hc hp =>
      obtain ⟨rfl, rfl⟩ := List.cons.inj hl
      have hstart := isNameStart_iff.mpr hc
      rw [munch, if_neg (by simp [isDigit_of_isNameStart hstart]), if_pos hstart,
        List.takeWhile_append_of_pos fun c hmem => isNamePart_iff.mpr (hp c hmem)] at hm
      obtain ⟨-, rfl⟩ := Prod.mk.inj (Option.some.inj hm)
      rw [List.length_append]
      omega
  | symbol _ =>
      obtain ⟨-, rfl⟩ := List.cons.inj hl
      exact Nat.zero_le n

/-- A token is the longest one that begins at its place. -/
lemma Takes.longest (h : Takes kind lexeme rest) : Longest lexeme rest := by
  rintro more kind' ⟨tail, rfl⟩ hs
  obtain ⟨c, cs, rfl, -⟩ := h.exists_cons
  have hm := munch_of_takes h
  rw [← List.append_assoc] at hm
  rw [List.cons_append] at hs
  have hle := hs.le_munch hm
  rw [List.length_append] at hle
  exact List.eq_nil_of_length_eq_zero (by omega)

/-- Behind a number without a fraction there is no point with a digit behind it. -/
lemma Longest.stops_behind_point {value : Float} (hl : Longest lexeme ('.' :: rest))
    (hs : Spelling (.number value) lexeme) (hp : '.' ∉ lexeme) : Stops Char.isDigit rest := by
  cases rest with
  | nil => exact stops_nil
  | cons d rest =>
      rw [stops_cons, ← Bool.not_eq_true]
      intro hdigit
      have hd : ∀ e ∈ [d], e.isDigit = true := List.forall_mem_singleton.mpr hdigit
      generalize hk : Kind.number value = kind at hs
      cases hs with
      | whole hw hws =>
          have hmore := hl ['.', d] _ ⟨rest, rfl⟩ (Spelling.fraction hw hws (by simp) hd)
          cases hmore
      | fraction _ _ _ _ => exact hp (List.mem_append_right _ List.mem_cons_self)
      | name _ _ => cases hk
      | symbol h =>
          subst hk
          simp [symbolOf] at h

/-! ### Texts and their tokens -/

/-- Where no token stands there is a blank. -/
lemma Lexes.mem_blanks (h : Lexes offset text ts) {i : ℕ} (hi : text[i]? = some c)
    (hout : ∀ t ∈ ts, offset + i < t.span.start ∨ t.span.stop ≤ offset + i) : c ∈ blanks := by
  induction h generalizing i with
  | nil => cases hi
  | blank hc _ ih =>
      cases i with
      | zero =>
          obtain rfl := Option.some.inj hi
          exact isBlank_iff_mem.mp hc
      | succ i =>
          rw [← Nat.succ_add_eq_add_succ] at hout
          exact ih hi hout
  | @token offset kind lexeme text ts _ _ ih =>
      obtain ⟨hhead, htail⟩ := List.forall_mem_cons.mp hout
      obtain hlt | hle : offset + i < offset ∨ offset + lexeme.length ≤ offset + i := hhead
      · omega
      · rw [List.getElem?_append_right (by omega)] at hi
        have hsame : offset + lexeme.length + (i - lexeme.length) = offset + i := by omega
        rw [← hsame] at htail
        exact ih hi htail

/-- Each token has the text under its span, and is the longest one there. -/
lemma LexesBefore.lexeme_eq (h : LexesBefore behind 0 text ts) :
    ∀ t ∈ ts, ∃ lexeme, t.lexeme? text = some lexeme ∧ Spelling t.kind lexeme
      ∧ t.span.stop ≤ text.length ∧ Longest lexeme (text.drop t.span.stop ++ behind) := by
  intro t ht
  have hascii := h.lexes.ascii
  obtain ⟨front, lexeme, rest, rfl, hspan, htakes⟩ := h.spelled t ht
  rw [Nat.zero_add] at hspan
  obtain ⟨hf, hascii⟩ := List.forall_mem_append.mp hascii
  refine ⟨lexeme, ?_, htakes.spelling, ?_, ?_⟩
  · rw [lexeme?, hspan]
    exact Source.slice?_append hf (List.forall_mem_append.mp hascii).1
  · rw [hspan, ← List.append_assoc, List.length_append, List.length_append]
    exact Nat.le_add_right _ _
  · have hdrop : (front ++ (lexeme ++ rest)).drop (front.length + lexeme.length) = rest := by
      rw [← List.append_assoc, ← List.length_append, List.drop_left]
    rw [hspan, hdrop]
    exact htakes.longest

lemma Lexes.tiles {source : String} (h : Lexes 0 source.toList ts) : Tiles source ts := by
  have hbytes := Source.utf8ByteSize_of_ascii h.ascii
  refine ⟨h.ascii, h.ordered, ?_, ?_, ?_⟩
  · intro t ht
    obtain ⟨-, -, -, hle, -⟩ := h.lexesBefore_nil.lexeme_eq t ht
    exact hle.trans_eq hbytes.symm
  · intro t ht
    obtain ⟨lexeme, hlexeme, hspelling, -, hlongest⟩ := h.lexesBefore_nil.lexeme_eq t ht
    rw [List.append_nil] at hlongest
    exact ⟨lexeme, hlexeme, hspelling, hlongest⟩
  · intro i c hi hout
    refine h.mem_blanks hi ?_
    rwa [Nat.zero_add]

/-- A point behind a number without a fraction has no digit behind it. -/
lemma LexesBefore.stops_behind_whole (h : LexesBefore ('.' :: rest) 0 text ts)
    (hw : EndsWithWhole text ts) : Stops Char.isDigit rest := by
  obtain ⟨t, ht, value, lexeme, hkind, hstop, hlexeme, hpoint⟩ := hw
  obtain ⟨lexeme', hlexeme', hspelling, -, hlongest⟩ := h.lexeme_eq t ht
  obtain rfl : lexeme = lexeme' := Option.some.inj (hlexeme.symm.trans hlexeme')
  rw [hkind] at hspelling
  rw [hstop, List.drop_length, List.nil_append] at hlongest
  exact hlongest.stops_behind_point hspelling hpoint

end Token

open Token in
/-- **Nothing is lost**: if a source is cut into tokens, they and blanks make it up, and
each of them is as long as it can be. If it is not, the fault names a character that is no
blank and begins no token, and where it stands. The text in front of it is ASCII and is
cut into tokens by itself, and a point is never named between a number without a fraction
and a digit. -/
theorem tokens_tile_source (source : String) :
    (∀ tokens, lex source = .ok tokens → Tiles source tokens)
    ∧ ∀ fault, lex source = .error fault →
      ∃ c position front rest tokens, fault = .unexpectedCharacter c position
        ∧ Source.splitAt? source.toList position = some (front, c :: rest)
        ∧ (∀ d ∈ front, d.utf8Size = 1) ∧ lex (String.ofList front) = .ok tokens
        ∧ Misfit c
        ∧ (c = '.' → EndsWithWhole front tokens → ∀ d ∈ rest.head?, d.isDigit = false) := by
  refine ⟨fun tokens h => (lex_eq_ok_iff.mp h).tiles, ?_⟩
  intro fault h
  obtain ⟨front, c, rest, tokens, hsource, hfront, hc, rfl⟩ := lex_eq_error_iff.mp h
  have hascii := hfront.lexes.ascii
  refine ⟨c, front.length, front, rest, tokens, rfl, ?_, hascii, ?_, hc, ?_⟩
  · rw [hsource]
    exact Source.splitAt?_append hascii
  · rw [lex_eq_ok_iff, String.toList_ofList]
    exact hfront.lexes
  · rintro rfl hwhole
    exact hfront.stops_behind_whole hwhole

end Formula
