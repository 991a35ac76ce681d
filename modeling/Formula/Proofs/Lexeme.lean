import Mathlib
import Formula.Token.Lexer

/-!
The longest token at the head of a text.

* `Stops`: no character of some class stands at the head of a text.
* `Token.Takes`: a token of some kind, its text and what follows, which cannot make it
  longer. A number is digits, with or without a fraction; a name goes on with letters,
  digits and underscores; a symbol is one character.
* `Token.takes_of_munch`, `Token.munch_of_takes`: this is the token that is cut off.
* `Token.Takes.congr`: what follows a token may be replaced by what ends a token as
  well. `EndsAlike.of_append` allows less of the same text, and `EndsAlike.append`
  more text behind it, if that stands apart.
* `Token.Takes.ascii`: tokens are written in ASCII.
-/

namespace Formula

/-- No character of the class stands at the head of the text. -/
def Stops (p : Char → Bool) (text : List Char) : Prop := ∀ c ∈ text.head?, p c = false

variable {p : Char → Bool} {ws rest rest' more : List Char} {c : Char}

lemma stops_nil : Stops p [] := by
  intro c hc
  cases hc

@[simp] lemma stops_cons : Stops p (c :: rest) ↔ p c = false := by
  simp [Stops]

lemma stops_dropWhile (p : Char → Bool) (text : List Char) : Stops p (text.dropWhile p) := by
  intro c hc
  have h := List.head?_dropWhile_not p text
  rw [Option.mem_def.mp hc] at h
  exact h

lemma takeWhile_of_stops (h : Stops p rest) : rest.takeWhile p = [] := by
  cases rest with
  | nil => rfl
  | cons c rest => exact List.takeWhile_cons_of_neg (by simp [stops_cons.mp h])

lemma dropWhile_of_stops (h : Stops p rest) : rest.dropWhile p = rest := by
  cases rest with
  | nil => rfl
  | cons c rest => exact List.dropWhile_cons_of_neg (by simp [stops_cons.mp h])

lemma takeWhile_append_of_stops (hw : ∀ c ∈ ws, p c = true) (h : Stops p rest) :
    (ws ++ rest).takeWhile p = ws := by
  rw [List.takeWhile_append_of_pos hw, takeWhile_of_stops h, List.append_nil]

lemma dropWhile_append_of_stops (hw : ∀ c ∈ ws, p c = true) (h : Stops p rest) :
    (ws ++ rest).dropWhile p = rest := by
  rw [List.dropWhile_append_of_pos hw, dropWhile_of_stops h]

namespace Token

/-! ### The token at the head of a text -/

/-- At the head of a text stands a token of some kind, first its own text and then
what follows it, which does not make the token longer. -/
inductive Takes : Kind → List Char → List Char → Prop
  /-- A number without a fraction … -/
  | whole {ws rest : List Char} (hw : ws ≠ []) (hd : ∀ c ∈ ws, c.isDigit = true)
      (hr : Stops Char.isDigit rest) (hf : fractionDigits rest = []) :
      Takes (.number (Decimal.ofDigits ws []).toFloat) ws rest
  /-- … and one with a fraction. -/
  | fraction {ws fs rest : List Char} (hw : ws ≠ []) (hd : ∀ c ∈ ws, c.isDigit = true)
      (hf : fs ≠ []) (hfd : ∀ c ∈ fs, c.isDigit = true) (hr : Stops Char.isDigit rest) :
      Takes (.number (Decimal.ofDigits ws fs).toFloat) (ws ++ '.' :: fs) rest
  | name {c : Char} {part rest : List Char} (hc : isNameStart c = true)
      (hp : ∀ c ∈ part, isNamePart c = true) (hr : Stops isNamePart rest) :
      Takes (.name (String.ofList (c :: part))) (c :: part) rest
  | symbol {c : Char} {kind : Kind} {rest : List Char} (h : Kind.ofSymbol? c = some kind) :
      Takes kind [c] rest

/-- A symbol is no digit and begins no name. -/
lemma class_of_ofSymbol? {kind : Kind} (h : Kind.ofSymbol? c = some kind) :
    c.isDigit = false ∧ isNameStart c = false ∧ isBlank c = false ∧ c.val ≤ 127 := by
  unfold Kind.ofSymbol? at h
  split at h <;> first | decide | simp at h

/-- The first character of a name is no digit. -/
lemma isDigit_of_isNameStart (h : isNameStart c = true) : c.isDigit = false := by
  by_contra hd
  rw [Bool.not_eq_false] at hd
  simp only [isNameStart, Char.isAlpha, Char.isUpper, Char.isLower, Char.isDigit, Bool.or_eq_true,
    Bool.and_eq_true, decide_eq_true_eq, beq_iff_eq, ge_iff_le, UInt32.le_iff_toNat_le] at h hd
  rcases h with (h | h) | rfl
  · exact absurd (h.1.trans hd.2) (by decide)
  · exact absurd (h.1.trans hd.2) (by decide)
  · exact absurd hd (by decide)

lemma isNamePart_of_isDigit (h : c.isDigit = true) : isNamePart c = true := by
  simp [isNamePart, Char.isAlphanum, h]

lemma isNamePart_of_isNameStart (h : isNameStart c = true) : isNamePart c = true := by
  simp only [isNameStart, Bool.or_eq_true] at h
  rcases h with h | h
  · simp [isNamePart, Char.isAlphanum, h]
  · simp [isNamePart, h]

lemma isBlank_of_isNamePart (h : isNamePart c = true) : isBlank c = false := by
  by_contra hb
  rw [Bool.not_eq_false] at hb
  simp only [isBlank, Bool.or_eq_true, beq_iff_eq] at hb
  rcases hb with (((rfl | rfl) | rfl) | rfl) | rfl <;> exact absurd h (by decide)

lemma ascii_of_isNamePart (h : isNamePart c = true) : c.utf8Size = 1 := by
  rw [Char.utf8Size_eq_one_iff, UInt32.le_iff_toNat_le]
  simp only [isNamePart, Char.isAlphanum, Char.isAlpha, Char.isUpper, Char.isLower, Char.isDigit,
    Bool.or_eq_true, Bool.and_eq_true, decide_eq_true_eq, beq_iff_eq, ge_iff_le,
    UInt32.le_iff_toNat_le] at h
  rcases h with (((h | h) | h) | rfl)
  · exact h.2.trans (by decide)
  · exact h.2.trans (by decide)
  · exact h.2.trans (by decide)
  · decide

lemma ascii_of_isBlank (h : isBlank c = true) : c.utf8Size = 1 := by
  simp only [isBlank, Bool.or_eq_true, beq_iff_eq] at h
  rcases h with (((rfl | rfl) | rfl) | rfl) | rfl <;> decide

lemma fractionDigits_point (fs : List Char) :
    fractionDigits ('.' :: fs) = fs.takeWhile Char.isDigit :=
  rfl

/-- A fraction begins with a point. -/
lemma exists_of_fractionDigits_ne_nil (h : fractionDigits rest ≠ []) :
    ∃ more, rest = '.' :: more := by
  unfold fractionDigits at h
  split at h
  · exact ⟨_, rfl⟩
  · exact absurd rfl h

lemma takes_of_munch {text : List Char} {kind : Kind} {n : ℕ} (h : munch c text = some (kind, n)) :
    ∃ cs rest, text = cs ++ rest ∧ cs.length = n ∧ Takes kind (c :: cs) rest := by
  rw [munch] at h
  split at h
  · next hc =>
    obtain ⟨rfl, rfl⟩ := Prod.mk.inj (Option.some.inj h)
    have hd : ∀ d ∈ c :: text.takeWhile Char.isDigit, d.isDigit = true := by
      rintro d (_ | ⟨_, hd⟩)
      · exact hc
      · exact List.mem_takeWhile_imp hd
    by_cases hf : fractionDigits (text.dropWhile Char.isDigit) = []
    · refine ⟨text.takeWhile Char.isDigit, text.dropWhile Char.isDigit,
        List.takeWhile_append_dropWhile.symm, by simp [fractionLength, hf], ?_⟩
      rw [hf]
      exact Takes.whole (by simp) hd (stops_dropWhile _ _) hf
    · obtain ⟨more, hmore⟩ := exists_of_fractionDigits_ne_nil hf
      rw [hmore, fractionDigits_point] at hf ⊢
      refine ⟨text.takeWhile Char.isDigit ++ '.' :: more.takeWhile Char.isDigit,
        more.dropWhile Char.isDigit, ?_, ?_, ?_⟩
      · rw [List.append_assoc, List.cons_append, List.takeWhile_append_dropWhile, ← hmore,
          List.takeWhile_append_dropWhile]
      · rw [fractionLength, fractionDigits_point, if_neg (by simpa using hf), List.length_append,
          List.length_cons]
      · exact Takes.fraction (by simp) hd hf (fun d hd => List.mem_takeWhile_imp hd)
          (stops_dropWhile _ _)
  · split at h
    · next hc =>
      obtain ⟨rfl, rfl⟩ := Prod.mk.inj (Option.some.inj h)
      exact ⟨text.takeWhile isNamePart, text.dropWhile isNamePart,
        List.takeWhile_append_dropWhile.symm, rfl,
        Takes.name hc (fun d hd => List.mem_takeWhile_imp hd) (stops_dropWhile _ _)⟩
    · obtain ⟨kind', hk, he⟩ := Option.map_eq_some_iff.mp h
      obtain ⟨rfl, rfl⟩ := Prod.mk.inj he
      exact ⟨[], text, rfl, rfl, Takes.symbol hk⟩

lemma munch_of_takes {cs : List Char} {kind : Kind} (h : Takes kind (c :: cs) rest) :
    munch c (cs ++ rest) = some (kind, cs.length) := by
  generalize hl : c :: cs = lexeme at h
  cases h with
  | whole hw hd hr hf =>
      subst hl
      have hcs : ∀ d ∈ cs, d.isDigit = true := fun d hm => hd d (List.mem_cons_of_mem _ hm)
      rw [munch, if_pos (hd c List.mem_cons_self), takeWhile_append_of_stops hcs hr,
        dropWhile_append_of_stops hcs hr]
      simp [hf, fractionLength]
  | @fraction ws fs rest hw hd hf hfd hr =>
      cases ws with
      | nil => exact absurd rfl hw
      | cons w ws =>
          rw [List.cons_append] at hl
          obtain ⟨rfl, rfl⟩ := List.cons.inj hl
          have hws : ∀ d ∈ ws, d.isDigit = true := fun d hm => hd d (List.mem_cons_of_mem _ hm)
          have hpoint : Stops Char.isDigit ('.' :: (fs ++ rest)) := stops_cons.mpr (by decide)
          rw [List.append_assoc, List.cons_append, munch, if_pos (hd c List.mem_cons_self),
            takeWhile_append_of_stops hws hpoint, dropWhile_append_of_stops hws hpoint]
          simp [fractionLength, fractionDigits_point, takeWhile_append_of_stops hfd hr, hf]
  | name hc hp hr =>
      obtain ⟨rfl, rfl⟩ := List.cons.inj hl
      rw [munch, if_neg (by simp [isDigit_of_isNameStart hc]), if_pos hc,
        takeWhile_append_of_stops hp hr]
  | symbol hk =>
      obtain ⟨rfl, rfl⟩ := List.cons.inj hl
      obtain ⟨hd, hn, -⟩ := class_of_ofSymbol? hk
      rw [munch, if_neg (by simp [hd]), if_neg (by simp [hn]), hk]
      rfl

/-! ### What may follow a token -/

/-- Where the first text ends a token, the second one does as well. -/
structure EndsAlike (text text' : List Char) : Prop where
  name : Stops isNamePart text → Stops isNamePart text'
  digit : Stops Char.isDigit text → Stops Char.isDigit text'
  fraction : fractionDigits text = [] → fractionDigits text' = []

/-- The text begins with nothing that makes a token longer. -/
def Apart (text : List Char) : Prop := Stops isNamePart text ∧ ∀ c ∈ text.head?, c ≠ '.'

lemma isDigit_of_isNamePart (h : isNamePart c = false) : c.isDigit = false := by
  simp only [isNamePart, Char.isAlphanum, Bool.or_eq_false_iff] at h
  exact h.1.2

lemma apart_nil : Apart [] := ⟨stops_nil, by simp⟩

lemma apart_cons : Apart (c :: rest) ↔ isNamePart c = false ∧ c ≠ '.' := by
  simp [Apart]

namespace Apart

lemma stops_isDigit (h : Apart rest) : Stops Char.isDigit rest :=
  fun c hc => isDigit_of_isNamePart (h.1 c hc)

lemma fractionDigits_eq_nil (h : Apart rest) : fractionDigits rest = [] := by
  by_contra hf
  obtain ⟨more, rfl⟩ := exists_of_fractionDigits_ne_nil hf
  exact (apart_cons.mp h).2 rfl

end Apart

/-- A blank stands apart. -/
lemma apart_of_isBlank (h : isBlank c = true) : Apart (c :: rest) := by
  simp only [isBlank, Bool.or_eq_true, beq_iff_eq] at h
  rw [apart_cons]
  rcases h with (((rfl | rfl) | rfl) | rfl) | rfl <;> exact ⟨by decide, by decide⟩

/-- A symbol stands apart. -/
lemma apart_of_ofSymbol? {kind : Kind} (h : Kind.ofSymbol? c = some kind) : Apart (c :: rest) := by
  rw [apart_cons]
  unfold Kind.ofSymbol? at h
  split at h <;> first | exact ⟨by decide, by decide⟩ | simp at h

namespace EndsAlike

/-- A text that stands apart ends every token. -/
lemma of_apart {text : List Char} (h : Apart rest) : EndsAlike text rest :=
  ⟨fun _ => h.1, fun _ => h.stops_isDigit, fun _ => h.fractionDigits_eq_nil⟩

/-- Less of the same text ends a token as well. -/
lemma of_append (text more : List Char) : EndsAlike (text ++ more) text := by
  cases text with
  | nil => exact of_apart apart_nil
  | cons c text =>
      refine ⟨?_, ?_, ?_⟩
      · rw [List.cons_append, stops_cons, stops_cons]
        exact id
      · rw [List.cons_append, stops_cons, stops_cons]
        exact id
      · intro h
        by_contra hf
        obtain ⟨fs, hfs⟩ := exists_of_fractionDigits_ne_nil hf
        rw [hfs, fractionDigits_point] at hf
        rw [hfs, List.cons_append, fractionDigits_point, List.takeWhile_append] at h
        split at h
        · obtain ⟨rfl, -⟩ := List.append_eq_nil_iff.mp h
          exact hf rfl
        · exact hf h

/-- More text may stand behind, if it stands apart. -/
lemma append (text : List Char) (h : Apart more) : EndsAlike text (text ++ more) := by
  cases text with
  | nil => exact of_apart h
  | cons c text =>
      refine ⟨?_, ?_, ?_⟩
      · rw [List.cons_append, stops_cons, stops_cons]
        exact id
      · rw [List.cons_append, stops_cons, stops_cons]
        exact id
      · intro hf
        by_contra hne
        obtain ⟨fs, hfs⟩ := exists_of_fractionDigits_ne_nil hne
        rw [List.cons_append] at hfs
        obtain ⟨rfl, rfl⟩ := List.cons.inj hfs
        rw [fractionDigits_point] at hf
        rw [List.cons_append, fractionDigits_point, List.takeWhile_append] at hne
        split at hne
        · next hlen =>
          rw [hf] at hlen
          rw [List.eq_nil_of_length_eq_zero hlen.symm, List.nil_append,
            takeWhile_of_stops h.stops_isDigit] at hne
          exact hne rfl
        · exact hne hf

end EndsAlike

namespace Takes

variable {kind : Kind} {lexeme : List Char}

/-- What follows a token may be replaced by what ends tokens alike. -/
lemma congr (h : Takes kind lexeme rest) (he : EndsAlike rest rest') : Takes kind lexeme rest' := by
  cases h with
  | whole hw hd hr hf => exact whole hw hd (he.digit hr) (he.fraction hf)
  | fraction hw hd hf hfd hr => exact fraction hw hd hf hfd (he.digit hr)
  | name hc hp hr => exact name hc hp (he.name hr)
  | symbol hk => exact symbol hk

/-- A token is written with at least one character, and the first one is no
blank. -/
lemma exists_cons (h : Takes kind lexeme rest) :
    ∃ c cs, lexeme = c :: cs ∧ isBlank c = false := by
  cases h with
  | @whole ws _ hw hd _ _ =>
      obtain ⟨c, cs, rfl⟩ := List.exists_cons_of_ne_nil hw
      exact ⟨c, cs, rfl, isBlank_of_isNamePart (isNamePart_of_isDigit (hd c List.mem_cons_self))⟩
  | @fraction ws fs _ hw hd _ _ _ =>
      obtain ⟨c, cs, rfl⟩ := List.exists_cons_of_ne_nil hw
      exact ⟨c, cs ++ '.' :: fs, rfl,
        isBlank_of_isNamePart (isNamePart_of_isDigit (hd c List.mem_cons_self))⟩
  | name hc hp hr => exact ⟨_, _, rfl, isBlank_of_isNamePart (isNamePart_of_isNameStart hc)⟩
  | symbol hk => exact ⟨_, _, rfl, (class_of_ofSymbol? hk).2.2.1⟩

/-- Tokens are written in ASCII. -/
lemma ascii (h : Takes kind lexeme rest) : ∀ c ∈ lexeme, c.utf8Size = 1 := by
  have hdigits : ∀ ws : List Char, (∀ c ∈ ws, c.isDigit = true) → ∀ c ∈ ws, c.utf8Size = 1 :=
    fun ws hd c hc => ascii_of_isNamePart (isNamePart_of_isDigit (hd c hc))
  cases h with
  | whole hw hd hr hf => exact hdigits _ hd
  | fraction hw hd hf hfd hr =>
      rw [List.forall_mem_append, List.forall_mem_cons]
      exact ⟨hdigits _ hd, by decide, hdigits _ hfd⟩
  | name hc hp hr =>
      rw [List.forall_mem_cons]
      exact ⟨ascii_of_isNamePart (isNamePart_of_isNameStart hc),
        fun c hc => ascii_of_isNamePart (hp c hc)⟩
  | symbol hk =>
      rw [List.forall_mem_singleton]
      exact Char.utf8Size_eq_one_iff.mpr (class_of_ofSymbol? hk).2.2.2

end Takes

end Token

end Formula
