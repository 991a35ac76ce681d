import Formula.Proofs.Canonical

/-!
Tokens that are printed and read again.

* `Decimal.text_eq_inf`: a numeral too large for a finite number is printed as `inf`.
* `Token.Kind.reread`: what the printed text of a token is read as. Only an infinite
  number is read as something else, a name.
* `Spells.join`: texts with blanks between them consist of what each of them spells.
* `printed_tokens_read_back`: every token of a source, and the whole stream of them with
  blanks between, is read as `reread` says.
* `infinite_number_is_reread_as_name`: an infinite number of a source is not read back.
-/

namespace Formula

open Token (Lexes Takes Apart)

/-! ### Infinite numerals -/

namespace Decimal

variable {d : Decimal}

/-- A numeral that does not denote a finite number denotes infinity. -/
lemma toBits_eq_infinityBits (h : d.toFloat.isFinite = false) :
    d.toBits = Binary64.infinityBits := by
  refine d.toBits_le.eq_or_lt.resolve_right fun hlt => ?_
  have hfinite : d.toFloat.isFinite = true :=
    Binary64.isFinite_ofBits (by rwa [d.toNat_ofNat_toBits])
  rw [h] at hfinite
  cases hfinite

/-- Infinity is printed as a word. -/
lemma text_eq_inf (h : d.toFloat.isFinite = false) : Binary64.text d.toFloat = "inf" := by
  rw [toFloat, toBits_eq_infinityBits h]
  rfl

end Decimal

/-! ### Printed tokens -/

namespace Token

/-- What the printed text of a token is read as. Infinity is printed as a word, and words
are names; everything else is read as what it is. -/
def Kind.reread : Kind → Kind
  | .number value => if value.isFinite then .number value else .name "inf"
  | kind => kind

variable {kind : Kind} {lexeme rest : List Char}

/-- A token is read as what it is unless it is an infinite number. -/
lemma Kind.reread_eq_self_iff :
    kind.reread = kind ↔ ∀ value, kind = .number value → value.isFinite = true := by
  cases kind with
  | number value => by_cases h : value.isFinite = true <;> simp [reread, h]
  | _ => simp [reread]

/-- Infinity is read as a name. -/
lemma takes_inf (h : Apart rest) : Takes (.name "inf") "inf".toList rest :=
  @Takes.name 'i' ['n', 'f'] rest rfl (by simp [isNamePart]) h.1

/-- A number that has been read is denoted by a numeral. -/
lemma Takes.exists_numeral {value : Float} (h : Takes (.number value) lexeme rest) :
    ∃ d : Decimal, value = d.toFloat := by
  cases h with
  | whole | fraction => exact ⟨_, rfl⟩
  | symbol hk =>
      unfold Kind.ofSymbol? at hk
      split at hk <;> cases hk

/-- What has been read is printed as what it is reread as. -/
lemma Takes.takes_text (h : Takes kind lexeme rest) {rest' : List Char} (hr : Apart rest') :
    Takes kind.reread kind.text.toList rest' := by
  by_cases hfin : ∀ value, kind = .number value → value.isFinite = true
  · rw [Kind.reread_eq_self_iff.mpr hfin]
    exact h.writable hfin rest' hr
  · push Not at hfin
    obtain ⟨value, rfl, hinf⟩ := hfin
    have hinf : value.isFinite = false := Bool.eq_false_of_not_eq_true hinf
    obtain ⟨d, rfl⟩ := h.exists_numeral
    rw [Kind.text, Decimal.text_eq_inf hinf, Kind.reread, hinf]
    exact takes_inf hr

end Token

namespace Spells

/-- Texts with blanks between them consist of what each of them spells. -/
lemma join {α : Type} {print : α → String} {read : α → Token.Kind} {items : List α}
    (h : ∀ item ∈ items, Spells (print item) [read item]) :
    Spells (" ".intercalate (items.map print)) (items.map read) := by
  induction items with
  | nil => exact fun _ => ⟨[], Lexes.nil, rfl⟩
  | cons item items ih =>
      obtain ⟨hitem, hitems⟩ := List.forall_mem_cons.mp h
      cases items with
      | nil => simpa using hitem
      | cons next items => simpa using hitem.blank (ih hitems)

end Spells

/-- **Printed tokens read back**: the text of each token of a source is one token again,
the same one unless this is an infinite number. The texts of all tokens with blanks
between them are read as the same stream, up to infinite numbers. -/
theorem printed_tokens_read_back {source : String} {tokens : List Token}
    (h : lex source = .ok tokens) :
    (∀ t ∈ tokens, lex t.kind.text = .ok [⟨t.kind.reread, ⟨0, t.kind.text.length⟩⟩]
      ∧ (t.kind.reread = t.kind ↔ ∀ value, t.kind = .number value → value.isFinite = true))
    ∧ ∃ us, lex (" ".intercalate (tokens.map (·.kind.text))) = .ok us
      ∧ us.map (·.kind) = tokens.map (·.kind.reread) := by
  have hlexes : ∀ t ∈ tokens, ∀ offset, Lexes offset t.kind.text.toList
      [⟨t.kind.reread, ⟨offset, offset + t.kind.text.length⟩⟩] := by
    intro t ht offset
    obtain ⟨lexeme, rest, htakes⟩ := (lex_eq_ok_iff.mp h).exists_takes t ht
    exact Lexes.single (htakes.takes_text Token.apart_nil) offset
  refine ⟨fun t ht => ⟨lex_eq_ok_iff.mpr ?_, Token.Kind.reread_eq_self_iff⟩, ?_⟩
  · simpa using hlexes t ht 0
  · obtain ⟨us, hus, hkinds⟩ := Spells.join (fun t ht offset => ⟨_, hlexes t ht offset, rfl⟩) 0
    exact ⟨us, lex_eq_ok_iff.mpr hus, hkinds⟩

/-- The tokens of `2.50*(rate_2)` are read back from `2.5 * ( rate_2 )`. -/
theorem tokens_of_scaled_rate_read_back :
    let two := Token.mk (.number (Float.ofBits 0x4004000000000000)) ⟨0, 4⟩
    let tokens := [two, ⟨.operator .mul, ⟨4, 5⟩⟩, ⟨.lparen, ⟨5, 6⟩⟩, ⟨.name "rate_2", ⟨6, 12⟩⟩,
      ⟨.rparen, ⟨12, 13⟩⟩]
    lex "2.50*(rate_2)" = .ok tokens
      ∧ lex "2.5" = .ok [⟨two.kind, ⟨0, 3⟩⟩]
      ∧ ∃ us, lex "2.5 * ( rate_2 )" = .ok us ∧ us.map (·.kind) = tokens.map (·.kind) := by
  intro two tokens
  have h : lex "2.50*(rate_2)" = .ok tokens := by decide +kernel
  obtain ⟨heach, us, hus, hkinds⟩ := printed_tokens_read_back h
  have htwo := (heach two List.mem_cons_self).1
  have htext : two.kind.text = "2.5" := by decide +kernel
  have hjoined : " ".intercalate (tokens.map (·.kind.text)) = "2.5 * ( rate_2 )" := by
    decide +kernel
  have hsame : tokens.map (·.kind.reread) = tokens.map (·.kind) := rfl
  rw [htext] at htwo
  rw [hjoined] at hus
  rw [hsame] at hkinds
  exact ⟨h, htwo, us, hus, hkinds⟩

/-- An infinite number is not read back: `1` with 309 zeros is a number, but this number is
printed as `inf`, which is a name. -/
theorem infinite_number_is_reread_as_name :
    let t := Token.mk (.number (Float.ofBits 0x7FF0000000000000)) ⟨0, 310⟩
    lex (String.ofList ('1' :: List.replicate 309 '0')) = .ok [t]
      ∧ lex t.kind.text = .ok [⟨.name "inf", ⟨0, 3⟩⟩]
      ∧ ¬ ∃ span, lex t.kind.text = .ok [⟨t.kind, span⟩] := by
  intro t
  have hdigits : ∀ c ∈ '1' :: List.replicate 309 '0', c.isDigit = true := by
    refine List.forall_mem_cons.mpr ⟨rfl, fun c hc => ?_⟩
    rw [List.eq_of_mem_replicate hc]
    rfl
  have htakes := Takes.whole (List.cons_ne_nil _ _) hdigits stops_nil rfl
  have hbits : (Decimal.ofDigits ('1' :: List.replicate 309 '0') []).toBits
      = Binary64.infinityBits := by decide +kernel
  have hlex : lex (String.ofList ('1' :: List.replicate 309 '0')) = .ok [t] := by
    rw [Decimal.toFloat, hbits] at htakes
    have hlexes := Lexes.single htakes 0
    rw [List.length_cons, List.length_replicate] at hlexes
    exact lex_eq_ok_iff.mpr (by rwa [String.toList_ofList])
  have htext : t.kind.text = "inf" := rfl
  have hinf : lex "inf" = .ok [⟨.name "inf", ⟨0, 3⟩⟩] :=
    lex_eq_ok_iff.mpr (Lexes.single (Token.takes_inf Token.apart_nil) 0)
  refine ⟨hlex, ?_, ?_⟩
  · rw [htext, hinf]
  · rintro ⟨span, hspan⟩
    rw [htext, hinf] at hspan
    simp [t] at hspan

end Formula
