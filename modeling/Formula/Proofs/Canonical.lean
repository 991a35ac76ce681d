import Formula.Proofs.Leaves
import Formula.Proofs.ReadBack

/-!
The canonical text of a tree.

* `Decimal.takes_toChars`: a written numeral is a number token.
* `Token.Kind.Writable`: the text of a token is this token again, in front of whatever
  stands apart. Tokens that were read are writable, numbers if they are finite.
* `Spells`, `Derives.spells`: the text of a tree consists of the kinds of tokens that the
  tree was made of.
* `text_reads_back`: the canonical text of an analysed tree is analysed as this tree.
-/

namespace Formula

open Token (Lexes Takes Apart)

/-! ### Written numerals -/

namespace Decimal

lemma isDigit_paddedDigits (d : Decimal) : ∀ c ∈ d.paddedDigits, c.isDigit = true := by
  intro c hc
  rcases List.mem_append.mp hc with hc | hc
  · obtain rfl := List.eq_of_mem_replicate hc
    rfl
  · exact Nat.isDigit_of_mem_toDigits (by decide) (by decide) hc

/-- One digit more than there are places is written at least. -/
lemma places_lt_length (d : Decimal) : d.places < d.paddedDigits.length := by
  rw [paddedDigits, List.length_append, List.length_replicate]
  omega

lemma whole_ne_nil (d : Decimal) : d.whole ≠ [] := by
  have hlt := d.places_lt_length
  intro h
  have hlen := congrArg List.length h
  rw [whole, List.length_take, List.length_nil] at hlen
  omega

/-- A written numeral is a number token. -/
theorem takes_toChars (d : Decimal) {rest : List Char} (h : Apart rest) :
    Takes (.number d.toFloat) d.toChars rest := by
  have hwhole : ∀ c ∈ d.whole, c.isDigit = true :=
    fun c hc => d.isDigit_paddedDigits c (List.mem_of_mem_take hc)
  have hfraction : ∀ c ∈ d.fraction, c.isDigit = true :=
    fun c hc => d.isDigit_paddedDigits c (List.mem_of_mem_drop hc)
  have hd := d.ofDigits_whole_fraction
  rw [toChars]
  split
  · next hplaces =>
    have hnil : d.fraction = [] := List.eq_nil_of_length_eq_zero (d.length_fraction.trans hplaces)
    rw [hnil] at hd
    have htakes := Takes.whole d.whole_ne_nil hwhole h.stops_isDigit h.fractionDigits_eq_nil
    rwa [hd] at htakes
  · next hplaces =>
    have hne : d.fraction ≠ [] := by
      intro hnil
      rw [← d.length_fraction, hnil] at hplaces
      exact hplaces rfl
    have htakes := Takes.fraction d.whole_ne_nil hwhole hne hfraction h.stops_isDigit
    rwa [hd] at htakes

end Decimal

/-! ### Written tokens -/

namespace Token

/-- The text of a token is this token again, in front of whatever stands apart. -/
def Kind.Writable (kind : Kind) : Prop := ∀ rest, Apart rest → Takes kind kind.text.toList rest

variable {kind : Kind} {lexeme rest : List Char} {offset : ℕ} {text : List Char} {ts : List Token}

/-- A numeral may be read as a number that is written in another way, but not as one
that reads as another number. -/
lemma writable_of_numeral {d : Decimal} (h : d.toFloat.isFinite = true) :
    (Kind.number d.toFloat).Writable := by
  intro rest hr
  obtain ⟨d', htext, hvalue⟩ := Decimal.exists_text_eq h
  rw [Kind.text, htext, String.toList_ofList, ← hvalue]
  exact d'.takes_toChars hr

lemma writable_symbol {c : Char} (h : Kind.ofSymbol? c = some kind) : kind.Writable := by
  have htext : kind.text.toList = [c] := by
    unfold Kind.ofSymbol? at h
    split at h <;> first | (obtain rfl := Option.some.inj h; rfl) | cases h
  intro rest _
  rw [htext]
  exact Takes.symbol h

/-- What has been read is written so that it is read again. -/
lemma Takes.writable (h : Takes kind lexeme rest)
    (hfin : ∀ value, kind = .number value → value.isFinite = true) : kind.Writable := by
  cases h with
  | whole | fraction => exact writable_of_numeral (hfin _ rfl)
  | name hc hp hr =>
      intro rest hr
      rw [Kind.text, String.toList_ofList]
      exact Takes.name hc hp hr.1
  | symbol hk => exact writable_symbol hk

lemma Lexes.writable (h : Lexes offset text ts)
    (hfin : ∀ t ∈ ts, ∀ value, t.kind = .number value → value.isFinite = true) :
    ∀ t ∈ ts, t.kind.Writable := by
  intro t ht
  obtain ⟨lexeme, rest, htakes⟩ := h.exists_takes t ht
  exact htakes.writable (hfin t ht)

end Token

/-! ### Written trees -/

/-- Wherever the text stands, it is cut into tokens of the given kinds. -/
def Spells (text : String) (kinds : List Token.Kind) : Prop :=
  ∀ offset, ∃ us, Lexes offset text.toList us ∧ us.map (·.kind) = kinds

namespace Spells

variable {x y : String} {kinds kinds' : List Token.Kind}

lemma of_writable {kind : Token.Kind} (h : kind.Writable) : Spells kind.text [kind] :=
  fun offset => ⟨_, Lexes.single (h [] Token.apart_nil) offset, rfl⟩

lemma signed {op : Operator} {sign : Sign} (hop : op.sign? = some sign) (h : Spells x kinds) :
    Spells (String.singleton sign.symbol ++ x) (.operator op :: kinds) := by
  intro offset
  obtain ⟨us, hus, rfl⟩ := h (offset + 1)
  have hsymbol : op.symbol = sign.symbol := by
    cases op <;> cases hop <;> rfl
  have hsign := hus.symbol (Token.Kind.ofSymbol?_symbol op)
  rw [hsymbol] at hsign
  exact ⟨_, by simpa using hsign, rfl⟩

lemma block (h : Spells x kinds) : Spells ("(" ++ x ++ ")") (.lparen :: (kinds ++ [.rparen])) := by
  intro offset
  obtain ⟨us, hus, rfl⟩ := h (offset + 1)
  have hopen : Token.Kind.ofSymbol? '(' = some .lparen := rfl
  have hclose : Token.Kind.ofSymbol? ')' = some .rparen := rfl
  have hinside := hus.append (Lexes.nil.symbol hclose) (Token.apart_of_ofSymbol? hclose)
  exact ⟨_, by simpa using hinside.symbol hopen, by simp⟩

/-- Texts with a blank between them consist of the tokens of both. -/
lemma blank (hx : Spells x kinds) (hy : Spells y kinds') :
    Spells (x ++ " " ++ y) (kinds ++ kinds') := by
  intro offset
  obtain ⟨us, hus, rfl⟩ := hx offset
  obtain ⟨vs, hvs, rfl⟩ := hy (offset + x.toList.length + 1)
  have hblank : Token.isBlank ' ' = true := by decide
  have hjoined := hus.append (hvs.blank hblank) (Token.apart_of_isBlank hblank)
  exact ⟨_, by simpa using hjoined, List.map_append⟩

lemma binary (op : Operator) (hx : Spells x kinds) (hy : Spells y kinds') :
    Spells (x ++ " " ++ String.singleton op.symbol ++ " " ++ y)
      (kinds ++ .operator op :: kinds') := by
  have hop := of_writable (Token.writable_symbol (Token.Kind.ofSymbol?_symbol op))
  rw [Token.Kind.text] at hop
  simpa using (hx.blank hop).blank hy

end Spells

variable {phrase : Phrase} {ts : List Token} {e : Expr}

/-- The text of a tree consists of the kinds of tokens that the tree was made of. -/
theorem Derives.spells (h : Derives phrase ts e) (hw : ∀ t ∈ ts, t.kind.Writable) :
    Spells e.text (ts.map (·.kind)) := by
  induction h using Derives.byRank with
  | first _ ih | base _ ih | unsigned _ ih => exact ih hw
  | join _ _ _ ihl ihr | raise _ _ ihl ihr =>
      obtain ⟨hwl, hwr⟩ := List.forall_mem_append.mp hw
      rw [List.map_append, List.map_cons]
      exact (ihl hwl).binary _ (ihr (List.forall_mem_cons.mp hwr).2)
  | sign hop _ ih => exact (ih (List.forall_mem_cons.mp hw).2).signed hop
  | number | name => exact Spells.of_writable (hw _ List.mem_cons_self)
  | group _ ih =>
      obtain ⟨hwx, -⟩ := List.forall_mem_append.mp (List.forall_mem_cons.mp hw).2
      rw [List.map_cons, List.map_append]
      exact (ih hwx).block

/-- **The canonical text reads back**: if the literals of an analysed source are finite,
the text of its tree is analysed within the same limits; the tree is the same except
for spans, and so are the unknowns and the text. -/
theorem text_reads_back {limits : Limits} {source : String} {a : Analysis}
    (h : (analyse limits source).outcome = .ok a)
    (hfin : ∀ value span, Expr.literal value span ∈ a.expr.nodes → value.isFinite = true) :
    ∃ q, (analyse limits a.expr.text).outcome = .ok q ∧ q.expr.bare = a.expr.bare
      ∧ q.unknowns = a.unknowns ∧ q.expr.text = a.expr.text := by
  obtain ⟨tokens, hlex, hcount, hd, hheight, hunknowns⟩ := outcome_analyse_ok_iff.mp h
  have hwritable : ∀ t ∈ tokens, t.kind.Writable := by
    refine hlex.writable ?_
    rintro ⟨kind, span⟩ ht value rfl
    exact hfin value span (hd.literal_mem_nodes ht)
  obtain ⟨us, hus, hkinds⟩ := hd.spells hwritable 0
  obtain ⟨e, hd', hbare⟩ := hd.respan hkinds
  have hlen : us.length = tokens.length := by
    rw [← List.length_map (·.kind), hkinds, List.length_map]
  refine ⟨⟨e, a.unknowns⟩, ?_, hbare, rfl, Expr.text_eq_of_bare hbare⟩
  refine outcome_analyse_ok_iff.mpr ⟨us, hus, ?_, hd', ?_, ?_⟩
  · rwa [hlen]
  · rwa [Expr.height_eq_of_bare hbare]
  · rw [hunknowns, Expr.names_eq_of_bare hbare]

/-- The canonical text of `2.50*-x` is `2.5 * -x`. -/
theorem text_of_scaled_negation :
    let e : Expr := .binary .mul (.literal (Float.ofBits 0x4004000000000000) ⟨0, 4⟩)
      (.signed .minus (.unknown "x" ⟨6, 7⟩) ⟨5, 7⟩) ⟨0, 7⟩
    (analyse {} "2.50*-x").outcome = .ok ⟨e, ["x"]⟩
      ∧ ∃ q, (analyse {} "2.5 * -x").outcome = .ok q ∧ q.expr.bare = e.bare
        ∧ q.unknowns = ["x"] ∧ q.expr.text = "2.5 * -x" := by
  intro e
  have h : (analyse {} "2.50*-x").outcome = .ok ⟨e, ["x"]⟩ := by decide +kernel
  have hfin : ∀ value span, Expr.literal value span ∈ e.nodes → value.isFinite = true := by
    intro value span hmem
    obtain ⟨rfl, -⟩ : value = Float.ofBits 0x4004000000000000 ∧ _ := by
      simpa [e, Expr.nodes] using hmem
    rfl
  have htext : e.text = "2.5 * -x" := by decide +kernel
  obtain ⟨q, hq, hbare, hunknowns, hsame⟩ := text_reads_back h hfin
  rw [htext] at hq hsame
  exact ⟨h, q, hq, hbare, hunknowns, hsame⟩

end Formula
