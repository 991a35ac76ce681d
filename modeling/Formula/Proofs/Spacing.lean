import Formula.Proofs.Misfit

/-!
Texts with blanks between them.

* `Token.scan_add`: a text that begins further on is cut into the same tokens, or fails at
  the same character, further on.
* `Token.scan_append_of_error`, `Token.scan_across`: a text is cut up to the blanks behind
  it as it is by itself, and what stands behind the blanks as well.
* `LexedAcross`: what becomes of two sources with blanks between them.
* `Token.kinds?_across`: the kinds of the tokens do not tell how many blanks there are.
  `Respaced`: two texts that differ only in the lengths of their runs of blanks.
* `blanks_separate_sources`: two sources with blanks between them are cut independently of
  each other, and the lengths of the runs of blanks count for places only.
-/

namespace Formula

/-- A fault some bytes further on. -/
def Fault.shift (n : ℕ) : Fault → Fault
  | unexpectedCharacter c position => unexpectedCharacter c (position + n)
  | malformed flaw token position => malformed flaw token (position + n)
  | unbalanced imbalance token position => unbalanced imbalance token (position + n)
  | limitExceeded measure actual max position => limitExceeded measure actual max (position + n)
  | fault@(arity ..) | fault@(missingVariable _) => fault

namespace Token

variable {offset n : ℕ} {text text' more gap gap' behind : List Char} {ts us : List Token}
  {fault : Fault}

/-! ### Cutting further on -/

/-- Further on a text is cut as it is in front, only with other places. -/
lemma scan_add (offset n : ℕ) (text : List Char) :
    scan (offset + n) text
      = ((scan offset text).map (List.map (shift n))).mapError (Fault.shift n) := by
  fun_induction scan offset text with
  | case1 =>
      rw [scan_nil]
      rfl
  | case2 offset c cs hc ih => rw [scan_blank hc, Nat.add_right_comm, ih]
  | case3 offset c cs hc hm =>
      rw [scan, if_neg hc, hm]
      rfl
  | case4 offset c cs hc kind length hm ih =>
      rw [scan, if_neg hc, hm]
      have hnext : offset + n + length + 1 = offset + length + 1 + n := by omega
      simp only [hnext, ih]
      cases scan (offset + length + 1) (cs.drop length) with
      | error fault => rfl
      | ok ts => simp only [Except.map, Except.mapError, List.map_cons, shift, Span.shift]

/-- Blanks are skipped. -/
lemma scan_blanks (h : ∀ c ∈ gap, c ∈ blanks) (offset : ℕ) (text : List Char) :
    scan offset (gap ++ text) = scan (offset + gap.length) text := by
  induction gap generalizing offset with
  | nil => rfl
  | cons c gap ih =>
      obtain ⟨hc, hgap⟩ := List.forall_mem_cons.mp h
      rw [List.cons_append, scan_blank (isBlank_iff_mem.mpr hc), ih hgap, List.length_cons,
        Nat.add_assoc, Nat.add_comm 1]

/-! ### Cutting across blanks -/

/-- More text may stand behind what stands behind a text, if it stands apart. -/
lemma LexesBefore.append_behind (h : LexesBefore behind offset text ts) (ha : Apart more) :
    LexesBefore (behind ++ more) offset text ts := by
  induction h with
  | nil => exact nil
  | blank hc _ ih => exact ih.blank hc
  | token ht _ ih =>
      refine token ?_ ih
      rw [← List.append_assoc]
      exact ht.congr (EndsAlike.append _ ha)

lemma apart_append (hne : gap ≠ []) (h : ∀ c ∈ gap, c ∈ blanks) (text : List Char) :
    Apart (gap ++ text) := by
  obtain ⟨c, gap, rfl⟩ := List.exists_cons_of_ne_nil hne
  exact apart_of_isBlank (isBlank_iff_mem.mpr (h c List.mem_cons_self))

/-- A text that is not cut into tokens fails at the same character with more text behind,
if that stands apart. -/
lemma scan_append_of_error (h : scan offset text = .error fault) (ha : Apart more) :
    scan offset (text ++ more) = .error fault := by
  obtain ⟨front, c, rest, ts, rfl, hfront, hc, rfl⟩ := exists_misfit_of_scan h
  exact scan_eq_error_iff.mpr
    ⟨front, c, rest ++ more, ts, by simp, hfront.append_behind ha, hc, rfl⟩

/-- Behind a text that is cut into tokens and blanks the rest is cut as it is by itself. -/
lemma scan_across (hne : gap ≠ []) (hgap : ∀ c ∈ gap, c ∈ blanks)
    (h : scan 0 text = .ok ts) (rest : List Char) :
    scan 0 (text ++ (gap ++ rest))
      = ((scan 0 rest).map fun us => ts ++ us.map (shift (text.length + gap.length))).mapError
          (Fault.shift (text.length + gap.length)) := by
  have hbefore : LexesBefore (gap ++ rest) 0 text ts :=
    (scan_eq_ok_iff.mp h).lexesBefore_nil.append_behind (apart_append hne hgap rest)
  rw [hbefore.scan_append, scan_blanks hgap, Nat.add_assoc, scan_add]
  cases scan 0 rest <;> rfl

/-! ### The unknowns of two texts -/

/-- Repetitions may be dropped before or after a choice of names. The induction is on the list
from its end, where a name is kept if it is new. -/
lemma eraseDups_filter (p : String → Bool) (names : List String) :
    (names.filter p).eraseDups = names.eraseDups.filter p := by
  induction names using List.reverseRecOn with
  | nil => rfl
  | append_singleton names name ih =>
      rw [List.filter_append, List.eraseDups_append, List.eraseDups_append, List.filter_append, ih]
      congr 1
      by_cases hp : p name = true
      · by_cases hmem : name ∈ names
        · simp [List.removeAll, hp, hmem]
        · simp [List.removeAll, hp, hmem, List.eraseDups_cons]
      · by_cases hmem : name ∈ names
        · simp [List.removeAll, hp, hmem]
        · simp [List.removeAll, hp, hmem, List.eraseDups_cons]

/-- The kinds of tokens determine the unknowns. -/
lemma unknowns_eq_of_kinds (h : ts.map (·.kind) = us.map (·.kind)) : unknowns ts = unknowns us := by
  have hnames : ∀ vs : List Token,
      vs.filterMap (·.kind.name?) = (vs.map (·.kind)).filterMap Kind.name? := by
    intro vs
    rw [List.filterMap_map]
    rfl
  rw [unknowns, unknowns, hnames, hnames, h]

/-- The unknowns of two lists of tokens are those of the first one and the new ones of the
second one. -/
lemma unknowns_append (ts us : List Token) :
    unknowns (ts ++ us) = unknowns ts ++ (unknowns us).filter (· ∉ unknowns ts) := by
  rw [unknowns, List.filterMap_append, List.eraseDups_append, List.removeAll, eraseDups_filter]
  congr 1
  refine List.filter_congr fun name _ => ?_
  simp only [unknowns, List.mem_eraseDups, decide_not, List.elem_eq_mem]

/-! ### The kinds of the tokens -/

/-- The kinds of the tokens of a text, if it is cut into tokens. -/
def kinds? (text : List Char) : Option (List Kind) :=
  (scan 0 text).toOption.map (List.map (·.kind))

/-- The kinds of the tokens around some blanks do not tell how many blanks there are. -/
lemma kinds?_across (hne : gap ≠ []) (hgap : ∀ c ∈ gap, c ∈ blanks) (text rest : List Char) :
    kinds? (text ++ (gap ++ rest)) = do
      let kinds ← kinds? text
      let kinds' ← kinds? rest
      return kinds ++ kinds' := by
  rcases h : scan 0 text with fault | ts
  · rw [kinds?, scan_append_of_error h (apart_append hne hgap rest), kinds?, h]
    rfl
  · rw [kinds?, scan_across hne hgap h, kinds?, h, kinds?]
    rcases scan 0 rest with fault | us
    · rfl
    · show some ((ts ++ us.map (shift _)).map (·.kind)) = some (ts.map (·.kind) ++ us.map (·.kind))
      rw [List.map_append, map_kind_map_shift]

end Token

/-- Two texts that differ only in the lengths of their runs of blanks. -/
inductive Respaced : List Char → List Char → Prop
  | nil : Respaced [] []
  | keep {c : Char} {text text' : List Char} (h : Respaced text text') :
      Respaced (c :: text) (c :: text')
  | gap {gap gap' text text' : List Char} (hne : gap ≠ [])
      (hgap : ∀ c ∈ gap, c ∈ Token.blanks) (hne' : gap' ≠ [])
      (hgap' : ∀ c ∈ gap', c ∈ Token.blanks) (h : Respaced text text') :
      Respaced (gap ++ text) (gap' ++ text')

/-- The lengths of the runs of blanks do not count for the kinds of the tokens. The induction
moves what the texts have in common to the text in front, where the blanks behind a token end
it whatever follows. -/
lemma Respaced.kinds?_append {text text' : List Char} (h : Respaced text text')
    (front : List Char) : Token.kinds? (front ++ text) = Token.kinds? (front ++ text') := by
  induction h generalizing front with
  | nil => rfl
  | @keep c text text' _ ih =>
      have hc := ih (front ++ [c])
      rwa [List.append_assoc, List.append_assoc, List.singleton_append, List.singleton_append] at hc
  | @gap gap gap' text text' hne hgap hne' hgap' _ ih =>
      calc Token.kinds? (front ++ (gap ++ text))
          = Token.kinds? (front ++ (gap' ++ text)) := by
            rw [Token.kinds?_across hne hgap, Token.kinds?_across hne' hgap']
        _ = Token.kinds? (front ++ gap' ++ text) := by rw [List.append_assoc]
        _ = Token.kinds? (front ++ gap' ++ text') := ih (front ++ gap')
        _ = Token.kinds? (front ++ (gap' ++ text')) := by rw [List.append_assoc]

/-! ### Two sources -/

/-- What becomes of two sources with blanks between them. -/
structure LexedAcross (a blanks b : String) : Prop where
  /-- A fault of the first source is the fault of both. -/
  first_fails : ∀ fault, lex a = .error fault → lex (a ++ blanks ++ b) = .error fault
  /-- Else a fault of the second source is the fault of both, further on. -/
  second_fails : ∀ ts fault, lex a = .ok ts → lex b = .error fault →
    ∃ c position, fault = .unexpectedCharacter c position ∧ lex (a ++ blanks ++ b)
      = .error (.unexpectedCharacter c (a.utf8ByteSize + blanks.utf8ByteSize + position))
  /-- Else the tokens of the second source follow those of the first one. -/
  both : ∀ ts us, lex a = .ok ts → lex b = .ok us →
    ∃ tokens, lex (a ++ blanks ++ b) = .ok tokens
      ∧ tokens = ts ++ us.map (Token.shift (a.utf8ByteSize + blanks.utf8ByteSize))
      ∧ Token.unknowns tokens
        = Token.unknowns ts ++ (Token.unknowns us).filter (· ∉ Token.unknowns ts)

lemma lexedAcross {a blanks b : String} (hne : blanks ≠ "")
    (hblanks : ∀ c ∈ blanks.toList, c ∈ Token.blanks) : LexedAcross a blanks b := by
  have hgap : blanks.toList ≠ [] := fun h => hne (String.toList_eq_nil_iff.mp h)
  have hsource : (a ++ blanks ++ b).toList = a.toList ++ (blanks.toList ++ b.toList) := by
    rw [String.toList_append, String.toList_append, List.append_assoc]
  have hlen : ∀ ts, lex a = .ok ts →
      a.toList.length + blanks.toList.length = a.utf8ByteSize + blanks.utf8ByteSize := by
    intro ts h
    rw [Source.utf8ByteSize_of_ascii (lex_eq_ok_iff.mp h).ascii,
      Source.utf8ByteSize_of_ascii (Token.Lexes.of_blanks
        (fun c hc => Token.isBlank_iff_mem.mpr (hblanks c hc)) 0).ascii]
  refine ⟨?_, ?_, ?_⟩
  · intro fault h
    rw [lex, hsource]
    exact Token.scan_append_of_error h (Token.apart_append hgap hblanks _)
  · intro ts fault h h'
    obtain ⟨front, c, rest, us, -, -, -, rfl⟩ := lex_eq_error_iff.mp h'
    refine ⟨c, front.length, rfl, ?_⟩
    rw [lex, hsource, Token.scan_across hgap hblanks h, ← lex, h', ← hlen ts h,
      Nat.add_comm _ front.length]
    rfl
  · intro ts us h h'
    refine ⟨_, ?_, rfl, ?_⟩
    · rw [lex, hsource, Token.scan_across hgap hblanks h, ← lex, h', ← hlen ts h]
      rfl
    · rw [Token.unknowns_append, Token.unknowns_eq_of_kinds (Token.map_kind_map_shift _ us)]

/-- **Blanks separate**: two sources with blanks between them are cut independently of each
other. Both are cut into tokens or the first fault is reported, and what belongs to the second
source is found behind the first one and the blanks. In each source the lengths of the runs of
blanks count neither for the kinds of its tokens nor for its unknowns. -/
theorem blanks_separate_sources :
    (∀ a blanks b : String, blanks ≠ "" → (∀ c ∈ blanks.toList, c ∈ Token.blanks) →
        LexedAcross a blanks b)
      ∧ ∀ source source' : String, Respaced source.toList source'.toList →
        ∀ tokens, lex source = .ok tokens → ∃ tokens', lex source' = .ok tokens'
          ∧ tokens'.map (·.kind) = tokens.map (·.kind)
          ∧ Token.unknowns tokens' = Token.unknowns tokens := by
  refine ⟨fun a blanks b hne hblanks => lexedAcross hne hblanks, ?_⟩
  intro source source' h tokens hlex
  have hkinds : Token.kinds? source.toList = Token.kinds? source'.toList := h.kinds?_append []
  rw [Token.kinds?, Token.kinds?, ← lex, ← lex, hlex] at hkinds
  rcases hlex' : lex source' with fault | tokens'
  · rw [hlex'] at hkinds
    cases hkinds
  · rw [hlex'] at hkinds
    have heq : tokens.map (·.kind) = tokens'.map (·.kind) := Option.some.inj hkinds
    exact ⟨tokens', rfl, heq.symm, Token.unknowns_eq_of_kinds heq.symm⟩

/-- A space and a tab make two names of the letters around them, and so does a space alone. -/
theorem names_around_tab :
    (∀ c ∈ " \t".toList, c ∈ Token.blanks) ∧ Respaced "a \tb".toList "a b".toList
      ∧ lex "a \tb" = .ok [⟨.name "a", ⟨0, 1⟩⟩, ⟨.name "b", ⟨3, 4⟩⟩]
      ∧ ∃ tokens, lex "a b" = .ok tokens ∧ tokens.map (·.kind) = [.name "a", .name "b"] := by
  have hblanks : ∀ c ∈ " \t".toList, c ∈ Token.blanks := by simp [Token.blanks]
  have hspaced : Respaced "a \tb".toList "a b".toList :=
    .keep (@Respaced.gap [' ', '\t'] [' '] ['b'] ['b'] (by decide) hblanks (by decide)
      (by simp [Token.blanks]) (.keep .nil))
  have ha : lex "a" = .ok [⟨.name "a", ⟨0, 1⟩⟩] := by cbv
  have hb : lex "b" = .ok [⟨.name "b", ⟨0, 1⟩⟩] := by cbv
  obtain ⟨hacross, hkinds⟩ := blanks_separate_sources
  obtain ⟨_, hlex, rfl, -⟩ := (hacross "a" " \t" "b" (by decide) hblanks).both _ _ ha hb
  obtain ⟨tokens, htokens, hsame, -⟩ := hkinds _ _ hspaced _ hlex
  exact ⟨hblanks, hspaced, hlex, tokens, htokens, hsame⟩

end Formula
