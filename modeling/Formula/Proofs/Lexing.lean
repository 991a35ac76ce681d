import Formula.Proofs.Lexeme
import Formula.Source

/-!
Texts and the tokens they are cut into.

* `Token.Lexes`: a text that begins at some offset consists of some tokens and of
  blanks; `scan_eq_ok_iff`: these are the tokens it is cut into.
* `Lexes.append`: texts may be joined if the second one stands apart.
* `Lexes.shift`, `Lexes.unshift`: at another offset the same tokens are found, with
  their spans moved.
* `Lexes.cut`: the text of some tokens among others, from the start of the first one
  to the end of the last one, consists of just these tokens.
* `Lexes.ascii`: what is cut into tokens is ASCII, so its slices are cut by counting
  characters (`Source.slice?_append`).
* `Token.Ordered`: the spans of tokens follow each other; `Lexes.ordered`.
-/

namespace Formula

/-- A span some bytes further on. -/
def Span.shift (n : ℕ) (s : Span) : Span := ⟨s.start + n, s.stop + n⟩

namespace Token

/-- A token some bytes further on. -/
def shift (n : ℕ) (t : Token) : Token := ⟨t.kind, t.span.shift n⟩

@[simp] lemma map_kind_map_shift (n : ℕ) (ts : List Token) :
    (ts.map (shift n)).map (·.kind) = ts.map (·.kind) := by
  rw [List.map_map]
  rfl

/-- A text that begins at some offset consists of some tokens, with blanks in front of
them, between them and behind them. -/
inductive Lexes : ℕ → List Char → List Token → Prop
  | nil {offset : ℕ} : Lexes offset [] []
  | blank {offset : ℕ} {c : Char} {text : List Char} {ts : List Token} (hc : isBlank c = true)
      (h : Lexes (offset + 1) text ts) : Lexes offset (c :: text) ts
  | token {offset : ℕ} {kind : Kind} {lexeme text : List Char} {ts : List Token}
      (ht : Takes kind lexeme text) (h : Lexes (offset + lexeme.length) text ts) :
      Lexes offset (lexeme ++ text) (⟨kind, ⟨offset, offset + lexeme.length⟩⟩ :: ts)

variable {offset n : ℕ} {text text' : List Char} {ts us : List Token}

/-! ### Cutting a text -/

lemma scan_nil (offset : ℕ) : scan offset [] = .ok [] := by
  rw [scan]

lemma scan_blank {c : Char} (hc : isBlank c = true) (offset : ℕ) (text : List Char) :
    scan offset (c :: text) = scan (offset + 1) text := by
  rw [scan, if_pos hc]

lemma scan_of_takes {kind : Kind} {lexeme : List Char} (h : Takes kind lexeme text) (offset : ℕ) :
    scan offset (lexeme ++ text) = (scan (offset + lexeme.length) text).map
      (⟨kind, ⟨offset, offset + lexeme.length⟩⟩ :: ·) := by
  obtain ⟨c, cs, rfl, hc⟩ := h.exists_cons
  rw [List.cons_append, scan, if_neg (by simp [hc]), munch_of_takes h]
  simp only [List.drop_left, List.length_cons, Nat.add_assoc]

lemma lexes_of_scan (h : scan offset text = .ok ts) : Lexes offset text ts := by
  fun_induction scan offset text generalizing ts with
  | case1 =>
      obtain rfl := Except.ok.inj h
      exact Lexes.nil
  | case2 offset c cs hc ih => exact (ih h).blank hc
  | case3 => cases h
  | case4 offset c cs hc kind more hm ih =>
      obtain ⟨lexeme, rest, rfl, rfl, ht⟩ := takes_of_munch hm
      rw [List.drop_left] at h ih
      rcases hs : scan (offset + lexeme.length + 1) rest with fault | us
      · rw [hs] at h
        cases h
      · rw [hs] at h
        obtain rfl := Except.ok.inj h
        exact @Lexes.token offset _ _ _ _ ht (ih hs)

/-- A text consists of the tokens it is cut into. -/
theorem scan_eq_ok_iff : scan offset text = .ok ts ↔ Lexes offset text ts := by
  refine ⟨lexes_of_scan, ?_⟩
  intro h
  induction h with
  | nil => exact scan_nil _
  | blank hc _ ih => rw [scan_blank hc, ih]
  | token ht _ ih =>
      rw [scan_of_takes ht, ih]
      rfl

namespace Lexes

/-- Each of the tokens has been taken. -/
lemma exists_takes (h : Lexes offset text ts) :
    ∀ t ∈ ts, ∃ lexeme rest, Takes t.kind lexeme rest := by
  induction h with
  | nil => simp
  | blank _ _ ih => exact ih
  | token ht _ ih => exact List.forall_mem_cons.mpr ⟨⟨_, _, ht⟩, ih⟩

/-! ### Joining and moving texts -/

/-- A token by itself. -/
lemma single {kind : Kind} {lexeme : List Char} (h : Takes kind lexeme []) (offset : ℕ) :
    Lexes offset lexeme [⟨kind, ⟨offset, offset + lexeme.length⟩⟩] := by
  have hlexeme : Lexes offset (lexeme ++ []) _ := token h nil
  rwa [List.append_nil] at hlexeme

/-- A symbol may stand in front of each text. -/
lemma symbol {c : Char} {kind : Kind} (hc : Kind.ofSymbol? c = some kind)
    (h : Lexes (offset + 1) text ts) :
    Lexes offset (c :: text) (⟨kind, ⟨offset, offset + 1⟩⟩ :: ts) :=
  @token offset _ [c] _ _ (Takes.symbol hc) h

/-- Texts may be joined if the second one stands apart. -/
lemma append (h : Lexes offset text ts) (h' : Lexes (offset + text.length) text' us)
    (ha : Apart text') : Lexes offset (text ++ text') (ts ++ us) := by
  induction h with
  | nil => exact h'
  | blank hc _ ih =>
      refine blank hc (ih ?_)
      rwa [Nat.add_assoc, Nat.add_comm 1]
  | @token offset kind lexeme text ts ht _ ih =>
      rw [List.length_append, ← Nat.add_assoc] at h'
      rw [List.append_assoc, List.cons_append]
      exact token (ht.congr (EndsAlike.append text ha)) (ih h')

/-- Further on the same tokens are found further on. -/
lemma shift (h : Lexes offset text ts) (n : ℕ) : Lexes (offset + n) text (ts.map (shift n)) := by
  induction h with
  | nil => exact nil
  | blank hc _ ih =>
      refine blank hc ?_
      rwa [Nat.add_right_comm]
  | token ht _ ih =>
      rw [Nat.add_right_comm] at ih
      have htoken := ih.token ht
      rwa [Nat.add_right_comm] at htoken

/-- Tokens found further on are those that are found in front, moved. -/
lemma unshift (h : Lexes (offset + n) text ts) :
    ∃ us, Lexes offset text us ∧ us.map (Token.shift n) = ts := by
  generalize hm : offset + n = m at h
  induction h generalizing offset with
  | nil => exact ⟨[], nil, rfl⟩
  | @blank m c text ts hc _ ih =>
      obtain ⟨us, hu, rfl⟩ := @ih (offset + 1) (by omega)
      exact ⟨us, hu.blank hc, rfl⟩
  | @token m kind lexeme text ts ht _ ih =>
      obtain ⟨us, hu, rfl⟩ := @ih (offset + lexeme.length) (by omega)
      refine ⟨_, hu.token ht, ?_⟩
      rw [List.map_cons, Token.shift, Span.shift, ← hm, Nat.add_right_comm]

/-! ### Cutting out the text of some tokens -/

/-- The text of tokens in front of others ends with the last one of them. -/
lemma exists_of_append (h : Lexes offset text (ts ++ us)) :
    ∃ front rest, text = front ++ rest ∧ Lexes offset front ts
      ∧ Lexes (offset + front.length) rest us
      ∧ ∀ t ∈ ts.getLast?, t.span.stop = offset + front.length := by
  generalize hall : ts ++ us = all at h
  induction h generalizing ts with
  | nil =>
      obtain ⟨rfl, rfl⟩ := List.append_eq_nil_iff.mp hall
      exact ⟨[], [], rfl, nil, nil, by simp⟩
  | @blank offset c text all hc h ih =>
      cases ts with
      | nil =>
          obtain rfl : us = all := hall
          exact ⟨[], c :: text, rfl, nil, h.blank hc, by simp⟩
      | cons t ts =>
          obtain ⟨front, rest, rfl, hf, hr, hlast⟩ := ih hall
          have hlen : offset + 1 + front.length = offset + (c :: front).length := by
            rw [List.length_cons, Nat.add_assoc, Nat.add_comm 1]
          rw [hlen] at hr hlast
          exact ⟨c :: front, rest, rfl, hf.blank hc, hr, hlast⟩
  | @token offset kind lexeme text all ht h ih =>
      cases ts with
      | nil =>
          obtain rfl : us = _ := hall
          exact ⟨[], lexeme ++ text, rfl, nil, h.token ht, by simp⟩
      | cons t ts =>
          rw [List.cons_append] at hall
          obtain ⟨rfl, htail⟩ := List.cons.inj hall
          cases ts with
          | nil =>
              obtain rfl : us = all := htail
              exact ⟨lexeme, text, rfl, single (ht.congr (EndsAlike.of_apart apart_nil)) _, h,
                by simp⟩
          | cons u ts =>
              obtain ⟨front, rest, rfl, hf, hr, hlast⟩ := ih htail
              have hlen :
                  offset + lexeme.length + front.length = offset + (lexeme ++ front).length := by
                rw [List.length_append, Nat.add_assoc]
              rw [hlen] at hr hlast
              exact ⟨lexeme ++ front, rest, by simp, hf.token (ht.congr (EndsAlike.of_append _ _)),
                hr, hlast⟩

/-- Blanks stand in front of the first token. -/
lemma exists_of_cons {t : Token} (h : Lexes offset text (t :: ts)) :
    ∃ gap rest, text = gap ++ rest ∧ (∀ c ∈ gap, isBlank c = true)
      ∧ Lexes (offset + gap.length) rest (t :: ts) ∧ t.span.start = offset + gap.length := by
  generalize hall : t :: ts = all at h
  induction h with
  | nil => cases hall
  | @blank offset c text all hc h ih =>
      obtain ⟨gap, rest, rfl, hgap, hr, hstart⟩ := ih hall
      have hlen : offset + 1 + gap.length = offset + (c :: gap).length := by
        rw [List.length_cons, Nat.add_assoc, Nat.add_comm 1]
      rw [hlen] at hr hstart
      exact ⟨c :: gap, rest, rfl, by simpa [hc] using hgap, hr, hstart⟩
  | token ht h _ =>
      obtain ⟨rfl, rfl⟩ := List.cons.inj hall
      exact ⟨[], _, rfl, by simp, h.token ht, rfl⟩

/-- Blanks hold no tokens. -/
lemma of_blanks {gap : List Char} (h : ∀ c ∈ gap, isBlank c = true) (offset : ℕ) :
    Lexes offset gap [] := by
  induction gap generalizing offset with
  | nil => exact nil
  | cons c gap ih =>
      obtain ⟨hc, hgap⟩ := List.forall_mem_cons.mp h
      exact blank hc (ih hgap _)

lemma apart_of_blanks {gap : List Char} (h : ∀ c ∈ gap, isBlank c = true) : Apart gap := by
  cases gap with
  | nil => exact apart_nil
  | cons c gap => exact apart_of_isBlank (h c List.mem_cons_self)

/-- Some tokens among others are those of a part of the text, which reaches from the
start of the first of them to the end of the last one. What stands in front of this
part and behind it holds the other tokens. -/
theorem cut {before inside behind : List Token}
    (h : Lexes offset text (before ++ (inside ++ behind))) (hi : inside ≠ []) :
    ∃ front piece rest, text = front ++ (piece ++ rest) ∧ Lexes offset front before
      ∧ Lexes (offset + front.length) piece inside
      ∧ Lexes (offset + front.length + piece.length) rest behind
      ∧ (∀ t ∈ inside.head?, t.span.start = offset + front.length)
      ∧ ∀ t ∈ inside.getLast?, t.span.stop = offset + front.length + piece.length := by
  obtain ⟨first, inside, rfl⟩ := List.exists_cons_of_ne_nil hi
  obtain ⟨front, rest, rfl, hfront, hrest, -⟩ := h.exists_of_append
  rw [List.cons_append] at hrest
  obtain ⟨gap, rest, rfl, hgap, hrest, hstart⟩ := hrest.exists_of_cons
  rw [← List.cons_append] at hrest
  obtain ⟨piece, rest, rfl, hpiece, hbehind, hstop⟩ := hrest.exists_of_append
  have hlen : offset + front.length + gap.length = offset + (front ++ gap).length := by
    rw [List.length_append, Nat.add_assoc]
  have hbefore : Lexes offset (front ++ gap) (before ++ []) :=
    hfront.append (of_blanks hgap _) (apart_of_blanks hgap)
  rw [List.append_nil] at hbefore
  rw [hlen] at hpiece hbehind hstop hstart
  exact ⟨front ++ gap, piece, rest, by simp, hbefore, hpiece, hbehind, by simpa using hstart, hstop⟩

/-- What consists of tokens and blanks is ASCII. -/
lemma ascii (h : Lexes offset text ts) : ∀ c ∈ text, c.utf8Size = 1 := by
  induction h with
  | nil => simp
  | blank hc _ ih => exact List.forall_mem_cons.mpr ⟨ascii_of_isBlank hc, ih⟩
  | token ht _ ih => exact List.forall_mem_append.mpr ⟨ht.ascii, ih⟩

end Lexes

/-! ### The order of the spans -/

/-- Each token has some text, and it ends where the next ones have not begun. -/
structure Ordered (ts : List Token) : Prop where
  start_lt_stop : ∀ t ∈ ts, t.span.start < t.span.stop
  pairwise : ts.Pairwise fun t u => t.span.stop ≤ u.span.start

/-- Tokens of a text do not begin in front of it. -/
lemma Lexes.le_start (h : Lexes offset text ts) : ∀ t ∈ ts, offset ≤ t.span.start := by
  induction h with
  | nil => simp
  | blank _ _ ih => exact fun t ht => (Nat.le_succ _).trans (ih t ht)
  | token _ _ ih =>
      exact List.forall_mem_cons.mpr ⟨le_rfl, fun t ht => (Nat.le_add_right _ _).trans (ih t ht)⟩

/-- The tokens of a text follow each other. -/
lemma Lexes.ordered (h : Lexes offset text ts) : Ordered ts := by
  induction h with
  | nil => exact ⟨by simp, List.Pairwise.nil⟩
  | blank _ _ ih => exact ih
  | token ht h ih =>
      obtain ⟨c, cs, rfl, -⟩ := ht.exists_cons
      refine ⟨List.forall_mem_cons.mpr ⟨by simp, ih.start_lt_stop⟩, ?_⟩
      exact List.pairwise_cons.mpr ⟨h.le_start, ih.pairwise⟩

lemma Ordered.left (h : Ordered (ts ++ us)) : Ordered ts :=
  ⟨fun t ht => h.start_lt_stop t (List.mem_append_left _ ht),
    (List.pairwise_append.mp h.pairwise).1⟩

lemma Ordered.right (h : Ordered (ts ++ us)) : Ordered us :=
  ⟨fun t ht => h.start_lt_stop t (List.mem_append_right _ ht),
    (List.pairwise_append.mp h.pairwise).2.1⟩

lemma Ordered.tail {t : Token} (h : Ordered (t :: ts)) : Ordered ts :=
  ⟨fun u hu => h.start_lt_stop u (List.mem_cons_of_mem _ hu), (List.pairwise_cons.mp h.pairwise).2⟩

end Token

/-- A source consists of the tokens it is cut into. -/
lemma lex_eq_ok_iff {source : String} {tokens : List Token} :
    lex source = .ok tokens ↔ Token.Lexes 0 source.toList tokens :=
  Token.scan_eq_ok_iff

/-! ### Slices of text -/

namespace Source

variable {front piece rest : List Char}

/-- Behind some text the offset is the number of its bytes. -/
lemma splitAt?_utf8Len (front rest : List Char) :
    splitAt? (front ++ rest) (String.utf8Len front) = some (front, rest) := by
  induction front with
  | nil => rw [List.nil_append, String.utf8Len_nil, splitAt?]
  | cons c front ih =>
      obtain ⟨n, hn⟩ : ∃ n, String.utf8Len front + c.utf8Size = n + 1 :=
        Nat.exists_eq_add_one.mpr (Nat.add_pos_right _ c.utf8Size_pos)
      have hrest : n + 1 - c.utf8Size = String.utf8Len front := by omega
      rw [List.cons_append, String.utf8Len_cons, hn, splitAt?, if_pos (by omega), hrest, ih]
      rfl

lemma utf8Len_of_ascii (h : ∀ c ∈ front, c.utf8Size = 1) : String.utf8Len front = front.length := by
  induction front with
  | nil => rfl
  | cons c front ih =>
      obtain ⟨hc, hfront⟩ := List.forall_mem_cons.mp h
      rw [String.utf8Len_cons, ih hfront, hc, List.length_cons]

/-- In ASCII text offsets are numbers of characters. -/
lemma splitAt?_append (h : ∀ c ∈ front, c.utf8Size = 1) :
    splitAt? (front ++ rest) front.length = some (front, rest) := by
  rw [← utf8Len_of_ascii h]
  exact splitAt?_utf8Len front rest

/-- An ASCII source has as many bytes as characters. -/
lemma utf8ByteSize_of_ascii {source : String} (h : ∀ c ∈ source.toList, c.utf8Size = 1) :
    source.utf8ByteSize = source.toList.length := by
  rw [← utf8Len_of_ascii h, ← String.utf8ByteSize_ofList, String.ofList_toList]

lemma slice?_append (hf : ∀ c ∈ front, c.utf8Size = 1) (hp : ∀ c ∈ piece, c.utf8Size = 1) :
    slice? (front ++ (piece ++ rest)) front.length (front.length + piece.length) = some piece := by
  rw [slice?, splitAt?_append hf]
  simp [splitAt?_append hp]

end Source

end Formula
