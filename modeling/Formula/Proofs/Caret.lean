import Mathlib.Data.List.DropRight
import Formula.Fault.Message
import Formula.Proofs.Place
import Formula.Proofs.Tiling

/-!
Carets under the places of faults.

* `Source.InLine`: an offset in a source, the line in which it stands, cut at the offset,
  and the other lines. `exists_inLine` finds them.
* `Source.Trims`: a line without the carriage returns at its end. A character that is no
  carriage return keeps its column (`Trims.getElem?_eq`).
* `Fault.Shows`: a report shows a line with a caret in some column. It shows none exactly
  if the fault has no place in the source (`shows_of_splitAt?`, `not_shows`).
* `exists_char_of_analyse`: the faults of a source that is not blank point at one of its
  characters, which is no blank.
* `caret_points_at_character`: what is shown, and that the caret stands under the character
  at fault.
-/

namespace Formula

variable {text front rest above before after below shown : List Char} {offset : ℕ}
  {source : String} {fault : Fault} {c : Char}

/-! ### Lines -/

namespace Source

/-- An offset stands in a line of a text, in which `before` precedes it and `after` follows;
the lines above end with a newline, and one begins what is below. -/
structure InLine (text : List Char) (offset : ℕ) (above before after below : List Char) :
    Prop where
  text_eq : text = above ++ before ++ (after ++ below)
  offset_eq : String.utf8Len (above ++ before) = offset
  above_ends : ∀ c ∈ above.getLast?, c = '\n'
  before_line : '\n' ∉ before
  after_line : '\n' ∉ after
  below_begins : ∀ c ∈ below.head?, c = '\n'

/-- A line without the carriage returns at its end. -/
structure Trims (whole shown : List Char) : Prop where
  returns : ∃ n, whole = shown ++ List.replicate n '\r'
  last : ∀ c ∈ shown.getLast?, c ≠ '\r'

/-- What is left of a text when a class of characters is dropped from its end does not end
with one of them. -/
lemma getLast?_rdropWhile {p : Char → Bool} (h : c ∈ (text.rdropWhile p).getLast?) :
    p c = false := by
  obtain ⟨hne, rfl⟩ := List.mem_getLast?_eq_getLast h
  exact Bool.eq_false_iff.mpr (List.rdropWhile_last_not p text hne)

lemma trims_trimReturns (whole : List Char) : Trims whole (trimReturns whole) where
  returns := by
    have hreturns : whole.rtakeWhile (· == '\r')
        = List.replicate (whole.rtakeWhile (· == '\r')).length '\r' :=
      List.eq_replicate_of_mem fun c hc => by simpa using List.mem_rtakeWhile_imp hc
    refine ⟨(whole.rtakeWhile (· == '\r')).length, ?_⟩
    rw [← hreturns]
    exact List.rdropWhile_append_rtakeWhile.symm
  last := by
    intro c hc
    simpa using getLast?_rdropWhile hc

/-- A character that is no carriage return keeps its column. -/
lemma Trims.getElem?_eq (h : Trims (before ++ c :: after) shown) (hc : c ≠ '\r') :
    shown[before.length]? = some c := by
  obtain ⟨n, hwhole⟩ := h.returns
  have hget : (shown ++ List.replicate n '\r')[before.length]? = some c := by
    rw [← hwhole]
    simp
  by_cases hlt : before.length < shown.length
  · rwa [List.getElem?_append_left hlt] at hget
  · rw [List.getElem?_append_right (Nat.le_of_not_lt hlt)] at hget
    exact absurd (List.eq_of_mem_replicate (List.mem_of_getElem? hget)) hc

/-! ### Offsets -/

lemma utf8Len_of_splitAt? (h : splitAt? text offset = some (front, rest)) :
    String.utf8Len front = offset := by
  fun_induction splitAt? text offset generalizing front with
  | case1 text =>
      obtain ⟨rfl, rfl⟩ := by simpa using h
      rfl
  | case2 => cases h
  | case3 c text offset hle ih =>
      obtain ⟨⟨front', rest'⟩, hs, he⟩ := Option.map_eq_some_iff.mp h
      obtain ⟨rfl, rfl⟩ := by simpa using he
      rw [String.utf8Len_cons, ih hs]
      omega
  | case4 => cases h

/-- A source is split exactly at the offsets where a character begins or the text ends. -/
lemma isValid_iff : String.Pos.Raw.IsValid source ⟨offset⟩
    ↔ ∃ front rest, splitAt? source.toList offset = some (front, rest) := by
  rw [String.Pos.Raw.isValid_iff_exists_append]
  refine ⟨?_, ?_⟩
  · rintro ⟨front, rest, rfl, hoffset⟩
    have hlen : offset = String.utf8Len front.toList := by
      rw [← String.utf8ByteSize_ofList, String.ofList_toList]
      exact congrArg String.Pos.Raw.byteIdx hoffset
    refine ⟨front.toList, rest.toList, ?_⟩
    rw [String.toList_append, hlen]
    exact splitAt?_utf8Len _ _
  · rintro ⟨front, rest, h⟩
    refine ⟨String.ofList front, String.ofList rest, ?_, ?_⟩
    · rw [← String.ofList_append, append_of_splitAt? h, String.ofList_toList]
    · rw [← utf8Len_of_splitAt? h, ← String.utf8ByteSize_ofList]
      rfl

/-- An offset at which a text is split stands in a line. -/
lemma exists_inLine (h : splitAt? text offset = some (front, rest)) :
    ∃ above below, InLine text offset above (lastLine front) (firstLine rest) below := by
  have hfront : front.rdropWhile (· != '\n') ++ lastLine front = front :=
    List.rdropWhile_append_rtakeWhile
  have hrest : firstLine rest ++ rest.dropWhile (· != '\n') = rest :=
    List.takeWhile_append_dropWhile
  refine ⟨front.rdropWhile (· != '\n'), rest.dropWhile (· != '\n'), ?_, ?_, ?_, ?_, ?_, ?_⟩
  · rw [hfront, hrest, append_of_splitAt? h]
  · rw [hfront, utf8Len_of_splitAt? h]
  · intro c hc
    simpa using getLast?_rdropWhile hc
  · intro hmem
    simpa using List.mem_rtakeWhile_imp (p := (· != '\n')) hmem
  · intro hmem
    simpa using List.mem_takeWhile_imp hmem
  · intro c hc
    simpa using stops_dropWhile (· != '\n') rest c hc

end Source

/-! ### Reports -/

namespace Fault

/-- The first line of a report. -/
def headline (fault : Fault) : String := "error[" ++ fault.code.text ++ "]: " ++ fault.message

/-- The last line of a report, if there is some advice. -/
def advice (fault : Fault) : String :=
  match fault.suggestion? with
  | some text => "\n = help: " ++ text
  | none => ""

/-- A report shows a line and under it a caret behind as many spaces as its column says. -/
def Shows (fault : Fault) (source : String) (shown : List Char) (column : ℕ) : Prop :=
  fault.render source = fault.headline ++ "\n | " ++ String.ofList shown ++ "\n | "
    ++ String.ofList (List.replicate column ' ') ++ "^" ++ fault.advice

lemma render_eq (fault : Fault) (source : String) :
    fault.render source
      = fault.headline ++ String.ofList (fault.excerpt source.toList) ++ fault.advice := rfl

/-- A fault with a place in the source shows the line around it. -/
lemma shows_of_locate? {column : ℕ} (hp : fault.position? = some offset)
    (h : Source.locate? source.toList offset = some (shown, column)) :
    fault.Shows source shown column := by
  have hexcerpt : fault.excerpt source.toList = "\n | ".toList ++ shown ++ "\n | ".toList
      ++ List.replicate column ' ' ++ ['^'] := by
    rw [excerpt, hp, Option.bind_some, h]
  rw [Shows, render_eq, hexcerpt, ← String.toList_inj]
  simp

/-- A fault without a place in the source shows nothing. -/
lemma render_of_locate?_eq_none (h : fault.position?.bind (Source.locate? source.toList) = none) :
    fault.render source = fault.headline ++ fault.advice := by
  have hexcerpt : fault.excerpt source.toList = [] := by
    rw [excerpt, h]
  rw [render_eq, hexcerpt, String.ofList_nil, String.append_empty]

/-- What shows a line is longer than its first and its last line. -/
lemma not_shows (h : fault.render source = fault.headline ++ fault.advice) {column : ℕ} :
    ¬ fault.Shows source shown column := by
  intro hshows
  rw [Shows, h] at hshows
  have hlen := congrArg String.length hshows
  simp only [String.length_append] at hlen
  have hcaret : "^".length = 1 := rfl
  omega

/-- **Reports show the line of a place**: the line in which the offset stands, without the
carriage returns at its end, and a caret behind as many spaces as characters stand in the line
in front of the offset. -/
theorem shows_of_splitAt? (hp : fault.position? = some offset)
    (h : Source.splitAt? source.toList offset = some (front, rest)) :
    fault.Shows source (Source.trimReturns (Source.lastLine front ++ Source.firstLine rest))
      (Source.lastLine front).length := by
  refine shows_of_locate? hp ?_
  rw [Source.locate?, h]
  rfl

/-- Something is shown exactly if the fault has a place in the source. -/
lemma exists_shows_iff :
    (∃ shown column, fault.Shows source shown column)
      ↔ ∃ offset, fault.position? = some offset ∧ String.Pos.Raw.IsValid source ⟨offset⟩ := by
  refine ⟨?_, ?_⟩
  · rintro ⟨shown, column, hshows⟩
    rcases hl : fault.position?.bind (Source.locate? source.toList) with _ | located
    · exact absurd hshows (not_shows (render_of_locate?_eq_none hl))
    · obtain ⟨offset, hp, hlocate⟩ := Option.bind_eq_some_iff.mp hl
      obtain ⟨⟨front, rest⟩, hsplit, -⟩ := Option.map_eq_some_iff.mp hlocate
      exact ⟨offset, hp, Source.isValid_iff.mpr ⟨front, rest, hsplit⟩⟩
  · rintro ⟨offset, hp, hvalid⟩
    obtain ⟨front, rest, hsplit⟩ := Source.isValid_iff.mp hvalid
    exact ⟨_, _, shows_of_splitAt? hp hsplit⟩

end Fault

/-! ### Faults of a source -/

open Token in
/-- The faults of a source that is not blank point at one of its characters, and this is no
blank: it begins a token, or it begins none and is the character that the fault names. -/
lemma exists_char_of_analyse {limits : Limits}
    (h : (analyse limits source).outcome = .error fault)
    (hs : ∃ c ∈ source.toList, c ∉ blanks) :
    ∃ front c rest, source.toList = front ++ c :: rest
      ∧ fault.position? = some (String.utf8Len front) ∧ c ∉ blanks
      ∧ ∀ d position, fault = .unexpectedCharacter d position → d = c := by
  rcases hlex : lex source with fault' | tokens
  · rw [outcome_analyse, hlex] at h
    obtain rfl : fault' = fault := Except.error.inj h
    obtain ⟨front, c, rest, ts, hsource, hfront, hc, rfl⟩ := lex_eq_error_iff.mp hlex
    refine ⟨front, c, rest, hsource, ?_, hc.not_blank, ?_⟩
    · rw [Source.utf8Len_of_ascii hfront.lexes.ascii]
      rfl
    · intro d position he
      exact (Fault.unexpectedCharacter.inj he).1.symm
  · have hlexes := lex_eq_ok_iff.mp hlex
    rcases pointsAt_of_analyse hlex h with ⟨rfl, -, -⟩ | ⟨t, ht, hposition, -⟩
    · obtain ⟨c, hmem, hc⟩ := hs
      obtain ⟨i, hi⟩ := List.mem_iff_getElem?.mp hmem
      exact absurd (hlexes.mem_blanks hi (List.forall_mem_nil _)) hc
    · obtain ⟨front, lexeme, rest, hsource, hspan, htakes⟩ := hlexes.lexesBefore_nil.spelled t ht
      obtain ⟨c, cs, rfl, hc⟩ := htakes.exists_cons
      have hascii := hlexes.ascii
      rw [hsource] at hascii
      refine ⟨front, c, cs ++ rest, hsource, ?_, ?_, fun d p he => ?_⟩
      · rw [hposition, hspan, Nat.zero_add,
          Source.utf8Len_of_ascii (List.forall_mem_append.mp hascii).1]
      · rw [← isBlank_iff_mem, hc]
        exact Bool.false_ne_true
      · exact absurd he (ne_unexpectedCharacter_of_analyse hlex h d p)

open Source in
/-- **The caret points at the character**: a report shows a line exactly if its fault has a
place in the source, where a character begins or the source ends. It is the line of this
place, without the carriage returns at its end, and the caret has the column of the place.
The faults of a source that is not blank have such a place, the character above the caret is
the one at the place, and a fault that names a character names this one. -/
theorem caret_points_at_character (source : String) :
    (∀ fault : Fault,
      ((∃ shown column, fault.Shows source shown column)
        ↔ ∃ offset, fault.position? = some offset ∧ String.Pos.Raw.IsValid source ⟨offset⟩)
      ∧ ∀ offset, fault.position? = some offset → String.Pos.Raw.IsValid source ⟨offset⟩ →
        ∃ above before after below shown,
          InLine source.toList offset above before after below
            ∧ Trims (before ++ after) shown ∧ fault.Shows source shown before.length)
    ∧ ∀ limits fault, (analyse limits source).outcome = .error fault →
      (∃ c ∈ source.toList, c ∉ Token.blanks) →
      ∃ offset above before c after below shown, fault.position? = some offset
        ∧ InLine source.toList offset above before (c :: after) below
        ∧ Trims (before ++ c :: after) shown ∧ fault.Shows source shown before.length
        ∧ shown[before.length]? = some c
        ∧ ∀ d position, fault = .unexpectedCharacter d position → d = c := by
  refine ⟨fun fault => ⟨Fault.exists_shows_iff, ?_⟩, ?_⟩
  · intro offset hp hvalid
    obtain ⟨front, rest, hsplit⟩ := isValid_iff.mp hvalid
    obtain ⟨above, below, hline⟩ := exists_inLine hsplit
    exact ⟨above, _, _, below, _, hline, trims_trimReturns _, Fault.shows_of_splitAt? hp hsplit⟩
  · intro limits fault h hs
    obtain ⟨front, c, rest, hsource, hp, hc, hnamed⟩ := exists_char_of_analyse h hs
    have hsplit : splitAt? source.toList (String.utf8Len front) = some (front, c :: rest) := by
      rw [hsource]
      exact splitAt?_utf8Len front (c :: rest)
    have hnewline : c ≠ '\n' := fun he => hc (by simp [he, Token.blanks])
    have hreturn : c ≠ '\r' := fun he => hc (by simp [he, Token.blanks])
    have hfirst : firstLine (c :: rest) = c :: firstLine rest :=
      List.takeWhile_cons_of_pos (by simpa using hnewline)
    obtain ⟨above, below, hline⟩ := exists_inLine hsplit
    have htrims := trims_trimReturns (lastLine front ++ firstLine (c :: rest))
    have hshows := Fault.shows_of_splitAt? hp hsplit
    rw [hfirst] at hline htrims hshows
    exact ⟨_, above, _, c, _, below, _, hp, hline, htrims, hshows, htrims.getElem?_eq hreturn,
      hnamed⟩

end Formula
