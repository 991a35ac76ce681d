/-!
Source text addressed by byte offsets: an offset is usable only where a
character begins, or at the end of the text.

* `splitAt?`: the text before and after an offset; `append_of_splitAt?` says
  that the two parts make up the text.
* `slice?`: the text between two offsets.
* `locate?`: the line around an offset and the column of the offset in it.
-/

namespace Formula.Source

/-- The text before and after a byte offset, if a character begins there or the
text ends there. -/
def splitAt? : List Char → Nat → Option (List Char × List Char)
  | text, 0 => some ([], text)
  | [], _ + 1 => none
  | c :: text, offset + 1 =>
      if c.utf8Size ≤ offset + 1 then
        (splitAt? text (offset + 1 - c.utf8Size)).map fun (before, after) => (c :: before, after)
      else none

/-- The two parts of a split make up the text. -/
theorem append_of_splitAt? {text before after : List Char} {offset : Nat}
    (h : splitAt? text offset = some (before, after)) : before ++ after = text := by
  fun_induction splitAt? text offset generalizing before with
  | case1 text =>
      obtain ⟨rfl, rfl⟩ := by simpa using h
      rfl
  | case2 => simp at h
  | case3 c text offset _ ih =>
      obtain ⟨⟨head, tail⟩, hs, he⟩ := Option.map_eq_some_iff.1 h
      obtain ⟨rfl, rfl⟩ := by simpa using he
      rw [List.cons_append, ih hs]
  | case4 => simp at h

/-- The text between two byte offsets, if they are in order and characters
begin at both or the text ends there. -/
def slice? (text : List Char) (start stop : Nat) : Option (List Char) := do
  let (_, after) ← splitAt? text start
  if stop < start then none
  let (piece, _) ← splitAt? after (stop - start)
  return piece

/-- What follows the last newline of a text, all of it if there is none. -/
def lastLine (text : List Char) : List Char :=
  (text.reverse.takeWhile (· != '\n')).reverse

/-- What precedes the first newline of a text, all of it if there is none. -/
def firstLine (text : List Char) : List Char := text.takeWhile (· != '\n')

/-- A line without its trailing carriage returns. -/
def trimReturns (line : List Char) : List Char :=
  (line.reverse.dropWhile (· == '\r')).reverse

/-- The line that holds a byte offset, without its trailing carriage returns,
and the number of characters between its start and the offset. -/
def locate? (text : List Char) (offset : Nat) : Option (List Char × Nat) :=
  (splitAt? text offset).map fun (before, after) =>
    (trimReturns (lastLine before ++ firstLine after), (lastLine before).length)

end Formula.Source
