import Formula.Decimal.Nearest
import Formula.Json

/-!
Reading JSON.

Every reading function returns what it has read and the rest of the text, which
is shorter; that is why reading ends. Numbers that are too large for binary64 are
not read, nor are arrays and objects nested too deeply.

* `Json.ofNumeral?`: the number written by some characters.
* `Json.oneCharacter?`: one character of a string, escaped or not.
* `Json.value?`: a value at the head of a text, with room for so many arrays and
  objects inside each other.
* `Json.ofText?`: the value a text consists of.
-/

namespace Formula.Json

/-- What has been read, and a rest of fewer than `bound` characters. -/
structure Read (α : Type) (bound : Nat) where
  /-- What has been read. -/
  value : α
  /-- The text behind it. -/
  rest : List Char
  /-- Reading has made progress. -/
  progress : rest.length < bound

/-- Progress below a bound is progress below a larger one. -/
def Read.weaken {α : Type} {m n : Nat} (r : Read α m) (h : m ≤ n) : Read α n :=
  ⟨r.value, r.rest, Nat.lt_of_lt_of_le r.progress h⟩

/-- Blanks between values are space, line feed, carriage return and tab. -/
def isBlank (c : Char) : Bool := c == ' ' || c == '\n' || c == '\r' || c == '\t'

/-- A text without the blanks at its head. -/
def skipBlanks (cs : List Char) : List Char := cs.dropWhile isBlank

/-- What follows the first character behind blanks is shorter than the text. -/
theorem length_lt_of_skipBlanks {cs rest : List Char} {c : Char}
    (h : skipBlanks cs = c :: rest) : rest.length < cs.length := by
  have hle : (skipBlanks cs).length ≤ cs.length := (List.dropWhile_suffix _).length_le
  rw [h] at hle
  exact hle

/-! ### Numbers -/

/-- The characters of which numerals are made. -/
def isNumeralPart (c : Char) : Bool :=
  c.isDigit || c == '-' || c == '+' || c == '.' || c == 'e' || c == 'E'

/-- At least one digit, and nothing else. -/
def isDigits (cs : List Char) : Bool := !cs.isEmpty && cs.all Char.isDigit

/-- The digits of a natural number, without superfluous zeros in front. -/
def isNatural (cs : List Char) : Bool := isDigits cs && (cs.head? != some '0' || cs.length == 1)

/-- An exponent is marked by `e` and may have a sign; it may be absent. -/
def isExponent : List Char → Bool
  | [] => true
  | 'e' :: '-' :: cs | 'e' :: '+' :: cs | 'E' :: '-' :: cs | 'E' :: '+' :: cs => isDigits cs
  | 'e' :: cs | 'E' :: cs => isDigits cs
  | _ => false

/-- A fraction is marked by a point; it may be absent. -/
def isFraction : List Char → Bool
  | [] => true
  | '.' :: cs => isDigits cs
  | _ => false

/-- A numeral without its sign: a natural number, a fraction and an exponent. -/
def isUnsigned (cs : List Char) : Bool :=
  let marked := fun c : Char => c == 'e' || c == 'E'
  let mantissa := cs.takeWhile fun c => !marked c
  isNatural (mantissa.takeWhile (· != '.')) && isFraction (mantissa.dropWhile (· != '.'))
    && isExponent (cs.dropWhile fun c => !marked c)

/-- A numeral with or without a minus sign. -/
def isNumeral : List Char → Bool
  | '-' :: cs => isUnsigned cs
  | cs => isUnsigned cs

/-- The number behind the mark of an exponent. -/
def exponent : List Char → Int
  | _ :: '-' :: cs => -Nat.ofDigitChars 10 cs 0
  | _ :: '+' :: cs | _ :: cs => Nat.ofDigitChars 10 cs 0
  | [] => 0

/-- Whether `digits * 10 ^ power` is rounded to a finite number. Only near the largest
one the powers have to be worked out. -/
def isFinite (digits : Nat) (power : Int) : Bool :=
  let size := (Nat.toDigits 10 digits).length + power
  digits == 0 || decide (size < 309) || size == 309 && decide
    (Binary64.nearestBits (digits * Nat.pow 10 power.toNat) (Nat.pow 10 (-power).toNat)
      < Binary64.infinityBits)

/-- Whether a numeral stands for a finite number. -/
def isInRange (cs : List Char) : Bool :=
  let marked := fun c : Char => c == 'e' || c == 'E'
  let mantissa := cs.takeWhile fun c => !marked c
  let places := ((mantissa.dropWhile (· != '.')).drop 1).length
  isFinite (Nat.ofDigitChars 10 (mantissa.filter Char.isDigit) 0)
    (exponent (cs.dropWhile fun c => !marked c) - places)

/-- The number written by some characters. -/
def ofNumeral? (cs : List Char) : Option Json :=
  if isNatural cs ∧ Nat.ofDigitChars 10 cs 0 < UInt64.size then
    some (natural (Nat.ofDigitChars 10 cs 0))
  else if isNumeral cs ∧ isInRange cs then some (number (String.ofList cs))
  else none

/-! ### Strings -/

/-- The value of a hexadecimal digit. -/
def hexDigit? (c : Char) : Option Nat :=
  if c.isDigit then some (c.toNat - 48)
  else if 'a' ≤ c ∧ c ≤ 'f' then some (c.toNat - 87)
  else if 'A' ≤ c ∧ c ≤ 'F' then some (c.toNat - 55)
  else none

/-- The value of four hexadecimal digits. -/
def hexValue? (a b c d : Char) : Option Nat := do
  return (((← hexDigit? a) * 16 + (← hexDigit? b)) * 16 + (← hexDigit? c)) * 16 + (← hexDigit? d)

/-- The character with a code point, if there is one. -/
def charOfNat? (n : Nat) : Option Char := if n.isValidChar then some (Char.ofNat n) else none

/-- The character that a letter behind a backslash stands for. -/
def unescape? : Char → Option Char
  | '"' => some '"'
  | '\\' => some '\\'
  | '/' => some '/'
  | 'b' => some '\x08'
  | 'f' => some '\x0c'
  | 'n' => some '\n'
  | 'r' => some '\r'
  | 't' => some '\t'
  | _ => none

/-- The second half of a surrogate pair, and what the pair stands for. -/
def lowSurrogate? (high : Nat) : (cs : List Char) → Option (Read Char cs.length)
  | '\\' :: 'u' :: a :: b :: c :: d :: rest => do
      let low ← hexValue? a b c d
      if 0xDC00 ≤ low ∧ low < 0xE000 then
        let char ← charOfNat? (0x10000 + (high - 0xD800) * 0x400 + (low - 0xDC00))
        return ⟨char, rest, by simp only [List.length_cons]; omega⟩
      else none
  | _ => none

/-- One character of a string, escaped or not. -/
def oneCharacter? : (cs : List Char) → Option (Read Char cs.length)
  | '\\' :: 'u' :: a :: b :: c :: d :: rest => do
      let code ← hexValue? a b c d
      if 0xD800 ≤ code ∧ code < 0xDC00 then
        let pair ← lowSurrogate? code rest
        return ⟨pair.value, pair.rest, by
          have := pair.progress; simp only [List.length_cons]; omega⟩
      else
        let char ← charOfNat? code
        return ⟨char, rest, by simp only [List.length_cons]; omega⟩
  | '\\' :: letter :: rest => do
      let char ← unescape? letter
      return ⟨char, rest, by simp only [List.length_cons]; omega⟩
  | c :: rest =>
      if c.toNat < 32 ∨ c = '"' ∨ c = '\\' then none
      else some ⟨c, rest, by simp⟩
  | [] => none

/-- The characters of a string up to its closing quotation mark. -/
def stringBody? (cs : List Char) : Option (Read (List Char) cs.length) :=
  match cs with
  | '"' :: rest => some ⟨[], rest, by simp⟩
  | cs => do
      let first ← oneCharacter? cs
      let body ← stringBody? first.rest
      return ⟨first.value :: body.value, body.rest, Nat.lt_trans body.progress first.progress⟩
termination_by cs.length
decreasing_by exact first.progress

/-! ### Values -/

/-- A value that is written as the given word. -/
def keyword? (word : List Char) (value : Json) (cs : List Char) :
    Option (Read Json (cs.length + 1)) :=
  if word.isPrefixOf cs then
    some ⟨value, cs.drop word.length, by rw [List.length_drop]; omega⟩
  else none

/-- The name of a member, up to the colon behind it. -/
def memberName? (cs : List Char) : Option (Read String cs.length) :=
  match h : skipBlanks cs with
  | '"' :: rest => do
      let name ← stringBody? rest
      match h' : skipBlanks name.rest with
      | ':' :: behind => return ⟨String.ofList name.value, behind,
          Nat.lt_trans (Nat.lt_trans (length_lt_of_skipBlanks h') name.progress)
            (length_lt_of_skipBlanks h)⟩
      | _ => none
  | _ => none

mutual

/-- A value at the head of a text. -/
def value? (room : Nat) (cs : List Char) : Option (Read Json cs.length) :=
  match h : skipBlanks cs with
  | [] => none
  | 'n' :: rest => (keyword? "ull".toList null rest).map (·.weaken (length_lt_of_skipBlanks h))
  | 't' :: rest =>
      (keyword? "rue".toList (bool true) rest).map (·.weaken (length_lt_of_skipBlanks h))
  | 'f' :: rest =>
      (keyword? "alse".toList (bool false) rest).map (·.weaken (length_lt_of_skipBlanks h))
  | '"' :: rest => do
      let body ← stringBody? rest
      return ⟨string (String.ofList body.value), body.rest,
        Nat.lt_trans body.progress (length_lt_of_skipBlanks h)⟩
  | '[' :: rest =>
      match room, h' : skipBlanks rest with
      | 0, _ => none
      | _ + 1, ']' :: behind =>
          some ⟨array [], behind,
            Nat.lt_trans (length_lt_of_skipBlanks h') (length_lt_of_skipBlanks h)⟩
      | room + 1, _ => do
          let items ← items? room rest
          return ⟨array items.value, items.rest,
            Nat.lt_trans items.progress (length_lt_of_skipBlanks h)⟩
  | '\x7b' :: rest =>
      match room, h' : skipBlanks rest with
      | 0, _ => none
      | _ + 1, '\x7d' :: behind =>
          some ⟨object [], behind,
            Nat.lt_trans (length_lt_of_skipBlanks h') (length_lt_of_skipBlanks h)⟩
      | room + 1, _ => do
          let members ← members? room rest
          return ⟨object members.value, members.rest,
            Nat.lt_trans members.progress (length_lt_of_skipBlanks h)⟩
  | c :: rest =>
      if isNumeralPart c then do
        let json ← ofNumeral? (c :: rest.takeWhile isNumeralPart)
        return ⟨json, rest.dropWhile isNumeralPart,
          Nat.lt_of_le_of_lt (List.dropWhile_suffix _).length_le (length_lt_of_skipBlanks h)⟩
      else none
termination_by 2 * cs.length
decreasing_by all_goals have := length_lt_of_skipBlanks h; omega

/-- Values with commas between them, up to the closing bracket. -/
def items? (room : Nat) (cs : List Char) : Option (Read (List Json) cs.length) := do
  let first ← value? room cs
  match h : skipBlanks first.rest with
  | ']' :: rest =>
      return ⟨[first.value], rest, Nat.lt_trans (length_lt_of_skipBlanks h) first.progress⟩
  | ',' :: rest => do
      let others ← items? room rest
      return ⟨first.value :: others.value, others.rest, Nat.lt_trans others.progress
        (Nat.lt_trans (length_lt_of_skipBlanks h) first.progress)⟩
  | _ => none
termination_by 2 * cs.length + 1
decreasing_by
  · omega
  · have := Nat.lt_trans (length_lt_of_skipBlanks h) first.progress
    omega

/-- Members with commas between them, up to the closing brace. -/
def members? (room : Nat) (cs : List Char) : Option (Read (List (String × Json)) cs.length) := do
  let name ← memberName? cs
  let first ← value? room name.rest
  match h : skipBlanks first.rest with
  | '\x7d' :: rest =>
      return ⟨[(name.value, first.value)], rest,
        Nat.lt_trans (Nat.lt_trans (length_lt_of_skipBlanks h) first.progress) name.progress⟩
  | ',' :: rest => do
      let others ← members? room rest
      return ⟨(name.value, first.value) :: others.value, others.rest, Nat.lt_trans others.progress
        (Nat.lt_trans (Nat.lt_trans (length_lt_of_skipBlanks h) first.progress) name.progress)⟩
  | _ => none
termination_by 2 * cs.length + 1
decreasing_by
  · have := name.progress
    omega
  · have := Nat.lt_trans (Nat.lt_trans (length_lt_of_skipBlanks h) first.progress) name.progress
    omega

end

/-- How many arrays and objects may stand inside each other. -/
def maxNesting : Nat := 127

/-- The value a text consists of. -/
def ofText? (text : String) : Option Json := do
  let read ← value? maxNesting text.toList
  if (skipBlanks read.rest).isEmpty then return read.value else none

end Formula.Json
