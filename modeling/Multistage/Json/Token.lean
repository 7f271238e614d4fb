import Multistage.Json.Basic

/-!
# The tokens of JSON text

`tokens?` cuts a text into punctuation, words, strings and numbers, and refuses what the standard
refuses: other blanks than the four, raw control characters in strings, lone surrogates, leading zeros.
A number beyond the range of doubles is refused as well.
-/

namespace Multistage.Json

/-- A token; a `word` is one of the values that are spelled by a name. -/
inductive Token where
  | openBrace
  | closeBrace
  | openBracket
  | closeBracket
  | comma
  | colon
  | word (value : Json)
  | string (value : String)
  | number (value : Numeral)
  deriving Inhabited, Repr

/-! ## Strings -/

/-- The raw contents of a string whose opening quote has been read, and what follows the closing one.
The contents are collected in reverse. -/
def takeQuoted (contents : List Char) : List Char → Option (List Char × List Char)
  | [] => none
  | '"' :: rest => some (contents.reverse, rest)
  | '\\' :: c :: rest => takeQuoted (c :: '\\' :: contents) rest
  | c :: rest => takeQuoted (c :: contents) rest

theorem takeQuoted_length {contents cs raw rest : List Char}
    (h : takeQuoted contents cs = some (raw, rest)) : rest.length < cs.length := by
  fun_induction takeQuoted contents cs with
  | case1 => simp at h
  | case2 contents tail => simp_all
  | case3 contents c tail ih => have := ih h; simp only [List.length_cons]; omega
  | case4 contents c tail _ _ ih => have := ih h; simp only [List.length_cons]; omega

/-- A piece of a string: a character, or a 16-bit unit given by number. -/
inductive Piece where
  | char (c : Char)
  | unit (n : Nat)
  deriving DecidableEq, Repr

/-- The value of a digit in base sixteen, in either case. -/
def hexValue? (c : Char) : Option Nat :=
  if c.isDigit then some (c.toNat - '0'.toNat)
  else if 'a' ≤ c ∧ c ≤ 'f' then some (c.toNat - 'a'.toNat + 10)
  else if 'A' ≤ c ∧ c ≤ 'F' then some (c.toNat - 'A'.toNat + 10)
  else none

/-- The character that a letter after a backslash stands for. -/
def escaped? : Char → Option Char
  | '"' => some '"'
  | '\\' => some '\\'
  | '/' => some '/'
  | 'b' => some '\x08'
  | 'f' => some '\x0c'
  | 'n' => some '\n'
  | 'r' => some '\r'
  | 't' => some '\t'
  | _ => none

/-- The pieces of a string's raw contents, collected in reverse. -/
def pieces? (done : List Piece) : List Char → Option (List Piece)
  | [] => some done.reverse
  | '\\' :: 'u' :: a :: b :: c :: d :: rest => do
    let n := 4096 * (← hexValue? a) + 256 * (← hexValue? b) + 16 * (← hexValue? c) + (← hexValue? d)
    pieces? (.unit n :: done) rest
  | '\\' :: c :: rest => do
    let c ← escaped? c
    pieces? (.char c :: done) rest
  | c :: rest => if c = '\\' || c.toNat < 0x20 then none else pieces? (.char c :: done) rest

/-- Join the pieces into characters, collected in reverse; two surrogates in order make one. -/
def joinPieces? (done : List Char) : List Piece → Option (List Char)
  | [] => some done.reverse
  | .char c :: rest => joinPieces? (c :: done) rest
  | .unit n :: rest =>
    if n < 0xD800 ∨ 0xDFFF < n then joinPieces? (Char.ofNat n :: done) rest
    else
      match rest with
      | .unit m :: rest =>
        if n < 0xDC00 ∧ 0xDC00 ≤ m ∧ m ≤ 0xDFFF then
          joinPieces? (Char.ofNat (0x10000 + 1024 * (n - 0xD800) + (m - 0xDC00)) :: done) rest
        else none
      | _ => none

/-- The text that the raw contents of a string stand for. -/
def unescape? (raw : List Char) : Option String := do
  let pieces ← pieces? [] raw
  let chars ← joinPieces? [] pieces
  some (String.ofList chars)

/-! ## Numbers -/

/-- The characters that numbers are made of. -/
def isNumberChar (c : Char) : Bool :=
  c.isDigit || c = '-' || c = '+' || c = '.' || c = 'e' || c = 'E'

/-- The whole part of a number and what follows it. No zero stands in front of another digit. -/
def takeWhole? (cs : List Char) : Option (List Char × List Char) :=
  match cs.takeWhile Char.isDigit with
  | [] => none
  | '0' :: _ :: _ => none
  | digits => some (digits, cs.dropWhile Char.isDigit)

/-- One digit or more, and what follows them. -/
def takeDigits? (cs : List Char) : Option (List Char × List Char) :=
  match cs.takeWhile Char.isDigit with
  | [] => none
  | digits => some (digits, cs.dropWhile Char.isDigit)

/-- Whether a minus sign comes first, and what follows it. -/
def takeSign : List Char → Bool × List Char
  | '-' :: cs => (true, cs)
  | cs => (false, cs)

/-- The digits after the point, if there is a point, and what follows them. -/
def takeFraction? : List Char → Option (List Char × List Char)
  | '.' :: cs => takeDigits? cs
  | cs => some ([], cs)

/-- An exponent that takes up all of the text, if there is any text. -/
def exponent? : List Char → Option (Option Int)
  | [] => some none
  | mark :: cs =>
    if mark = 'e' ∨ mark = 'E' then do
      let (sign, cs) := match cs with
        | '-' :: cs => ((-1 : Int), cs)
        | '+' :: cs => (1, cs)
        | cs => (1, cs)
      match ← takeDigits? cs with
      | (digits, []) => some (some (sign * Numeral.valueOf digits))
      | _ => none
    else none

/-- Read a number, which must not overflow. -/
def numeral? (cs : List Char) : Option Numeral := do
  let (negative, cs) := takeSign cs
  let (whole, cs) ← takeWhole? cs
  let (fraction, cs) ← takeFraction? cs
  let exponent ← exponent? cs
  let numeral : Numeral := ⟨negative, whole, fraction, exponent⟩
  if numeral.toFloat?.isSome then some numeral else none

/-! ## Tokens -/

/-- The four blanks of JSON. -/
def isBlank (c : Char) : Bool := c = ' ' || c = '\t' || c = '\n' || c = '\r'

/-- The token that a single character makes. -/
def punctuation? : Char → Option Token
  | '\x7b' => some .openBrace
  | '\x7d' => some .closeBrace
  | '[' => some .openBracket
  | ']' => some .closeBracket
  | ',' => some .comma
  | ':' => some .colon
  | _ => none

/-- A value spelled by a name, and what follows it. -/
def takeWord? : List Char → Option (Json × List Char)
  | 'n' :: 'u' :: 'l' :: 'l' :: rest => some (.null, rest)
  | 't' :: 'r' :: 'u' :: 'e' :: rest => some (.bool true, rest)
  | 'f' :: 'a' :: 'l' :: 's' :: 'e' :: rest => some (.bool false, rest)
  | _ => none

theorem takeWord?_length {cs rest : List Char} {value : Json}
    (h : takeWord? cs = some (value, rest)) : rest.length < cs.length := by
  fun_cases takeWord? cs <;> simp_all [takeWord?] <;> omega

/-- The tokens of a text, collected in reverse. -/
def tokensFrom? (done : List Token) (cs : List Char) : Option (List Token) :=
  match cs with
  | [] => some done.reverse
  | c :: rest =>
    if isBlank c then tokensFrom? done rest
    else if c = '"' then
      match h : takeQuoted [] rest with
      | none => none
      | some (raw, tail) =>
        have := takeQuoted_length h
        match unescape? raw with
        | none => none
        | some s => tokensFrom? (.string s :: done) tail
    else if isNumberChar c then
      -- the longest run of such characters, `c` included
      have := (rest.dropWhile_suffix isNumberChar).length_le
      match numeral? (c :: rest.takeWhile isNumberChar) with
      | none => none
      | some n => tokensFrom? (.number n :: done) (rest.dropWhile isNumberChar)
    else
      match punctuation? c with
      | some token => tokensFrom? (token :: done) rest
      | none =>
        match h : takeWord? (c :: rest) with
        | none => none
        | some (value, tail) =>
          have := takeWord?_length h
          tokensFrom? (.word value :: done) tail
termination_by cs.length
decreasing_by all_goals simp_all <;> omega

/-- The tokens of a text. -/
def tokens? (cs : List Char) : Option (List Token) := tokensFrom? [] cs

end Multistage.Json
