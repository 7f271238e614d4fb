import Multistage.Json.Basic
import Multistage.Text.Quoted

/-!
# Writing JSON

`Json.pretty` writes one entry a line, indented by two blanks a level; `Json.compact` writes no blanks
at all. Empty arrays and objects stay on their line in both. The functions behind them put a value in
front of the text that follows it, so that no text is copied from level to level.
-/

namespace Multistage.Json

/-- One character of a JSON string. Only the quote, the backslash and control characters are escaped. -/
def escapeChar (c : Char) : List Char :=
  match c with
  | '"' => ['\\', '"']
  | '\\' => ['\\', '\\']
  | '\x08' => ['\\', 'b']
  | '\t' => ['\\', 't']
  | '\n' => ['\\', 'n']
  | '\x0c' => ['\\', 'f']
  | '\r' => ['\\', 'r']
  | c =>
    if c.toNat < 0x20 then
      ['\\', 'u', '0', '0', if c.toNat < 0x10 then '0' else '1', Nat.digitChar (c.toNat % 16)]
    else [c]

/-- A JSON string with its quotes. -/
def stringChars (s : String) : List Char := '"' :: s.toList.flatMap escapeChar ++ ['"']

/-- Numbers are written with the sign of their exponent. -/
def numeralChars (n : Numeral) : List Char := n.chars true

/-- A new line at a level of indentation. -/
def newline (level : Nat) : List Char := '\n' :: List.replicate (2 * level) ' '

mutual
/-- A value at a level of indentation, in front of other text. -/
def prettyBefore (level : Nat) : Json → (tail : List Char) → List Char
  | .null, tail => 'n' :: 'u' :: 'l' :: 'l' :: tail
  | .bool true, tail => 't' :: 'r' :: 'u' :: 'e' :: tail
  | .bool false, tail => 'f' :: 'a' :: 'l' :: 's' :: 'e' :: tail
  | .number n, tail => numeralChars n ++ tail
  | .string s, tail => stringChars s ++ tail
  | .array [], tail => '[' :: ']' :: tail
  | .array (item :: rest), tail =>
    '[' :: (newline (level + 1) ++ prettyBefore (level + 1) item
      (prettyItems (level + 1) rest (newline level ++ ']' :: tail)))
  | .object [], tail => '\x7b' :: '\x7d' :: tail
  | .object ((key, value) :: rest), tail =>
    '\x7b' :: (newline (level + 1) ++ (stringChars key ++ ':' :: ' ' :: prettyBefore (level + 1) value
      (prettyFields (level + 1) rest (newline level ++ '\x7d' :: tail))))

/-- The items of an array after the first, in front of other text. -/
def prettyItems (level : Nat) : List Json → (tail : List Char) → List Char
  | [], tail => tail
  | item :: rest, tail =>
    ',' :: (newline level ++ prettyBefore level item (prettyItems level rest tail))

/-- The fields of an object after the first, in front of other text. -/
def prettyFields (level : Nat) : List (String × Json) → (tail : List Char) → List Char
  | [], tail => tail
  | (key, value) :: rest, tail =>
    ',' :: (newline level ++ (stringChars key ++ ':' :: ' ' ::
      prettyBefore level value (prettyFields level rest tail)))
end

/-- A value on several lines. -/
def pretty (j : Json) : String := String.ofList (prettyBefore 0 j [])

mutual
/-- A value without blanks, in front of other text. -/
def compactBefore : Json → (tail : List Char) → List Char
  | .null, tail => 'n' :: 'u' :: 'l' :: 'l' :: tail
  | .bool true, tail => 't' :: 'r' :: 'u' :: 'e' :: tail
  | .bool false, tail => 'f' :: 'a' :: 'l' :: 's' :: 'e' :: tail
  | .number n, tail => numeralChars n ++ tail
  | .string s, tail => stringChars s ++ tail
  | .array [], tail => '[' :: ']' :: tail
  | .array (item :: rest), tail => '[' :: compactBefore item (compactItems rest (']' :: tail))
  | .object [], tail => '\x7b' :: '\x7d' :: tail
  | .object ((key, value) :: rest), tail =>
    '\x7b' :: (stringChars key ++ ':' :: compactBefore value (compactFields rest ('\x7d' :: tail)))

/-- The items of an array after the first, in front of other text. -/
def compactItems : List Json → (tail : List Char) → List Char
  | [], tail => tail
  | item :: rest, tail => ',' :: compactBefore item (compactItems rest tail)

/-- The fields of an object after the first, in front of other text. -/
def compactFields : List (String × Json) → (tail : List Char) → List Char
  | [], tail => tail
  | (key, value) :: rest, tail =>
    ',' :: (stringChars key ++ ':' :: compactBefore value (compactFields rest tail))
end

/-- A value on one line. -/
def compact (j : Json) : String := String.ofList (compactBefore j [])

end Multistage.Json
