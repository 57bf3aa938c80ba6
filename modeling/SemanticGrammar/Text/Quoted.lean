/-!
# Quoted text

Names and messages show a text between double quotes.  Inside, the quote and
the backslash are written after a backslash, five control characters have a
letter of their own, and each other character below U+0020 is written with
four hexadecimal digits in lower case.  All else stands as it is.
-/

namespace SemanticGrammar

namespace Text

/-- The letter that stands for a control character after a backslash. -/
def controlLetter? (character : Char) : Option Char :=
  match character.toNat with
  | 0x08 => some 'b'
  | 0x09 => some 't'
  | 0x0A => some 'n'
  | 0x0C => some 'f'
  | 0x0D => some 'r'
  | _ => none

/-- The written form of one character between quotes. -/
def escape (character : Char) : List Char :=
  if character = '\x22' ∨ character = '\x5c' then
    ['\x5c', character]
  else
    match controlLetter? character with
    | some letter => ['\x5c', letter]
    | none =>
        if character.toNat < 0x20 then
          ['\x5c', 'u', '0', '0', Nat.digitChar (character.toNat / 16),
            Nat.digitChar (character.toNat % 16)]
        else
          [character]

def quote (text : String) : String :=
  String.ofList ('\x22' :: (text.toList.flatMap escape ++ ['\x22']))

end Text

end SemanticGrammar
