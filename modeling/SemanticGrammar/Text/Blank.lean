/-!
# Blank characters

A blank character separates tokens and never belongs to one.  The class is
Unicode white space together with the byte order mark and without the next
line control U+0085.  Literals are texts without blanks.
-/

namespace SemanticGrammar

namespace Text

/-- The code points of the blank characters, as ranges with both ends
included. -/
def blankRanges : List (Nat × Nat) :=
  [(0x0009, 0x000D), (0x0020, 0x0020), (0x00A0, 0x00A0), (0x1680, 0x1680),
    (0x2000, 0x200A), (0x2028, 0x2029), (0x202F, 0x202F), (0x205F, 0x205F),
    (0x3000, 0x3000), (0xFEFF, 0xFEFF)]

def isBlank (character : Char) : Bool :=
  blankRanges.any fun range =>
    range.1 ≤ character.toNat && character.toNat ≤ range.2

/-- Whether a text can stand as one literal: it has a character, and none of
its characters is blank. -/
def isUnbroken (text : String) : Bool :=
  text != "" && text.toList.all fun character => !isBlank character

theorem isUnbroken_iff {text : String} :
    isUnbroken text = true ↔
      text ≠ "" ∧ ∀ character ∈ text.toList, isBlank character = false := by
  simp [isUnbroken]

theorem isUnbroken_eq_false_iff {text : String} :
    isUnbroken text = false ↔
      text = "" ∨ ∃ character ∈ text.toList, isBlank character = true := by
  by_cases empty : text = "" <;> simp [isUnbroken, empty]

end Text

end SemanticGrammar
