/-!
# Sixteen-bit code units

Literals are measured and ordered by the code units of their UTF-16 form.  A
character up to U+FFFF is one unit; any other is a pair of surrogate units,
which lie below the last block of one-unit characters.
-/

namespace SemanticGrammar

namespace Text

/-- The UTF-16 code units of one character. -/
def characterUnits (character : Char) : List Nat :=
  if character.toNat < 0x10000 then
    [character.toNat]
  else
    [0xD800 + (character.toNat - 0x10000) / 0x400,
      0xDC00 + (character.toNat - 0x10000) % 0x400]

def units (text : String) : List Nat :=
  text.toList.flatMap characterUnits

def unitLength (text : String) : Nat :=
  (units text).length

/-- Whether a list of units comes before another one or equals it, by the
first units that differ. -/
def unitsNotAfter : List Nat → List Nat → Bool
  | [], _ => true
  | _ :: _, [] => false
  | first :: firsts, second :: seconds =>
      first < second || (first == second && unitsNotAfter firsts seconds)

/-- Whether one literal is tried before another: longer literals come first,
and literals of one length follow the order of their code units. -/
def precedes (first second : String) : Bool :=
  unitLength second < unitLength first ||
    (unitLength first == unitLength second &&
      unitsNotAfter (units first) (units second))

end Text

end SemanticGrammar
