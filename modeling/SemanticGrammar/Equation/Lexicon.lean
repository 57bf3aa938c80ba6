import SemanticGrammar.Text.Blank
import SemanticGrammar.Text.Word

/-!
# The lexical categories of equations

Variables are local names, features are attribute names in upper case, and
values stand between single quotes.  Keywords of the equation grammar are
neither variables nor features.
-/

namespace SemanticGrammar

namespace Lexicon

/-- The keywords, which are no names. -/
def keywords : List String :=
  ["NOT", "AND", "OR", "IN", "INc"]

/-- Whether a text is a letter followed by word characters. -/
def isName : List Char → Bool
  | [] => false
  | first :: rest => first.isAlpha && rest.all Text.isWordCharacter

/-- A text without one leading percent sign. -/
def withoutPercent : List Char → List Char
  | '%' :: rest => rest
  | text => text

/-- Whether a token is a local name such as `%f`, `X` or `head_1`. -/
def isVariable (token : String) : Bool :=
  isName (withoutPercent token.toList) && !keywords.contains token

/-- Whether a character can follow the first one of a feature. -/
def isFeatureCharacter (character : Char) : Bool :=
  character.isUpper || character.isDigit || character == '_'

/-- Whether a token is an attribute name such as `SUBJ` or `NUM`. -/
def isFeature (token : String) : Bool :=
  match token.toList with
  | [] => false
  | first :: rest =>
      first.isUpper && rest.all isFeatureCharacter && !keywords.contains token

def valueQuote : Char :=
  '\x27'

/-- Whether a character can stand inside a quoted value. -/
def isValueCharacter (character : Char) : Bool :=
  character != valueQuote && !Text.isBlank character

/-- Whether a token is a quoted value such as `'dog'`. -/
def isValue (token : String) : Bool :=
  match token.toList with
  | [] => false
  | first :: rest =>
      first == valueQuote && rest.getLast? == some valueQuote &&
        rest.dropLast != [] && rest.dropLast.all isValueCharacter

/-- A token without its first and its last character. -/
def valueText (token : String) : String :=
  String.ofList (token.toList.drop 1).dropLast

end Lexicon

end SemanticGrammar
