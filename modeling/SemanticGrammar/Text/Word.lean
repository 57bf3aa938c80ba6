/-!
# Word characters

Letters, digits and the underscore, all of ASCII, make words.  A literal made
of them alone is a keyword: it gives way to a longer word at the same place.
Any other literal is symbolic and ends the word before it.
-/

namespace SemanticGrammar

namespace Text

/-- Whether a character is an ASCII letter, an ASCII digit or the
underscore. -/
def isWordCharacter (character : Char) : Bool :=
  character.isAlphanum || character == '_'

/-- Whether a text is made of word characters alone. -/
def isKeyword (text : String) : Bool :=
  text.toList.all isWordCharacter

/-- Whether a text holds a character that is no word character. -/
def isSymbolic (text : String) : Bool :=
  !isKeyword text

end Text

end SemanticGrammar
