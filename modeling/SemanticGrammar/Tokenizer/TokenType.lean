import SemanticGrammar.Tokenizer.Basic

/-!
# Lexing by token types

Texts are cut by a lexing package, which is not part of this library.  What is
assumed of it stands here: it tries its token types in order at each place of a
text.  The first type that matches there gives the token, as far as it matches
or, if its longer alternative matches more, as far as that does.  Matches of a
type that is skipped give no token.

A tokenizer hands over its types to such a lexer: gaps, which are skipped, then
its literals in their order and then words, which are the longer alternative of
keywords.
-/

namespace SemanticGrammar

/-- How many characters at the start of a text are matched, if some are. -/
abbrev Pattern := List Char → Option Nat

/-- The pattern that matches a number of characters, unless that is zero. -/
def Pattern.ofLength (length : List Char → Nat) : Pattern :=
  fun text => if length text = 0 then none else some (length text)

/-- The pattern that matches one literal. -/
def Pattern.ofLiteral (literal : String) : Pattern :=
  fun text =>
    if literal.toList.isPrefixOf text then some literal.toList.length else none

/-- What a lexer tries at a place of a text. -/
structure TokenType where
  pattern : Pattern
  longer? : Option Pattern := none
  isSkipped : Bool := false

namespace TokenType

/-- How many characters at the start of a text are matched by a type or, when
the type matches, by its longer alternative. -/
def length? (type : TokenType) (text : List Char) : Option Nat :=
  (type.pattern text).map fun length =>
    max length ((type.longer?.bind fun longer => longer text).getD 0)

/-- The first of some types that matches at the start of a text, with the
number of characters that it takes. -/
def first? (types : List TokenType) (text : List Char) :
    Option (TokenType × Nat) :=
  types.findSome? fun type => (type.length? text).map (type, ·)

/-- The tokens of a text after its first `taken` characters, which belong to a
match already found, or what is left of the text where no type matches.  This is
the assumed behaviour of the lexing package on its token types. -/
def lexAfter (types : List TokenType) :
    Nat → List Char → Except (List Char) (List String)
  | _, [] => .ok []
  | taken + 1, _ :: rest => lexAfter types taken rest
  | 0, character :: rest =>
      match first? types (character :: rest) with
      | some (type, length + 1) =>
          (lexAfter types length rest).map fun tokens =>
            if type.isSkipped then tokens
            else String.ofList (character :: rest.take length) :: tokens
      | _ => .error (character :: rest)

end TokenType

namespace Tokenizer

def gapType : TokenType where
  pattern := .ofLength fun text => (text.takeWhile Text.isBlank).length
  isSkipped := true

def wordPattern (tokenizer : Tokenizer) : Pattern :=
  .ofLength (wordLength tokenizer.symbolicLiterals)

def literalType (tokenizer : Tokenizer) (literal : String) : TokenType where
  pattern := .ofLiteral literal
  longer? :=
    if Text.isKeyword literal then some tokenizer.wordPattern else none

/-- The types of a tokenizer in the order in which they are tried. -/
def tokenTypes (tokenizer : Tokenizer) : List TokenType :=
  gapType :: tokenizer.literals.map tokenizer.literalType ++
    [{ pattern := tokenizer.wordPattern }]

end Tokenizer

end SemanticGrammar
