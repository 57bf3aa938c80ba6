import SemanticGrammar.Tokenizer.Basic

/-!
# Reading an input with a check

A scan reads the tokens of an input and stops where a character that is not
blank starts neither a literal nor a word.  The error names the offset of that
character in code units, and the lexer says why no token starts there.
-/

namespace SemanticGrammar

namespace Tokenizer

/-- The tokens of a text after its first `skipped` characters, or what is left
of the text where no token starts. -/
def scanAfter (tokenizer : Tokenizer) :
    Nat → List Char → Except (List Char) (List String)
  | _, [] => .ok []
  | skipped + 1, _ :: rest => tokenizer.scanAfter skipped rest
  | 0, character :: rest =>
      if Text.isBlank character then
        tokenizer.scanAfter 0 rest
      else
        match tokenizer.tokenLength (character :: rest) with
        | 0 => .error (character :: rest)
        | length + 1 =>
            (tokenizer.scanAfter length rest).map
              (String.ofList (character :: rest.take length) :: ·)

/-- The error of an input that is not covered from a place on. -/
def uncovered (tokenizer : Tokenizer) (explain : String → Nat → String)
    (input : String) (left : List Char) : ConfigurationError :=
  let offset := Text.unitLength input - Text.unitLength (String.ofList left)
  .uncoveredCharacter tokenizer.literals offset (explain input offset)

/-- The tokens of an input, each of which is checked; `explain` is what the
lexer says of an offset where no token starts. -/
def scan (tokenizer : Tokenizer) (explain : String → Nat → String)
    (input : String) : Except ConfigurationError (List String) :=
  (tokenizer.scanAfter 0 input.toList).mapError
    (tokenizer.uncovered explain input)

end Tokenizer

end SemanticGrammar
