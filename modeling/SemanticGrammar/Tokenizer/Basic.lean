import SemanticGrammar.Fault
import SemanticGrammar.FirstOccurrence
import SemanticGrammar.Text.Units
import SemanticGrammar.Text.Word
import SemanticGrammar.Tokenizer.Ambiguity

/-!
# Longest-match tokenizers over a fixed set of literals

Blanks separate tokens.  At any other place the longest literal that starts
there is the token, unless it is a keyword and a longer word starts at the
same place.  Where no literal starts, the token is the word there: the
longest run without blanks that stops before the next symbolic literal.

The literals and their order are this library's.  That a text is cut in this way
is assumed of the lexing package, which is outside of it.
-/

namespace SemanticGrammar

/-- A set of literals, in the order in which they are tried. -/
structure Tokenizer where
  literals : List String
  deriving DecidableEq

namespace Tokenizer

/-- Put a literal in front of the first one that it precedes. -/
def place (literal : String) : List String → List String
  | [] => [literal]
  | first :: rest =>
      if Text.precedes literal first then literal :: first :: rest
      else first :: place literal rest

/-- The order in which literals are tried. -/
def arrange (literals : List String) : List String :=
  literals.foldr place []

/-- A tokenizer for a set of literals, given in any order and with any
repetitions.  Every literal must be unbroken, and none may be a concatenation
of others. -/
def ofLiterals? (literals : List String) :
    Except ConfigurationError Tokenizer :=
  let distinct := firstOccurrences literals
  match distinct.find? fun literal => !Text.isUnbroken literal with
  | some literal => .error (.malformedToken literal)
  | none =>
      match Ambiguity.find? distinct with
      | some ambiguity =>
          .error (.ambiguousToken ambiguity.literal ambiguity.parts)
      | none => .ok ⟨arrange distinct⟩

/-- The literals that end the word before them. -/
def symbolicLiterals (tokenizer : Tokenizer) : List String :=
  tokenizer.literals.filter Text.isSymbolic

def anyStarts (literals : List String) (text : List Char) : Bool :=
  literals.any fun literal => literal.toList.isPrefixOf text

/-- The length of the word that starts a text: up to a blank or to the start
of one of the given symbolic literals. -/
def wordLength (symbolic : List String) : List Char → Nat
  | [] => 0
  | character :: rest =>
      if Text.isBlank character || anyStarts symbolic (character :: rest) then
        0
      else
        wordLength symbolic rest + 1

/-- The first literal in the order of trial that starts a text. -/
def literalAt? (tokenizer : Tokenizer) (text : List Char) : Option String :=
  tokenizer.literals.find? fun literal => literal.toList.isPrefixOf text

/-- The length of the token that starts a text whose first character is not
blank. -/
def tokenLength (tokenizer : Tokenizer) (text : List Char) : Nat :=
  let word := wordLength tokenizer.symbolicLiterals text
  match tokenizer.literalAt? text with
  | none => word
  | some literal =>
      if Text.isKeyword literal then max literal.toList.length word
      else literal.toList.length

/-- The tokens of a text after its first `skipped` characters, which belong
to a token already read.  This is what the lexing package is assumed to do with
the token types of the tokenizer. -/
def tokensAfter (tokenizer : Tokenizer) : Nat → List Char → List String
  | _, [] => []
  | skipped + 1, _ :: rest => tokenizer.tokensAfter skipped rest
  | 0, character :: rest =>
      if Text.isBlank character then
        tokenizer.tokensAfter 0 rest
      else
        let length := tokenizer.tokenLength (character :: rest)
        String.ofList ((character :: rest).take length) ::
          tokenizer.tokensAfter (length - 1) rest

def tokenize (tokenizer : Tokenizer) (input : String) : List String :=
  tokenizer.tokensAfter 0 input.toList

/-- Skipping characters is dropping them. -/
theorem tokensAfter_eq_drop (tokenizer : Tokenizer) (skipped : Nat)
    (text : List Char) :
    tokenizer.tokensAfter skipped text =
      tokenizer.tokensAfter 0 (text.drop skipped) := by
  induction text generalizing skipped with
  | nil => cases skipped <;> simp [tokensAfter]
  | cons character rest induction =>
      cases skipped with
      | zero => rfl
      | succ skipped =>
          simp only [tokensAfter, List.drop_succ_cons]
          exact induction skipped

end Tokenizer

end SemanticGrammar
