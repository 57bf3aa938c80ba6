import Mathlib.Data.List.TakeWhile
import SemanticGrammar.Proofs.Tokenizer.Separation
import SemanticGrammar.Tokenizer.TokenType

/-!
# A tokenizer is the lexer of its token types

Where a text has a blank, the lexer of the types of a tokenizer takes the whole
gap and gives no token.  At any other place it takes as many characters as the
token there has, which is at least one.  So it never stops, and its tokens are
those of the tokenizer.
-/

namespace SemanticGrammar

@[simp]
theorem Pattern.getD_ofLength (length : List Char → Nat) (text : List Char) :
    (Pattern.ofLength length text).getD 0 = length text := by
  unfold ofLength
  split
  · rename_i zero
    exact zero.symm
  · rfl

theorem Pattern.ofLength_eq_some {length : List Char → Nat} {text : List Char}
    (positive : 0 < length text) :
    Pattern.ofLength length text = some (length text) :=
  if_neg (Nat.ne_of_gt positive)

namespace Tokenizer

variable {tokenizer : Tokenizer}

theorem length?_literalType_of_starts {literal : String} {text : List Char}
    (starts : literal.toList.isPrefixOf text = true) :
    (tokenizer.literalType literal).length? text =
      some (if Text.isKeyword literal then
          max literal.toList.length
            (wordLength tokenizer.symbolicLiterals text)
        else literal.toList.length) := by
  simp only [TokenType.length?, literalType, Pattern.ofLiteral, starts, if_true]
  by_cases keyword : Text.isKeyword literal = true
  · simp [keyword, wordPattern]
  · simp [keyword]

theorem length?_literalType_of_not_starts {literal : String}
    {text : List Char} (notStarts : literal.toList.isPrefixOf text = false) :
    (tokenizer.literalType literal).length? text = none := by
  simp [TokenType.length?, literalType, Pattern.ofLiteral, notStarts]

theorem length?_gapType {text : List Char} :
    gapType.length? text =
      Pattern.ofLength (fun text => (text.takeWhile Text.isBlank).length)
        text := by
  simp [TokenType.length?, gapType]

theorem first?_literalTypes (tokenizer : Tokenizer) (literals : List String)
    (text : List Char) :
    TokenType.first? (literals.map tokenizer.literalType) text =
      (literals.find? fun literal => literal.toList.isPrefixOf text).map
        fun literal => (tokenizer.literalType literal,
          if Text.isKeyword literal then
            max literal.toList.length
              (wordLength tokenizer.symbolicLiterals text)
          else literal.toList.length) := by
  induction literals with
  | nil => rfl
  | cons literal literals ih =>
      unfold TokenType.first? at ih ⊢
      rw [List.map_cons, List.findSome?_cons, List.find?_cons]
      by_cases starts : literal.toList.isPrefixOf text = true
      · rw [length?_literalType_of_starts starts, starts]
        rfl
      · rw [Bool.not_eq_true] at starts
        rw [length?_literalType_of_not_starts starts, starts]
        exact ih

/-- Where no blank stands, the first type that matches takes as many characters
as the token has, and it is not skipped. -/
theorem first?_tokenTypes_of_not_blank
    (nonempty : ∀ literal ∈ tokenizer.literals, literal ≠ "")
    {character : Char} (rest : List Char)
    (notBlank : Text.isBlank character = false) :
    ∃ type, type.isSkipped = false ∧
      TokenType.first? tokenizer.tokenTypes (character :: rest) =
        some (type, tokenizer.tokenLength (character :: rest)) := by
  have positive : 0 < tokenizer.tokenLength (character :: rest) :=
    tokenLength_pos nonempty notBlank
  have noGap : gapType.length? (character :: rest) = none := by
    simp [length?_gapType, Pattern.ofLength, notBlank]
  have literalTypes :=
    tokenizer.first?_literalTypes tokenizer.literals (character :: rest)
  unfold TokenType.first? at literalTypes ⊢
  rw [tokenTypes, List.cons_append, List.findSome?_cons, noGap,
    Option.map_none, List.findSome?_append, literalTypes, ← literalAt?]
  cases found : tokenizer.literalAt? (character :: rest) with
  | none =>
      have word : tokenizer.tokenLength (character :: rest) =
          wordLength tokenizer.symbolicLiterals (character :: rest) := by
        rw [tokenLength, found]
      rw [word] at positive ⊢
      have wordMatches := Pattern.ofLength_eq_some positive
      refine ⟨{ pattern := tokenizer.wordPattern }, rfl, ?_⟩
      simp [TokenType.length?, wordPattern, wordMatches]
  | some literal =>
      refine ⟨tokenizer.literalType literal, rfl, ?_⟩
      rw [tokenLength, found]
      rfl

theorem first?_tokenTypes_of_blank {character : Char} {rest : List Char}
    (blank : Text.isBlank character = true) :
    TokenType.first? tokenizer.tokenTypes (character :: rest) =
      some (gapType, (rest.takeWhile Text.isBlank).length + 1) := by
  have gap : gapType.length? (character :: rest) =
      some ((rest.takeWhile Text.isBlank).length + 1) := by
    simp [length?_gapType, Pattern.ofLength, blank]
  rw [TokenType.first?, tokenTypes, List.cons_append, List.findSome?_cons, gap]
  rfl

/-- No token starts in the rest of a gap. -/
theorem tokensAfter_length_takeWhile (rest : List Char) :
    tokenizer.tokensAfter (rest.takeWhile Text.isBlank).length rest =
      tokenizer.tokensAfter 0 rest := by
  have blank : ∀ character ∈ rest.takeWhile Text.isBlank,
      Text.isBlank character = true := fun _ => List.mem_takeWhile_imp
  have whole : rest.takeWhile Text.isBlank ++ rest.dropWhile Text.isBlank =
      rest := List.takeWhile_append_dropWhile
  generalize rest.takeWhile Text.isBlank = gap at blank whole ⊢
  rw [tokensAfter_eq_drop, ← whole, List.drop_left,
    tokensAfter_append_of_blank blank]

/-- The lexer of the token types gives the tokens.  The induction is on the
text, and at a token or a gap it goes on to what the match has not taken. -/
theorem lexAfter_tokenTypes
    (nonempty : ∀ literal ∈ tokenizer.literals, literal ≠ "")
    (taken : Nat) (text : List Char) :
    TokenType.lexAfter tokenizer.tokenTypes taken text =
      .ok (tokenizer.tokensAfter taken text) := by
  induction text generalizing taken with
  | nil => cases taken <;> simp [TokenType.lexAfter, tokensAfter]
  | cons character rest ih =>
      cases taken with
      | succ taken => exact ih taken
      | zero =>
          rw [TokenType.lexAfter, tokensAfter]
          by_cases blank : Text.isBlank character = true
          · rw [first?_tokenTypes_of_blank blank, if_pos blank]
            simp only [ih, tokensAfter_length_takeWhile]
            rfl
          · rw [if_neg blank]
            rw [Bool.not_eq_true] at blank
            have positive : 0 < tokenizer.tokenLength (character :: rest) :=
              tokenLength_pos nonempty blank
            obtain ⟨length, same⟩ :=
              Nat.exists_eq_succ_of_ne_zero (Nat.ne_of_gt positive)
            obtain ⟨type, kept, first⟩ :=
              first?_tokenTypes_of_not_blank nonempty rest blank
            rw [first]
            simp only [same, ih, kept, Except.map, Nat.succ_eq_add_one,
              Nat.add_sub_cancel, List.take_succ_cons]
            rfl

end Tokenizer

end SemanticGrammar
