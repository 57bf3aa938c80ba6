import Mathlib.Data.List.TakeWhile
import SemanticGrammar.Proofs.Equation.Derivations
import SemanticGrammar.Proofs.TokenKinds

/-!
# Words and symbols in the text of an equation

Five characters make up the symbolic literals of the equation grammar.  A
word ends before a blank and before one of them, and a keyword never cuts a
word short.  So the tokens of a text are its words and its symbols, and the
tokens of a written equation are those of its phrase.
-/

namespace SemanticGrammar

namespace EquationGrammar

def tokenizer : Tokenizer :=
  ⟨["AND", "INc", "NOT", "=c", "IN", "OR", "!", "(", ")", "=", "^"]⟩

theorem tokenizer_derivation (orBuilds : Connective) :
    (derivation orBuilds).tokenizer = .ok tokenizer := by
  cases orBuilds <;> decide +kernel

/-- Whether a symbolic literal starts with a character. -/
def isSymbolCharacter (character : Char) : Bool :=
  ['^', '!', '(', ')', '='].contains character

/-- Whether a character is neither blank nor the start of a symbol. -/
def isInner (character : Char) : Bool :=
  !Text.isBlank character && !isSymbolCharacter character

theorem isInner_iff {character : Char} :
    isInner character = true ↔
      Text.isBlank character = false ∧ isSymbolCharacter character = false := by
  simp [isInner]

/-! ## Lengths of tokens -/

theorem symbolicLiterals_tokenizer :
    tokenizer.symbolicLiterals = ["=c", "!", "(", ")", "=", "^"] := by
  decide

theorem anyStarts_cons (character : Char) (rest : List Char) :
    Tokenizer.anyStarts tokenizer.symbolicLiterals (character :: rest) =
      isSymbolCharacter character := by
  rw [symbolicLiterals_tokenizer]
  rw [Bool.eq_iff_iff]
  simp only [Tokenizer.anyStarts, isSymbolCharacter, List.any_cons,
    List.any_nil, List.contains_cons, List.contains_nil]
  simp [List.isPrefixOf]
  grind

/-- A word ends before the first character that cannot be inside it. -/
theorem wordLength_eq (text : List Char) :
    Tokenizer.wordLength tokenizer.symbolicLiterals text =
      (text.takeWhile isInner).length := by
  induction text with
  | nil => rfl
  | cons character rest ih =>
      rw [Tokenizer.wordLength, anyStarts_cons, ih, List.takeWhile_cons]
      cases blank : Text.isBlank character <;>
        cases symbol : isSymbolCharacter character <;>
          simp [isInner, blank, symbol]

theorem length_le_of_literalAt? {character : Char} {rest : List Char}
    {literal : String} (inner : isInner character = true)
    (found : tokenizer.literalAt? (character :: rest) = some literal) :
    Text.isKeyword literal = true ∧ literal.toList.length ≤
      ((character :: rest).takeWhile isInner).length := by
  obtain ⟨member, tail, text⟩ := tokenizer.prefix_of_literalAt? found
  have kinds : ∀ literal ∈ tokenizer.literals,
      (Text.isKeyword literal = true ∧ literal.toList.all isInner = true) ∨
        literal.toList.head?.any (!isInner ·) = true := by
    decide
  rcases kinds literal member with ⟨isKeyword, allInner⟩ | outer
  · refine ⟨isKeyword, ?_⟩
    rw [← text, List.takeWhile_append_of_pos (List.all_eq_true.mp allInner),
      List.length_append]
    exact Nat.le_add_right _ _
  · -- A symbol does not start with an inner character.
    obtain ⟨first, isFirst, outer⟩ := (Option.any_eq_true _ _).mp outer
    obtain ⟨symbol, characters⟩ := List.head?_eq_some_iff.mp isFirst
    rw [characters, List.cons_append] at text
    rw [(List.cons.inj text).1, inner] at outer
    cases outer

theorem tokenLength_of_inner {character : Char} {rest : List Char}
    (inner : isInner character = true) :
    tokenizer.tokenLength (character :: rest) =
      ((character :: rest).takeWhile isInner).length := by
  rw [Tokenizer.tokenLength, wordLength_eq]
  cases found : tokenizer.literalAt? (character :: rest) with
  | none => rfl
  | some literal =>
      obtain ⟨isKeyword, notLonger⟩ := length_le_of_literalAt? inner found
      simp only [isKeyword, if_true]
      exact Nat.max_eq_right notLonger

/-- A token is a literal or has only inner characters. -/
theorem isInner_of_mem_tokenize {text token : String}
    (member : token ∈ tokenizer.tokenize text)
    (notLiteral : token ∉ tokenizer.literals) :
    ∀ character ∈ token.toList, isInner character = true := by
  obtain ⟨rest, -, rfl⟩ :=
    (tokenizer.mem_literals_or_eq_wordAt member).resolve_left notLiteral
  intro character within
  rw [Tokenizer.wordAt, wordLength_eq, String.toList_ofList,
    ← List.prefix_iff_eq_take.mp (List.takeWhile_prefix _)] at within
  exact List.mem_takeWhile_imp within

/-! ## Reading one token -/

/-- Whether a word that comes before a text ends there. -/
def EndsWord (text : List Char) : Prop :=
  ∀ first ∈ text.head?, isInner first = false

theorem tokensAfter_cons_of_not_blank {character : Char} {rest : List Char}
    (notBlank : Text.isBlank character = false)
    (positive : 0 < tokenizer.tokenLength (character :: rest)) :
    tokenizer.tokensAfter 0 (character :: rest) =
      String.ofList ((character :: rest).take
          (tokenizer.tokenLength (character :: rest))) ::
        tokenizer.tokensAfter 0 ((character :: rest).drop
          (tokenizer.tokenLength (character :: rest))) := by
  obtain ⟨length, exact⟩ := Nat.exists_eq_add_of_lt positive
  rw [Tokenizer.tokensAfter, if_neg (by simp [notBlank]), exact]
  simpa using tokenizer.tokensAfter_eq_drop length rest

theorem tokensAfter_blank {character : Char} (rest : List Char)
    (blank : Text.isBlank character = true) :
    tokenizer.tokensAfter 0 (character :: rest) =
      tokenizer.tokensAfter 0 rest := by
  rw [Tokenizer.tokensAfter, if_pos blank]

theorem tokensAfter_word (word : List Char) {rest : List Char}
    (nonempty : word ≠ []) (inner : ∀ character ∈ word, isInner character = true)
    (ends : EndsWord rest) :
    tokenizer.tokensAfter 0 (word ++ rest) =
      String.ofList word :: tokenizer.tokensAfter 0 rest := by
  cases word with
  | nil => exact absurd rfl nonempty
  | cons character word =>
      have firstInner := inner character List.mem_cons_self
      have outside : rest.takeWhile isInner = [] := by
        cases rest with
        | nil => rfl
        | cons first rest => simp [ends first rfl]
      have length : tokenizer.tokenLength (character :: (word ++ rest)) =
          (character :: word).length := by
        rw [tokenLength_of_inner firstInner, ← List.cons_append,
          List.takeWhile_append_of_pos inner, outside, List.append_nil]
      have notBlank := (isInner_iff.mp firstInner).1
      rw [List.cons_append, tokensAfter_cons_of_not_blank notBlank
        (by simp [length]), length, ← List.cons_append, List.take_left,
        List.drop_left]

/-- A symbol is read as one token where no longer literal starts. -/
theorem tokensAfter_symbol (symbol : String) {rest : List Char}
    (isSymbol : symbol ∈ tokenizer.symbolicLiterals)
    (found : tokenizer.literalAt? (symbol.toList ++ rest) = some symbol) :
    tokenizer.tokensAfter 0 (symbol.toList ++ rest) =
      symbol :: tokenizer.tokensAfter 0 rest := by
  have kinds : ∀ symbol ∈ tokenizer.symbolicLiterals,
      Text.isKeyword symbol = false ∧
        symbol.toList.head?.any (!Text.isBlank ·) = true := by
    decide
  obtain ⟨notKeyword, startsUnblank⟩ := kinds symbol isSymbol
  obtain ⟨first, isFirst, notBlank⟩ := (Option.any_eq_true _ _).mp startsUnblank
  rw [Bool.not_eq_true'] at notBlank
  obtain ⟨others, characters⟩ := List.head?_eq_some_iff.mp isFirst
  have length : tokenizer.tokenLength (symbol.toList ++ rest) =
      symbol.toList.length := by
    rw [Tokenizer.tokenLength, found]
    simp [notKeyword]
  rw [characters] at length ⊢
  rw [List.cons_append] at length ⊢
  rw [tokensAfter_cons_of_not_blank notBlank (by simp [length]), length,
    ← List.cons_append, List.take_left, List.drop_left, ← characters,
    String.ofList_toList]

theorem tokensAfter_open (rest : List Char) :
    tokenizer.tokensAfter 0 ('(' :: rest) =
      "(" :: tokenizer.tokensAfter 0 rest :=
  tokensAfter_symbol "(" (by decide) rfl

theorem tokensAfter_close (rest : List Char) :
    tokenizer.tokensAfter 0 (')' :: rest) =
      ")" :: tokenizer.tokensAfter 0 rest :=
  tokensAfter_symbol ")" (by decide) rfl

theorem tokensAfter_up (rest : List Char) :
    tokenizer.tokensAfter 0 ('^' :: rest) =
      "^" :: tokenizer.tokensAfter 0 rest :=
  tokensAfter_symbol "^" (by decide) rfl

theorem tokensAfter_down (rest : List Char) :
    tokenizer.tokensAfter 0 ('!' :: rest) =
      "!" :: tokenizer.tokensAfter 0 rest :=
  tokensAfter_symbol "!" (by decide) rfl

theorem tokensAfter_space (rest : List Char) :
    tokenizer.tokensAfter 0 (' ' :: rest) = tokenizer.tokensAfter 0 rest :=
  tokensAfter_blank rest (by decide)

theorem tokensAfter_relationWord (relation : Relation) (rest : List Char) :
    tokenizer.tokensAfter 0 (relation.word.toList ++ ' ' :: rest) =
      relation.word :: tokenizer.tokensAfter 0 (' ' :: rest) := by
  have ends : EndsWord (' ' :: rest) := by
    intro first isFirst
    cases isFirst
    decide
  cases relation with
  | assignment => exact tokensAfter_symbol "=" (by decide) rfl
  | equality => exact tokensAfter_symbol "=c" (by decide) rfl
  | membership =>
      exact tokensAfter_word "IN".toList (by decide)
        (List.all_eq_true.mp (by decide)) ends
  | containment =>
      exact tokensAfter_word "INc".toList (by decide)
        (List.all_eq_true.mp (by decide)) ends

end EquationGrammar

end SemanticGrammar
