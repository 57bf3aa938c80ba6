import SemanticGrammar.Proofs.Equation.Brackets
import SemanticGrammar.Proofs.Equation.Identifiers
import SemanticGrammar.Proofs.Equation.Phrase

/-!
# Tokens of expressions

Names and values are none of the tokens that the grammar itself writes, so
the tokens of an expression are balanced and hold no operator.  An expression
is determined by any list of tokens that it begins, since the first token
says which rule applies.
-/

namespace SemanticGrammar

/-! ## Reserved tokens -/

/-- The tokens that only relate, join or negate. -/
def operators : List String :=
  ["NOT", "AND", "OR", "=", "IN", "=c", "INc"]

/-- The tokens that are no names and no values. -/
def reserved : List String :=
  ["^", "!", "(", ")"] ++ operators

section Reserved

variable {name token : String}

theorem ne_of_accepts {accepts : String → Bool}
    (refused : ∀ token ∈ reserved, accepts token = false)
    (accepted : accepts name = true) (isReserved : token ∈ reserved) :
    name ≠ token := by
  rintro rfl
  rw [refused name isReserved] at accepted
  cases accepted

theorem ne_of_isVariable (isVariable : Lexicon.isVariable name = true)
    (isReserved : token ∈ reserved) : name ≠ token :=
  ne_of_accepts (by decide) isVariable isReserved

theorem ne_of_isFeature (isFeature : Lexicon.isFeature name = true)
    (isReserved : token ∈ reserved) : name ≠ token :=
  ne_of_accepts (by decide) isFeature isReserved

theorem ne_of_isValue (isValue : Lexicon.isValue name = true)
    (isReserved : token ∈ reserved) : name ≠ token :=
  ne_of_accepts (by decide) isValue isReserved

theorem isVariable_quoted (text : String) :
    Lexicon.isVariable (Expression.quoted text) = false := by
  simp [Lexicon.isVariable, Lexicon.withoutPercent, Lexicon.isName,
    Lexicon.valueQuote]

theorem operators_subset_reserved : operators ⊆ reserved :=
  List.subset_append_right _ _

end Reserved

/-! ## Expressions -/

namespace Expression

variable {expression other : Expression RelativeIdentifier}

theorem tokens_ne_nil (expression : Expression RelativeIdentifier) :
    expression.tokens ≠ [] := by
  cases expression <;> simp [tokens]

theorem not_mem_tokens_of_operator (lexical : expression.Lexical)
    {operator : String} (isOperator : operator ∈ operators) :
    operator ∉ expression.tokens := by
  have isReserved := operators_subset_reserved isOperator
  induction expression with
  | identifier id =>
      rw [tokens, List.mem_singleton]
      cases id with
      | up =>
          rintro rfl
          exact absurd isOperator (by decide)
      | down =>
          rintro rfl
          exact absurd isOperator (by decide)
      | named name => exact (ne_of_isVariable lexical isReserved).symm
  | value text =>
      rw [tokens, List.mem_singleton]
      exact (ne_of_isValue lexical isReserved).symm
  | application target feature ih =>
      have notOpen : operator ≠ "(" := by
        rintro rfl
        exact absurd isOperator (by decide)
      have notClose : operator ≠ ")" := by
        rintro rfl
        exact absurd isOperator (by decide)
      have notFeature := (ne_of_isFeature lexical.2 isReserved).symm
      simp [tokens, notOpen, notClose, notFeature, ih lexical.1]

theorem balanced_tokens (lexical : expression.Lexical) :
    Balanced expression.tokens := by
  induction expression with
  | identifier id =>
      cases id with
      | up => exact .singleton (by decide) (by decide)
      | down => exact .singleton (by decide) (by decide)
      | named name =>
          have notOpen : name ≠ "(" := ne_of_isVariable lexical (by decide)
          have notClose : name ≠ ")" := ne_of_isVariable lexical (by decide)
          exact .singleton notOpen notClose
  | value text =>
      have notOpen : quoted text ≠ "(" := ne_of_isValue lexical (by decide)
      have notClose : quoted text ≠ ")" := ne_of_isValue lexical (by decide)
      exact .singleton notOpen notClose
  | application target feature ih =>
      have notOpen : feature ≠ "(" := ne_of_isFeature lexical.2 (by decide)
      have notClose : feature ≠ ")" := ne_of_isFeature lexical.2 (by decide)
      have inside : Balanced (target.tokens ++ [feature]) :=
        (ih lexical.1).append (.singleton notOpen notClose)
      simpa [tokens] using inside.enclose

/-! ## What a first token says -/

theorem text_ne_open {id : RelativeIdentifier}
    (lexical : (identifier id).Lexical) : id.text ≠ "(" := by
  cases id with
  | up => decide
  | down => decide
  | named name => exact ne_of_isVariable lexical (by decide)

theorem text_ne_quoted {id : RelativeIdentifier} {text : String}
    (lexical : (identifier id).Lexical) (valueLexical : (value text).Lexical) :
    id.text ≠ quoted text := by
  cases id with
  | up => exact (ne_of_isValue valueLexical (by decide)).symm
  | down => exact (ne_of_isValue valueLexical (by decide)).symm
  | named name =>
      intro (same : name = quoted text)
      rw [Lexical, same, isVariable_quoted] at lexical
      cases lexical

theorem isPlain_of_lexical {id : RelativeIdentifier}
    (lexical : (identifier id).Lexical) : id.IsPlain := by
  constructor
  · rintro rfl
    have isVariable : Lexicon.isVariable "^" = true := lexical
    exact absurd isVariable (by decide)
  · rintro rfl
    have isVariable : Lexicon.isVariable "!" = true := lexical
    exact absurd isVariable (by decide)

theorem id_eq_of_text_eq {id id' : RelativeIdentifier}
    (lexical : (identifier id).Lexical) (lexical' : (identifier id').Lexical)
    (same : id.text = id'.text) : id = id' :=
  RelativeIdentifier.eq_of_text_eq (isPlain_of_lexical lexical)
    (isPlain_of_lexical lexical') same

/-- Expressions that begin the same tokens are the same. -/
theorem eq_of_tokens_append_eq (lexical : expression.Lexical)
    (otherLexical : other.Lexical) {rest otherRest : List String}
    (same : expression.tokens ++ rest = other.tokens ++ otherRest) :
    expression = other ∧ rest = otherRest := by
  induction expression generalizing other rest otherRest with
  | identifier id =>
      cases other with
      | identifier id' =>
          obtain ⟨sameText, sameRest⟩ := List.cons.inj same
          exact ⟨congrArg identifier
            (id_eq_of_text_eq lexical otherLexical sameText), sameRest⟩
      | value text =>
          have sameHead : id.text = quoted text := (List.cons.inj same).1
          exact absurd sameHead (text_ne_quoted lexical otherLexical)
      | application target feature =>
          have sameHead : id.text = "(" := (List.cons.inj same).1
          exact absurd sameHead (text_ne_open lexical)
  | value text =>
      cases other with
      | identifier id' =>
          have sameHead : quoted text = id'.text := (List.cons.inj same).1
          exact absurd sameHead.symm (text_ne_quoted otherLexical lexical)
      | value text' =>
          obtain ⟨sameQuoted, sameRest⟩ := List.cons.inj same
          have sameText := congrArg Lexicon.valueText sameQuoted
          rw [valueText_quoted, valueText_quoted] at sameText
          exact ⟨congrArg value sameText, sameRest⟩
      | application target feature =>
          have sameHead : quoted text = "(" := (List.cons.inj same).1
          exact absurd sameHead (ne_of_isValue lexical (by decide))
  | application target feature ih =>
      cases other with
      | identifier id =>
          have sameHead : "(" = id.text := (List.cons.inj same).1
          exact absurd sameHead.symm (text_ne_open otherLexical)
      | value text =>
          have sameHead : "(" = quoted text := (List.cons.inj same).1
          exact absurd sameHead.symm
            (ne_of_isValue otherLexical (by decide))
      | application target' feature' =>
          simp only [tokens, List.cons_append, List.append_assoc,
            List.cons.injEq, true_and] at same
          obtain ⟨rfl, sameRest⟩ := ih lexical.1 otherLexical.1 same
          simpa using sameRest

theorem eq_of_tokens_eq (lexical : expression.Lexical)
    (otherLexical : other.Lexical) (same : expression.tokens = other.tokens) :
    expression = other := by
  have sameNil : expression.tokens ++ [] = other.tokens ++ [] := by rw [same]
  exact (eq_of_tokens_append_eq lexical otherLexical sameNil).1

theorem tokens_ne_append_cons (lexical : expression.Lexical)
    (otherLexical : other.Lexical) (token : String) (rest : List String) :
    expression.tokens ≠ other.tokens ++ token :: rest := by
  intro same
  rw [← List.append_nil expression.tokens] at same
  cases (eq_of_tokens_append_eq lexical otherLexical same).2

end Expression

end SemanticGrammar
