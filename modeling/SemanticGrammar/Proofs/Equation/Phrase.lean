import SemanticGrammar.Equation.Grammar
import SemanticGrammar.Proofs.Equation.Negation

/-!
# Phrases

A phrase is an equation as it is written: with its brackets, and with `NOT`
in front of what it negates.  Each phrase has its tokens, its tree in the
equation grammar, and the equation that it stands for.  Many phrases stand
for one equation, and the written form of an equation picks one of them.
-/

namespace SemanticGrammar

/-! ## Quoted values -/

namespace Expression

def quoted (text : String) : String :=
  "'" ++ text ++ "'"

@[simp]
theorem toList_quoted (text : String) :
    (quoted text).toList =
      Lexicon.valueQuote :: (text.toList ++ [Lexicon.valueQuote]) := by
  simp [quoted, Lexicon.valueQuote]

@[simp]
theorem valueText_quoted (text : String) :
    Lexicon.valueText (quoted text) = text := by
  simp [Lexicon.valueText]

theorem quoted_valueText {token : String}
    (isValue : Lexicon.isValue token = true) :
    quoted (Lexicon.valueText token) = token := by
  apply String.toList_injective
  unfold Lexicon.isValue at isValue
  split at isValue
  · cases isValue
  · rename_i first rest characters
    simp only [Bool.and_eq_true, beq_iff_eq] at isValue
    obtain ⟨⟨⟨rfl, endsQuoted⟩, -⟩, -⟩ := isValue
    obtain ⟨inner, rfl⟩ := List.getLast?_eq_some_iff.mp endsQuoted
    rw [toList_quoted, Lexicon.valueText, characters, List.drop_one,
      List.tail_cons, String.toList_ofList, List.dropLast_concat]

theorem isValue_quoted {text : String} :
    Lexicon.isValue (quoted text) = true ↔
      text ≠ "" ∧
        ∀ character ∈ text.toList, Lexicon.isValueCharacter character = true := by
  simp [Lexicon.isValue]

/-! ## Written expressions -/

def tokens : Expression RelativeIdentifier → List String
  | identifier id => [id.text]
  | application target feature => "(" :: (target.tokens ++ [feature, ")"])
  | value text => [quoted text]

/-- Whether the names and the values in an expression can be written. -/
def Lexical : Expression RelativeIdentifier → Prop
  | identifier (.named name) => Lexicon.isVariable name = true
  | identifier _ => True
  | application target feature =>
      target.Lexical ∧ Lexicon.isFeature feature = true
  | value text => Lexicon.isValue (quoted text) = true

end Expression

namespace EquationGrammar

def identifierCategory : RelativeIdentifier → Symbol
  | .up => upTerminal
  | .down => downTerminal
  | .named _ => variableCategory

def expressionTree : Expression RelativeIdentifier → Tree
  | .identifier id =>
      .node expressionSymbol [.leaf (identifierCategory id) id.text]
  | .application target feature =>
      .node expressionSymbol
        [.leaf openTerminal "(", expressionTree target,
          .leaf featureCategory feature, .leaf closeTerminal ")"]
  | .value text =>
      .node expressionSymbol [.leaf valueCategory (Expression.quoted text)]

/-! ## Relations and connectives -/

/-- What two expressions are related by. -/
inductive Relation where
  | assignment
  | membership
  | equality
  | containment
  deriving DecidableEq, Repr

namespace Relation

def word : Relation → String
  | assignment => "="
  | membership => "IN"
  | equality => "=c"
  | containment => "INc"

def terminal : Relation → Symbol
  | assignment => assignTerminal
  | membership => inTerminal
  | equality => equalTerminal
  | containment => containTerminal

def equation (left right : Expression RelativeIdentifier) :
    Relation → Equation RelativeIdentifier
  | assignment => .defining (.assignment left right)
  | membership => .defining (.containment left right)
  | equality => .constraint ⟨true, .equality left right⟩
  | containment => .constraint ⟨true, .containment left right⟩

end Relation

theorem Relation.exists_iff {property : Relation → Prop} :
    (∃ relation, property relation) ↔
      property .assignment ∨ property .membership ∨ property .equality ∨
        property .containment := by
  constructor
  · rintro ⟨relation, holds⟩
    cases relation <;> simp [holds]
  · rintro (holds | holds | holds | holds) <;> exact ⟨_, holds⟩

theorem exists_connective_iff {property : Connective → Prop} :
    (∃ connective, property connective) ↔
      property .conjunction ∨ property .disjunction := by
  constructor
  · rintro ⟨connective, holds⟩
    cases connective <;> simp [holds]
  · rintro (holds | holds) <;> exact ⟨_, holds⟩

def connectiveTerminal : Connective → Symbol
  | .conjunction => andTerminal
  | .disjunction => orTerminal

/-- The connective that the word for a connective builds. -/
def builtConnective (orBuilds : Connective) : Connective → Connective
  | .conjunction => .conjunction
  | .disjunction => orBuilds

/-! ## Phrases -/

/-- A written equation. -/
inductive Phrase where
  | negated (inner : Phrase)
  | joined (connective : Connective) (left right : Phrase)
  | related (relation : Relation) (left right : Expression RelativeIdentifier)
  | mentioned (expression : Expression RelativeIdentifier)
  | bracketed (inner : Phrase)
  deriving DecidableEq, Repr

namespace Phrase

def tokens : Phrase → List String
  | negated inner => "NOT" :: inner.tokens
  | joined connective left right =>
      left.tokens ++ connective.word :: right.tokens
  | related relation left right =>
      left.tokens ++ relation.word :: right.tokens
  | mentioned expression => expression.tokens
  | bracketed inner => "(" :: (inner.tokens ++ [")"])

/-- The tree of a phrase in the grammar in which `OR` builds a given
connective. -/
def tree (orBuilds : Connective) : Phrase → Tree
  | negated inner =>
      .node (equationSymbol orBuilds)
        [.leaf notTerminal "NOT", inner.tree orBuilds]
  | joined connective left right =>
      .node (equationSymbol orBuilds)
        [left.tree orBuilds,
          .leaf (connectiveTerminal connective) connective.word,
          right.tree orBuilds]
  | related relation left right =>
      .node (equationSymbol orBuilds)
        [expressionTree left, .leaf relation.terminal relation.word,
          expressionTree right]
  | mentioned expression =>
      .node (equationSymbol orBuilds) [expressionTree expression]
  | bracketed inner =>
      .node (equationSymbol orBuilds)
        [.leaf openTerminal "(", inner.tree orBuilds, .leaf closeTerminal ")"]

/-- The equation that a phrase stands for when `OR` builds a given
connective. -/
def equation (orBuilds : Connective) : Phrase → Equation RelativeIdentifier
  | negated inner => (inner.equation orBuilds).negate
  | joined connective left right =>
      .compound (builtConnective orBuilds connective)
        (left.equation orBuilds) (right.equation orBuilds)
  | related relation left right => relation.equation left right
  | mentioned expression => .constraint ⟨true, .existence expression⟩
  | bracketed inner => inner.equation orBuilds

def expressions : Phrase → List (Expression RelativeIdentifier)
  | negated inner => inner.expressions
  | joined _ left right => left.expressions ++ right.expressions
  | related _ left right => [left, right]
  | mentioned expression => [expression]
  | bracketed inner => inner.expressions

theorem tokens_subset_of_mem_expressions {phrase : Phrase}
    {expression : Expression RelativeIdentifier}
    (member : expression ∈ phrase.expressions) :
    expression.tokens ⊆ phrase.tokens := by
  induction phrase with
  | negated inner ih => exact List.subset_cons_of_subset _ (ih member)
  | joined connective left right leftIH rightIH =>
      rcases List.mem_append.mp member with inLeft | inRight
      · exact List.subset_append_of_subset_left _ (leftIH inLeft)
      · exact List.subset_append_of_subset_right _
          (List.subset_cons_of_subset _ (rightIH inRight))
  | related relation left right =>
      simp only [expressions, List.mem_cons, List.not_mem_nil, or_false]
        at member
      rcases member with rfl | rfl
      · exact List.subset_append_left _ _
      · exact List.subset_append_of_subset_right _ (List.subset_cons_self _ _)
  | mentioned inner =>
      rw [expressions, List.mem_singleton] at member
      rw [member]
      exact List.Subset.refl _
  | bracketed inner ih =>
      exact List.subset_cons_of_subset _
        (List.subset_append_of_subset_left _ (ih member))

/-- Whether the names and the values in a phrase can be written. -/
def Lexical (phrase : Phrase) : Prop :=
  ∀ expression ∈ phrase.expressions, expression.Lexical

section Lexical

variable {left right : Phrase}
  {expression expression' : Expression RelativeIdentifier}

theorem lexical_negated : (negated left).Lexical ↔ left.Lexical :=
  Iff.rfl

theorem lexical_bracketed : (bracketed left).Lexical ↔ left.Lexical :=
  Iff.rfl

theorem lexical_joined {connective : Connective} :
    (joined connective left right).Lexical ↔ left.Lexical ∧ right.Lexical := by
  simp [Lexical, expressions, or_imp, forall_and]

theorem lexical_related {relation : Relation} :
    (related relation expression expression').Lexical ↔
      expression.Lexical ∧ expression'.Lexical := by
  simp [Lexical, expressions]

theorem lexical_mentioned :
    (mentioned expression).Lexical ↔ expression.Lexical := by
  simp [Lexical, expressions]

end Lexical

end Phrase

/-! ## The phrase that an equation is written as -/

def checkPhrase : Check RelativeIdentifier → Phrase
  | .equality left right => .related .equality left right
  | .containment element container => .related .containment element container
  | .existence expression => .mentioned expression

def definitionPhrase : Definition RelativeIdentifier → Phrase
  | .assignment left right => .related .assignment left right
  | .containment element container => .related .membership element container

/-- The phrase of an equation: compounds and negative constraints are
bracketed. -/
def phraseOf : Equation RelativeIdentifier → Phrase
  | .compound connective left right =>
      .bracketed (.joined connective (phraseOf left) (phraseOf right))
  | .defining definition => definitionPhrase definition
  | .constraint ⟨true, check⟩ => checkPhrase check
  | .constraint ⟨false, check⟩ =>
      .bracketed (.negated (.bracketed (checkPhrase check)))

@[simp]
theorem expressions_checkPhrase (check : Check RelativeIdentifier) :
    (checkPhrase check).expressions = check.expressions := by
  cases check <;> rfl

@[simp]
theorem expressions_definitionPhrase
    (definition : Definition RelativeIdentifier) :
    (definitionPhrase definition).expressions = definition.expressions := by
  cases definition <;> rfl

@[simp]
theorem expressions_phraseOf (equation : Equation RelativeIdentifier) :
    (phraseOf equation).expressions = equation.expressions := by
  induction equation with
  | compound connective left right leftIH rightIH =>
      simp [phraseOf, Phrase.expressions, Equation.expressions, leftIH, rightIH]
  | defining definition => exact expressions_definitionPhrase definition
  | constraint constraint =>
      obtain ⟨positive, check⟩ := constraint
      cases positive <;> exact expressions_checkPhrase check

/-- The phrase of an equation stands for the equation when `OR` builds
disjunctions. -/
@[simp]
theorem equation_phraseOf (equation : Equation RelativeIdentifier) :
    (phraseOf equation).equation .disjunction = equation := by
  induction equation with
  | compound connective left right leftIH rightIH =>
      cases connective <;>
        simp [phraseOf, Phrase.equation, builtConnective, leftIH, rightIH]
  | defining definition => cases definition <;> rfl
  | constraint constraint =>
      obtain ⟨positive, check⟩ := constraint
      cases positive <;> cases check <;> rfl

@[simp]
theorem expressions_equation (orBuilds : Connective) (phrase : Phrase) :
    (phrase.equation orBuilds).expressions = phrase.expressions := by
  induction phrase with
  | negated inner ih =>
      rw [Phrase.equation, Equation.expressions_negate, ih, Phrase.expressions]
  | joined connective left right leftIH rightIH =>
      simp only [Phrase.equation, Equation.expressions, Phrase.expressions,
        leftIH, rightIH]
  | related relation left right => cases relation <;> rfl
  | mentioned expression => rfl
  | bracketed inner ih => exact ih

end EquationGrammar

end SemanticGrammar
