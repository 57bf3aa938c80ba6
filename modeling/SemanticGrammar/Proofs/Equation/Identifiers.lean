import SemanticGrammar.Equation.Basic
import SemanticGrammar.Proofs.FirstOccurrence

/-!
# The identifiers of an equation

An identifier occurs in an equation wherever it is the innermost target of an
expression.  Read from left to right, the occurrences are one flat list, and
the identifiers of the equation are its first occurrences by text: unions at
the compounds and at the expressions of a condition drop the same repetitions
as one pass over the list.  Negation keeps the occurrences where they are.
-/

namespace SemanticGrammar

/-! ## Texts of relative identifiers -/

namespace RelativeIdentifier

/-- Whether an identifier is no variable that is written like `^` or `!`. -/
def IsPlain (id : RelativeIdentifier) : Prop :=
  id ≠ .named "^" ∧ id ≠ .named "!"

theorem eq_of_text_eq {id other : RelativeIdentifier} (plain : id.IsPlain)
    (plain' : other.IsPlain) (same : id.text = other.text) : id = other := by
  cases id <;> cases other <;> simp_all [IsPlain, text]

end RelativeIdentifier

variable {ID : Type}

namespace Expression

/-- What an expression leads to through its targets, unless it is a value. -/
def referent? : Expression ID → Option ID
  | identifier id => some id
  | application target _ => target.referent?
  | value _ => none

theorem identifiers_eq_toList_referent? (expression : Expression ID) :
    expression.identifiers = expression.referent?.toList := by
  induction expression with
  | identifier id => rfl
  | application target feature ih => exact ih
  | value text => rfl

theorem foldl_unionIdentifiers [IdentifierText ID]
    (expressions : List (Expression ID)) (known : List ID) :
    expressions.foldl
        (fun known expression =>
          unionIdentifiers known expression.identifiers) known =
      unionIdentifiers known (expressions.flatMap identifiers) := by
  induction expressions generalizing known with
  | nil => rfl
  | cons expression expressions ih =>
      rw [List.foldl_cons, ih, List.flatMap_cons]
      exact (unionBy_append _ _ _ _).symm

/-- The identifiers of several expressions are the first occurrences in all of
them. -/
theorem identifiersOf_eq [IdentifierText ID]
    (expressions : List (Expression ID)) :
    identifiersOf expressions =
      firstOccurrencesBy IdentifierText.text
        (expressions.flatMap identifiers) :=
  foldl_unionIdentifiers expressions []

end Expression

namespace Equation

/-- The identifiers that occur in an equation, from left to right. -/
def occurrences : Equation ID → List ID
  | compound _ left right => left.occurrences ++ right.occurrences
  | defining (.assignment left right) =>
      left.referent?.toList ++ right.referent?.toList
  | defining (.containment element container) =>
      element.referent?.toList ++ container.referent?.toList
  | constraint ⟨_, .equality left right⟩ =>
      left.referent?.toList ++ right.referent?.toList
  | constraint ⟨_, .containment element container⟩ =>
      element.referent?.toList ++ container.referent?.toList
  | constraint ⟨_, .existence expression⟩ => expression.referent?.toList

theorem occurrences_eq_flatMap (equation : Equation ID) :
    equation.occurrences =
      equation.expressions.flatMap Expression.identifiers := by
  induction equation with
  | compound connective left right leftIH rightIH =>
      rw [occurrences, expressions, List.flatMap_append, leftIH, rightIH]
  | defining definition =>
      cases definition <;>
        simp [occurrences, expressions, Definition.expressions,
          Definition.check, Check.expressions,
          Expression.identifiers_eq_toList_referent?]
  | constraint condition =>
      obtain ⟨positive, check⟩ := condition
      cases check <;>
        simp [occurrences, expressions, Check.expressions,
          Expression.identifiers_eq_toList_referent?]

theorem occurrences_negate (equation : Equation ID) :
    equation.negate.occurrences = equation.occurrences := by
  induction equation with
  | compound connective left right leftIH rightIH =>
      rw [negate, occurrences, occurrences, leftIH, rightIH]
  | defining definition => cases definition <;> rfl
  | constraint condition =>
      obtain ⟨positive, check⟩ := condition
      cases check <;> rfl

section Texts

variable [IdentifierText ID]

theorem identifiers_eq (equation : Equation ID) :
    equation.identifiers =
      firstOccurrencesBy IdentifierText.text equation.occurrences := by
  induction equation with
  | compound connective left right leftIH rightIH =>
      rw [identifiers, occurrences, leftIH, rightIH, firstOccurrencesBy_append]
      rfl
  | defining definition =>
      rw [occurrences_eq_flatMap]
      exact Expression.identifiersOf_eq _
  | constraint condition =>
      rw [occurrences_eq_flatMap]
      exact Expression.identifiersOf_eq _

/-- The identifiers of an equation are its occurrences without those whose text
has occurred before.  So no two of them have one text, each occurrence has the
text of one of them, and they stand in the order in which their texts first
occur.  The negated equation has the same identifiers in the same order. -/
theorem identifiers_are_first_occurrences (equation : Equation ID) :
    let texts := equation.occurrences.map IdentifierText.text
    equation.identifiers =
        newMembersBy IdentifierText.text equation.occurrences ∧
      (equation.identifiers.map IdentifierText.text).Nodup ∧
      texts ⊆ equation.identifiers.map IdentifierText.text ∧
      (equation.identifiers.Pairwise fun first second =>
        texts.idxOf (IdentifierText.text first) <
          texts.idxOf (IdentifierText.text second)) ∧
      equation.negate.identifiers = equation.identifiers := by
  intro texts
  rw [identifiers_eq, identifiers_eq, occurrences_negate]
  refine ⟨firstOccurrencesBy_eq_newMembersBy _ _,
    nodup_map_unionBy _ _ _ List.nodup_nil, ?_,
    pairwise_firstOccurrencesBy _ _, rfl⟩
  intro text occurs
  exact (mem_map_firstOccurrencesBy _).mpr occurs

/-- Identifiers of both kinds with one text are one identifier, the one that is
met first; an element comes before its container. -/
example :
    let name : Identifier := .absolute (.named "^")
    let mother : Identifier := .relative .up
    (compound .conjunction
        (defining (.containment (.application (.identifier name) "ADJ")
          (.value "a")))
        (constraint ⟨false, .containment (.identifier (.relative .down))
          (.application (.identifier mother) "OBJ")⟩)).identifiers =
      [name, .relative .down] := by
  decide

end Texts

end Equation

end SemanticGrammar
