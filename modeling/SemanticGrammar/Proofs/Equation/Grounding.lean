import SemanticGrammar.Proofs.Equation.Identifiers

/-!
# Grounding

Grounding replaces each occurrence of an identifier where it stands, so it
commutes with negation, and the occurrences in a grounded equation are those
of the equation, grounded.

Identifiers that are told apart before grounding can become one, when the
mother and the node itself stand for one structure or for the name of a
variable.  Repetitions can be dropped before or after that as long as two
occurrences with one text are one identifier: this is so unless a variable is
written like the mother or like the node itself.
-/

namespace SemanticGrammar

variable {ID ID' : Type}

/-! ## Replaced identifiers -/

theorem Expression.referent?_map (replace : ID → ID')
    (expression : Expression ID) :
    (expression.map replace).referent? = expression.referent?.map replace := by
  induction expression with
  | identifier id => rfl
  | application target feature ih => exact ih
  | value text => rfl

namespace Equation

theorem map_negate (replace : ID → ID') (equation : Equation ID) :
    equation.negate.map replace = (equation.map replace).negate := by
  induction equation with
  | compound connective left right leftIH rightIH =>
      simp only [negate, map, leftIH, rightIH]
  | defining definition => cases definition <;> rfl
  | constraint condition => rfl

theorem occurrences_map (replace : ID → ID') (equation : Equation ID) :
    (equation.map replace).occurrences =
      equation.occurrences.map replace := by
  induction equation with
  | compound connective left right leftIH rightIH =>
      rw [map, occurrences, occurrences, leftIH, rightIH, List.map_append]
  | defining definition =>
      cases definition <;>
        simp [map, Definition.map, occurrences, Expression.referent?_map,
          Option.toList_map]
  | constraint condition =>
      obtain ⟨positive, check⟩ := condition
      cases check <;>
        simp [map, Check.map, occurrences, Expression.referent?_map,
          Option.toList_map]

/-! ## Grounded identifiers -/

section Ground

variable {equation : Equation RelativeIdentifier}
  (mother own : AbsoluteIdentifier)

theorem occurrences_ground :
    (equation.ground mother own).occurrences =
      equation.occurrences.map (RelativeIdentifier.ground mother own) :=
  occurrences_map _ equation

/-- An identifier of a grounded equation is one that was given for the mother
or for the node, or it has the name of a variable. -/
theorem mem_occurrences_ground {id : AbsoluteIdentifier}
    (occurs : id ∈ (equation.ground mother own).occurrences) :
    id = mother ∨ id = own ∨
      ∃ name, .named name ∈ equation.occurrences ∧ id = .named name := by
  rw [occurrences_ground] at occurs
  obtain ⟨relative, isOccurrence, rfl⟩ := List.mem_map.mp occurs
  cases relative with
  | up => exact Or.inl rfl
  | down => exact Or.inr (Or.inl rfl)
  | named name => exact Or.inr (Or.inr ⟨name, isOccurrence, rfl⟩)

theorem identifiers_ground
    (plain : ∀ id ∈ equation.occurrences, id.IsPlain) :
    (equation.ground mother own).identifiers =
      unionIdentifiers []
        (equation.identifiers.map (RelativeIdentifier.ground mother own)) := by
  rw [identifiers_eq, identifiers_eq, occurrences_ground]
  refine (firstOccurrencesBy_map_firstOccurrencesBy ?_).symm
  intro first isFirst second isSecond same
  rw [RelativeIdentifier.eq_of_text_eq (plain first isFirst)
    (plain second isSecond) same]

end Ground

/-- Grounding commutes with negation.  The identifiers of a grounded equation
are the two that were given for the mother and for the node, and those with the
names of its variables.  If none of these is written `^` or `!`, they are the
grounded identifiers of the equation without repetitions, in their order. -/
theorem ground_commutes (equation : Equation RelativeIdentifier)
    (mother own : AbsoluteIdentifier) :
    equation.negate.ground mother own =
        (equation.ground mother own).negate ∧
      (∀ id ∈ (equation.ground mother own).occurrences,
        id = mother ∨ id = own ∨
          ∃ name, .named name ∈ equation.occurrences ∧ id = .named name) ∧
      (.named "^" ∉ equation.occurrences →
        .named "!" ∉ equation.occurrences →
          (equation.ground mother own).identifiers =
            unionIdentifiers [] (equation.identifiers.map
              (RelativeIdentifier.ground mother own))) := by
  refine ⟨map_negate _ equation,
    fun id occurs => mem_occurrences_ground mother own occurs, ?_⟩
  intro noUp noDown
  refine identifiers_ground mother own fun id occurs => ⟨?_, ?_⟩
  · rintro rfl
    exact noUp occurs
  · rintro rfl
    exact noDown occurs

/-- An equation in which the mother, the node and two variables occur. -/
def agreement : Equation RelativeIdentifier :=
  .compound .conjunction
    (.defining (.assignment (.application (.identifier .up) "SUBJ")
      (.identifier (.named "x"))))
    (.compound .disjunction
      (.constraint ⟨false, .containment (.identifier .down)
        (.identifier (.named "y"))⟩)
      (.constraint ⟨true, .existence (.identifier .up)⟩))

/-- The mother and the node both become a variable that occurs, and three
identifiers become one. -/
theorem ground_commutes_agreement :
    let name := AbsoluteIdentifier.named "x"
    agreement.identifiers = [.up, .named "x", .down, .named "y"] ∧
      .named "^" ∉ agreement.occurrences ∧
      .named "!" ∉ agreement.occurrences ∧
      (agreement.ground name name).identifiers = [name, .named "y"] ∧
      agreement.negate.ground name name =
        (agreement.ground name name).negate ∧
      .named "y" ∈ (agreement.ground name name).occurrences ∧
      ∃ known, .named known ∈ agreement.occurrences ∧
        AbsoluteIdentifier.named "y" = .named known := by
  intro name
  obtain ⟨negates, occur, ground⟩ := ground_commutes agreement name name
  have noUp : .named "^" ∉ agreement.occurrences := by decide
  have noDown : .named "!" ∉ agreement.occurrences := by decide
  have occurs : .named "y" ∈ (agreement.ground name name).occurrences := by
    decide
  refine ⟨by decide, noUp, noDown, (ground noUp noDown).trans (by decide),
    negates, occurs, ?_⟩
  rcases occur _ occurs with same | same | isVariable
  · exact absurd same (by decide)
  · exact absurd same (by decide)
  · exact isVariable

/-- A variable that is written `^` is dropped as a repetition of the mother
before it is grounded. -/
example :
    let equation : Equation RelativeIdentifier :=
      defining (.assignment (.identifier .up) (.identifier (.named "^")))
    (equation.ground (.address "f") (.address "g")).identifiers ≠
      unionIdentifiers [] (equation.identifiers.map
        (RelativeIdentifier.ground (.address "f") (.address "g"))) := by
  decide

end Equation

end SemanticGrammar
