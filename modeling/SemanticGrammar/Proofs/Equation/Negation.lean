import SemanticGrammar.Equation.Basic

/-!
# Negation

Negating an equation exchanges its connectives and turns each leaf into the
constraint of the other polarity.  All conditions stay at their places, so the
truth value of an equation is complemented whichever of its conditions are
true.

No leaf of a negated equation is a definition.  A second negation exchanges
the connectives and the polarities back, so it gives the equation with the
constraint that a condition holds in place of each definition that brings the
condition about.  On equations without definitions negation is an involution,
and these are the equations that are negations at all.
-/

namespace SemanticGrammar

variable {ID : Type}

/-- The compounds of an equation without their connectives, and the conditions
at the leaves without their polarities. -/
inductive ConditionTree (ID : Type) where
  | leaf (check : Check ID)
  | node (left right : ConditionTree ID)
  deriving DecidableEq, Repr

@[simp]
theorem Connective.dual_dual (connective : Connective) :
    connective.dual.dual = connective := by
  cases connective <;> rfl

namespace Equation

def conditionTree : Equation ID → ConditionTree ID
  | compound _ left right => .node left.conditionTree right.conditionTree
  | defining (.assignment left right) => .leaf (.equality left right)
  | defining (.containment element container) =>
      .leaf (.containment element container)
  | constraint condition => .leaf condition.check

/-- The definitions in an equation, from left to right. -/
def definitions : Equation ID → List (Definition ID)
  | compound _ left right => left.definitions ++ right.definitions
  | defining definition => [definition]
  | constraint _ => []

/-- The equation that checks what an equation defines. -/
def checked : Equation ID → Equation ID
  | compound connective left right =>
      compound connective left.checked right.checked
  | defining (.assignment left right) =>
      constraint ⟨true, .equality left right⟩
  | defining (.containment element container) =>
      constraint ⟨true, .containment element container⟩
  | constraint condition => constraint condition

/-! ## Leaves -/

theorem holds_negateDefinition (truth : Check ID → Bool)
    (definition : Definition ID) :
    (constraint (negateDefinition definition)).holds truth =
      !(defining definition).holds truth := by
  simp [holds, negateDefinition]

theorem holds_negateConstraint (truth : Check ID → Bool)
    (condition : Constraint ID) :
    (constraint (negateConstraint condition)).holds truth =
      !(constraint condition).holds truth := by
  cases polarity : condition.positive <;>
    simp [holds, negateConstraint, polarity]

@[simp]
theorem negateConstraint_negateConstraint (condition : Constraint ID) :
    negateConstraint (negateConstraint condition) = condition := by
  simp [negateConstraint]

theorem checked_defining (definition : Definition ID) :
    (defining definition).checked = constraint ⟨true, definition.check⟩ := by
  cases definition <;> rfl

/-! ## Compounds -/

/-- Negation complements the truth value of an equation. -/
theorem holds_negate (truth : Check ID → Bool) (equation : Equation ID) :
    equation.negate.holds truth = !equation.holds truth := by
  induction equation with
  | compound connective left right leftIH rightIH =>
      cases connective with
      | conjunction =>
          simp only [negate, Connective.dual, holds, leftIH, rightIH,
            Bool.not_and]
      | disjunction =>
          simp only [negate, Connective.dual, holds, leftIH, rightIH,
            Bool.not_or]
  | defining definition => exact holds_negateDefinition truth definition
  | constraint condition => exact holds_negateConstraint truth condition

theorem definitions_negate (equation : Equation ID) :
    equation.negate.definitions = [] := by
  induction equation with
  | compound connective left right leftIH rightIH =>
      simp only [negate, definitions, leftIH, rightIH, List.append_nil]
  | defining definition => rfl
  | constraint condition => rfl

theorem conditionTree_negate (equation : Equation ID) :
    equation.negate.conditionTree = equation.conditionTree := by
  induction equation with
  | compound connective left right leftIH rightIH =>
      simp only [negate, conditionTree, leftIH, rightIH]
  | defining definition => cases definition <;> rfl
  | constraint condition => rfl

theorem negate_negate (equation : Equation ID) :
    equation.negate.negate = equation.checked := by
  induction equation with
  | compound connective left right leftIH rightIH =>
      simp only [negate, checked, leftIH, rightIH, Connective.dual_dual]
  | defining definition =>
      rw [checked_defining]
      rfl
  | constraint condition =>
      simp only [negate, checked, negateConstraint_negateConstraint]

theorem checked_eq_self_iff {equation : Equation ID} :
    equation.checked = equation ↔ equation.definitions = [] := by
  induction equation with
  | compound connective left right leftIH rightIH =>
      simp only [checked, definitions, compound.injEq, true_and, leftIH,
        rightIH, List.append_eq_nil_iff]
  | defining definition => simp [checked_defining, definitions]
  | constraint condition => simp [checked, definitions]

@[simp]
theorem expressions_negate (equation : Equation ID) :
    equation.negate.expressions = equation.expressions := by
  induction equation with
  | compound connective left right leftIH rightIH =>
      simp only [negate, expressions, leftIH, rightIH]
  | defining definition => rfl
  | constraint condition => rfl

/-! ## Complement and involution -/

/-- Whichever conditions are true, a negated equation holds when the equation
does not.  It defines nothing, and it has the conditions of the equation at the
same places of the same compounds. -/
theorem negate_complements (equation : Equation ID) :
    (∀ truth : Check ID → Bool,
        equation.negate.holds truth = !equation.holds truth) ∧
      equation.negate.definitions = [] ∧
      equation.negate.conditionTree = equation.conditionTree :=
  ⟨fun truth => holds_negate truth equation, definitions_negate equation,
    conditionTree_negate equation⟩

/-- Negated twice, an equation checks what it defined before.  So negation
undoes itself on the equations without definitions and on no others, and a
third negation undoes the second one. -/
theorem negate_twice_checks (equation : Equation ID) :
    equation.negate.negate = equation.checked ∧
      (equation.negate.negate = equation ↔ equation.definitions = []) ∧
      equation.negate.negate.negate = equation.negate := by
  refine ⟨negate_negate equation, ?_, ?_⟩
  · rw [negate_negate, checked_eq_self_iff]
  · rw [negate_negate, checked_eq_self_iff]
    exact definitions_negate equation

/-- A definition inside of a compound comes back as a constraint. -/
example :
    (compound .disjunction (constraint ⟨false, .existence (.value "b")⟩)
        (defining (.containment (.identifier RelativeIdentifier.up)
          (.value "a")))).negate.negate =
      compound .disjunction (constraint ⟨false, .existence (.value "b")⟩)
        (constraint ⟨true, .containment (.identifier .up) (.value "a")⟩) :=
  rfl

end Equation

end SemanticGrammar
