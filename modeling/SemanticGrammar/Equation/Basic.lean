import SemanticGrammar.Equation.Expression

/-!
# Equations over feature structures

An equation is defining, a constraint, or a compound of two equations.
Defining equations build structure: an assignment makes two designators equal
and a containment puts an element into a container.  Constraints only check
what has been built, and each has a polarity.
-/

namespace SemanticGrammar

/-- What two equations of a compound are joined by. -/
inductive Connective where
  | conjunction
  | disjunction
  deriving DecidableEq, Repr

/-- The connective of the negated compound. -/
def Connective.dual : Connective → Connective
  | conjunction => disjunction
  | disjunction => conjunction

/-- A statement that builds structure. -/
inductive Definition (ID : Type) where
  | assignment (left right : Expression ID)
  | containment (element container : Expression ID)
  deriving DecidableEq, Repr

/-- A condition on structure. -/
inductive Check (ID : Type) where
  | equality (left right : Expression ID)
  | containment (element container : Expression ID)
  | existence (expression : Expression ID)
  deriving DecidableEq, Repr

/-- A condition that has to hold, or not to hold. -/
structure Constraint (ID : Type) where
  positive : Bool
  check : Check ID
  deriving DecidableEq, Repr

/-- An equation over identifiers of a type. -/
inductive Equation (ID : Type) where
  | compound (connective : Connective) (left right : Equation ID)
  | defining (definition : Definition ID)
  | constraint (constraint : Constraint ID)
  deriving DecidableEq, Repr

variable {ID ID' : Type}

/-- The condition that a definition brings about. -/
def Definition.check : Definition ID → Check ID
  | assignment left right => .equality left right
  | containment element container => .containment element container

namespace Equation

/-! ## Negation -/

/-- The negation of a definition: the constraint that its condition does not
hold.  Nothing is built by it. -/
def negateDefinition (definition : Definition ID) : Constraint ID :=
  ⟨false, definition.check⟩

def negateConstraint (constraint : Constraint ID) : Constraint ID :=
  ⟨!constraint.positive, constraint.check⟩

/-- The negation of an equation, pushed inward to definitions and
constraints. -/
def negate : Equation ID → Equation ID
  | compound connective left right =>
      compound connective.dual left.negate right.negate
  | defining definition => constraint (negateDefinition definition)
  | constraint condition => constraint (negateConstraint condition)

end Equation

/-! ## Grounding -/

def Definition.map (replace : ID → ID') : Definition ID → Definition ID'
  | assignment left right => assignment (left.map replace) (right.map replace)
  | containment element container =>
      containment (element.map replace) (container.map replace)

def Check.map (replace : ID → ID') : Check ID → Check ID'
  | equality left right => equality (left.map replace) (right.map replace)
  | containment element container =>
      containment (element.map replace) (container.map replace)
  | existence expression => existence (expression.map replace)

namespace Equation

def map (replace : ID → ID') : Equation ID → Equation ID'
  | compound connective left right =>
      compound connective (left.map replace) (right.map replace)
  | defining definition => defining (definition.map replace)
  | constraint condition =>
      constraint ⟨condition.positive, condition.check.map replace⟩

def ground (equation : Equation RelativeIdentifier)
    (mother own : AbsoluteIdentifier) : Equation AbsoluteIdentifier :=
  equation.map (RelativeIdentifier.ground mother own)

end Equation

/-! ## Identifiers -/

def Check.expressions : Check ID → List (Expression ID)
  | equality left right => [left, right]
  | containment element container => [element, container]
  | existence expression => [expression]

def Definition.expressions (definition : Definition ID) :
    List (Expression ID) :=
  definition.check.expressions

namespace Equation

def expressions : Equation ID → List (Expression ID)
  | compound _ left right => left.expressions ++ right.expressions
  | defining definition => definition.expressions
  | constraint condition => condition.check.expressions

/-- The identifiers of an equation, by text and in order of first
occurrence. -/
def identifiers [IdentifierText ID] : Equation ID → List ID
  | compound _ left right => unionIdentifiers left.identifiers right.identifiers
  | defining definition => Expression.identifiersOf definition.expressions
  | constraint condition => Expression.identifiersOf condition.check.expressions

end Equation

/-! ## Written form -/

def Connective.word : Connective → String
  | conjunction => "AND"
  | disjunction => "OR"

def Definition.render [IdentifierText ID] : Definition ID → String
  | assignment left right => left.render ++ " = " ++ right.render
  | containment element container =>
      element.render ++ " IN " ++ container.render

def Check.render [IdentifierText ID] : Check ID → String
  | equality left right => left.render ++ " =c " ++ right.render
  | containment element container =>
      element.render ++ " INc " ++ container.render
  | existence expression => expression.render

/-- The written form of a constraint; a negative one is bracketed as a
whole. -/
def Constraint.render [IdentifierText ID] (constraint : Constraint ID) :
    String :=
  if constraint.positive then constraint.check.render
  else "(NOT (" ++ constraint.check.render ++ "))"

namespace Equation

/-- The written form of an equation; a compound is bracketed. -/
def render [IdentifierText ID] : Equation ID → String
  | compound connective left right =>
      "(" ++ left.render ++ " " ++ connective.word ++ " " ++ right.render ++ ")"
  | defining definition => definition.render
  | constraint condition => condition.render

end Equation

/-! ## Truth -/

/-- The truth value of an equation under a truth value for each condition: a
definition is read as the condition that it brings about. -/
def Equation.holds (truth : Check ID → Bool) : Equation ID → Bool
  | compound .conjunction left right => left.holds truth && right.holds truth
  | compound .disjunction left right => left.holds truth || right.holds truth
  | defining definition => truth definition.check
  | constraint condition => truth condition.check == condition.positive

end SemanticGrammar
