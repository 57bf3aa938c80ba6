import SemanticGrammar.Equation.Basic
import SemanticGrammar.Equation.Lexicon
import SemanticGrammar.Workspace

/-!
# The grammar of equations

The surface syntax of equations, as declared symbols whose values are
expressions and equations over relative identifiers:

* `NOT e` is the negation of `e`, pushed inward;
* `e AND e` and `e OR e` are compounds;
* `x = y` and `x IN y` are definitions;
* `x =c y`, `x INc y` and a bare `x` are constraints;
* `( e )` is `e`.

There are two symbols for equations.  In one of them `OR` builds a
disjunction, in the other a conjunction.

The grammar can be declared over any type of values that carries tokens,
expressions and equations, so that other grammars can build on it.
-/

namespace SemanticGrammar

namespace EquationGrammar

/-- A way to carry tokens, expressions and equations in one type of
values. -/
structure Carrier (V : Type) where
  ofToken : String → V
  ofExpression : Expression RelativeIdentifier → V
  ofEquation : Equation RelativeIdentifier → V
  token? : V → Option String
  expression? : V → Option (Expression RelativeIdentifier)
  equation? : V → Option (Equation RelativeIdentifier)

/-! ## Symbols -/

def variableCategory : Symbol :=
  ⟨1⟩

def featureCategory : Symbol :=
  ⟨2⟩

def valueCategory : Symbol :=
  ⟨3⟩

def expressionSymbol : Symbol :=
  ⟨4⟩

/-- The nonterminal of equations in which `OR` builds a given connective. -/
def equationSymbol : Connective → Symbol
  | .disjunction => ⟨5⟩
  | .conjunction => ⟨6⟩

def upTerminal : Symbol :=
  ⟨7⟩

def downTerminal : Symbol :=
  ⟨8⟩

def openTerminal : Symbol :=
  ⟨9⟩

def closeTerminal : Symbol :=
  ⟨10⟩

def notTerminal : Symbol :=
  ⟨11⟩

def andTerminal : Symbol :=
  ⟨12⟩

def orTerminal : Symbol :=
  ⟨13⟩

def assignTerminal : Symbol :=
  ⟨14⟩

def inTerminal : Symbol :=
  ⟨15⟩

def equalTerminal : Symbol :=
  ⟨16⟩

def containTerminal : Symbol :=
  ⟨17⟩

/-! ## Rules -/

variable {V : Type}

/-- A rule whose constructor reports no fault. -/
def rule (constituents : List Symbol) (build : List V → Option V) : Rule V :=
  ⟨constituents, fun values => .ok (build values)⟩

def expressionRules (carrier : Carrier V) : List (Rule V) :=
  [rule [upTerminal] fun _ => carrier.ofExpression (.identifier .up),
    rule [downTerminal] fun _ => carrier.ofExpression (.identifier .down),
    rule [variableCategory] fun
      | [name] =>
          (carrier.token? name).map fun name =>
            carrier.ofExpression (.identifier (.named name))
      | _ => none,
    rule [valueCategory] fun
      | [quoted] =>
          (carrier.token? quoted).map fun quoted =>
            carrier.ofExpression (.value (Lexicon.valueText quoted))
      | _ => none,
    rule [openTerminal, expressionSymbol, featureCategory, closeTerminal] fun
      | [_, target, feature, _] => do
          let target ← carrier.expression? target
          let feature ← carrier.token? feature
          return carrier.ofExpression (.application target feature)
      | _ => none]

/-- A rule that joins two equations by a terminal. -/
def compoundRule (carrier : Carrier V) (equation terminal : Symbol)
    (connective : Connective) : Rule V :=
  rule [equation, terminal, equation] fun
    | [left, _, right] => do
        let left ← carrier.equation? left
        let right ← carrier.equation? right
        return carrier.ofEquation (.compound connective left right)
    | _ => none

/-- A rule that joins two expressions by a terminal. -/
def relationRule (carrier : Carrier V) (terminal : Symbol)
    (build : Expression RelativeIdentifier → Expression RelativeIdentifier →
      Equation RelativeIdentifier) : Rule V :=
  rule [expressionSymbol, terminal, expressionSymbol] fun
    | [left, _, right] => do
        let left ← carrier.expression? left
        let right ← carrier.expression? right
        return carrier.ofEquation (build left right)
    | _ => none

/-- The rules of equations in which `OR` builds a given connective. -/
def equationRules (carrier : Carrier V) (orBuilds : Connective) :
    List (Rule V) :=
  let equation := equationSymbol orBuilds
  [rule [notTerminal, equation] fun
      | [_, negated] =>
          (carrier.equation? negated).map fun negated =>
            carrier.ofEquation negated.negate
      | _ => none,
    compoundRule carrier equation andTerminal .conjunction,
    compoundRule carrier equation orTerminal orBuilds,
    relationRule carrier assignTerminal fun left right =>
      .defining (.assignment left right),
    relationRule carrier inTerminal fun element container =>
      .defining (.containment element container),
    relationRule carrier equalTerminal fun left right =>
      .constraint ⟨true, .equality left right⟩,
    relationRule carrier containTerminal fun element container =>
      .constraint ⟨true, .containment element container⟩,
    rule [expressionSymbol] fun
      | [expression] =>
          (carrier.expression? expression).map fun expression =>
            carrier.ofEquation (.constraint ⟨true, .existence expression⟩)
      | _ => none,
    rule [openTerminal, equation, closeTerminal] fun
      | [_, equation, _] => (carrier.equation? equation).map carrier.ofEquation
      | _ => none]

/-! ## The registry -/

/-- The declarations of the equation grammar.  Other grammars may be declared
after them. -/
def registry (carrier : Carrier V) : Registry V where
  ofToken := carrier.ofToken
  declarations := #[
    .empty,
    .category "Variable" fun token => .ok (Lexicon.isVariable token),
    .category "Feature" fun token => .ok (Lexicon.isFeature token),
    .category "Value" fun token => .ok (Lexicon.isValue token),
    .nonterminal "Expression" [] (.ok (expressionRules carrier)),
    .nonterminal "Equation" [] (.ok (equationRules carrier .disjunction)),
    .nonterminal "Equation[or=conjunction]" []
      (.ok (equationRules carrier .conjunction)),
    .terminal "^", .terminal "!", .terminal "(", .terminal ")",
    .terminal "NOT", .terminal "AND", .terminal "OR", .terminal "=",
    .terminal "IN", .terminal "=c", .terminal "INc"]
  emptyIsFirst := Declaration.emptyIsFirst_of_later _ (by simp)

/-- The workspace of the equation grammar after the closures of its nonterminals
were asked for.  Nothing asks for them when the grammar is declared.  That they
are known shows only in the order in which later closures list their symbols,
and parses do not depend on that order. -/
def workspace (carrier : Carrier V) : Workspace V :=
  [equationSymbol .disjunction, equationSymbol .conjunction,
    expressionSymbol].foldl
    (fun workspace root => (workspace.closure root).2)
    (Workspace.ofRegistry (registry carrier))

/-! ## Reading equations -/

/-- A value of the equation grammar on its own. -/
inductive Value where
  | token (content : String)
  | expression (content : Expression RelativeIdentifier)
  | equation (content : Equation RelativeIdentifier)
  deriving DecidableEq, Repr

def Value.carrier : Carrier Value where
  ofToken := token
  ofExpression := expression
  ofEquation := equation
  token? := fun
    | token content => some content
    | _ => none
  expression? := fun
    | expression content => some content
    | _ => none
  equation? := fun
    | equation content => some content
    | _ => none

/-- The parsable for equations in which `OR` builds a given connective. -/
def parsable (orBuilds : Connective) (maxTrees : Option Int) :
    Except Fault (Parsable Value) :=
  ((workspace Value.carrier).parsable (equationSymbol orBuilds)
    { maxTrees := maxTrees }).1

end EquationGrammar

end SemanticGrammar
