import SemanticGrammar.Equation.Identifier

/-!
# Designators of feature structures

An expression designates a feature structure: `^` by an identifier, `(^ SUBJ)`
by the feature of another one, `'dog'` as an atomic value.  Feature
applications nest.
-/

namespace SemanticGrammar

/-- A designator over identifiers of a type. -/
inductive Expression (ID : Type) where
  | identifier (id : ID)
  | application (target : Expression ID) (feature : String)
  | value (text : String)
  deriving DecidableEq, Repr

namespace Expression

variable {ID ID' : Type}

def map (replace : ID → ID') : Expression ID → Expression ID'
  | identifier id => identifier (replace id)
  | application target feature => application (target.map replace) feature
  | value text => value text

def ground (expression : Expression RelativeIdentifier)
    (mother own : AbsoluteIdentifier) : Expression AbsoluteIdentifier :=
  expression.map (RelativeIdentifier.ground mother own)

def identifiers : Expression ID → List ID
  | identifier id => [id]
  | application target _ => target.identifiers
  | value _ => []

def render [IdentifierText ID] : Expression ID → String
  | identifier id => IdentifierText.text id
  | application target feature => "(" ++ target.render ++ " " ++ feature ++ ")"
  | value text => "'" ++ text ++ "'"

/-- The identifiers of several expressions, by text and in order of first
occurrence. -/
def identifiersOf [IdentifierText ID] (expressions : List (Expression ID)) :
    List ID :=
  expressions.foldl
    (fun known expression => unionIdentifiers known expression.identifiers) []

end Expression

end SemanticGrammar
