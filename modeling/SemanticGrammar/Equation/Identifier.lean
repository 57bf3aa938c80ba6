import SemanticGrammar.FirstOccurrence

/-!
# Identifiers of feature structures

A relative identifier is written in a rule or a lexical entry: `^` is the
feature structure of the mother node, `!` the node's own, and a name is a
local reference.  Grounding binds it to an absolute identifier, which is an
address or a global name.  The two kinds are types of their own, so that a
grounded equation cannot be grounded again.
-/

namespace SemanticGrammar

class IdentifierText (ID : Type) where
  /-- The text of an identifier. -/
  text : ID → String

/-- An identifier relative to a node of a tree. -/
inductive RelativeIdentifier where
  /-- The feature structure of the mother node. -/
  | up
  /-- The node's own feature structure. -/
  | down
  /-- A local reference. -/
  | named (name : String)
  deriving DecidableEq, Repr

/-- An identifier that does not depend on a node. -/
inductive AbsoluteIdentifier where
  /-- The address of a feature structure. -/
  | address (label : String)
  /-- A global name. -/
  | named (name : String)
  deriving DecidableEq, Repr

inductive Identifier where
  | relative (identifier : RelativeIdentifier)
  | absolute (identifier : AbsoluteIdentifier)
  deriving DecidableEq, Repr

def RelativeIdentifier.text : RelativeIdentifier → String
  | up => "^"
  | down => "!"
  | named name => name

def AbsoluteIdentifier.text : AbsoluteIdentifier → String
  | address label => "#" ++ label
  | named name => name

def Identifier.text : Identifier → String
  | relative identifier => identifier.text
  | absolute identifier => identifier.text

instance : IdentifierText RelativeIdentifier :=
  ⟨RelativeIdentifier.text⟩

instance : IdentifierText AbsoluteIdentifier :=
  ⟨AbsoluteIdentifier.text⟩

instance : IdentifierText Identifier :=
  ⟨Identifier.text⟩

/-- Bind a relative identifier, given what the mother node and the node
itself stand for.  Names are kept. -/
def RelativeIdentifier.ground (mother own : AbsoluteIdentifier) :
    RelativeIdentifier → AbsoluteIdentifier
  | up => mother
  | down => own
  | named name => .named name

/-- Append to a list of identifiers those whose text is new. -/
def unionIdentifiers {ID : Type} [IdentifierText ID]
    (known more : List ID) : List ID :=
  unionBy IdentifierText.text known more

end SemanticGrammar
