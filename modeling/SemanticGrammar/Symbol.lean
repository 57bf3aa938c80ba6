/-!
# Symbols and productions

A symbol is a handle: two declarations are two symbols, even under one name.
What a handle stands for is said by the registry that issued it.  Handle zero
is the empty symbol of every registry.

A production is a head with its constituents, and its key is a text that
determines it.
-/

namespace SemanticGrammar

/-- The handle of a declared symbol. -/
structure Symbol where
  id : Nat
  deriving DecidableEq, Repr

/-- The symbol that matches nothing. -/
def Symbol.empty : Symbol :=
  ⟨0⟩

/-- A head and the sequence of constituents that it can be made of. -/
structure Production where
  head : Symbol
  constituents : List Symbol
  deriving DecidableEq, Repr

namespace Production

/-- The key of a production under a labelling of its symbols. -/
def keyWith (label : Symbol → String) (production : Production) : String :=
  label production.head ++ ":" ++
    ",".intercalate (production.constituents.map label)

/-- The key of a production: its handles in decimal digits. -/
def key (production : Production) : String :=
  production.keyWith fun symbol => symbol.id.repr

end Production

end SemanticGrammar
