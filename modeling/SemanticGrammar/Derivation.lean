import SemanticGrammar.Registry.Closure
import SemanticGrammar.Registry.Productions
import SemanticGrammar.Tokenizer.Basic

/-!
# What is derived from a root symbol

A root and its closure are the symbols of a grammar.  Its productions are
those of all its nonterminals, its lexical categories are the lexical ones
among its symbols, and its tokens are the tokens that its symbols own.
-/

namespace SemanticGrammar

/-- A root symbol with its closure. -/
structure Derivation (V : Type) where
  registry : Registry V
  root : Symbol
  closure : List Symbol

namespace Derivation

variable {V : Type}

/-- The symbols of the grammar, the root first. -/
def symbols (derivation : Derivation V) : List Symbol :=
  derivation.root :: derivation.closure

/-- The productions of several symbols, symbol by symbol. -/
def productionsOf (registry : Registry V) :
    List Symbol → Except Fault (List Production)
  | [] => .ok []
  | symbol :: rest => do
      let own ← registry.productions symbol
      return own ++ (← productionsOf registry rest)

def productions (derivation : Derivation V) :
    Except Fault (List Production) :=
  productionsOf derivation.registry derivation.symbols

def lexicalCategories (derivation : Derivation V) : List Symbol :=
  derivation.symbols.filter derivation.registry.isLexical

/-- The tokens of the grammar, in order of discovery. -/
def tokens (derivation : Derivation V) : List String :=
  firstOccurrences (derivation.symbols.flatMap derivation.registry.tokens)

def tokenizer (derivation : Derivation V) : Except Fault Tokenizer :=
  (Tokenizer.ofLiterals? derivation.tokens).mapError Fault.configuration

def grammarOf (derivation : Derivation V) (productions : List Production) :
    Grammar where
  role := derivation.registry.role
  productions := productions
  lexicalCategories := derivation.lexicalCategories
  startSymbols := [derivation.root]

/-- The grammar with the root as its only start symbol. -/
def grammar (derivation : Derivation V) : Except Fault Grammar :=
  derivation.productions.map derivation.grammarOf

end Derivation

end SemanticGrammar
