import SemanticGrammar.Registry.Basic

/-!
# Requests to a registry

Symbols are declared one after another.  Each request for a symbol is answered
with a handle, except that a malformed literal is refused.  The rules of a
nonterminal are given when they are first needed; they intern the literals that
they mention and are not answered with a symbol.

What a symbol was declared as, its rules left out, is its signature.
-/

namespace SemanticGrammar

inductive Request (V : Type) where
  /-- The lexical category of a literal. -/
  | terminal (literal : String)
  /-- A new lexical category with a membership test. -/
  | category (name : String) (member : String → Except Fault Bool)
  /-- A new nonterminal with further tokens of its own. -/
  | nonterminal (name : String) (tokens : List String)
  /-- The rules of a nonterminal. -/
  | rules (head : Symbol) (drafts : List (RuleDraft V))

/-- A declaration of a nonterminal before its rules are given, and any other
declaration as it is. -/
def Declaration.withoutRules {V : Type} (declaration : Declaration V) :
    Declaration V :=
  declaration.withRules (.ok [])

/-- The declaration of the symbol that a request asks for. -/
def Request.declaration? {V : Type} : Request V → Option (Declaration V)
  | .terminal literal => some (.terminal literal)
  | .category name member => some (.category name member)
  | .nonterminal name tokens => some (.nonterminal name tokens (.ok []))
  | .rules _ _ => none

namespace Registry

variable {V : Type}

/-- What a symbol was declared as. -/
def signature? (registry : Registry V) (symbol : Symbol) :
    Option (Declaration V) :=
  (registry.declaration? symbol).map Declaration.withoutRules

/-- The answer to a request, with the symbol if one is asked for, and the
registry after it. -/
def serve (registry : Registry V) :
    Request V → Except ConfigurationError (Option Symbol) × Registry V
  | .terminal literal =>
      match registry.terminal literal with
      | .error cause => (.error cause, registry)
      | .ok (symbol, registry) => (.ok (some symbol), registry)
  | .category name member =>
      let (symbol, registry) := registry.category name member
      (.ok (some symbol), registry)
  | .nonterminal name tokens =>
      let (symbol, registry) := registry.nonterminal name tokens
      (.ok (some symbol), registry)
  | .rules head drafts => (.ok none, registry.define head drafts)

/-- The answers to several requests, one after another, and the registry after
the last one. -/
def serveAll (registry : Registry V) :
    List (Request V) →
      List (Except ConfigurationError (Option Symbol)) × Registry V
  | [] => ([], registry)
  | request :: requests =>
      let (answer, registry) := registry.serve request
      let (answers, registry) := registry.serveAll requests
      (answer :: answers, registry)

end Registry

end SemanticGrammar
