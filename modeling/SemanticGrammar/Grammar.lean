import SemanticGrammar.Fault
import SemanticGrammar.FirstOccurrence
import SemanticGrammar.Tree

/-!
# Grammars as parsing engines see them

A grammar is closed: it says what each symbol can match and lists the
productions and the start symbols, and nothing else is needed to parse.
-/

namespace SemanticGrammar

/-- What a symbol can match. -/
inductive Role where
  /-- What its productions make of other symbols. -/
  | nonterminal
  /-- Each single token that passes a membership test. -/
  | lexical (member : String → Except Fault Bool)
  /-- No token at all. -/
  | empty

/-- Whether the membership tests of lexical categories stop with allowed faults
only. -/
def TestsFailOnly (role : Symbol → Role) (allowed : Fault → Prop) : Prop :=
  ∀ symbol member, role symbol = .lexical member →
    ∀ token, FailsOnly allowed (member token)

structure Grammar where
  role : Symbol → Role
  productions : List Production
  lexicalCategories : List Symbol
  startSymbols : List Symbol

namespace Grammar

/-- The heads of a grammar, in order of first occurrence. -/
def heads (grammar : Grammar) : List Symbol :=
  firstOccurrences (grammar.productions.map Production.head)

/-- The constituent sequences declared for a head, in order. -/
def alternatives (grammar : Grammar) (head : Symbol) : List (List Symbol) :=
  (grammar.productions.filter (·.head = head)).map Production.constituents

end Grammar

/-- A parser lists the trees of a token list. -/
abbrev Parser := List String → Except Fault (List Tree)

end SemanticGrammar
