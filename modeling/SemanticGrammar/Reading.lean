import SemanticGrammar.Registry.Productions

/-!
# The value of a tree

A symbol reads a tree when the tree is one of its own: a lexical category
reads its leaf whose token is a member, and a nonterminal reads a node that
uses exactly one of its productions, whose children are all read by their own
tags and whose constructor does not decline.  Nothing reads the empty tree.
A tree that is not read has no value; that is no error.
-/

namespace SemanticGrammar

/-- A registry with the table of its derived rules. -/
structure Reader (V : Type) where
  registry : Registry V
  table : RuleTable V := registry.ruleTable
  table_eq : table = registry.ruleTable := by rfl

def Registry.reader {V : Type} (registry : Registry V) : Reader V where
  registry := registry

namespace Reader

variable {V : Type}

mutual

def read (reader : Reader V) (symbol : Symbol) :
    Tree → Except Fault (Option V)
  | .leaf category token =>
      match reader.registry.role symbol with
      | .lexical member =>
          if category = symbol then
            (member token).map fun accepted =>
              if accepted then some (reader.registry.ofToken token) else none
          else
            .ok none
      | _ => .ok none
  | .node head children =>
      match reader.registry.role symbol with
      | .nonterminal => do
          let key := Production.key ⟨head, children.map Tree.tag⟩
          match ← reader.table.rule? symbol key with
          | none => return none
          | some rule =>
              match ← reader.readAll children with
              | none => return none
              | some values => rule.construct values
      | _ => .ok none
  | .empty => .ok none

/-- The values of a list of trees, each read by its own tag from left to
right, up to the first tree without a value. -/
def readAll (reader : Reader V) : List Tree → Except Fault (Option (List V))
  | [] => .ok (some [])
  | tree :: trees => do
      match ← reader.read tree.tag tree with
      | none => return none
      | some value => return (← reader.readAll trees).map (value :: ·)

end

/-- The values that a symbol reads from a list of trees, in tree order. -/
def readings (reader : Reader V) (symbol : Symbol) :
    List Tree → Except Fault (List V)
  | [] => .ok []
  | tree :: trees => do
      let value ← reader.read symbol tree
      return value.toList ++ (← reader.readings symbol trees)

end Reader

end SemanticGrammar
