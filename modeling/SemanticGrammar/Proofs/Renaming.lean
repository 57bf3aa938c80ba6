import Mathlib.Logic.Function.Basic
import SemanticGrammar.Proofs.ChartParser

/-!
# Renamed grammars

A grammar that differs from another only in the names of its symbols has the
same parses up to these names, and it lists them in the same order.  A search
looks at symbols only to compare them and to find out what they match.  So it
is enough that different symbols have different new names and that a symbol
matches the same under its new name.
-/

namespace SemanticGrammar

/-! ## Renaming -/

def Production.rename (change : Symbol → Symbol) (production : Production) :
    Production :=
  ⟨change production.head, production.constituents.map change⟩

def Cell.rename (change : Symbol → Symbol) (cell : Cell) : Cell :=
  ⟨change cell.symbol, cell.first, cell.last⟩

theorem Cell.rename_injective {change : Symbol → Symbol}
    (injective : Function.Injective change) :
    Function.Injective (Cell.rename change) := by
  rintro ⟨symbol, first, last⟩ ⟨symbol', first', last'⟩ same
  simp only [rename, Cell.mk.injEq] at same
  obtain ⟨sameSymbol, rfl, rfl⟩ := same
  rw [injective sameSymbol]

namespace Tree

mutual

/-- A tree with other names for its symbols. -/
def rename (change : Symbol → Symbol) : Tree → Tree
  | leaf category token => leaf (change category) token
  | node head children => node (change head) (renameAll change children)
  | empty => empty

def renameAll (change : Symbol → Symbol) : List Tree → List Tree
  | [] => []
  | tree :: trees => tree.rename change :: renameAll change trees

end

variable (change : Symbol → Symbol)

theorem renameAll_eq_map (trees : List Tree) :
    renameAll change trees = trees.map (rename change) := by
  induction trees with
  | nil => rfl
  | cons tree trees ih => rw [renameAll, ih, List.map_cons]

@[simp]
theorem rename_leaf (category : Symbol) (token : String) :
    (leaf category token).rename change = leaf (change category) token := by
  rw [rename]

@[simp]
theorem rename_node (head : Symbol) (children : List Tree) :
    (node head children).rename change =
      node (change head) (children.map (rename change)) := by
  rw [rename, renameAll_eq_map]

@[simp]
theorem rename_empty : empty.rename change = empty := by
  rw [rename]

theorem rename_involutive {change : Symbol → Symbol}
    (involutive : Function.Involutive change) :
    Function.Involutive (rename change) := by
  intro tree
  induction tree with
  | leaf category token => simp [involutive category]
  | empty => simp
  | node head children ih =>
      have twice : children.map (rename change ∘ rename change) =
          children.map id :=
        List.map_congr_left ih
      rw [rename_node, rename_node, involutive head, List.map_map, twice,
        List.map_id]

end Tree

namespace Grammar

/-- Whether a grammar is another one with other names for its symbols. -/
structure RenamedBy (grammar renamed : Grammar) (change : Symbol → Symbol) :
    Prop where
  injective : Function.Injective change
  role_eq : ∀ symbol, renamed.role (change symbol) = grammar.role symbol
  productions_eq :
    renamed.productions = grammar.productions.map (Production.rename change)
  startSymbols_eq : renamed.startSymbols = grammar.startSymbols.map change

theorem leavesOver_rename (change : Symbol → Symbol) (tokens : List String)
    (category : Symbol) (member : String → Except Fault Bool)
    (first last : Nat) :
    leavesOver tokens (change category) member first last =
      (leavesOver tokens category member first last).map
        (Tree.rename change) := by
  unfold leavesOver
  split
  · rfl
  · split <;> simp

namespace RenamedBy

variable {grammar renamed : Grammar} {change : Symbol → Symbol}
  (same : grammar.RenamedBy renamed change)

include same

theorem alternatives_eq (head : Symbol) :
    renamed.alternatives (change head) =
      (grammar.alternatives head).map (List.map change) := by
  have headed : ((fun production : Production =>
      decide (production.head = change head)) ∘ Production.rename change) =
        fun production => decide (production.head = head) := by
    funext production
    simp [Production.rename, same.injective.eq_iff]
  rw [alternatives, alternatives, same.productions_eq, List.filter_map, headed,
    List.map_map, List.map_map]
  rfl

/-- The trees of a symbol under its new name are its trees, renamed.  The
induction is that of the enumeration. -/
theorem treesOver_eq (tokens : List String) (active : List Cell)
    (symbol : Symbol) (first last : Nat) :
    renamed.treesOver tokens (active.map (Cell.rename change))
        (change symbol) first last =
      (grammar.treesOver tokens active symbol first last).map
        (Tree.rename change) := by
  apply treesOver.induct grammar
    (fun active symbol first last =>
      renamed.treesOver tokens (active.map (Cell.rename change))
          (change symbol) first last =
        (grammar.treesOver tokens active symbol first last).map
          (Tree.rename change))
    (fun active symbols first last =>
      renamed.childrenOver tokens (active.map (Cell.rename change))
          (symbols.map change) first last =
        (grammar.childrenOver tokens active symbols first last).map
          (List.map (Tree.rename change)))
  case case1 =>
      intro active symbol first last member lexical
      rw [treesOver_of_lexical _ _ _ _ _ lexical,
        treesOver_of_lexical _ _ _ _ _ ((same.role_eq symbol).trans lexical),
        leavesOver_rename]
  case case2 =>
      intro active symbol last empty
      rw [treesOver_of_empty _ _ _ _ _ empty,
        treesOver_of_empty _ _ _ _ _ ((same.role_eq symbol).trans empty)]
      simp
  case case3 =>
      intro active symbol first last empty differ
      rw [treesOver_of_empty _ _ _ _ _ empty,
        treesOver_of_empty _ _ _ _ _ ((same.role_eq symbol).trans empty)]
      simp [differ]
  case case4 =>
      intro active symbol first last nonterminal inProgress
      have inProgress' : ⟨change symbol, first, last⟩ ∈
          active.map (Cell.rename change) :=
        List.mem_map_of_mem inProgress
      rw [treesOver_of_nonterminal _ _ _ _ _ nonterminal, if_pos inProgress,
        treesOver_of_nonterminal _ _ _ _ _
          ((same.role_eq symbol).trans nonterminal), if_pos inProgress',
        List.map_nil]
  case case5 =>
      intro active symbol first last nonterminal idle ih
      have idle' : ⟨change symbol, first, last⟩ ∉
          active.map (Cell.rename change) := fun inProgress =>
        idle ((List.mem_map_of_injective
          (Cell.rename_injective same.injective)).mp inProgress)
      rw [treesOver_of_nonterminal _ _ _ _ _ nonterminal, if_neg idle,
        treesOver_of_nonterminal _ _ _ _ _
          ((same.role_eq symbol).trans nonterminal), if_neg idle',
        same.alternatives_eq, List.flatMap_map, List.map_flatMap]
      apply List.flatMap_congr
      intro alternative declared
      -- The cell that is expanded now is renamed along with the others.
      have children := ih ⟨alternative, declared⟩
      rw [List.map_cons, Cell.rename] at children
      rw [children, List.map_map, List.map_map]
      apply List.map_congr_left
      intro trees _
      simp
  case case6 =>
      intro active last
      simp [childrenOver_nil]
  case case7 =>
      intro active first last differ
      simp [childrenOver_nil, differ]
  case case8 =>
      intro active first last symbol rest ihTails ihHeads
      rw [List.map_cons, childrenOver_cons, childrenOver_cons, List.map_flatMap]
      apply List.flatMap_congr
      intro split inside
      rw [ihHeads ⟨split, inside⟩, ihTails ⟨split, inside⟩, List.flatMap_map,
        List.map_flatMap]
      apply List.flatMap_congr
      intro tree _
      rw [List.map_map, List.map_map]
      apply List.map_congr_left
      intro trees _
      rfl

theorem allTrees_eq (tokens : List String) :
    renamed.allTrees tokens =
      (grammar.allTrees tokens).map (Tree.rename change) := by
  rw [allTrees, allTrees, same.startSymbols_eq, List.flatMap_map,
    List.map_flatMap]
  apply List.flatMap_congr
  intro start _
  exact same.treesOver_eq tokens [] start 0 tokens.length

end RenamedBy

end Grammar

/-- Chart parsers of a grammar and of a renamed one list the same trees, but for
the names. -/
theorem Chart.parser_eq_map_rename {grammar renamed : Grammar}
    {change : Symbol → Symbol} (same : grammar.RenamedBy renamed change)
    (decides : grammar.TestsNeverFail) (decides' : renamed.TestsNeverFail)
    (maxTrees : Option Int) (tokens : List String) :
    Chart.parser renamed maxTrees tokens =
      (Chart.parser grammar maxTrees tokens).map
        (List.map (Tree.rename change)) := by
  rw [parser_eq_ok decides, parser_eq_ok decides', same.allTrees_eq,
    ← List.map_take]
  rfl

end SemanticGrammar
