import SemanticGrammar.Proofs.Equation.Parses

/-!
# Every spelling is enumerated

The enumeration of trees leaves out those in which a symbol recurs over the
same tokens along a path.  In the tree of a phrase this never happens: what
stands within an expression or within a phrase reads fewer tokens, and the
expression of a phrase that only mentions it has another symbol.  So the trees
that are enumerated for some tokens are those of all phrases that spell them.
-/

namespace SemanticGrammar

namespace Tree

theorem width_le_of_mem_subtrees {subtree tree : Tree}
    (within : subtree ∈ tree.subtrees) : subtree.width ≤ tree.width := by
  rw [← length_leaves, ← length_leaves]
  exact (leaves_sublist_of_mem_subtrees within).length_le

/-- A node repeats nothing if its children repeat nothing, and each of them is
a leaf or reads fewer tokens. -/
theorem unrepeated_node_of_narrower {head : Symbol} {children : List Tree}
    (unrepeated : ∀ child ∈ children, child.Unrepeated Prod.mk)
    (narrower : ∀ child ∈ children, (∃ category token,
      child = leaf category token) ∨ child.width < totalWidth children) :
    (node head children).Unrepeated Prod.mk := by
  refine unrepeated_node.mpr ⟨fun inner innerChildren within same => ?_,
    unrepeated⟩
  obtain ⟨child, member, deeper⟩ := mem_subtreesOfAll.mp within
  have sameWidth : totalWidth innerChildren = totalWidth children :=
    (Prod.mk.inj same).2
  rcases narrower child member with ⟨category, token, rfl⟩ | fewer
  · simp [subtrees] at deeper
  · have inside := width_le_of_mem_subtrees deeper
    rw [width_node] at inside
    omega

end Tree

namespace EquationGrammar

/-! ## Trees of expressions and of phrases -/

theorem unrepeated_expressionTree (expression : Expression RelativeIdentifier) :
    (expressionTree expression).Unrepeated Prod.mk := by
  induction expression with
  | identifier id =>
      apply Tree.unrepeated_node_of_narrower <;> simp [Tree.unrepeated_leaf]
  | value text =>
      apply Tree.unrepeated_node_of_narrower <;> simp [Tree.unrepeated_leaf]
  | application target feature ih =>
      apply Tree.unrepeated_node_of_narrower
      · simp [Tree.unrepeated_leaf, ih]
      · simp
        omega

theorem head_of_mem_subtrees_expressionTree {head : Symbol}
    {children : List Tree} {expression : Expression RelativeIdentifier}
    (within : .node head children ∈ (expressionTree expression).subtrees) :
    head = expressionSymbol := by
  induction expression with
  | identifier id =>
      obtain ⟨same, -⟩ : head = expressionSymbol ∧ _ := by
        simpa [expressionTree, Tree.subtrees, Tree.subtreesOfAll] using within
      exact same
  | value text =>
      obtain ⟨same, -⟩ : head = expressionSymbol ∧ _ := by
        simpa [expressionTree, Tree.subtrees, Tree.subtreesOfAll] using within
      exact same
  | application target feature ih =>
      obtain ⟨same, -⟩ | deeper : (head = expressionSymbol ∧ _) ∨
          .node head children ∈ (expressionTree target).subtrees := by
        simpa [expressionTree, Tree.subtrees, Tree.subtreesOfAll] using within
      · exact same
      · exact ih deeper

variable {orBuilds : Connective}

theorem expressionSymbol_ne_equationSymbol :
    expressionSymbol ≠ equationSymbol orBuilds := by
  cases orBuilds <;> decide

theorem unrepeated_tree (phrase : Phrase) :
    (phrase.tree orBuilds).Unrepeated Prod.mk := by
  induction phrase with
  | negated inner ih =>
      apply Tree.unrepeated_node_of_narrower <;>
        simp [Tree.unrepeated_leaf, ih]
  | joined connective left right leftIH rightIH =>
      apply Tree.unrepeated_node_of_narrower
      · simp [Tree.unrepeated_leaf, leftIH, rightIH]
      · simp
        omega
  | related relation left right =>
      apply Tree.unrepeated_node_of_narrower
      · simp [Tree.unrepeated_leaf, unrepeated_expressionTree]
      · simp
        omega
  | mentioned expression =>
      refine Tree.unrepeated_node.mpr
        ⟨fun inner innerChildren within same => ?_,
          by simp [unrepeated_expressionTree]⟩
      -- The expression reads all tokens of the phrase.
      rw [Tree.subtreesOfAll, Tree.subtreesOfAll, List.append_nil] at within
      have isExpression := head_of_mem_subtrees_expressionTree within
      have isEquation : inner = equationSymbol orBuilds :=
        (Prod.mk.inj same).1
      exact expressionSymbol_ne_equationSymbol
        (isExpression.symm.trans isEquation)
  | bracketed inner ih =>
      apply Tree.unrepeated_node_of_narrower
      · simp [Tree.unrepeated_leaf, ih]
      · simp
        omega

/-! ## The enumeration -/

/-- The trees that are enumerated for some tokens are those of the phrases that
spell them. -/
theorem mem_allTrees_iff {tokens : List String} {tree : Tree} :
    tree ∈ (grammar orBuilds).allTrees tokens ↔
      ∃ phrase : Phrase, phrase.Spells tokens ∧
        phrase.tree orBuilds = tree := by
  constructor
  · exact exists_spells_of_mem_allTrees orBuilds
  · rintro ⟨phrase, spells, rfl⟩
    exact Grammar.mem_allTrees.mpr ⟨equationSymbol orBuilds,
      List.mem_singleton_self _, derives_tree spells.lexical,
      (unrepeated_tree phrase).avoids (by simp) (by simp),
      (tokens_tree phrase).trans spells.tokens_eq⟩

end EquationGrammar

end SemanticGrammar
