import SemanticGrammar.Proofs.DerivedGrammar
import SemanticGrammar.Proofs.Equation.Identifiers
import SemanticGrammar.Proofs.Equation.OrReadings
import SemanticGrammar.Proofs.SymbolTrees

/-!
# The identifiers in the tree of an equation

Whatever tree has a value as an equation is the tree of a phrase, and the value
is the equation that the phrase stands for.  The leaves of the tree that are
labelled `^`, `!` or as variables are the occurrences of identifiers in the
expressions of the phrase.  Negation and brackets keep the expressions in
place, and so does `OR`, whatever it builds, so the texts of the identifiers
are the tokens of these leaves without repetitions.
-/

namespace SemanticGrammar

/-! ## Trees of a derived grammar -/

/-- A derived grammar admits the trees of its symbols, since the constituents
of its productions are symbols of the grammar, too. -/
theorem Derivation.admits_of_isTreeOf {V : Type} {derivation : Derivation V}
    {productions : List Production}
    (derives : derivation.productions = .ok productions)
    (exact : derivation.registry.IsClosure derivation.root derivation.closure)
    {symbol : Symbol} {tree : Tree} (isSymbol : symbol ∈ derivation.symbols)
    (isTree : derivation.registry.IsTreeOf symbol tree) :
    (derivation.grammarOf productions).Admits tree := by
  induction tree generalizing symbol with
  | leaf category token =>
      refine ⟨by simp [Tree.subtrees], fun category' token' within => ?_⟩
      exact isTree.leaves category' token' within
  | empty => exact absurd (Tree.mem_subtrees_self _) isTree.nonempty
  | node head children ih =>
      obtain rfl : head = symbol := isTree.tag_eq
      have declared := isTree.nodes head children (Tree.mem_subtrees_self _)
      obtain ⟨nonterminal, -, -⟩ := Registry.exists_isRuleOf_iff.mpr declared
      obtain ⟨own, derivesOwn, follows⟩ := declared
      obtain ⟨-, rfl⟩ := Registry.productions_eq_ok_iff.mp derivesOwn
      obtain ⟨shape, isShape, same⟩ := List.mem_map.mp follows
      obtain rfl := (Production.mk.inj same).2
      have isMember : ⟨head, children.map Tree.tag⟩ ∈ productions :=
        (mem_productions_iff derives).mpr ⟨isSymbol, isShape⟩
      rw [Grammar.admits_node]
      refine ⟨⟨nonterminal, isMember⟩, fun child isChild => ?_⟩
      exact ih child isChild
        (constituents_subset_symbols derives exact isMember
          (List.mem_map_of_mem isChild))
        (isTree.of_child isChild)

namespace EquationGrammar

/-! ## Trees with a value -/

/-- A tree with a value as an equation is the tree of a phrase, and the value
is the equation of the phrase. -/
theorem exists_phrase_of_read {orBuilds : Connective} {tree : Tree}
    {value : Value}
    (reads : reader.read (equationSymbol orBuilds) tree = .ok (some value)) :
    ∃ phrase : Phrase, phrase.tree orBuilds = tree ∧
      phrase.value orBuilds = value := by
  have isTree := Reader.isTreeOf_of_read reads
  have admitted := Derivation.admits_of_isTreeOf
    (productions_derivation orBuilds) (isClosure_constituentSymbols orBuilds)
    List.mem_cons_self isTree
  have derived := admitted.derives (emptyIsUnique_grammar orBuilds)
  rw [isTree.tag_eq] at derived
  obtain ⟨phrase, lexical, rfl⟩ := exists_phrase_of_derives derived
  have readsPhrase : reader.Reads (phrase.tree orBuilds)
      (phrase.value orBuilds) := reads_tree lexical
  rw [Reader.Reads, tag_tree, reads] at readsPhrase
  exact ⟨phrase, rfl, (Option.some.inj (Except.ok.inj readsPhrase)).symm⟩

/-! ## Leaves of identifiers -/

/-- What a leaf is labelled with that stands for an identifier. -/
def identifierCategories : List Symbol :=
  [upTerminal, downTerminal, variableCategory]

/-- The tokens of a tree that stand for identifiers, from left to right. -/
def identifierTokens (tree : Tree) : List String :=
  (tree.leaves.filter fun leaf => leaf.1 ∈ identifierCategories).map Prod.snd

theorem identifierTokens_leaf_of_not_mem {category : Symbol}
    (other : category ∉ identifierCategories) (token : String) :
    identifierTokens (.leaf category token) = [] := by
  simp [identifierTokens, other]

@[simp]
theorem identifierTokens_node (head : Symbol) (children : List Tree) :
    identifierTokens (.node head children) =
      children.flatMap identifierTokens := by
  simp only [identifierTokens, Tree.leaves_node, List.filter_flatMap,
    List.map_flatMap]
  rfl

theorem identifierTokens_expressionTree
    (expression : Expression RelativeIdentifier) :
    identifierTokens (expressionTree expression) =
      expression.identifiers.map RelativeIdentifier.text := by
  induction expression with
  | identifier id => cases id <;> rfl
  | application target feature ih =>
      have openLeaf := identifierTokens_leaf_of_not_mem
        (by decide : openTerminal ∉ identifierCategories) "("
      have featureLeaf := identifierTokens_leaf_of_not_mem
        (by decide : featureCategory ∉ identifierCategories) feature
      have closeLeaf := identifierTokens_leaf_of_not_mem
        (by decide : closeTerminal ∉ identifierCategories) ")"
      simp [expressionTree, Expression.identifiers, openLeaf, featureLeaf,
        closeLeaf, ih]
  | value text => rfl

theorem identifierTokens_tree (orBuilds : Connective) (phrase : Phrase) :
    identifierTokens (phrase.tree orBuilds) =
      (phrase.expressions.flatMap Expression.identifiers).map
        RelativeIdentifier.text := by
  induction phrase with
  | negated inner ih =>
      have keyword := identifierTokens_leaf_of_not_mem
        (by decide : notTerminal ∉ identifierCategories) "NOT"
      simp [Phrase.tree, Phrase.expressions, keyword, ih]
  | joined connective left right leftIH rightIH =>
      have keyword := identifierTokens_leaf_of_not_mem
        (by cases connective <;> decide :
          connectiveTerminal connective ∉ identifierCategories)
        connective.word
      simp [Phrase.tree, Phrase.expressions, keyword, leftIH, rightIH]
  | related relation left right =>
      have keyword := identifierTokens_leaf_of_not_mem
        (by cases relation <;> decide :
          relation.terminal ∉ identifierCategories) relation.word
      simp [Phrase.tree, Phrase.expressions, keyword,
        identifierTokens_expressionTree]
  | mentioned expression =>
      simp [Phrase.tree, Phrase.expressions, identifierTokens_expressionTree]
  | bracketed inner ih =>
      have openLeaf := identifierTokens_leaf_of_not_mem
        (by decide : openTerminal ∉ identifierCategories) "("
      have closeLeaf := identifierTokens_leaf_of_not_mem
        (by decide : closeTerminal ∉ identifierCategories) ")"
      simp [Phrase.tree, Phrase.expressions, openLeaf, closeLeaf, ih]

/-- Whatever tree has a value as an equation, the value is an equation whose
identifiers are written as the tokens of the tree that stand for identifiers,
from left to right and without repetitions. -/
theorem identifiers_of_read {orBuilds : Connective} {tree : Tree}
    {value : Value}
    (reads : reader.read (equationSymbol orBuilds) tree = .ok (some value)) :
    ∃ equation, value = .equation equation ∧
      equation.identifiers.map IdentifierText.text =
        newMembersBy id (identifierTokens tree) := by
  obtain ⟨phrase, rfl, rfl⟩ := exists_phrase_of_read reads
  refine ⟨phrase.equation orBuilds, rfl, ?_⟩
  rw [Equation.identifiers_eq, map_firstOccurrencesBy,
    Equation.occurrences_eq_flatMap, expressions_equation,
    identifierTokens_tree, ← firstOccurrencesBy_eq_newMembersBy]
  rfl

/-- A phrase with one word as a feature and then as a variable. -/
def exclusion : Phrase :=
  .negated (.bracketed (.joined .disjunction
    (.related .membership (.application (.identifier (.named "%x")) "ADJ")
      (.identifier .up))
    (.joined .conjunction
      (.related .equality (.identifier .up) (.value "sg"))
      (.mentioned (.identifier (.named "ADJ"))))))

/-- The feature is passed over, and so is the second `^`. -/
theorem identifiers_of_read_exclusion :
    ∃ equation,
      reader.read (equationSymbol .conjunction)
          (exclusion.tree .conjunction) = .ok (some (.equation equation)) ∧
        equation.identifiers.map IdentifierText.text = ["%x", "^", "ADJ"] := by
  have reads : reader.read (equationSymbol .conjunction)
      (exclusion.tree .conjunction) =
        .ok (some (exclusion.value .conjunction)) := by
    decide +kernel
  obtain ⟨equation, same, texts⟩ := identifiers_of_read reads
  rw [same] at reads
  exact ⟨equation, reads, texts.trans (by decide)⟩

end EquationGrammar

end SemanticGrammar
