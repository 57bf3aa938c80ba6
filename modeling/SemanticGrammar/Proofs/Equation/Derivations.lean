import SemanticGrammar.Proofs.DerivationTree
import SemanticGrammar.Proofs.Equation.Phrase

/-!
# Derivations of equations

The derivations of the equation grammar are the trees of the phrases, and the
tokens that such a tree reads are the tokens of its phrase.
-/

namespace SemanticGrammar

namespace EquationGrammar

/-! ## The grammar -/

/-- The symbols that the rules of equations reach, in order of discovery. -/
def constituentSymbols : List Symbol :=
  [notTerminal, andTerminal, orTerminal, expressionSymbol, assignTerminal,
    inTerminal, equalTerminal, containTerminal, openTerminal, closeTerminal,
    upTerminal, downTerminal, variableCategory, valueCategory, featureCategory]

/-- What is derived from the symbol of equations in which `OR` builds a given
connective. -/
def derivation (orBuilds : Connective) : Derivation Value where
  registry := registry Value.carrier
  root := equationSymbol orBuilds
  closure := constituentSymbols

def expressionAlternatives : List (List Symbol) :=
  [[upTerminal], [downTerminal], [variableCategory], [valueCategory],
    [openTerminal, expressionSymbol, featureCategory, closeTerminal]]

def equationAlternatives (equation : Symbol) : List (List Symbol) :=
  [[notTerminal, equation],
    [equation, connectiveTerminal .conjunction, equation],
    [equation, connectiveTerminal .disjunction, equation],
    [expressionSymbol, Relation.assignment.terminal, expressionSymbol],
    [expressionSymbol, Relation.membership.terminal, expressionSymbol],
    [expressionSymbol, Relation.equality.terminal, expressionSymbol],
    [expressionSymbol, Relation.containment.terminal, expressionSymbol],
    [expressionSymbol],
    [openTerminal, equation, closeTerminal]]

def productions (orBuilds : Connective) : List Production :=
  let equation := equationSymbol orBuilds
  (equationAlternatives equation).map (Production.mk equation) ++
    expressionAlternatives.map (Production.mk expressionSymbol)

theorem productions_derivation (orBuilds : Connective) :
    (derivation orBuilds).productions = .ok (productions orBuilds) := by
  cases orBuilds <;> decide +kernel

def grammar (orBuilds : Connective) : Grammar :=
  (derivation orBuilds).grammarOf (productions orBuilds)

section Alternatives

variable (orBuilds : Connective)

theorem alternatives_expressionSymbol :
    (grammar orBuilds).alternatives expressionSymbol =
      expressionAlternatives := by
  cases orBuilds <;> decide

theorem alternatives_equationSymbol :
    (grammar orBuilds).alternatives (equationSymbol orBuilds) =
      equationAlternatives (equationSymbol orBuilds) := by
  cases orBuilds <;> decide

theorem nodup_productions : (grammar orBuilds).productions.Nodup := by
  cases orBuilds <;> decide

theorem role_expressionSymbol :
    (grammar orBuilds).role expressionSymbol = .nonterminal :=
  rfl

theorem role_equationSymbol :
    (grammar orBuilds).role (equationSymbol orBuilds) = .nonterminal := by
  cases orBuilds <;> rfl

end Alternatives

/-! ## Leaves -/

section Leaves

variable {orBuilds : Connective} {tree : Tree}

theorem derives_category_iff {category : Symbol} (accepts : String → Bool)
    (role : (grammar orBuilds).role category =
      .lexical fun token => .ok (accepts token)) :
    (grammar orBuilds).Derives category tree ↔
      ∃ token, accepts token = true ∧ .leaf category token = tree := by
  simp [Grammar.Derives.iff_of_lexical role, @eq_comm _ tree]

theorem derives_terminal_iff {terminal : Symbol} {literal : String}
    (role : (grammar orBuilds).role terminal =
      .lexical fun token => .ok (token == literal)) :
    (grammar orBuilds).Derives terminal tree ↔ tree = .leaf terminal literal := by
  simp [Grammar.Derives.iff_of_lexical role]

theorem derives_upTerminal_iff :
    (grammar orBuilds).Derives upTerminal tree ↔
      tree = .leaf upTerminal "^" :=
  derives_terminal_iff rfl

theorem derives_downTerminal_iff :
    (grammar orBuilds).Derives downTerminal tree ↔
      tree = .leaf downTerminal "!" :=
  derives_terminal_iff rfl

theorem derives_openTerminal_iff :
    (grammar orBuilds).Derives openTerminal tree ↔
      tree = .leaf openTerminal "(" :=
  derives_terminal_iff rfl

theorem derives_closeTerminal_iff :
    (grammar orBuilds).Derives closeTerminal tree ↔
      tree = .leaf closeTerminal ")" :=
  derives_terminal_iff rfl

theorem derives_notTerminal_iff :
    (grammar orBuilds).Derives notTerminal tree ↔
      tree = .leaf notTerminal "NOT" :=
  derives_terminal_iff rfl

theorem derives_connectiveTerminal_iff {connective : Connective} :
    (grammar orBuilds).Derives (connectiveTerminal connective) tree ↔
      tree = .leaf (connectiveTerminal connective) connective.word := by
  cases connective <;> exact derives_terminal_iff rfl

theorem derives_relationTerminal_iff {relation : Relation} :
    (grammar orBuilds).Derives relation.terminal tree ↔
      tree = .leaf relation.terminal relation.word := by
  cases relation <;> exact derives_terminal_iff rfl

theorem derives_variableCategory_iff :
    (grammar orBuilds).Derives variableCategory tree ↔
      ∃ name, Lexicon.isVariable name = true ∧
        .leaf variableCategory name = tree :=
  derives_category_iff _ rfl

theorem derives_featureCategory_iff :
    (grammar orBuilds).Derives featureCategory tree ↔
      ∃ feature, Lexicon.isFeature feature = true ∧
        .leaf featureCategory feature = tree :=
  derives_category_iff _ rfl

theorem derives_valueCategory_iff :
    (grammar orBuilds).Derives valueCategory tree ↔
      ∃ text, (Expression.value text).Lexical ∧
        .leaf valueCategory (Expression.quoted text) = tree := by
  rw [derives_category_iff Lexicon.isValue rfl]
  constructor
  · rintro ⟨token, isValue, rfl⟩
    refine ⟨Lexicon.valueText token, ?_⟩
    rw [Expression.Lexical, Expression.quoted_valueText isValue]
    exact ⟨isValue, rfl⟩
  · rintro ⟨text, lexical, rfl⟩
    exact ⟨_, lexical, rfl⟩

end Leaves

/-! ## Expressions -/

section Expressions

variable {orBuilds : Connective}

/-- The derivations of an expression, by the rule at the root. -/
theorem derives_expressionSymbol_iff {tree : Tree} :
    (grammar orBuilds).Derives expressionSymbol tree ↔
      tree = expressionTree (.identifier .up) ∨
      tree = expressionTree (.identifier .down) ∨
      (∃ name, Lexicon.isVariable name = true ∧
        tree = expressionTree (.identifier (.named name))) ∨
      (∃ text, (Expression.value text).Lexical ∧
        tree = expressionTree (.value text)) ∨
      ∃ target, (grammar orBuilds).Derives expressionSymbol target ∧
        ∃ feature, Lexicon.isFeature feature = true ∧
          tree = .node expressionSymbol
            [.leaf openTerminal "(", target, .leaf featureCategory feature,
              .leaf closeTerminal ")"] := by
  rw [Grammar.Derives.iff_of_nonterminal (role_expressionSymbol _),
    alternatives_expressionSymbol]
  simp only [expressionAlternatives, List.mem_cons, List.not_mem_nil, or_false,
    exists_eq_or_imp, exists_eq_left, Grammar.Derives.exists_children_cons,
    Grammar.Derives.exists_children_nil, derives_upTerminal_iff,
    derives_downTerminal_iff, derives_variableCategory_iff,
    derives_valueCategory_iff, derives_featureCategory_iff,
    derives_openTerminal_iff, derives_closeTerminal_iff,
    exists_exists_and_eq_and]
  rfl

theorem derives_expressionTree {expression : Expression RelativeIdentifier}
    (lexical : expression.Lexical) :
    (grammar orBuilds).Derives expressionSymbol (expressionTree expression) := by
  rw [derives_expressionSymbol_iff]
  induction expression with
  | identifier id =>
      cases id with
      | up => exact Or.inl rfl
      | down => exact Or.inr (Or.inl rfl)
      | named name => exact Or.inr (Or.inr (Or.inl ⟨name, lexical, rfl⟩))
  | value text => exact Or.inr (Or.inr (Or.inr (Or.inl ⟨text, lexical, rfl⟩)))
  | application target feature ih =>
      obtain ⟨targetLexical, featureLexical⟩ := lexical
      refine Or.inr (Or.inr (Or.inr (Or.inr ?_)))
      exact ⟨expressionTree target,
        derives_expressionSymbol_iff.mpr (ih targetLexical), feature,
        featureLexical, rfl⟩

theorem exists_expression_of_derives {tree : Tree}
    (derived : (grammar orBuilds).Derives expressionSymbol tree) :
    ∃ expression : Expression RelativeIdentifier,
      expression.Lexical ∧ tree = expressionTree expression := by
  induction tree with
  | leaf category token =>
      rcases derives_expressionSymbol_iff.mp derived with same | same |
        ⟨_, _, same⟩ | ⟨_, _, same⟩ | ⟨_, _, _, _, same⟩ <;> cases same
  | empty =>
      rcases derives_expressionSymbol_iff.mp derived with same | same |
        ⟨_, _, same⟩ | ⟨_, _, same⟩ | ⟨_, _, _, _, same⟩ <;> cases same
  | node head children ih =>
      rcases derives_expressionSymbol_iff.mp derived with same | same |
        ⟨name, lexical, same⟩ | ⟨text, lexical, same⟩ |
        ⟨target, targetDerived, feature, lexical, same⟩
      · exact ⟨.identifier .up, trivial, same⟩
      · exact ⟨.identifier .down, trivial, same⟩
      · exact ⟨.identifier (.named name), lexical, same⟩
      · exact ⟨.value text, lexical, same⟩
      · cases same
        obtain ⟨expression, targetLexical, rfl⟩ :=
          ih target (by simp) targetDerived
        exact ⟨.application expression feature, ⟨targetLexical, lexical⟩, rfl⟩

theorem tokens_expressionTree (expression : Expression RelativeIdentifier) :
    (expressionTree expression).tokens = expression.tokens := by
  induction expression with
  | identifier id => rfl
  | value text => rfl
  | application target feature ih =>
      simp [expressionTree, Expression.tokens, ih]

end Expressions

/-! ## Equations -/

section Equations

variable {orBuilds : Connective}

theorem derives_equationSymbol_iff {tree : Tree} :
    (grammar orBuilds).Derives (equationSymbol orBuilds) tree ↔
      (∃ inner, (grammar orBuilds).Derives (equationSymbol orBuilds) inner ∧
        tree = .node (equationSymbol orBuilds)
          [.leaf notTerminal "NOT", inner]) ∨
      (∃ connective : Connective, ∃ left,
        (grammar orBuilds).Derives (equationSymbol orBuilds) left ∧ ∃ right,
          (grammar orBuilds).Derives (equationSymbol orBuilds) right ∧
            tree = .node (equationSymbol orBuilds)
              [left, .leaf (connectiveTerminal connective) connective.word,
                right]) ∨
      (∃ relation : Relation, ∃ left,
        (grammar orBuilds).Derives expressionSymbol left ∧ ∃ right,
          (grammar orBuilds).Derives expressionSymbol right ∧
            tree = .node (equationSymbol orBuilds)
              [left, .leaf relation.terminal relation.word, right]) ∨
      (∃ expression, (grammar orBuilds).Derives expressionSymbol expression ∧
        tree = .node (equationSymbol orBuilds) [expression]) ∨
      ∃ inner, (grammar orBuilds).Derives (equationSymbol orBuilds) inner ∧
        tree = .node (equationSymbol orBuilds)
          [.leaf openTerminal "(", inner, .leaf closeTerminal ")"] := by
  rw [Grammar.Derives.iff_of_nonterminal (role_equationSymbol _),
    alternatives_equationSymbol]
  simp only [equationAlternatives, List.mem_cons, List.not_mem_nil, or_false,
    exists_eq_or_imp, exists_eq_left, Grammar.Derives.exists_children_cons,
    Grammar.Derives.exists_children_nil, derives_notTerminal_iff,
    derives_openTerminal_iff, derives_closeTerminal_iff,
    derives_connectiveTerminal_iff, derives_relationTerminal_iff,
    exists_connective_iff, Relation.exists_iff, or_assoc]

theorem derives_tree {phrase : Phrase} (lexical : phrase.Lexical) :
    (grammar orBuilds).Derives (equationSymbol orBuilds)
      (phrase.tree orBuilds) := by
  rw [derives_equationSymbol_iff]
  induction phrase with
  | negated inner ih =>
      exact Or.inl ⟨_, derives_equationSymbol_iff.mpr (ih lexical), rfl⟩
  | joined connective left right leftIH rightIH =>
      rw [Phrase.lexical_joined] at lexical
      exact Or.inr (Or.inl ⟨connective,
        _, derives_equationSymbol_iff.mpr (leftIH lexical.1),
        _, derives_equationSymbol_iff.mpr (rightIH lexical.2), rfl⟩)
  | related relation left right =>
      rw [Phrase.lexical_related] at lexical
      exact Or.inr (Or.inr (Or.inl ⟨relation,
        _, derives_expressionTree lexical.1,
        _, derives_expressionTree lexical.2, rfl⟩))
  | mentioned expression =>
      rw [Phrase.lexical_mentioned] at lexical
      exact Or.inr (Or.inr (Or.inr (Or.inl
        ⟨_, derives_expressionTree lexical, rfl⟩)))
  | bracketed inner ih =>
      exact Or.inr (Or.inr (Or.inr (Or.inr
        ⟨_, derives_equationSymbol_iff.mpr (ih lexical), rfl⟩)))

/-- A derivation of an equation is the tree of a phrase that can be
written. -/
theorem exists_phrase_of_derives {tree : Tree}
    (derived :
      (grammar orBuilds).Derives (equationSymbol orBuilds) tree) :
    ∃ phrase : Phrase, phrase.Lexical ∧ tree = phrase.tree orBuilds := by
  induction tree with
  | leaf category token =>
      rcases derives_equationSymbol_iff.mp derived with ⟨_, _, same⟩ |
        ⟨_, _, _, _, _, same⟩ | ⟨_, _, _, _, _, same⟩ | ⟨_, _, same⟩ |
        ⟨_, _, same⟩ <;> cases same
  | empty =>
      rcases derives_equationSymbol_iff.mp derived with ⟨_, _, same⟩ |
        ⟨_, _, _, _, _, same⟩ | ⟨_, _, _, _, _, same⟩ | ⟨_, _, same⟩ |
        ⟨_, _, same⟩ <;> cases same
  | node head children ih =>
      rcases derives_equationSymbol_iff.mp derived with
        ⟨inner, innerDerived, same⟩ |
        ⟨connective, left, leftDerived, right, rightDerived, same⟩ |
        ⟨relation, left, leftDerived, right, rightDerived, same⟩ |
        ⟨expression, expressionDerived, same⟩ | ⟨inner, innerDerived, same⟩ <;>
        cases same
      · obtain ⟨phrase, lexical, rfl⟩ := ih inner (by simp) innerDerived
        exact ⟨.negated phrase, lexical, rfl⟩
      · obtain ⟨phrase, lexical, rfl⟩ := ih left (by simp) leftDerived
        obtain ⟨phrase', lexical', rfl⟩ := ih right (by simp) rightDerived
        exact ⟨.joined connective phrase phrase',
          Phrase.lexical_joined.mpr ⟨lexical, lexical'⟩, rfl⟩
      · obtain ⟨expression, lexical, rfl⟩ :=
          exists_expression_of_derives leftDerived
        obtain ⟨expression', lexical', rfl⟩ :=
          exists_expression_of_derives rightDerived
        exact ⟨.related relation expression expression',
          Phrase.lexical_related.mpr ⟨lexical, lexical'⟩, rfl⟩
      · obtain ⟨expression, lexical, rfl⟩ :=
          exists_expression_of_derives expressionDerived
        exact ⟨.mentioned expression, Phrase.lexical_mentioned.mpr lexical, rfl⟩
      · obtain ⟨phrase, lexical, rfl⟩ := ih inner (by simp) innerDerived
        exact ⟨.bracketed phrase, lexical, rfl⟩

theorem tokens_tree (phrase : Phrase) :
    (phrase.tree orBuilds).tokens = phrase.tokens := by
  induction phrase with
  | negated inner ih => simp [Phrase.tree, Phrase.tokens, ih]
  | joined connective left right leftIH rightIH =>
      simp [Phrase.tree, Phrase.tokens, leftIH, rightIH]
  | related relation left right =>
      simp [Phrase.tree, Phrase.tokens, tokens_expressionTree]
  | mentioned expression =>
      simp [Phrase.tree, Phrase.tokens, tokens_expressionTree]
  | bracketed inner ih => simp [Phrase.tree, Phrase.tokens, ih]

end Equations

end EquationGrammar

end SemanticGrammar
