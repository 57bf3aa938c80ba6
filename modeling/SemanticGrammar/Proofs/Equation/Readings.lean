import SemanticGrammar.Proofs.Equation.Derivations
import SemanticGrammar.Proofs.NodeReading

/-!
# Reading equations off their trees

The tree of an expression is read as the expression, and the tree of a phrase
as the equation that the phrase stands for.
-/

namespace SemanticGrammar

namespace EquationGrammar

def reader : Reader Value :=
  (registry Value.carrier).reader

/-! ## Leaves -/

theorem reads_upTerminal : reader.Reads (.leaf upTerminal "^") (.token "^") :=
  rfl

theorem reads_downTerminal :
    reader.Reads (.leaf downTerminal "!") (.token "!") :=
  rfl

theorem reads_openTerminal : reader.Reads (.leaf openTerminal "(") (.token "(") :=
  rfl

theorem reads_closeTerminal :
    reader.Reads (.leaf closeTerminal ")") (.token ")") :=
  rfl

theorem reads_notTerminal :
    reader.Reads (.leaf notTerminal "NOT") (.token "NOT") :=
  rfl

theorem reads_connectiveTerminal (connective : Connective) :
    reader.Reads (.leaf (connectiveTerminal connective) connective.word)
      (.token connective.word) := by
  cases connective <;> rfl

theorem reads_relationTerminal (relation : Relation) :
    reader.Reads (.leaf relation.terminal relation.word)
      (.token relation.word) := by
  cases relation <;> rfl

theorem reads_variableCategory {name : String}
    (isVariable : Lexicon.isVariable name = true) :
    reader.Reads (.leaf variableCategory name) (.token name) :=
  Reader.reads_leaf rfl (congrArg Except.ok isVariable)

theorem reads_featureCategory {feature : String}
    (isFeature : Lexicon.isFeature feature = true) :
    reader.Reads (.leaf featureCategory feature) (.token feature) :=
  Reader.reads_leaf rfl (congrArg Except.ok isFeature)

theorem reads_valueCategory {token : String}
    (isValue : Lexicon.isValue token = true) :
    reader.Reads (.leaf valueCategory token) (.token token) :=
  Reader.reads_leaf rfl (congrArg Except.ok isValue)

/-! ## Expressions -/

section Expressions

variable {expression : Expression RelativeIdentifier}

@[simp]
theorem tag_expressionTree (expression : Expression RelativeIdentifier) :
    (expressionTree expression).tag = expressionSymbol := by
  cases expression <;> rfl

theorem rules_expressionSymbol :
    reader.registry.rules expressionSymbol =
      .ok (expressionRules Value.carrier) :=
  rfl

theorem nodup_expressionKeys :
    ((expressionRules Value.carrier).map fun rule =>
      (Registry.derive expressionSymbol rule).key).Nodup := by
  decide +kernel

theorem reads_expressionNode (index : Nat) {rule : Rule Value}
    (declared : (expressionRules Value.carrier)[index]? = some rule)
    {children : List Tree} (tags : children.map Tree.tag = rule.constituents)
    {values : List Value} (reads : List.Forall₂ reader.Reads children values)
    {value : Value} (built : rule.build values = .ok (some value)) :
    reader.Reads (.node expressionSymbol children) value :=
  Reader.reads_node rfl rules_expressionSymbol nodup_expressionKeys
    (List.mem_of_getElem? declared) tags reads built

theorem reads_expressionTree (lexical : expression.Lexical) :
    reader.Reads (expressionTree expression) (.expression expression) := by
  induction expression with
  | identifier id =>
      cases id with
      | up =>
          exact reads_expressionNode 0 rfl rfl
            (.cons reads_upTerminal .nil) rfl
      | down =>
          exact reads_expressionNode 1 rfl rfl
            (.cons reads_downTerminal .nil) rfl
      | named name =>
          exact reads_expressionNode 2 rfl rfl
            (.cons (reads_variableCategory lexical) .nil) rfl
  | value text =>
      refine reads_expressionNode 3 rfl rfl
        (.cons (reads_valueCategory lexical) .nil) ?_
      exact congrArg
        (fun text => Except.ok (some (Value.expression (.value text))))
        (Expression.valueText_quoted text)
  | application target feature ih =>
      refine reads_expressionNode 4 rfl ?_
        (.cons reads_openTerminal (.cons (ih lexical.1)
          (.cons (reads_featureCategory lexical.2)
            (.cons reads_closeTerminal .nil)))) rfl
      rw [List.map_cons, List.map_cons, tag_expressionTree]
      rfl

end Expressions

/-! ## Equations -/

section Equations

variable (orBuilds : Connective)

@[simp]
theorem tag_tree (phrase : Phrase) :
    (phrase.tree orBuilds).tag = equationSymbol orBuilds := by
  cases phrase <;> rfl

theorem role_reader :
    reader.registry.role (equationSymbol orBuilds) = .nonterminal := by
  cases orBuilds <;> rfl

theorem rules_equationSymbol :
    reader.registry.rules (equationSymbol orBuilds) =
      .ok (equationRules Value.carrier orBuilds) := by
  cases orBuilds <;> rfl

theorem nodup_equationKeys :
    ((equationRules Value.carrier orBuilds).map fun rule =>
      (Registry.derive (equationSymbol orBuilds) rule).key).Nodup := by
  cases orBuilds <;> decide +kernel

variable {orBuilds}

theorem reads_equationNode (index : Nat) {rule : Rule Value}
    (declared : (equationRules Value.carrier orBuilds)[index]? = some rule)
    {children : List Tree} (tags : children.map Tree.tag = rule.constituents)
    {values : List Value} (reads : List.Forall₂ reader.Reads children values)
    {value : Value} (built : rule.build values = .ok (some value)) :
    reader.Reads (.node (equationSymbol orBuilds) children) value :=
  Reader.reads_node (role_reader orBuilds)
    (rules_equationSymbol orBuilds) (nodup_equationKeys orBuilds)
    (List.mem_of_getElem? declared) tags reads built

/-- The tree of a phrase is read as the equation that the phrase stands
for. -/
theorem reads_tree {phrase : Phrase} (lexical : phrase.Lexical) :
    reader.Reads (phrase.tree orBuilds)
      (.equation (phrase.equation orBuilds)) := by
  induction phrase with
  | negated inner ih =>
      refine reads_equationNode 0 rfl ?_
        (.cons reads_notTerminal (.cons (ih lexical) .nil)) rfl
      simp [rule]
  | joined connective left right leftIH rightIH =>
      obtain ⟨leftLexical, rightLexical⟩ := Phrase.lexical_joined.mp lexical
      have reads : List.Forall₂ reader.Reads _ _ :=
        .cons (leftIH leftLexical)
          (.cons (reads_connectiveTerminal connective)
            (.cons (rightIH rightLexical) .nil))
      cases connective with
      | conjunction =>
          refine reads_equationNode 1 rfl ?_ reads rfl
          simp [compoundRule, rule, connectiveTerminal]
      | disjunction =>
          refine reads_equationNode 2 rfl ?_ reads rfl
          simp [compoundRule, rule, connectiveTerminal]
  | related relation left right =>
      obtain ⟨leftLexical, rightLexical⟩ := Phrase.lexical_related.mp lexical
      have reads : List.Forall₂ reader.Reads _ _ :=
        .cons (reads_expressionTree leftLexical)
          (.cons (reads_relationTerminal relation)
            (.cons (reads_expressionTree rightLexical) .nil))
      have tags : [expressionTree left, .leaf relation.terminal relation.word,
          expressionTree right].map Tree.tag =
            [expressionSymbol, relation.terminal, expressionSymbol] := by
        simp
      cases relation with
      | assignment => exact reads_equationNode 3 rfl tags reads rfl
      | membership => exact reads_equationNode 4 rfl tags reads rfl
      | equality => exact reads_equationNode 5 rfl tags reads rfl
      | containment => exact reads_equationNode 6 rfl tags reads rfl
  | mentioned expression =>
      refine reads_equationNode 7 rfl ?_
        (.cons (reads_expressionTree (Phrase.lexical_mentioned.mp lexical))
          .nil) rfl
      simp [rule]
  | bracketed inner ih =>
      refine reads_equationNode 8 rfl ?_
        (.cons reads_openTerminal (.cons (ih lexical)
          (.cons reads_closeTerminal .nil))) rfl
      simp [rule]

end Equations

end EquationGrammar

end SemanticGrammar
