import Mathlib.Logic.Equiv.Basic
import SemanticGrammar.Proofs.Equation.Parses
import SemanticGrammar.Proofs.Renaming

/-!
# The two readings of OR

The symbols of equations differ in what `OR` builds and in nothing else.  Their
grammars are one grammar but for the name of this symbol, so the parses of a
text are trees of the same phrases in the same order, and each of them has a
value.  The values differ at most where a phrase is joined by `OR`.
-/

namespace SemanticGrammar

/-- How a parse went. -/
inductive Outcome.Status where
  | ok
  | noParse
  | noInterpretation
  deriving DecidableEq

def Outcome.status {V : Type} : Outcome V → Status
  | ok _ _ _ => .ok
  | noParse _ => .noParse
  | noInterpretation _ _ => .noInterpretation

theorem Outcome.status_ofParse {V : Type} {tokens : List String}
    {trees : List Tree} {values : List V}
    (each : values.length = trees.length) :
    (ofParse tokens trees values).status =
      if trees = [] then .noParse else .ok := by
  cases trees with
  | nil => rfl
  | cons tree trees =>
      cases values with
      | nil => cases each
      | cons first others => rfl

namespace EquationGrammar

/-! ## Exchanged symbols -/

/-- The symbols with the two of equations exchanged. -/
def exchange : Symbol → Symbol :=
  Equiv.swap (equationSymbol .disjunction) (equationSymbol .conjunction)

theorem exchange_involutive : Function.Involutive exchange :=
  Equiv.swap_apply_self _ _

theorem renamedBy_exchange :
    (grammar .disjunction).RenamedBy (grammar .conjunction) exchange where
  injective := exchange_involutive.injective
  role_eq := by
    intro symbol
    rw [exchange, Equiv.swap_apply_def]
    split
    · rename_i same
      rw [same]
      rfl
    · split
      · rename_i same
        rw [same]
        rfl
      · rfl
  productions_eq := by decide
  startSymbols_eq := by decide

theorem rename_expressionTree (expression : Expression RelativeIdentifier) :
    (expressionTree expression).rename exchange =
      expressionTree expression := by
  induction expression with
  | identifier id => cases id <;> rfl
  | application target feature ih =>
      simp only [expressionTree, Tree.rename_node, List.map_cons, ih,
        Tree.rename_leaf, List.map_nil]
      rfl
  | value text => rfl

/-- The tree of a phrase for one reading is that for the other one with the
symbols exchanged. -/
theorem rename_tree (phrase : Phrase) :
    (phrase.tree .disjunction).rename exchange = phrase.tree .conjunction := by
  induction phrase with
  | negated inner ih =>
      simp only [Phrase.tree, Tree.rename_node, List.map_cons, ih,
        Tree.rename_leaf, List.map_nil]
      rfl
  | joined connective left right leftIH rightIH =>
      simp only [Phrase.tree, Tree.rename_node, List.map_cons, leftIH, rightIH,
        Tree.rename_leaf, List.map_nil]
      cases connective <;> rfl
  | related relation left right =>
      simp only [Phrase.tree, Tree.rename_node, List.map_cons,
        rename_expressionTree, Tree.rename_leaf, List.map_nil]
      cases relation <;> rfl
  | mentioned expression =>
      simp only [Phrase.tree, Tree.rename_node, List.map_cons,
        rename_expressionTree, List.map_nil]
      rfl
  | bracketed inner ih =>
      simp only [Phrase.tree, Tree.rename_node, List.map_cons, ih,
        Tree.rename_leaf, List.map_nil]
      rfl

theorem map_rename_trees (phrases : List Phrase) :
    (phrases.map (Phrase.tree .disjunction)).map (Tree.rename exchange) =
      phrases.map (Phrase.tree .conjunction) := by
  rw [List.map_map]
  exact List.map_congr_left fun phrase _ => rename_tree phrase

theorem equation_eq_of_not_mem {phrase : Phrase}
    (without : "OR" ∉ phrase.tokens) :
    phrase.equation .disjunction = phrase.equation .conjunction := by
  induction phrase with
  | negated inner ih =>
      rw [Phrase.tokens, List.mem_cons, not_or] at without
      rw [Phrase.equation, Phrase.equation, ih without.2]
  | joined connective left right leftIH rightIH =>
      rw [Phrase.tokens, List.mem_append, List.mem_cons, not_or, not_or]
        at without
      obtain ⟨inLeft, isWord, inRight⟩ := without
      rw [Phrase.equation, Phrase.equation, leftIH inLeft, rightIH inRight]
      cases connective with
      | conjunction => rfl
      | disjunction => exact (isWord rfl).elim
  | related relation left right => rfl
  | mentioned expression => rfl
  | bracketed inner ih =>
      rw [Phrase.tokens, List.mem_cons, List.mem_append, not_or, not_or]
        at without
      exact ih without.2.1

/-! ## Phrases for both readings -/

/-- The chart parsers for both readings list the trees of the same phrases. -/
theorem exists_phrases_listed (maxTrees : Option Int) (tokens : List String) :
    ∃ phrases : List Phrase, (∀ phrase ∈ phrases, phrase.Spells tokens) ∧
      ∀ orBuilds, Chart.parser (grammar orBuilds) maxTrees tokens =
        .ok (phrases.map (Phrase.tree orBuilds)) := by
  obtain ⟨phrases, found, listed⟩ :=
    exists_spellings_listed .disjunction maxTrees tokens
  refine ⟨phrases, found.spell, fun orBuilds => ?_⟩
  cases orBuilds with
  | disjunction => exact listed
  | conjunction =>
      rw [Chart.parser_eq_map_rename renamedBy_exchange
        (testsNeverFail_grammar _) (testsNeverFail_grammar _), listed,
        Except.map, map_rename_trees]

/-- Whether parsables for the two readings differ in a text only in what `OR`
builds: the trees of the second one are those of the first one with the symbols
exchanged. -/
structure DifferInOr (disjunctive conjunctive : Parsable Value) (text : String)
    (trees : List Tree) (values values' : List Value) : Prop where
  tokens_eq : disjunctive.tokenize text = conjunctive.tokenize text
  finds : Finds disjunctive text trees values
  finds' : Finds conjunctive text (trees.map (Tree.rename exchange)) values'
  status_eq :
    (Outcome.ofParse (disjunctive.tokenize text) trees values).status =
      (Outcome.ofParse (conjunctive.tokenize text)
        (trees.map (Tree.rename exchange)) values').status
  interpreted :
    (Outcome.ofParse (disjunctive.tokenize text) trees values).status ≠
      .noInterpretation
  length_eq : values.length = trees.length
  length_eq' : values'.length = trees.length
  values_eq : "OR" ∉ disjunctive.tokenize text → values = values'

theorem exists_differInOr {maxTrees : Option Int}
    {disjunctive conjunctive : Parsable Value}
    (alike : (freshParsable .disjunction maxTrees).ParsesAlike disjunctive)
    (alike' : (freshParsable .conjunction maxTrees).ParsesAlike conjunctive)
    (text : String) :
    ∃ trees values values',
      DifferInOr disjunctive conjunctive text trees values values' := by
  obtain ⟨phrases, spell, listed⟩ :=
    exists_phrases_listed maxTrees (tokenizer.tokenize text)
  have tokens : disjunctive.tokenize text = tokenizer.tokenize text :=
    (alike.tokenize_eq text).symm
  have tokens' : conjunctive.tokenize text = tokenizer.tokenize text :=
    (alike'.tokenize_eq text).symm
  refine ⟨phrases.map (Phrase.tree .disjunction),
    phrases.map (Phrase.value .disjunction),
    phrases.map (Phrase.value .conjunction), ?_⟩
  constructor
  case tokens_eq => exact tokens.trans tokens'.symm
  case finds => exact finds_of_parsesAlike alike spell (listed _)
  case finds' =>
    rw [map_rename_trees]
    exact finds_of_parsesAlike alike' spell (listed _)
  case status_eq =>
    rw [Outcome.status_ofParse (by simp), Outcome.status_ofParse (by simp)]
    simp
  case interpreted =>
    rw [Outcome.status_ofParse (by simp)]
    split <;> decide
  case length_eq => simp
  case length_eq' => simp
  case values_eq =>
    intro without
    apply List.map_congr_left
    intro phrase member
    rw [tokens, ← (spell phrase member).tokens_eq] at without
    exact congrArg Value.equation (equation_eq_of_not_mem without)

/-- Parsables for both readings can be made after any calls.  Whatever each of
them was used for before, they have the same tokens for a text, their parses go
the same way, and trees are never left without an interpretation.  Their trees
are the same in the same order but for the symbols of equations, which are
exchanged.  Each tree has one value, and the values are the same if no token is
`OR`. -/
theorem differInOr_afterCalls (calls calls' : List Call)
    (maxTrees : Option Int) :
    let attempt := fun calls orBuilds =>
      (((Session.ofRegistry (registry Value.carrier)).afterCalls
        calls).parsable (equationSymbol orBuilds)
          { maxTrees := maxTrees }).1
    Function.Involutive (Tree.rename exchange) ∧
      ∃ disjunctive conjunctive, attempt calls .disjunction = .ok disjunctive ∧
        attempt calls' .conjunction = .ok conjunctive ∧
          ∀ text, ∃ trees values values',
            DifferInOr disjunctive conjunctive text trees values values' := by
  intro attempt
  obtain ⟨disjunctive, made, alike⟩ :=
    exists_parsable_afterCalls .disjunction maxTrees calls
  obtain ⟨conjunctive, made', alike'⟩ :=
    exists_parsable_afterCalls .conjunction maxTrees calls'
  exact ⟨Tree.rename_involutive exchange_involutive, disjunctive, conjunctive,
    made, made', exists_differInOr alike alike'⟩

/-- What is joined by `AND` has the same values for both readings, and what is
joined by `OR` has not. -/
example :
    let values := fun orBuilds input =>
      ((parsable orBuilds none).bind fun made =>
        (made.parseValues input).result).toOption
    values .disjunction "X AND Y AND Z" = values .conjunction "X AND Y AND Z" ∧
      values .disjunction "X AND Y OR Z" ≠
        values .conjunction "X AND Y OR Z" := by
  decide +kernel

end EquationGrammar

end SemanticGrammar
