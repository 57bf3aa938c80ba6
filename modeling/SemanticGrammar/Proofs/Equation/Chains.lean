import SemanticGrammar.Proofs.Equation.Bracketings
import SemanticGrammar.Proofs.Equation.OrReadings
import SemanticGrammar.Proofs.Equation.Spellings
import SemanticGrammar.Proofs.Equation.Unambiguity
import SemanticGrammar.Proofs.Equation.Writing
import SemanticGrammar.Proofs.TreeLimit

/-!
# Chains without brackets

The tokens of a chain of names are its names and the words between them.  No
phrase but a bracketing of the chain spells them: negations, brackets, relations
and applications need other tokens, and a joined phrase splits the chain at one
of its connectives.  Every bracketing is enumerated, and none of them twice, so
a parse finds as many as there are shapes, up to the limit of the parsable.
-/

namespace SemanticGrammar

namespace EquationGrammar

/-! ## The words of a chain -/

theorem isVariable_word (connective : Connective) :
    Lexicon.isVariable connective.word = false := by
  cases connective <;> decide

namespace Chain

/-- Whether the names of a chain are local names. -/
def Lexical (chain : Chain) : Prop :=
  ∀ name ∈ chain.names, Lexicon.isVariable name = true

instance : DecidablePred Lexical := fun chain =>
  inferInstanceAs (Decidable (∀ name ∈ chain.names, _))

variable {chain left right : Chain} {connective : Connective}

theorem lexical_join :
    (join connective left right).Lexical ↔ left.Lexical ∧ right.Lexical := by
  simp [Lexical, or_imp, forall_and]

theorem lexical_cons {first : String} {link : Connective × String}
    {rest : List (Connective × String)} :
    (Chain.mk first (link :: rest)).Lexical ↔
      Lexicon.isVariable first = true ∧ (Chain.mk link.2 rest).Lexical := by
  simp [Lexical, names]

theorem isVariable_of_words_eq (lexical : chain.Lexical) {token : String}
    {others : List String} (same : token :: others = chain.words) :
    Lexicon.isVariable token = true := by
  rw [(List.cons.inj same).1]
  exact lexical chain.first List.mem_cons_self

theorem words_ne_word_cons (lexical : chain.Lexical) {back : List String} :
    chain.words ≠ connective.word :: back := by
  intro same
  have isName := isVariable_of_words_eq lexical same.symm
  rw [isVariable_word] at isName
  cases isName

theorem isVariable_or_eq_word (lexical : chain.Lexical) {token : String}
    (member : token ∈ chain.words) :
    Lexicon.isVariable token = true ∨
      ∃ connective : Connective, token = connective.word := by
  simp only [words, List.mem_cons, List.mem_flatMap, List.not_mem_nil,
    or_false] at member
  rcases member with isFirst | ⟨link, isLink, isWord | isName⟩
  · exact Or.inl (lexical token (by simp [names, isFirst]))
  · exact Or.inr ⟨link.1, isWord⟩
  · refine Or.inl (lexical token ?_)
    rw [isName]
    exact List.mem_cons_of_mem _ (List.mem_map_of_mem isLink)

theorem tokenize_text (lexical : chain.Lexical) :
    tokenizer.tokenize chain.text = chain.words := by
  refine tokenize_intercalate fun word member => ?_
  rcases isVariable_or_eq_word lexical member with isName | ⟨connective, rfl⟩
  · exact isWord_of_isVariable isName
  · exact isWord_word connective

/-- A chain splits at each of its connectives. -/
theorem exists_join_of_words_eq (lexical : chain.Lexical)
    {front back : List String}
    (same : chain.words = front ++ connective.word :: back) :
    ∃ left right, join connective left right = chain ∧
      left.words = front ∧ right.words = back := by
  obtain ⟨first, rest⟩ := chain
  induction rest generalizing first front with
  | nil =>
      cases front with
      | nil => exact absurd same (words_ne_word_cons lexical)
      | cons token front => simp [words] at same
  | cons link rest ih =>
      obtain ⟨-, othersLexical⟩ := lexical_cons.mp lexical
      cases front with
      | nil => exact absurd same (words_ne_word_cons lexical)
      | cons token front =>
          obtain ⟨rfl, sameRest⟩ := List.cons.inj same
          cases front with
          | nil =>
              obtain ⟨sameWord, sameOthers⟩ := List.cons.inj sameRest
              obtain rfl := word_injective sameWord
              exact ⟨⟨first, []⟩, ⟨link.2, rest⟩, rfl, rfl, sameOthers⟩
          | cons token' front =>
              obtain ⟨rfl, sameOthers⟩ := List.cons.inj sameRest
              obtain ⟨left, right, joined, rfl, rfl⟩ :=
                ih link.2 othersLexical sameOthers
              refine ⟨⟨first, (link.1, left.first) :: left.rest⟩, right,
                ?_, rfl, rfl⟩
              obtain ⟨sameName, rfl⟩ := Chain.mk.inj joined
              rw [join, sameName]
              rfl

end Chain

/-! ## Phrases with the words of a chain -/

namespace Bracketing

theorem tokens_phrase (bracketing : Bracketing) :
    bracketing.phrase.tokens = bracketing.chain.words := by
  induction bracketing with
  | name content => rfl
  | joined connective left right leftIH rightIH =>
      rw [phrase, Phrase.tokens, leftIH, rightIH, chain, Chain.words_join]

theorem lexical_phrase {bracketing : Bracketing} :
    bracketing.phrase.Lexical ↔ bracketing.chain.Lexical := by
  induction bracketing with
  | name content =>
      simp [phrase, Phrase.lexical_mentioned, Expression.Lexical, chain,
        Chain.Lexical, Chain.names]
  | joined connective left right leftIH rightIH =>
      rw [phrase, Phrase.lexical_joined, leftIH, rightIH, chain,
        Chain.lexical_join]

theorem exists_of_expression_tokens_eq {chain : Chain}
    {expression : Expression RelativeIdentifier} (lexical : chain.Lexical)
    (same : expression.tokens = chain.words) :
    ∃ bracketing : Bracketing,
      bracketing.chain = chain ∧ bracketing.phrase = .mentioned expression := by
  cases expression with
  | identifier id =>
      have isName : Lexicon.isVariable id.text = true :=
        Chain.isVariable_of_words_eq lexical same
      cases id with
      | up => exact absurd isName (by decide)
      | down => exact absurd isName (by decide)
      | named content =>
          obtain ⟨first, rest⟩ := chain
          obtain ⟨rfl, nothing⟩ := List.cons.inj same
          cases rest with
          | nil => exact ⟨name content, rfl, rfl⟩
          | cons link rest => cases nothing
  | application target feature =>
      have isName : Lexicon.isVariable "(" = true :=
        Chain.isVariable_of_words_eq lexical same
      exact absurd isName (by decide)
  | value text =>
      have isName : Lexicon.isVariable (Expression.quoted text) = true :=
        Chain.isVariable_of_words_eq lexical same
      rw [isVariable_quoted] at isName
      cases isName

/-- A phrase with the words of a chain is a bracketing of the chain. -/
theorem exists_of_tokens_eq {phrase : Phrase} {chain : Chain}
    (lexical : chain.Lexical) (same : phrase.tokens = chain.words) :
    ∃ bracketing : Bracketing,
      bracketing.chain = chain ∧ bracketing.phrase = phrase := by
  induction phrase generalizing chain with
  | negated inner ih =>
      have isName : Lexicon.isVariable "NOT" = true :=
        Chain.isVariable_of_words_eq lexical same
      exact absurd isName (by decide)
  | joined connective left right leftIH rightIH =>
      obtain ⟨front, back, rfl, sameFront, sameBack⟩ :=
        Chain.exists_join_of_words_eq lexical same.symm
      obtain ⟨frontLexical, backLexical⟩ := Chain.lexical_join.mp lexical
      obtain ⟨leftBracketing, rfl, rfl⟩ := leftIH frontLexical sameFront.symm
      obtain ⟨rightBracketing, rfl, rfl⟩ := rightIH backLexical sameBack.symm
      exact ⟨joined connective leftBracketing rightBracketing, rfl, rfl⟩
  | related relation left right =>
      have member : relation.word ∈ chain.words := by
        rw [← same]
        simp [Phrase.tokens]
      rcases Chain.isVariable_or_eq_word lexical member with
        isName | ⟨connective, isWord⟩
      · have isReserved :=
          operators_subset_reserved (relationWord_mem_operators relation)
        exact absurd rfl (ne_of_isVariable isName isReserved)
      · exact absurd isWord.symm (word_ne_relationWord connective relation)
  | mentioned expression => exact exists_of_expression_tokens_eq lexical same
  | bracketed inner ih =>
      have isName : Lexicon.isVariable "(" = true :=
        Chain.isVariable_of_words_eq lexical same
      exact absurd isName (by decide)

theorem spells_words_iff {phrase : Phrase} {chain : Chain}
    (lexical : chain.Lexical) :
    phrase.Spells chain.words ↔ ∃ bracketing : Bracketing,
      bracketing.chain = chain ∧ bracketing.phrase = phrase := by
  constructor
  · exact fun spells => exists_of_tokens_eq lexical spells.tokens_eq
  · rintro ⟨bracketing, rfl, rfl⟩
    exact ⟨lexical_phrase.mpr lexical, tokens_phrase bracketing⟩

/-! ## Trees of bracketings -/

variable (orBuilds : Connective)

/-- The tree of a bracketing in the grammar in which `OR` builds a given
connective. -/
def tree (bracketing : Bracketing) : Tree :=
  bracketing.phrase.tree orBuilds

def value (bracketing : Bracketing) : Value :=
  bracketing.phrase.value orBuilds

theorem tree_injective : Function.Injective (tree orBuilds) := by
  intro first
  induction first with
  | name content =>
      intro second same
      cases second with
      | name content' =>
          obtain ⟨-, sameName⟩ : _ ∧ content = content' := by
            simpa [tree, phrase, Phrase.tree, expressionTree,
              RelativeIdentifier.text] using same
          rw [sameName]
      | joined connective left right => simp [tree, phrase, Phrase.tree] at same
  | joined connective left right leftIH rightIH =>
      intro second same
      cases second with
      | name content => simp [tree, phrase, Phrase.tree] at same
      | joined connective' left' right' =>
          obtain ⟨sameLeft, ⟨-, sameWord⟩, sameRight⟩ :
              left.tree orBuilds = left'.tree orBuilds ∧
                (_ ∧ connective.word = connective'.word) ∧
                  right.tree orBuilds = right'.tree orBuilds := by
            simpa [tree, phrase, Phrase.tree] using same
          rw [leftIH sameLeft, word_injective sameWord, rightIH sameRight]

theorem tree_mem_allTrees_iff {chain : Chain} (lexical : chain.Lexical)
    {tree : Tree} :
    tree ∈ (grammar orBuilds).allTrees chain.words ↔
      ∃ bracketing : Bracketing,
        bracketing.chain = chain ∧ bracketing.tree orBuilds = tree := by
  simp only [mem_allTrees_iff, spells_words_iff lexical, Bracketing.tree]
  constructor
  · rintro ⟨_, ⟨bracketing, brackets, rfl⟩, same⟩
    exact ⟨bracketing, brackets, same⟩
  · rintro ⟨bracketing, brackets, same⟩
    exact ⟨_, ⟨bracketing, brackets, rfl⟩, same⟩

/-- The trees that are enumerated for the words of a chain are those of all its
bracketings. -/
theorem exists_allTrees_eq {chain : Chain} (lexical : chain.Lexical) :
    ∃ bracketings : List Bracketing, bracketings.Nodup ∧
      (∀ bracketing, bracketing ∈ bracketings ↔ bracketing.chain = chain) ∧
      (grammar orBuilds).allTrees chain.words =
        bracketings.map (tree orBuilds) := by
  obtain ⟨bracketings, same⟩ : (grammar orBuilds).allTrees chain.words ∈
      Set.range (List.map (tree orBuilds)) := by
    rw [Set.range_list_map]
    intro tree listed
    obtain ⟨bracketing, -, same⟩ :=
      (tree_mem_allTrees_iff orBuilds lexical).mp listed
    exact ⟨bracketing, same⟩
  have injective := tree_injective orBuilds
  refine ⟨bracketings, ?_, fun bracketing => ?_, same.symm⟩
  · apply List.Nodup.of_map (tree orBuilds)
    rw [same]
    exact Grammar.nodup_allTrees (emptyIsUnique_grammar orBuilds)
      (nodup_productions orBuilds) (List.nodup_singleton _) _
  · rw [← List.mem_map_of_injective injective, same,
      tree_mem_allTrees_iff orBuilds lexical]
    constructor
    · rintro ⟨other, rfl, sameTree⟩
      rw [injective sameTree]
    · exact fun brackets => ⟨bracketing, brackets, rfl⟩

end Bracketing

/-! ## Parses of chains -/

/-- Whether a parsable finds given bracketings of a chain and nothing else,
each of them once and with its value, whatever it was used for before. -/
structure FindsBracketings (parsable : Parsable Value) (orBuilds : Connective)
    (chain : Chain) (bracketings : List Bracketing) : Prop where
  chain_eq : ∀ bracketing ∈ bracketings, bracketing.chain = chain
  nodup : (bracketings.map (Bracketing.tree orBuilds)).Nodup
  parse : ∀ uses, ∃ outcome,
    ((parsable.afterUses uses).parse chain.text).result = .ok outcome ∧
      outcome.status = .ok ∧
      outcome.trees = bracketings.map (Bracketing.tree orBuilds) ∧
      outcome.values = bracketings.map (Bracketing.value orBuilds)

theorem findsBracketings_of_parsesAlike {orBuilds : Connective}
    {maxTrees : Option Int} {parsable : Parsable Value}
    (alike : (freshParsable orBuilds maxTrees).ParsesAlike parsable)
    {chain : Chain} (lexical : chain.Lexical) {bracketings : List Bracketing}
    (nonempty : bracketings ≠ []) (distinct : bracketings.Nodup)
    (brackets : ∀ bracketing ∈ bracketings, bracketing.chain = chain)
    (listed : Chart.parser (grammar orBuilds) maxTrees chain.words =
      .ok (bracketings.map (Bracketing.tree orBuilds))) :
    FindsBracketings parsable orBuilds chain bracketings := by
  have trees : (bracketings.map Bracketing.phrase).map
      (Phrase.tree orBuilds) = bracketings.map (Bracketing.tree orBuilds) :=
    List.map_map
  have values : (bracketings.map Bracketing.phrase).map
      (Phrase.value orBuilds) = bracketings.map (Bracketing.value orBuilds) :=
    List.map_map
  have spell : ∀ phrase ∈ bracketings.map Bracketing.phrase,
      phrase.Spells (tokenizer.tokenize chain.text) := by
    rw [Chain.tokenize_text lexical, List.forall_mem_map]
    exact fun bracketing member => (Bracketing.spells_words_iff lexical).mpr
      ⟨bracketing, brackets bracketing member, rfl⟩
  rw [← Chain.tokenize_text lexical, ← trees] at listed
  have finds := finds_of_parsesAlike alike spell listed
  rw [trees, values] at finds
  refine ⟨brackets, distinct.map (Bracketing.tree_injective orBuilds),
    fun uses => ⟨_, finds.parse_eq uses, ?_, ?_, ?_⟩⟩
  · rw [Outcome.status_ofParse (by simp)]
    simp [nonempty]
  · exact Outcome.trees_ofParse _ _ _
  · exact Outcome.values_ofParse _ (by simp)

/-- After any calls, a parsable for equations can be made.  Whatever it was
used for before, its parse of a chain of local names finds bracketings of the
chain: each is a tree with a value, none of them is there twice, and they are
as many as the Catalan number of the connectives, up to the limit of trees.  If
this number is within the limit, every bracketing is there. -/
theorem chains_afterCalls (orBuilds : Connective) (maxTrees : Option Int)
    (calls : List Call) :
    ∃ parsable,
      (((Session.ofRegistry (registry Value.carrier)).afterCalls
        calls).parsable (equationSymbol orBuilds)
          { maxTrees := maxTrees }).1 = .ok parsable ∧
      ∀ chain : Chain, chain.Lexical → ∃ bracketings : List Bracketing,
        FindsBracketings parsable orBuilds chain bracketings ∧
        (bracketings.length : Int) =
          min (max 1 (maxTrees.getD 256)) (catalan chain.rest.length) ∧
        ((catalan chain.rest.length : Int) ≤ max 1 (maxTrees.getD 256) →
          ∀ bracketing : Bracketing, bracketing.chain = chain →
            bracketing ∈ bracketings) := by
  obtain ⟨parsable, made, alike⟩ :=
    exists_parsable_afterCalls orBuilds maxTrees calls
  refine ⟨parsable, made, fun chain lexical => ?_⟩
  obtain ⟨bracketings, distinct, all, same⟩ :=
    Bracketing.exists_allTrees_eq orBuilds lexical
  have count := Bracketing.length_eq_catalan distinct all
  have positive := Bracketing.catalan_pos chain.rest.length
  have listed := Chart.parser_eq_ok (testsNeverFail_grammar orBuilds) maxTrees
    chain.words
  rw [same, ← List.map_take] at listed
  refine ⟨_, findsBracketings_of_parsesAlike alike lexical ?_
    (distinct.sublist (List.take_sublist _ _)) ?_ listed, ?_, ?_⟩
  · rw [← List.length_pos_iff, List.length_take]
    omega
  · exact fun bracketing member =>
      (all bracketing).mp (List.mem_of_mem_take member)
  · rw [List.length_take]
    omega
  · intro within bracketing brackets
    rw [List.take_of_length_le (by omega)]
    exact (all bracketing).mpr brackets

def fourNames : Chain :=
  ⟨"X", [(.conjunction, "Y"), (.disjunction, "%z"), (.conjunction, "head_1")]⟩

/-- Two of the five bracketings of four names are found if two trees are asked
for, and all of them if no limit is given. -/
theorem chains_afterCalls_fourNames :
    let attempt := fun maxTrees =>
      (((Session.ofRegistry (registry Value.carrier)).afterCalls
        [.closure expressionSymbol]).parsable (equationSymbol .conjunction)
          { maxTrees := maxTrees }).1
    fourNames.Lexical ∧ fourNames.text = "X AND Y OR %z AND head_1" ∧
      (∃ parsable bracketings, attempt (some 2) = .ok parsable ∧
        FindsBracketings parsable .conjunction fourNames bracketings ∧
        bracketings.length = 2) ∧
      ∃ parsable bracketings, attempt none = .ok parsable ∧
        FindsBracketings parsable .conjunction fourNames bracketings ∧
        bracketings.length = 5 ∧
        .joined .disjunction
            (.joined .conjunction (.name "X") (.name "Y"))
            (.joined .conjunction (.name "%z") (.name "head_1")) ∈
          bracketings := by
  intro attempt
  have lexical : fourNames.Lexical := by decide
  have five : catalan fourNames.rest.length = 5 := catalan_three
  refine ⟨lexical, by decide, ?_, ?_⟩
  · obtain ⟨parsable, made, finds⟩ :=
      chains_afterCalls .conjunction (some 2) [.closure expressionSymbol]
    obtain ⟨bracketings, found, count, -⟩ := finds fourNames lexical
    rw [five] at count
    have two : (bracketings.length : Int) = 2 := count.trans (by decide)
    exact ⟨parsable, bracketings, made, found, by omega⟩
  · obtain ⟨parsable, made, finds⟩ :=
      chains_afterCalls .conjunction none [.closure expressionSymbol]
    obtain ⟨bracketings, found, count, all⟩ := finds fourNames lexical
    rw [five] at count all
    have allFive : (bracketings.length : Int) = 5 := count.trans (by decide)
    exact ⟨parsable, bracketings, made, found, by omega,
      all (by decide) _ rfl⟩

end EquationGrammar

end SemanticGrammar
