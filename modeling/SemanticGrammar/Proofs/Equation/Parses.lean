import SemanticGrammar.Proofs.ChartParser
import SemanticGrammar.Proofs.Equation.Readings
import SemanticGrammar.Proofs.Equation.Words
import SemanticGrammar.Proofs.HistoryIndependence

/-!
# Parses of equations

The parsable for equations can be made after any calls, and whatever it was
used for before, none of its parses fails.  What a parse finds is a list of
phrases that spell the tokens of the input: the trees are the trees of these
phrases, and the values are the equations that they stand for.
-/

namespace SemanticGrammar

namespace EquationGrammar

/-! ## The parsable -/

theorem registry_workspace :
    (workspace Value.carrier).registry = registry Value.carrier := by
  simp [workspace, Workspace.ofRegistry]

theorem closure_workspace (orBuilds : Connective) :
    ((workspace Value.carrier).closure (equationSymbol orBuilds)).1 =
      .ok constituentSymbols := by
  cases orBuilds <;> decide +kernel

theorem derivation_workspace (orBuilds : Connective) :
    ((workspace Value.carrier).derivation (equationSymbol orBuilds)).1 =
      .ok (derivation orBuilds) := by
  have derived := Workspace.derivation_eq_ok (closure_workspace orBuilds)
  rwa [registry_workspace] at derived

variable (orBuilds : Connective) (maxTrees : Option Int)

/-- The parsable for equations, which has not parsed yet. -/
def freshParsable : Parsable Value where
  derivation := derivation orBuilds
  productions := productions orBuilds
  tokenizer := tokenizer
  derives_productions := productions_derivation orBuilds
  derives_tokenizer := tokenizer_derivation orBuilds
  options := { maxTrees := maxTrees }

theorem parsable_eq_ok :
    parsable orBuilds maxTrees = .ok (freshParsable orBuilds maxTrees) := by
  rw [parsable, Workspace.parsable_eq_bind, derivation_workspace]
  exact Parsable.ofDerivation?_eq_ok (productions_derivation orBuilds)
    (tokenizer_derivation orBuilds) { maxTrees := maxTrees }

theorem usesChart_freshParsable :
    (freshParsable orBuilds maxTrees).UsesChart where
  engine_eq := rfl
  parser?_eq := by simp [freshParsable]

/-! ## The grammar -/

theorem exists_accepts_of_category {name : String}
    {member : String → Except Fault Bool}
    (declared : .category name member ∈
      (registry Value.carrier).declarations.toList) :
    ∃ accepts : String → Bool, member = fun token => .ok (accepts token) := by
  simp only [registry, List.mem_cons, List.not_mem_nil, Declaration.category.injEq,
    reduceCtorEq, false_or, or_false] at declared
  rcases declared with ⟨-, rfl⟩ | ⟨-, rfl⟩ | ⟨-, rfl⟩ <;> exact ⟨_, rfl⟩

theorem testsNeverFail_grammar : (grammar orBuilds).TestsNeverFail := by
  intro symbol member lexical token
  change (registry Value.carrier).role symbol = .lexical member at lexical
  unfold Registry.role at lexical
  split at lexical
  · cases lexical
  · cases lexical
  · cases lexical
    exact ⟨_, rfl⟩
  · rename_i name member' declared
    cases lexical
    obtain ⟨accepts, rfl⟩ := exists_accepts_of_category
      (Array.mem_toList_iff.mpr (Array.mem_of_getElem? declared))
    exact ⟨accepts token, rfl⟩
  · cases lexical

theorem emptyIsUnique_grammar : (grammar orBuilds).EmptyIsUnique :=
  Derivation.emptyIsUnique_grammarOf _

/-! ## Phrases that spell a token list -/

/-- Whether a phrase can be written as given tokens. -/
structure Phrase.Spells (phrase : Phrase) (tokens : List String) : Prop where
  lexical : phrase.Lexical
  tokens_eq : phrase.tokens = tokens

/-- Whether some phrases spell a token list, none of them twice, and there is
one if the tokens can be spelled at all. -/
structure AreSpellings (tokens : List String) (phrases : List Phrase) :
    Prop where
  nodup : phrases.Nodup
  spell : ∀ phrase ∈ phrases, phrase.Spells tokens
  ne_nil : ∀ phrase : Phrase, phrase.Spells tokens → phrases ≠ []

variable {tokens : List String}

theorem AreSpellings.eq_singleton {phrases : List Phrase}
    (found : AreSpellings tokens phrases) {phrase : Phrase}
    (spells : phrase.Spells tokens)
    (unique : ∀ other : Phrase, other.Spells tokens → other = phrase) :
    phrases = [phrase] := by
  have same : phrases = List.replicate phrases.length phrase :=
    List.eq_replicate_of_mem fun other member =>
      unique other (found.spell other member)
  have distinct := found.nodup
  rw [same, List.nodup_replicate] at distinct
  have positive := List.length_pos_of_ne_nil (found.ne_nil phrase spells)
  have one : phrases.length = 1 := by omega
  rw [one] at same
  exact same

theorem exists_spells_of_mem_allTrees {tree : Tree}
    (listed : tree ∈ (grammar orBuilds).allTrees tokens) :
    ∃ phrase : Phrase, phrase.Spells tokens ∧ phrase.tree orBuilds = tree := by
  obtain ⟨start, isStart, derived, -, reads⟩ := Grammar.mem_allTrees.mp listed
  obtain rfl := List.mem_singleton.mp isStart
  obtain ⟨phrase, lexical, rfl⟩ := exists_phrase_of_derives derived
  exact ⟨phrase, ⟨lexical, (tokens_tree phrase).symm.trans reads⟩, rfl⟩

theorem allTrees_ne_nil_of_spells {phrase : Phrase}
    (spells : phrase.Spells tokens) :
    (grammar orBuilds).allTrees tokens ≠ [] := by
  obtain ⟨tree, listed⟩ := Grammar.exists_mem_allTrees_iff.mpr
    ⟨equationSymbol orBuilds, List.mem_singleton_self _,
      phrase.tree orBuilds, derives_tree spells.lexical,
      (tokens_tree phrase).trans spells.tokens_eq⟩
  exact List.ne_nil_of_mem listed

theorem exists_phrases_of_forall {trees : List Tree}
    (each : ∀ tree ∈ trees,
      ∃ phrase : Phrase, phrase.Spells tokens ∧ phrase.tree orBuilds = tree) :
    ∃ phrases : List Phrase, (∀ phrase ∈ phrases, phrase.Spells tokens) ∧
      phrases.map (Phrase.tree orBuilds) = trees := by
  induction trees with
  | nil => exact ⟨[], by simp, rfl⟩
  | cons tree trees ih =>
      rw [List.forall_mem_cons] at each
      obtain ⟨⟨phrase, spells, rfl⟩, others⟩ := each
      obtain ⟨phrases, spell, rfl⟩ := ih others
      exact ⟨phrase :: phrases, List.forall_mem_cons.mpr ⟨spells, spell⟩, rfl⟩

/-- The chart parser lists the trees of phrases that spell the tokens. -/
theorem exists_spellings_listed (tokens : List String) :
    ∃ phrases, AreSpellings tokens phrases ∧
      Chart.parser (grammar orBuilds) maxTrees tokens =
        .ok (phrases.map (Phrase.tree orBuilds)) := by
  have listed := Chart.parser_eq_ok (testsNeverFail_grammar orBuilds)
    maxTrees tokens
  have positive : (max 1 (maxTrees.getD 256)).toNat ≠ 0 := by omega
  have distinct := Grammar.nodup_allTrees (emptyIsUnique_grammar orBuilds)
    (nodup_productions orBuilds) (List.nodup_singleton _) tokens
  obtain ⟨phrases, spell, same⟩ := exists_phrases_of_forall orBuilds
    fun tree listed => exists_spells_of_mem_allTrees orBuilds
      (List.mem_of_mem_take (i := (max 1 (maxTrees.getD 256)).toNat) listed)
  rw [← same] at listed
  refine ⟨phrases, ⟨?_, spell, ?_⟩, listed⟩
  · apply List.Nodup.of_map (Phrase.tree orBuilds)
    rw [same]
    exact distinct.sublist (List.take_sublist _ _)
  · rintro phrase spells rfl
    rcases List.take_eq_nil_iff.mp same.symm with noRoom | none
    · exact positive noRoom
    · exact allTrees_ne_nil_of_spells orBuilds spells none

/-! ## Outcomes -/

def Phrase.value (phrase : Phrase) : Value :=
  .equation (phrase.equation orBuilds)

theorem readings_phrases {phrases : List Phrase}
    (lexical : ∀ phrase ∈ phrases, phrase.Lexical) :
    reader.readings (equationSymbol orBuilds)
        (phrases.map (Phrase.tree orBuilds)) =
      .ok (phrases.map (Phrase.value orBuilds)) := by
  apply Reader.readings_eq_ok
  · simp
  · rw [List.forall₂_map_left_iff, List.forall₂_map_right_iff,
      List.forall₂_same]
    exact fun phrase member => reads_tree (lexical phrase member)

/-! ## Parses after any calls -/

/-- What a parsable finds in a text, whatever it was used for before. -/
structure Finds (parsable : Parsable Value) (text : String)
    (trees : List Tree) (values : List Value) : Prop where
  parseTrees_eq : ∀ uses,
    ((parsable.afterUses uses).parseTrees text).result = .ok trees
  parse_eq : ∀ uses,
    ((parsable.afterUses uses).parse text).result =
      .ok (.ofParse (parsable.tokenize text) trees values)
  parseValues_eq : ∀ uses,
    ((parsable.afterUses uses).parseValues text).result = .ok values

theorem isClosure_constituentSymbols (orBuilds : Connective) :
    (registry Value.carrier).IsClosure (equationSymbol orBuilds)
      constituentSymbols := by
  have found : ((Workspace.ofRegistry (registry Value.carrier)).closure
      (equationSymbol orBuilds)).1 = .ok constituentSymbols := by
    cases orBuilds <;> decide +kernel
  have closes := (Session.exact_afterCalls (registry Value.carrier) []).closes
    (equationSymbol orBuilds)
  rw [Session.afterCalls, List.foldl_nil, Session.ofRegistry, found] at closes
  exact closes

/-- After any calls, a parsable for equations can be made, and it parses like
the first one. -/
theorem exists_parsable_afterCalls (orBuilds : Connective)
    (maxTrees : Option Int) (calls : List Call) :
    ∃ parsable,
      (((Session.ofRegistry (registry Value.carrier)).afterCalls
        calls).parsable (equationSymbol orBuilds)
          { maxTrees := maxTrees }).1 = .ok parsable ∧
        (freshParsable orBuilds maxTrees).ParsesAlike parsable := by
  have exact := Session.exact_afterCalls (registry Value.carrier) calls
  have closed := isClosure_constituentSymbols orBuilds
  have configured : (registry Value.carrier).Configured
      (equationSymbol orBuilds) :=
    (Parsable.exists_ofDerivation?_eq_ok_iff_configured closed).mp
      ⟨_, Parsable.ofDerivation?_eq_ok (productions_derivation orBuilds)
        (tokenizer_derivation orBuilds) { maxTrees := maxTrees }⟩
  obtain ⟨parsable, made⟩ :=
    (exact.exists_parsable_iff_configured (equationSymbol orBuilds)
      { maxTrees := maxTrees }).mpr configured
  obtain ⟨closure, closed', derived, options, unused⟩ :=
    exact.exists_closure_of_parsable made
  have same : (freshParsable orBuilds maxTrees).derivation.SameUpToOrder
      parsable.derivation := by
    rw [derived]
    exact ⟨rfl, rfl, closed.perm closed', closed.nodup_cons⟩
  exact ⟨parsable, made,
    Parsable.parsesAlike same options.symm rfl rfl unused⟩

/-- The calls after which the closures of the nonterminals are known. -/
def closureCalls : List Call :=
  [.closure (equationSymbol .disjunction), .closure (equationSymbol .conjunction),
    .closure expressionSymbol]

theorem parsable_eq_afterCalls (orBuilds : Connective)
    (maxTrees : Option Int) :
    parsable orBuilds maxTrees =
      (((Session.ofRegistry (registry Value.carrier)).afterCalls
        closureCalls).parsable (equationSymbol orBuilds)
          { maxTrees := maxTrees }).1 :=
  ((Session.exact_afterCalls _ closureCalls).result_parsable _ _).symm

/-- A parsable that parses like the first one finds the trees of phrases and a
value for each of them. -/
theorem finds_of_parsesAlike {orBuilds : Connective} {maxTrees : Option Int}
    {parsable : Parsable Value}
    (alike : (freshParsable orBuilds maxTrees).ParsesAlike parsable)
    {text : String} {phrases : List Phrase}
    (spell : ∀ phrase ∈ phrases, phrase.Spells (tokenizer.tokenize text))
    (listed : Chart.parser (grammar orBuilds) maxTrees
      (tokenizer.tokenize text) = .ok (phrases.map (Phrase.tree orBuilds))) :
    Finds parsable text (phrases.map (Phrase.tree orBuilds))
      (phrases.map (Phrase.value orBuilds)) := by
  have chart := usesChart_freshParsable orBuilds maxTrees
  have tokens : parsable.tokenize text = tokenizer.tokenize text :=
    (alike.tokenize_eq text).symm
  have parsed : ∀ uses, ((parsable.afterUses uses).parse text).result =
      .ok (.ofParse (parsable.tokenize text)
        (phrases.map (Phrase.tree orBuilds))
        (phrases.map (Phrase.value orBuilds))) := by
    intro uses
    rw [tokens, ← alike.parse_eq [] uses text]
    exact (chart.result_parse text).trans (Parsable.outcomeOf_eq_ok listed
      (readings_phrases orBuilds fun phrase member =>
        (spell phrase member).lexical))
  refine ⟨fun uses => ?_, parsed, fun uses => ?_⟩
  · rw [← alike.parseTrees_eq [] uses text]
    exact (chart.result_parseTrees text).trans listed
  · have values := congrArg (Except.map Outcome.values) (parsed uses)
    rw [Except.map, Outcome.values_ofParse _ (by simp)] at values
    exact values

/-- What is found in a text are the trees and the values of phrases that spell
its tokens. -/
theorem exists_spellings_found {orBuilds : Connective} {maxTrees : Option Int}
    {parsable : Parsable Value}
    (alike : (freshParsable orBuilds maxTrees).ParsesAlike parsable)
    (text : String) :
    ∃ phrases, AreSpellings (tokenizer.tokenize text) phrases ∧
      Finds parsable text (phrases.map (Phrase.tree orBuilds))
        (phrases.map (Phrase.value orBuilds)) := by
  obtain ⟨phrases, found, listed⟩ :=
    exists_spellings_listed orBuilds maxTrees (tokenizer.tokenize text)
  exact ⟨phrases, found, finds_of_parsesAlike alike found.spell listed⟩

end EquationGrammar

end SemanticGrammar
