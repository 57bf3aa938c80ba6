import SemanticGrammar.Proofs.HeadOrder
import SemanticGrammar.Proofs.ParsableUses
import SemanticGrammar.Proofs.Tokenizer.LiteralSet

/-!
# Parses do not depend on what was computed before

Earlier calls show in the order in which a closure lists its symbols, and
through it in the order of productions, lexical categories and tokens.  They do
not show in a parse.  The literals are tried in an order of their own, the
productions of one head are found together in the closure, and the order of the
heads does not show in a search.
-/

namespace SemanticGrammar

namespace Derivation

variable {V : Type}

/-- Whether two derivations differ at most in the order of their closures,
which list each symbol once. -/
structure SameUpToOrder (first second : Derivation V) : Prop where
  registry_eq : first.registry = second.registry
  root_eq : first.root = second.root
  perm : first.closure.Perm second.closure
  nodup : first.symbols.Nodup

namespace SameUpToOrder

variable {first second : Derivation V} (same : first.SameUpToOrder second)

include same

theorem perm_symbols : first.symbols.Perm second.symbols := by
  have rooted := same.perm.cons first.root
  rw [symbols, symbols, ← same.root_eq]
  exact rooted

theorem perm_lexicalCategories :
    first.lexicalCategories.Perm second.lexicalCategories := by
  rw [lexicalCategories, lexicalCategories, same.registry_eq]
  exact same.perm_symbols.filter _

theorem perm_tokens : first.tokens.Perm second.tokens := by
  refine (List.perm_ext_iff_of_nodup (nodup_firstOccurrences _)
    (nodup_firstOccurrences _)).mpr fun token => ?_
  rw [mem_firstOccurrences, mem_firstOccurrences, same.registry_eq]
  exact (same.perm_symbols.flatMap_right _).mem_iff

/-- One tokenizer serves both, since literals have an order of their own. -/
theorem tokenizer_eq {tokenizer tokenizer' : Tokenizer}
    (derives : first.tokenizer = .ok tokenizer)
    (derives' : second.tokenizer = .ok tokenizer') : tokenizer = tokenizer' := by
  rw [tokenizer_eq_ok_iff] at derives derives'
  rw [Tokenizer.ofLiterals?_eq_ok_congr fun _ => same.perm_tokens.mem_iff,
    derives'] at derives
  exact (Except.ok.inj derives).symm

variable {productions productions' : List Production}
  (derives : first.productions = .ok productions)
  (derives' : second.productions = .ok productions')

include derives derives'

theorem perm_productions : productions.Perm productions' := by
  obtain ⟨-, rfl⟩ := productions_eq_ok_iff.mp derives
  obtain ⟨-, rfl⟩ := productions_eq_ok_iff.mp derives'
  rw [same.registry_eq]
  exact same.perm_symbols.flatMap_right _

theorem sameUpToHeads_grammarOf :
    (first.grammarOf productions).SameUpToHeads
      (second.grammarOf productions') where
  role_eq := by simp only [Derivation.grammarOf, same.registry_eq]
  alternatives_eq := by
    funext head
    have nodup' := same.perm_symbols.nodup_iff.mp same.nodup
    rw [alternatives_grammarOf derives same.nodup,
      alternatives_grammarOf derives' nodup', same.registry_eq]
    simp only [same.perm_symbols.mem_iff]
  startSymbols_eq := by simp only [Derivation.grammarOf, same.root_eq]

end SameUpToOrder

end Derivation

namespace Parsable

variable {V : Type}

/-- Whether two parsables derive the same but for its order and parse alike,
whatever each of them was used for before. -/
structure ParsesAlike (first second : Parsable V) : Prop where
  literals_eq : first.tokenizer.literals = second.tokenizer.literals
  closure : first.derivation.closure.Perm second.derivation.closure
  productions : first.productions.Perm second.productions
  lexicalCategories :
    first.derivation.lexicalCategories.Perm second.derivation.lexicalCategories
  tokens : first.derivation.tokens.Perm second.derivation.tokens
  tokenize_eq : ∀ input, first.tokenize input = second.tokenize input
  parseTrees_eq : ∀ uses uses' input,
    ((first.afterUses uses).parseTrees input).result =
      ((second.afterUses uses').parseTrees input).result
  parse_eq : ∀ uses uses' input,
    ((first.afterUses uses).parse input).result =
      ((second.afterUses uses').parse input).result

variable {earlier later first second : Parsable V}

/-! ## Parses with the chart engine -/

theorem Continues.usesChart (continues : earlier.Continues later)
    (chart : earlier.options.engine = Engine.chart) : later.UsesChart := by
  obtain ⟨⟨calls, parser?, rfl⟩, made⟩ := continues
  refine ⟨chart, fun parser kept => ?_⟩
  obtain ⟨calls', result⟩ := made parser kept
  rw [chart] at result
  exact (Except.ok.inj result).symm

theorem Continues.result_parseTrees (continues : earlier.Continues later)
    (chart : earlier.options.engine = Engine.chart) (input : String) :
    (later.parseTrees input).result =
      earlier.chartParser (earlier.tokenize input) := by
  rw [(continues.usesChart chart).result_parseTrees]
  obtain ⟨⟨calls, parser?, rfl⟩, -⟩ := continues
  rfl

theorem Continues.result_parse (continues : earlier.Continues later)
    (chart : earlier.options.engine = Engine.chart) (input : String) :
    (later.parse input).result =
      earlier.outcomeOf input earlier.chartParser := by
  rw [(continues.usesChart chart).result_parse]
  obtain ⟨⟨calls, parser?, rfl⟩, -⟩ := continues
  rfl

theorem outcomeOf_congr (sameTokenizer : first.tokenizer = second.tokenizer)
    (sameRegistry : first.derivation.registry = second.derivation.registry)
    (sameRoot : first.root = second.root) (input : String) (parser : Parser) :
    first.outcomeOf input parser = second.outcomeOf input parser := by
  have sameReader : first.reader = second.reader := by
    rw [first.reader_eq, second.reader_eq, sameRegistry]
  simp only [outcomeOf, tokenize, sameTokenizer, sameReader, sameRoot]

/-- New parsables with the chart engine parse alike if their derivations differ
at most in the order of their closures. -/
theorem parsesAlike (same : first.derivation.SameUpToOrder second.derivation)
    (sameOptions : first.options = second.options)
    (chart : first.options.engine = Engine.chart)
    (unused : first.parser? = none) (unused' : second.parser? = none) :
    first.ParsesAlike second := by
  have sameTokenizer : first.tokenizer = second.tokenizer :=
    same.tokenizer_eq first.derives_tokenizer second.derives_tokenizer
  have sameParser : first.chartParser = second.chartParser := by
    rw [chartParser, chartParser, sameOptions]
    exact Chart.parser_eq_of_sameUpToHeads (same.sameUpToHeads_grammarOf
      first.derives_productions second.derives_productions) _
  have chart' : second.options.engine = Engine.chart := sameOptions ▸ chart
  have sameTokens : ∀ input, first.tokenize input = second.tokenize input := by
    intro input
    rw [tokenize, tokenize, sameTokenizer]
  refine {
    literals_eq := congrArg Tokenizer.literals sameTokenizer
    closure := same.perm
    productions := same.perm_productions first.derives_productions
      second.derives_productions
    lexicalCategories := same.perm_lexicalCategories
    tokens := same.perm_tokens
    tokenize_eq := sameTokens
    parseTrees_eq := fun uses uses' input => ?_
    parse_eq := fun uses uses' input => ?_ }
  · rw [((Continues.refl unused).afterUses uses).result_parseTrees chart,
      ((Continues.refl unused').afterUses uses').result_parseTrees chart',
      sameParser, sameTokens]
  · rw [((Continues.refl unused).afterUses uses).result_parse chart,
      ((Continues.refl unused').afterUses uses').result_parse chart',
      sameParser]
    exact outcomeOf_congr sameTokenizer same.registry_eq same.root_eq _ _

end Parsable

namespace Session

variable {V : Type} {registry : Registry V}

/-- Whatever was called before, a parsable with the chart engine is made or not
made alike, and when it is made it parses alike. -/
theorem parsesAlike_afterCalls (registry : Registry V)
    (calls calls' : List Call) (root : Symbol) (maxTrees : Option Int) :
    let attempt := fun calls => (((ofRegistry registry).afterCalls
      calls).parsable root { maxTrees := maxTrees }).1
    ((∃ fault, attempt calls = .error fault) ↔
        ∃ fault, attempt calls' = .error fault) ∧
      ∀ first second, attempt calls = .ok first →
        attempt calls' = .ok second → first.ParsesAlike second := by
  intro attempt
  have exact := exact_afterCalls registry calls
  have exact' := exact_afterCalls registry calls'
  constructor
  · rw [exists_error_iff, exists_error_iff,
      exact.exists_parsable_iff_configured,
      exact'.exists_parsable_iff_configured]
  · intro first second made made'
    obtain ⟨closure, closed, derived, options, unused⟩ :=
      exact.exists_closure_of_parsable made
    obtain ⟨closure', closed', derived', options', unused'⟩ :=
      exact'.exists_closure_of_parsable made'
    have same : first.derivation.SameUpToOrder second.derivation := by
      rw [derived, derived']
      exact ⟨rfl, rfl, closed.perm closed', closed.nodup_cons⟩
    exact Parsable.parsesAlike same (options.trans options'.symm)
      (congrArg ParsingOptions.engine options) unused unused'

/-- The closure of sentences is found in another order once those of predicates
and of subjects are known. -/
theorem parsesAlike_afterCalls_clauses :
    let attempt := fun calls =>
      (((ofRegistry clauses).afterCalls calls).parsable ⟨1⟩ {}).1
    ∃ first second, attempt [] = .ok first ∧
      attempt [.parsable ⟨5⟩ {}, .closure ⟨2⟩, .parsable ⟨3⟩ {}] =
          .ok second ∧
        first.derivation.closure ≠ second.derivation.closure ∧
        first.ParsesAlike second := by
  intro attempt
  have listed : (attempt []).map (fun made => made.derivation.closure) =
      .ok [⟨2⟩, ⟨3⟩, ⟨6⟩, ⟨8⟩, ⟨7⟩, ⟨0⟩] := by
    decide +kernel
  have listed' : (attempt [.parsable ⟨5⟩ {}, .closure ⟨2⟩,
      .parsable ⟨3⟩ {}]).map (fun made => made.derivation.closure) =
      .ok [⟨2⟩, ⟨7⟩, ⟨0⟩, ⟨3⟩, ⟨8⟩, ⟨6⟩] := by
    decide +kernel
  obtain ⟨first, made, closure⟩ := exists_of_map_eq_ok listed
  obtain ⟨second, made', closure'⟩ := exists_of_map_eq_ok listed'
  refine ⟨first, second, made, made', ?_, ?_⟩
  · rw [closure, closure']
    decide
  · exact (parsesAlike_afterCalls clauses _ _ ⟨1⟩ none).2 first second made
      made'

end Session

end SemanticGrammar
