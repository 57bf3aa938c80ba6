import SemanticGrammar.Proofs.ChartParser
import SemanticGrammar.Proofs.HistoryIndependence
import SemanticGrammar.Proofs.ParseValues

/-!
# More trees only add readings

The chart engine gives the beginning of an enumeration that does not depend on
how many trees are asked for.  So the outcomes of an input, for all limits, are
those of the beginnings of one list of trees.  A greater limit adds trees after
those that are there, their values come after the values that are there, and
nothing changes once the list is exhausted.
-/

namespace SemanticGrammar

namespace Outcome

variable {V : Type}

def trees : Outcome V → List Tree
  | ok _ _ trees => trees
  | noParse _ => []
  | noInterpretation _ trees => trees

theorem trees_ofParse (tokens : List String) (trees : List Tree)
    (values : List V) : (ofParse tokens trees values).trees = trees := by
  cases trees with
  | nil => rfl
  | cons tree trees => cases values <;> rfl

/-- The outcome if no more than `limit` of all trees are listed. -/
def upTo (tokens : List String) (value? : Tree → Option V) (all : List Tree)
    (limit : Nat) : Outcome V :=
  ofParse tokens (all.take limit) ((all.take limit).filterMap value?)

/-- Whether an outcome with at most `limit` trees is continued by one with more
trees: these come after its own, and so do their values. -/
structure ContinuedBy (limit : Nat) (fewer more : Outcome V) : Prop where
  noParse_iff : ∀ tokens, fewer = .noParse tokens ↔ more = .noParse tokens
  trees : fewer.trees <+: more.trees
  values : fewer.values <+: more.values
  ok : ∀ first others trees, fewer = .ok first others trees →
    ∃ others' trees', more = .ok first others' trees'
  exhausted : fewer.trees.length < limit → fewer = more

variable {tokens : List String} {value? : Tree → Option V} {all : List Tree}
  {limit limit' : Nat}

theorem trees_upTo : (upTo tokens value? all limit).trees = all.take limit :=
  trees_ofParse _ _ _

theorem values_upTo : (upTo tokens value? all limit).values =
    (all.take limit).filterMap value? :=
  values_ofParse _ fun noTrees => by rw [noTrees]; rfl

/-- Since one tree may be listed, there is none exactly if there is none at
all. -/
theorem upTo_eq_noParse_iff (positive : 0 < limit) {others : List String} :
    upTo tokens value? all limit = .noParse others ↔
      all = [] ∧ others = tokens := by
  cases all with
  | nil => simp [upTo, ofParse, eq_comm]
  | cons tree all =>
      obtain ⟨count, rfl⟩ := Nat.exists_eq_succ_of_ne_zero positive.ne'
      rw [upTo, List.take_succ_cons]
      cases List.filterMap value? (tree :: all.take count) <;> simp [ofParse]

theorem upTo_eq_ok_iff {first : V} {others : List V} {trees : List Tree} :
    upTo tokens value? all limit = .ok first others trees ↔
      all.take limit = trees ∧ trees.filterMap value? = first :: others := by
  constructor
  · intro isOk
    have listed := congrArg Outcome.trees isOk
    rw [trees_upTo] at listed
    rw [upTo, listed] at isOk
    exact ⟨listed, (ofParse_eq_ok_iff.mp isOk).2⟩
  · rintro ⟨rfl, valued⟩
    refine ofParse_eq_ok_iff.mpr ⟨fun noTree => ?_, valued⟩
    rw [noTree] at valued
    cases valued

theorem upTo_continuedBy (positive : 0 < limit) (le : limit ≤ limit') :
    (upTo tokens value? all limit).ContinuedBy limit
      (upTo tokens value? all limit') := by
  have listed : all.take limit <+: all.take limit' :=
    List.take_prefix_take_left le
  have valued : (all.take limit).filterMap value? <+:
      (all.take limit').filterMap value? := listed.filterMap value?
  refine {
    noParse_iff := fun others => ?_
    trees := ?_
    values := ?_
    ok := fun first others trees isOk => ?_
    exhausted := fun fewer => ?_ }
  · rw [upTo_eq_noParse_iff positive,
      upTo_eq_noParse_iff (positive.trans_le le)]
  · rw [trees_upTo, trees_upTo]
    exact listed
  · rw [values_upTo, values_upTo]
    exact valued
  · obtain ⟨rfl, values⟩ := upTo_eq_ok_iff.mp isOk
    rw [values, List.cons_prefix_iff] at valued
    obtain ⟨others', values', -⟩ := valued
    exact ⟨others', _, upTo_eq_ok_iff.mpr ⟨rfl, values'⟩⟩
  · rw [trees_upTo, List.length_take] at fewer
    rw [upTo, upTo, List.take_of_length_le (by omega),
      List.take_of_length_le (by omega)]

end Outcome

namespace Session

variable {V : Type} {registry : Registry V} {session session' : Session V}
  {root : Symbol} {options : ParsingOptions} {maxTrees : Option Int}
  {first second : Parsable V}

/-- Parsables for one root derive the same but for its order, whatever was
called in their sessions before and whatever their options are. -/
theorem Exact.sameUpToOrder {options' : ParsingOptions}
    (exact : session.Exact registry) (exact' : session'.Exact registry)
    (made : (session.parsable root options).1 = .ok first)
    (made' : (session'.parsable root options').1 = .ok second) :
    first.derivation.SameUpToOrder second.derivation := by
  obtain ⟨closure, closed, derived, -⟩ := exact.exists_closure_of_parsable made
  obtain ⟨closure', closed', derived', -⟩ :=
    exact'.exists_closure_of_parsable made'
  rw [derived, derived']
  exact ⟨rfl, rfl, closed.perm closed', closed.nodup_cons⟩

/-- With the chart engine, parses that differ in how many trees they may list
have the beginnings of one list of trees. -/
theorem Exact.result_parse_eq_upTo (exact : session.Exact registry)
    (exact' : session'.Exact registry)
    (tests : TestsFailOnly registry.role fun _ => False)
    (builds : registry.BuildsFailOnly fun _ => False)
    (made : (session.parsable root options).1 = .ok first)
    (made' : (session'.parsable root { maxTrees := maxTrees }).1 = .ok second)
    (uses : List Use) (input : String) :
    ((second.afterUses uses).parse input).result =
      .ok (.upTo (first.tokenize input) first.value?
        (first.grammar.allTrees (first.tokenize input))
        (max 1 (maxTrees.getD 256)).toNat) := by
  have same : first.derivation.SameUpToOrder second.derivation :=
    exact.sameUpToOrder exact' made made'
  have sameTokenizer : first.tokenizer = second.tokenizer :=
    same.tokenizer_eq first.derives_tokenizer second.derives_tokenizer
  obtain ⟨-, -, -, options, unused⟩ := exact'.exists_closure_of_parsable made'
  have registry_eq : first.derivation.registry = registry := by
    obtain ⟨closure, -, derived, -⟩ := exact.exists_closure_of_parsable made
    exact congrArg Derivation.registry derived
  have decides : first.grammar.TestsNeverFail := by
    intro symbol member lexical token
    subst registry_eq
    exact (tests symbol member lexical token).exists_eq_ok
  have sameParser : second.chartParser = Chart.parser first.grammar maxTrees := by
    rw [Parsable.chartParser, options]
    exact (Chart.parser_eq_of_sameUpToHeads (same.sameUpToHeads_grammarOf
      first.derives_productions second.derives_productions) _).symm
  rw [((Parsable.Continues.refl unused).afterUses uses).result_parse
      (congrArg ParsingOptions.engine options),
    ← Parsable.outcomeOf_congr sameTokenizer same.registry_eq same.root_eq,
    sameParser]
  exact Parsable.outcomeOf_eq_ofParse
    (exact.exists_fromTree_eq_ok tests builds made)
    (Chart.parser_eq_ok decides maxTrees _)

/-- If callbacks are never stopped, whether a parsable with the chart engine is
made does not depend on how many trees may be listed, nor on earlier calls.
When it is made, there is no parse exactly if the root does not derive the
tokens at all, and a greater limit continues the outcome of a smaller one,
whatever each parsable was used for before. -/
theorem parse_maxTrees_afterCalls (registry : Registry V)
    (tests : TestsFailOnly registry.role fun _ => False)
    (builds : registry.BuildsFailOnly fun _ => False) (calls calls' : List Call)
    (root : Symbol) (small large : Int) (le : small ≤ large) :
    let attempt := fun calls maxTrees => (((ofRegistry registry).afterCalls
      calls).parsable root { maxTrees := some maxTrees }).1
    ((∃ first, attempt calls small = .ok first) ↔
        ∃ second, attempt calls' large = .ok second) ∧
      ∀ first second, attempt calls small = .ok first →
        attempt calls' large = .ok second → ∀ uses uses' input,
          first.tokenize input = second.tokenize input ∧
          ∃ fewer more,
            ((first.afterUses uses).parse input).result = .ok fewer ∧
            ((second.afterUses uses').parse input).result = .ok more ∧
            (fewer = .noParse (first.tokenize input) ↔
              ¬∃ tree, first.grammar.Derives root tree ∧
                tree.tokens = first.tokenize input) ∧
            fewer.ContinuedBy (max 1 small).toNat more := by
  intro attempt
  have exact := exact_afterCalls registry calls
  have exact' := exact_afterCalls registry calls'
  constructor
  · rw [exact.exists_parsable_iff_configured,
      exact'.exists_parsable_iff_configured]
  · intro first second made made' uses uses' input
    have same := exact.sameUpToOrder exact' made made'
    have sameTokenizer : first.tokenizer = second.tokenizer :=
      same.tokenizer_eq first.derives_tokenizer second.derives_tokenizer
    have starts : first.grammar.startSymbols = [root] := by
      obtain ⟨closure, -, derived, -⟩ := exact.exists_closure_of_parsable made
      exact congrArg (fun derivation => [Derivation.root derivation]) derived
    refine ⟨?_, _, _, exact.result_parse_eq_upTo exact tests builds made made
        uses input, exact.result_parse_eq_upTo exact' tests builds made made'
        uses' input, ?_, Outcome.upTo_continuedBy ?_ ?_⟩
    · rw [Parsable.tokenize, Parsable.tokenize, sameTokenizer]
    · have derives_iff : (∃ tree, tree ∈
          first.grammar.allTrees (first.tokenize input)) ↔
            ∃ tree, first.grammar.Derives root tree ∧
              tree.tokens = first.tokenize input := by
        rw [Grammar.exists_mem_allTrees_iff, starts]
        simp only [List.mem_singleton, exists_eq_left]
      rw [Outcome.upTo_eq_noParse_iff (by omega), and_iff_left rfl,
        ← derives_iff, not_exists]
      exact List.eq_nil_iff_forall_not_mem
    · omega
    · exact Int.toNat_le_toNat (max_le_max_left 1 le)

/-- Whether the second sentence belongs to what dogs say is open.  The limit of
one tree finds the first of the two readings. -/
theorem parse_maxTrees_afterCalls_clauses :
    let attempt := fun calls maxTrees => (((ofRegistry clauses).afterCalls
      calls).parsable ⟨1⟩ { maxTrees := some maxTrees }).1
    let input := "dogs say cats bark and dogs bark"
    ∃ first second fewer more, attempt [] 1 = .ok first ∧
      attempt [.closure ⟨5⟩, .parsable ⟨3⟩ {}] 7 = .ok second ∧
      (first.parse input).result = .ok fewer ∧
      (second.parse input).result = .ok more ∧
      fewer.ContinuedBy 1 more ∧
      fewer.values.length = 1 ∧ more.values.length = 2 := by
  intro attempt input
  have counted : (attempt [] 1).map (fun made =>
      (made.parse input).result.map fun found => found.values.length) =
        .ok (.ok 1) := by
    decide +kernel
  have counted' : (attempt [.closure ⟨5⟩, .parsable ⟨3⟩ {}] 7).map (fun made =>
      (made.parse input).result.map fun found => found.values.length) =
        .ok (.ok 2) := by
    decide +kernel
  obtain ⟨first, made, parsed⟩ := exists_of_map_eq_ok counted
  obtain ⟨second, made', parsed'⟩ := exists_of_map_eq_ok counted'
  obtain ⟨-, limits⟩ := parse_maxTrees_afterCalls clauses testsFailOnly_clauses
    buildsFailOnly_clauses [] [.closure ⟨5⟩, .parsable ⟨3⟩ {}] ⟨1⟩ 1 7 (by decide)
  obtain ⟨-, fewer, more, found, found', -, continued⟩ :=
    limits first second made made' [] [] input
  change (first.parse input).result = .ok fewer at found
  change (second.parse input).result = .ok more at found'
  rw [found] at parsed
  rw [found'] at parsed'
  exact ⟨first, second, fewer, more, made, made', found, found', continued,
    Except.ok.inj parsed, Except.ok.inj parsed'⟩

end Session

end SemanticGrammar
