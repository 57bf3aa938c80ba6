import SemanticGrammar.Proofs.SymbolTrees

/-!
# The values of a parse

A parse reads each tree that the engine lists, whatever trees these are, and its
values are those of the trees that have one, in the order of the trees.  So no
value comes from a tree that is not one of the root, and how a parse went says
whether there were trees and whether some tree had a value.
-/

namespace SemanticGrammar

theorem Reader.readings_eq_filterMap {V : Type} {reader : Reader V}
    {symbol : Symbol} {trees : List Tree}
    (each : ∀ tree ∈ trees, ∃ value?, reader.read symbol tree = .ok value?) :
    reader.readings symbol trees =
      .ok (trees.filterMap fun tree =>
        (reader.read symbol tree).toOption.join) := by
  induction trees with
  | nil => rfl
  | cons tree trees ih =>
      rw [List.forall_mem_cons] at each
      obtain ⟨⟨value?, read⟩, others⟩ := each
      rw [readings, read, ih others, List.filterMap_cons, read]
      cases value? <;> rfl

namespace Outcome

variable {V : Type} {tokens : List String} {trees : List Tree}
  {values : List V}

theorem ofParse_eq_noParse_iff :
    ofParse tokens trees values = .noParse tokens ↔ trees = [] := by
  cases trees with
  | nil => simp [ofParse]
  | cons tree trees => cases values <;> simp [ofParse]

theorem ofParse_eq_noInterpretation_iff :
    ofParse tokens trees values = .noInterpretation tokens trees ↔
      trees ≠ [] ∧ values = [] := by
  cases trees with
  | nil => simp [ofParse]
  | cons tree trees => cases values <;> simp [ofParse]

theorem ofParse_eq_ok_iff {first : V} {others : List V} :
    ofParse tokens trees values = .ok first others trees ↔
      trees ≠ [] ∧ values = first :: others := by
  cases trees with
  | nil => simp [ofParse]
  | cons tree trees => cases values <;> simp [ofParse]

end Outcome

namespace Parsable

variable {V : Type} {parsable : Parsable V} {input : String}
  {trees : List Tree}

/-- The value of a tree as the root symbol reads it, if there is one. -/
def value? (parsable : Parsable V) (tree : Tree) : Option V :=
  (parsable.fromTree tree).toOption.join

theorem outcomeOf_eq_ofParse {parser : Parser}
    (reads : ∀ tree, ∃ value?, parsable.fromTree tree = .ok value?)
    (parsed : parser (parsable.tokenize input) = .ok trees) :
    parsable.outcomeOf input parser =
      .ok (.ofParse (parsable.tokenize input) trees
        (trees.filterMap parsable.value?)) :=
  outcomeOf_eq_ok parsed
    (Reader.readings_eq_filterMap fun tree _ => reads tree)

theorem result_parse_of_parseTrees
    (reads : ∀ tree, ∃ value?, parsable.fromTree tree = .ok value?)
    (listed : (parsable.parseTrees input).result = .ok trees) :
    (parsable.parse input).result =
      .ok (.ofParse (parsable.tokenize input) trees
        (trees.filterMap parsable.value?)) := by
  rw [parseTrees] at listed
  rw [parse]
  cases required : parsable.requireParser.result with
  | error fault =>
      rw [required] at listed
      cases listed
  | ok parser =>
      rw [required] at listed
      exact outcomeOf_eq_ofParse reads listed

theorem Continues.fromTree_eq {earlier later : Parsable V}
    (continues : earlier.Continues later) :
    later.fromTree = earlier.fromTree := by
  obtain ⟨⟨calls, parser?, rfl⟩, -⟩ := continues
  rfl

end Parsable

namespace Session

variable {V : Type} {registry : Registry V} {session : Session V}
  {root : Symbol} {options : ParsingOptions} {parsable : Parsable V}

/-- A parsable that a session makes reads trees as its root does. -/
theorem Exact.fromTree_eq (exact : session.Exact registry)
    (made : (session.parsable root options).1 = .ok parsable) (tree : Tree) :
    parsable.fromTree tree = registry.reader.read root tree := by
  obtain ⟨closure, -, derived, -⟩ := exact.exists_closure_of_parsable made
  rw [Parsable.fromTree, parsable.reader_eq, Parsable.root, derived]

theorem Exact.wellDeclared_of_parsable (exact : session.Exact registry)
    (made : (session.parsable root options).1 = .ok parsable) {symbol : Symbol}
    (involved : registry.Involves root symbol) : registry.WellDeclared symbol :=
  ((exact.exists_parsable_iff_configured root options).mp
    ⟨parsable, made⟩).wellDeclared symbol involved

theorem Exact.exists_fromTree_eq_ok (exact : session.Exact registry)
    (tests : TestsFailOnly registry.role fun _ => False)
    (builds : registry.BuildsFailOnly fun _ => False)
    (made : (session.parsable root options).1 = .ok parsable) (tree : Tree) :
    ∃ value?, parsable.fromTree tree = .ok value? := by
  rw [exact.fromTree_eq made]
  have read : FailsOnly (fun _ => False) (registry.reader.read root tree) :=
    Reader.failsOnly_read
      (fun _ involved => exact.wellDeclared_of_parsable made involved) tests
      builds tree .refl
  exact read.exists_eq_ok

/-- If callbacks are never stopped, a symbol whose rules can be used reads every
tree.  It finds a value just for its own trees, the one that is computed from
the leaves upwards, unless a constructor declines.  So a parse, with any engine
and after any calls and uses, has the values of those trees of the engine that
have one, in the order of the trees.  It finds nothing exactly if there are no
trees, and no interpretation exactly if there are trees and none has a value.
Otherwise the first of the values is that of the parse. -/
theorem values_afterCalls (registry : Registry V)
    (tests : TestsFailOnly registry.role fun _ => False)
    (builds : registry.BuildsFailOnly fun _ => False) :
    (∀ symbol tree, (∀ other, registry.Involves symbol other →
        registry.WellDeclared other) →
      (∃ value?, registry.reader.read symbol tree = .ok value?) ∧
        (∀ value, registry.reader.read symbol tree = .ok (some value) ↔
          registry.IsTreeOf symbol tree ∧ registry.Evaluates tree value) ∧
        (registry.reader.read symbol tree = .ok none ↔
          ¬registry.IsTreeOf symbol tree ∨
            ∃ head children, .node head children ∈ tree.subtrees ∧
              registry.Declines head children)) ∧
      ∀ calls root options parsable,
        (((ofRegistry registry).afterCalls calls).parsable root options).1 =
            .ok parsable →
          ∀ uses, let later := parsable.afterUses uses
            (∀ tree, later.fromTree tree = registry.reader.read root tree ∧
              later.fromTree tree = .ok (later.value? tree)) ∧
            ∀ input trees, (later.parseTrees input).result = .ok trees →
              ∃ outcome, (later.parse input).result = .ok outcome ∧
                outcome.values = trees.filterMap later.value? ∧
                (outcome = .noParse (later.tokenize input) ↔ trees = []) ∧
                (outcome = .noInterpretation (later.tokenize input) trees ↔
                  trees ≠ [] ∧ ∀ tree ∈ trees, later.value? tree = none) ∧
                ∀ first others, outcome = .ok first others trees ↔
                  trees.filterMap later.value? = first :: others := by
  constructor
  · intro symbol tree wellDeclared
    have read : FailsOnly (fun _ => False)
        (registry.reader.read symbol tree) :=
      Reader.failsOnly_read wellDeclared tests builds tree .refl
    exact ⟨read.exists_eq_ok, fun value => Reader.read_eq_some_iff,
      Reader.read_eq_none_iff_of_involves wellDeclared tests builds⟩
  · intro calls root options parsable made uses later
    have exact := exact_afterCalls registry calls
    obtain ⟨-, -, -, -, unused⟩ := exact.exists_closure_of_parsable made
    have same : later.fromTree = parsable.fromTree :=
      ((Parsable.Continues.refl unused).afterUses uses).fromTree_eq
    have reads : ∀ tree, ∃ value?, later.fromTree tree = .ok value? := by
      rw [same]
      exact exact.exists_fromTree_eq_ok tests builds made
    refine ⟨fun tree => ⟨?_, ?_⟩, fun input trees listed =>
      ⟨_, Parsable.result_parse_of_parseTrees reads listed, ?_,
        Outcome.ofParse_eq_noParse_iff, ?_, fun first others => ?_⟩⟩
    · rw [same, exact.fromTree_eq made]
    · obtain ⟨value?, read⟩ := reads tree
      rw [Parsable.value?, read]
      rfl
    · exact Outcome.values_ofParse _ fun noTrees => by rw [noTrees]; rfl
    · rw [Outcome.ofParse_eq_noInterpretation_iff, List.filterMap_eq_nil_iff]
    · rw [Outcome.ofParse_eq_ok_iff]
      refine and_iff_right_of_imp fun found noTrees => ?_
      rw [noTrees] at found
      cases found

/-- Five trees, of which the first is none of sentences, the second has the
children of no rule, the third has a leaf outside its category and the fourth an
empty subject. -/
def carelessTrees : List Tree :=
  [.node ⟨2⟩ [.leaf ⟨7⟩ "dogs"],
    .node ⟨1⟩ [.node ⟨2⟩ [.leaf ⟨7⟩ "dogs"]],
    .node ⟨1⟩ [.node ⟨2⟩ [.leaf ⟨7⟩ "bark"], .node ⟨3⟩ [.leaf ⟨8⟩ "bark"]],
    .node ⟨1⟩ [.node ⟨2⟩ [.empty], .node ⟨3⟩ [.leaf ⟨8⟩ "bark"]],
    .node ⟨1⟩ [.node ⟨2⟩ [.leaf ⟨7⟩ "dogs"], .node ⟨3⟩ [.leaf ⟨8⟩ "bark"]]]

/-- An engine that takes no notice of the grammar and the tokens. -/
def carelessEngine : Engine :=
  fun _ _ _ => .ok fun _ => .ok carelessTrees

/-- The one sentence among the careless trees is what any text is read as. -/
theorem values_afterCalls_careless :
    ∃ parsable,
      ((ofRegistry clauses).parsable ⟨1⟩ { engine := carelessEngine }).1 =
          .ok parsable ∧
        (parsable.parse "no sentence").result =
          .ok (.ok "((dogs) bark)" [] carelessTrees) ∧
        ∃ tree ∈ carelessTrees, clauses.IsTreeOf ⟨1⟩ tree ∧
          clauses.Evaluates tree "((dogs) bark)" := by
  have valued : ((ofRegistry clauses).parsable ⟨1⟩
      { engine := carelessEngine }).1.map (fun made =>
        carelessTrees.filterMap made.value?) = .ok ["((dogs) bark)"] := by
    decide +kernel
  obtain ⟨parsable, made, values⟩ := exists_of_map_eq_ok valued
  have exact := exact_afterCalls clauses []
  obtain ⟨-, -, -, options, unused⟩ := exact.exists_closure_of_parsable made
  have listed :
      (parsable.parseTrees "no sentence").result = .ok carelessTrees := by
    simp only [Parsable.parseTrees, Parsable.requireParser, unused, options]
    rfl
  obtain ⟨readings, parses⟩ :=
    values_afterCalls clauses testsFailOnly_clauses buildsFailOnly_clauses
  obtain ⟨read, found⟩ := parses [] ⟨1⟩ _ parsable made []
  obtain ⟨outcome, parsed, -, -, -, isOk⟩ := found "no sentence" _ listed
  obtain rfl := (isOk "((dogs) bark)" []).mpr values
  have valuable : "((dogs) bark)" ∈ carelessTrees.filterMap parsable.value? := by
    rw [values]
    exact List.mem_singleton_self _
  obtain ⟨tree, isMember, value⟩ := List.mem_filterMap.mp valuable
  obtain ⟨sameReading, total⟩ := read tree
  obtain ⟨-, reads_iff, -⟩ := readings ⟨1⟩ tree fun _ involved =>
    exact.wellDeclared_of_parsable made involved
  refine ⟨parsable, made, parsed, tree, isMember, (reads_iff _).mp ?_⟩
  rw [← sameReading, total]
  exact congrArg Except.ok value

end Session

end SemanticGrammar
