import SemanticGrammar.Workspace

/-!
# Making a parsable and parsing

A parsable is made exactly when its productions and its tokenizer are.  With
the chart engine each of its parses has the outcome of the chart parser: the
parser that is kept is the one that would be made again.
-/

namespace SemanticGrammar

namespace Workspace

variable {V : Type}

@[simp]
theorem registry_keep (workspace : Workspace V) (root : Symbol)
    (closure : List Symbol) :
    (workspace.keep root closure).registry = workspace.registry := by
  unfold keep
  split <;> rfl

@[simp]
theorem registry_closure (workspace : Workspace V) (root : Symbol) :
    (workspace.closure root).2.registry = workspace.registry := by
  unfold closure
  split <;> simp

theorem derivation_eq_ok {workspace : Workspace V} {root : Symbol}
    {symbols : List Symbol}
    (closed : (workspace.closure root).1 = .ok symbols) :
    (workspace.derivation root).1 =
      .ok ⟨workspace.registry, root, symbols⟩ := by
  simp [derivation, closed, Except.map]

theorem parsable_eq_bind (workspace : Workspace V) (root : Symbol)
    (options : ParsingOptions) :
    (workspace.parsable root options).1 =
      (workspace.derivation root).1.bind fun derivation =>
        Parsable.ofDerivation? derivation options :=
  rfl

end Workspace

/-- The values of an outcome are those that were read, unless there is a value
without a tree. -/
theorem Outcome.values_ofParse {V : Type} (tokens : List String)
    {trees : List Tree} {values : List V}
    (noTree : trees = [] → values = []) :
    (Outcome.ofParse tokens trees values).values = values := by
  cases trees with
  | nil => rw [noTree rfl]; rfl
  | cons tree trees => cases values <;> rfl

namespace Parsable

variable {V : Type}

/-! ## Making a parsable -/

/-- A derivation with productions and a tokenizer has a parsable, which has
not called its engine. -/
theorem ofDerivation?_eq_ok {derivation : Derivation V}
    {productions : List Production} {tokenizer : Tokenizer}
    (derivesProductions : derivation.productions = .ok productions)
    (derivesTokenizer : derivation.tokenizer = .ok tokenizer)
    (options : ParsingOptions) :
    ofDerivation? derivation options =
      .ok {
        derivation := derivation
        productions := productions
        tokenizer := tokenizer
        derives_productions := derivesProductions
        derives_tokenizer := derivesTokenizer
        options := options } := by
  unfold ofDerivation?
  split
  · rename_i fault failed
    rw [derivesProductions] at failed
    cases failed
  · rename_i checked checkedProductions
    obtain rfl := Except.ok.inj (derivesProductions.symm.trans checkedProductions)
    split
    · rename_i fault failed
      rw [derivesTokenizer] at failed
      cases failed
    · rename_i checked checkedTokenizer
      obtain rfl := Except.ok.inj (derivesTokenizer.symm.trans checkedTokenizer)
      rfl

/-! ## Parsing with the chart engine -/

/-- The parser that the chart engine makes for a parsable. -/
def chartParser (parsable : Parsable V) : Parser :=
  Chart.parser parsable.grammar parsable.options.maxTrees

/-- Whether a parsable has the chart engine and keeps no parser but the one
that this engine makes. -/
structure UsesChart (parsable : Parsable V) : Prop where
  engine_eq : parsable.options.engine = Engine.chart
  parser?_eq : ∀ parser ∈ parsable.parser?, parser = parsable.chartParser

variable {parsable : Parsable V}

theorem UsesChart.result_requireParser (uses : parsable.UsesChart) :
    parsable.requireParser.result = .ok parsable.chartParser := by
  unfold requireParser
  split
  · rename_i parser kept
    rw [uses.parser?_eq parser kept]
  · rw [uses.engine_eq]
    rfl

theorem UsesChart.result_parse (uses : parsable.UsesChart) (input : String) :
    (parsable.parse input).result =
      parsable.outcomeOf input parsable.chartParser := by
  rw [parse, uses.result_requireParser]
  rfl

theorem UsesChart.result_parseTrees (uses : parsable.UsesChart)
    (input : String) :
    (parsable.parseTrees input).result =
      parsable.chartParser (parsable.tokenize input) := by
  rw [parseTrees]
  simp only [uses.result_requireParser]
  rfl

theorem outcomeOf_eq_ok {input : String} {parser : Parser}
    {trees : List Tree} {values : List V}
    (parsed : parser (parsable.tokenize input) = .ok trees)
    (read : parsable.reader.readings parsable.root trees = .ok values) :
    parsable.outcomeOf input parser =
      .ok (.ofParse (parsable.tokenize input) trees values) := by
  simp only [outcomeOf, parsed]
  exact congrArg (Except.map (Outcome.ofParse _ trees)) read

end Parsable

end SemanticGrammar
