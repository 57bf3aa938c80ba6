import SemanticGrammar.Proofs.ChartSoundness
import SemanticGrammar.Proofs.Configuration
import SemanticGrammar.Proofs.Tokenizer.Coverage
import SemanticGrammar.Proofs.TreeReading

/-!
# Uses of a parsable

Uses change nothing about a parsable but what is known of its engine, and a
parser that is kept was made by the engine.  So a use is stopped by faults of
the engine, of the parsers that it makes, of the membership tests and of the
constructors, and by no others.
-/

namespace SemanticGrammar

namespace Parsable

variable {V : Type}

/-- Whether the engine of a parsable, and all parsers that it makes for the
grammar, stop with allowed faults only. -/
structure EngineFailsOnly (parsable : Parsable V) (allowed : Fault → Prop) :
    Prop where
  engine : ∀ calls, FailsOnly allowed (parsable.options.engine calls
    parsable.grammar parsable.options.maxTrees)
  parser : ∀ calls parser, parsable.options.engine calls parsable.grammar
      parsable.options.maxTrees = .ok parser →
    ∀ tokens, FailsOnly allowed (parser tokens)

/-- Whether the inputs of a parsable are covered by tokens, and all its other
uses stop with allowed faults only. -/
structure UsesFailOnly (parsable : Parsable V) (allowed : Fault → Prop) :
    Prop where
  scan : ∀ explain input, parsable.tokenizer.scan explain input =
    .ok (parsable.tokenize input)
  parseTrees : ∀ input, FailsOnly allowed (parsable.parseTrees input).result
  parse : ∀ input, FailsOnly allowed (parsable.parse input).result
  parseValues : ∀ input, FailsOnly allowed (parsable.parseValues input).result
  fromTree : ∀ tree, FailsOnly allowed (parsable.fromTree tree)

/-- Whether a parsable differs from an earlier one at most in what is known of
the engine, which has made the parser that is kept. -/
structure Continues (earlier later : Parsable V) : Prop where
  same : ∃ calls parser?, later =
    { earlier with engineCalls := calls, parser? := parser? }
  made : ∀ parser ∈ later.parser?, ∃ calls, earlier.options.engine calls
    earlier.grammar earlier.options.maxTrees = .ok parser

variable {earlier later parsable : Parsable V} {allowed : Fault → Prop}

/-! ## What uses leave behind -/

theorem Continues.refl (unused : parsable.parser? = none) :
    parsable.Continues parsable where
  same := ⟨parsable.engineCalls, parsable.parser?, rfl⟩
  made := by simp [unused]

theorem Continues.exists_result_requireParser
    (continues : earlier.Continues later) :
    ∃ calls, later.requireParser.result = earlier.options.engine calls
      earlier.grammar earlier.options.maxTrees := by
  obtain ⟨⟨calls, parser?, rfl⟩, made⟩ := continues
  unfold requireParser
  split
  · rename_i parser kept
    obtain ⟨calls', result⟩ := made parser kept
    exact ⟨calls', result.symm⟩
  · exact ⟨calls, rfl⟩

theorem Continues.requireParser (continues : earlier.Continues later) :
    earlier.Continues later.requireParser.parsable := by
  obtain ⟨⟨calls, parser?, rfl⟩, made⟩ := continues
  unfold Parsable.requireParser
  split
  · exact ⟨⟨calls, parser?, rfl⟩, made⟩
  · refine ⟨⟨_, _, rfl⟩, fun parser kept => ⟨calls, ?_⟩⟩
    change (earlier.options.engine calls earlier.grammar
      earlier.options.maxTrees).toOption = some parser at kept
    cases result : earlier.options.engine calls earlier.grammar
        earlier.options.maxTrees with
    | error fault =>
        rw [result] at kept
        cases kept
    | ok made =>
        rw [result] at kept
        exact congrArg Except.ok (Option.some.inj kept)

theorem Continues.afterUse (continues : earlier.Continues later) (use : Use) :
    earlier.Continues (later.afterUse use) := by
  cases use with
  | tokenize input => exact continues
  | parse input => exact continues.requireParser
  | parseTrees input => exact continues.requireParser
  | parseValues input => exact continues.requireParser
  | fromTree tree => exact continues

theorem Continues.afterUses (continues : earlier.Continues later)
    (uses : List Use) : earlier.Continues (later.afterUses uses) := by
  induction uses generalizing later with
  | nil => exact continues
  | cons use uses ih => exact ih (continues.afterUse use)

/-! ## What stops a use -/

theorem Continues.failsOnly_parseTrees (continues : earlier.Continues later)
    (engine : earlier.EngineFailsOnly allowed) (input : String) :
    FailsOnly allowed (later.parseTrees input).result := by
  obtain ⟨calls, result⟩ := continues.exists_result_requireParser
  rw [parseTrees]
  simp only [result]
  exact (engine.engine calls).bind fun parser made =>
    engine.parser calls parser made _

theorem Continues.failsOnly_parse (continues : earlier.Continues later)
    (engine : earlier.EngineFailsOnly allowed)
    (reads : ∀ tree, FailsOnly allowed (later.fromTree tree)) (input : String) :
    FailsOnly allowed (later.parse input).result := by
  obtain ⟨calls, result⟩ := continues.exists_result_requireParser
  rw [parse]
  simp only [result]
  refine (engine.engine calls).bind fun parser made => ?_
  refine (engine.parser calls parser made _).bind fun trees _ => ?_
  have readings : FailsOnly allowed
      (later.reader.readings later.root trees) :=
    Reader.failsOnly_readings fun tree _ => reads tree
  exact readings.bind fun values _ => .ok _

theorem failsOnly_fromTree
    (wellDeclared : ∀ symbol,
      parsable.derivation.registry.Involves parsable.root symbol →
        parsable.derivation.registry.WellDeclared symbol)
    (tests : TestsFailOnly parsable.derivation.registry.role allowed)
    (builds : parsable.derivation.registry.BuildsFailOnly allowed)
    (tree : Tree) : FailsOnly allowed (parsable.fromTree tree) := by
  have registry_eq : parsable.reader.registry = parsable.derivation.registry :=
    congrArg Reader.registry parsable.reader_eq
  rw [← registry_eq] at wellDeclared tests builds
  exact Reader.failsOnly_read wellDeclared tests builds tree .refl

theorem Continues.usesFailOnly (continues : earlier.Continues later)
    (wellDeclared : ∀ symbol,
      earlier.derivation.registry.Involves earlier.root symbol →
        earlier.derivation.registry.WellDeclared symbol)
    (tests : TestsFailOnly earlier.derivation.registry.role allowed)
    (builds : earlier.derivation.registry.BuildsFailOnly allowed)
    (engine : earlier.EngineFailsOnly allowed) :
    later.UsesFailOnly allowed := by
  have reads : ∀ tree, FailsOnly allowed (later.fromTree tree) := by
    obtain ⟨⟨calls, parser?, rfl⟩, -⟩ := continues
    exact failsOnly_fromTree wellDeclared tests builds
  have nonempty : ∀ literal ∈ later.tokenizer.literals, literal ≠ "" :=
    fun literal => Tokenizer.ne_empty_of_mem_literals
      (Derivation.tokenizer_eq_ok_iff.mp later.derives_tokenizer)
  exact {
    scan := Tokenizer.scan_eq_ok nonempty
    parseTrees := continues.failsOnly_parseTrees engine
    parse := continues.failsOnly_parse engine reads
    parseValues := fun input =>
      (continues.failsOnly_parse engine reads input).map
    fromTree := reads }

/-- The chart engine adds no faults to those of the membership tests. -/
theorem engineFailsOnly_chart
    (chart : parsable.options.engine = Engine.chart)
    (tests : TestsFailOnly parsable.derivation.registry.role allowed) :
    parsable.EngineFailsOnly allowed := by
  have grammarTests : TestsFailOnly parsable.grammar.role allowed := tests
  constructor
  · intro calls
    rw [chart]
    exact .ok _
  · intro calls parser made tokens
    rw [chart] at made
    obtain rfl := Except.ok.inj made
    exact Chart.failsOnly_parse grammarTests _ tokens

end Parsable

/-- After any calls, a parsable cannot be made exactly when some rules that the
root involves cannot be had or repeat a constituent sequence, or some token that
the root owns is empty, holds a blank or is a concatenation of others.  When it
is made, no use of it is ever stopped but by faults of its callbacks: by none if
they never stop, and by no configuration error if they raise none. -/
theorem Session.parsable_afterCalls {V : Type} (registry : Registry V)
    (calls : List Call) (root : Symbol) (options : ParsingOptions) :
    let attempt :=
      (((ofRegistry registry).afterCalls calls).parsable root options).1
    ((∃ fault, attempt = .error fault) ↔
        (∃ symbol, registry.Involves root symbol ∧
          ∃ fault, registry.rules symbol = .error fault) ∨
        (∃ symbol rules, registry.Involves root symbol ∧
          registry.rules symbol = .ok rules ∧
          ¬(rules.map Rule.constituents).Nodup) ∨
        (∃ token, registry.Owns root token ∧ (token = "" ∨
          ∃ character ∈ token.toList, Text.isBlank character = true)) ∨
        ∃ token parts, registry.Owns root token ∧ 2 ≤ List.length parts ∧
          (∀ part ∈ parts, registry.Owns root part ∧ part ≠ token) ∧
          String.join parts = token) ∧
      ∀ parsable, attempt = .ok parsable → ∀ allowed,
        TestsFailOnly registry.role allowed → registry.BuildsFailOnly allowed →
          parsable.EngineFailsOnly allowed →
            ∀ uses, (parsable.afterUses uses).UsesFailOnly allowed := by
  intro attempt
  have exact := exact_afterCalls registry calls
  have made_iff := exact.exists_parsable_iff_configured root options
  constructor
  · rw [← Registry.not_configured_iff, ← made_iff]
    exact exists_error_iff
  · intro parsable made allowed tests builds engine uses
    have configured := made_iff.mp ⟨parsable, made⟩
    obtain ⟨closure, -, derived, -, unused⟩ :=
      exact.exists_closure_of_parsable made
    have registry_eq : parsable.derivation.registry = registry :=
      congrArg Derivation.registry derived
    have root_eq : parsable.root = root := congrArg Derivation.root derived
    refine ((Parsable.Continues.refl unused).afterUses uses).usesFailOnly
      ?_ ?_ ?_ engine
    · rw [registry_eq, root_eq]
      exact configured.wellDeclared
    · exact registry_eq ▸ tests
    · exact registry_eq ▸ builds

theorem testsFailOnly_clauses :
    TestsFailOnly clauses.role fun _ => False := by
  intro symbol member lexical token
  unfold Registry.role at lexical
  split at lexical
  all_goals cases lexical
  · exact .ok _
  · rename_i name declared
    have known := Array.mem_of_getElem? declared
    simp only [clauses, List.mem_toArray, List.mem_cons, List.not_mem_nil,
      Declaration.category.injEq, or_false, reduceCtorEq, false_or] at known
    rcases known with ⟨-, rfl⟩ | ⟨-, rfl⟩
    all_goals exact .ok _

theorem buildsFailOnly_clauses : clauses.BuildsFailOnly fun _ => False := by
  intro symbol rules declared rule isMember values
  unfold Registry.rules at declared
  split at declared
  · rename_i name tokens own found
    have known := Array.mem_of_getElem? found
    subst declared
    simp only [clauses, List.mem_toArray, List.mem_cons, List.not_mem_nil,
      Declaration.nonterminal.injEq, Except.ok.injEq, or_false, reduceCtorEq,
      false_or, and_false] at known
    have built : rule.build = clauses.join ∨
        rule.build = clauses.intransitive := by
      rcases known with ⟨-, -, rfl⟩ | ⟨-, -, rfl⟩ | ⟨-, -, rfl⟩ | ⟨-, -, rfl⟩
      all_goals
        simp only [List.mem_cons, List.not_mem_nil, or_false] at isMember
        grind
    rcases built with join | intransitive
    · rw [join]
      exact .ok _
    · rw [intransitive]
      exact .ok _
  · obtain rfl := Except.ok.inj declared
    cases isMember

/-- After a failure and another parsable, a parsable for sentences is made that
nothing stops, and none for reports. -/
theorem Session.parsable_afterCalls_clauses :
    let calls := [.parsable ⟨5⟩ {}, .parsable ⟨3⟩ {}, .use 0 (.parse "say")]
    let session := (ofRegistry clauses).afterCalls calls
    (∃ parsable, (session.parsable ⟨1⟩ {}).1 = .ok parsable ∧
      ∀ uses, (parsable.afterUses uses).UsesFailOnly fun _ => False) ∧
      ∃ fault, (session.parsable ⟨5⟩ {}).1 = .error fault := by
  intro calls session
  obtain ⟨-, uses⟩ := parsable_afterCalls clauses calls ⟨1⟩ {}
  obtain ⟨fails_iff, -⟩ := parsable_afterCalls clauses calls ⟨5⟩ {}
  constructor
  · have usable : (session.parsable ⟨1⟩ {}).1.map (fun _ => ()) = .ok () := by
      decide +kernel
    obtain ⟨parsable, made, -⟩ := exists_of_map_eq_ok usable
    obtain ⟨closure, -, derived, options, -⟩ :=
      (exact_afterCalls clauses calls).exists_closure_of_parsable made
    have registry_eq : parsable.derivation.registry = clauses :=
      congrArg Derivation.registry derived
    have engine : parsable.EngineFailsOnly fun _ => False :=
      Parsable.engineFailsOnly_chart (congrArg ParsingOptions.engine options)
        (registry_eq ▸ testsFailOnly_clauses)
    exact ⟨parsable, made, uses parsable made _ testsFailOnly_clauses
      buildsFailOnly_clauses engine⟩
  · refine fails_iff.mpr (Or.inl ⟨⟨4⟩, ?_, .error "unknown", rfl⟩)
    exact .single ⟨[⟨1⟩, ⟨4⟩], rfl, by decide⟩

end SemanticGrammar
