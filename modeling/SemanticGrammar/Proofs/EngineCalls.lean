import SemanticGrammar.Parsable.Operation
import SemanticGrammar.Proofs.Configuration

/-!
# Engine calls and failures

The engine of a parsable is called when a parser is needed, until a call gives
one.  So all operations on a parsable are served by the first call that gives a
parser or, as long as there is none, by the next call.  What an operation gives
depends on the call that serves it and not on the operations before it.  A
failure leaves nothing behind but the call, if the operation needed a parser.
-/

namespace SemanticGrammar

/-- The grammar and the bound of an engine call. -/
def Event.engineCall? : Event → Option (Grammar × Option Int)
  | engineCalled grammar maxTrees => some (grammar, maxTrees)
  | logged _ => none

def Operation.parsedInput? : Operation → Option String
  | use (.parse input) => some input
  | use (.parseValues input) => some input
  | _ => none

def Outcome.levelOf {V : Type} : Except Fault (Outcome V) → LogLevel
  | .ok (.ok _ _ _) => .debug
  | .ok (.noParse _) => .warn
  | .ok (.noInterpretation _ _) => .warn
  | .error _ => .error

/-- Reading trees is stopped at the first tree that is stopped. -/
theorem Reader.readings_eq_error_iff {V : Type} {reader : Reader V}
    {symbol : Symbol} {trees : List Tree} {fault : Fault} :
    reader.readings symbol trees = .error fault ↔
      ∃ before tree after, trees = before ++ tree :: after ∧
        (∀ other ∈ before, ∃ value, reader.read symbol other = .ok value) ∧
        reader.read symbol tree = .error fault := by
  induction trees with
  | nil => simp [readings]
  | cons tree trees ih =>
      have step : reader.readings symbol (tree :: trees) =
          (reader.read symbol tree).bind fun value =>
            (reader.readings symbol trees).map (value.toList ++ ·) := rfl
      rw [step, bind_eq_error_iff]
      simp only [map_eq_error_iff, ih]
      constructor
      · rintro (failed | ⟨value, isRead, before, other, after, rfl, earlier,
          failed⟩)
        · exact ⟨[], tree, trees, rfl, by simp, failed⟩
        · exact ⟨tree :: before, other, after, rfl,
            List.forall_mem_cons.mpr ⟨⟨value, isRead⟩, earlier⟩, failed⟩
      · rintro ⟨before, other, after, split, earlier, failed⟩
        cases before with
        | nil =>
            obtain ⟨rfl, -⟩ := List.cons.inj split
            exact Or.inl failed
        | cons first before =>
            obtain ⟨rfl, rfl⟩ := List.cons.inj split
            obtain ⟨⟨value, isRead⟩, others⟩ := List.forall_mem_cons.mp earlier
            exact Or.inr ⟨value, isRead, before, other, after, rfl, others,
              failed⟩

namespace Parsable

variable {V : Type}

/-! ## What operations give, report and leave behind -/

def attempt (parsable : Parsable V) (call : Nat) : Except Fault Parser :=
  parsable.options.engine call parsable.grammar parsable.options.maxTrees

/-- What an operation gives if a call of the engine gives `made`. -/
def answerWith (parsable : Parsable V) (made : Except Fault Parser) :
    Operation → Except Fault (Answer V)
  | .use (.tokenize input) => .ok (.tokens (parsable.tokenize input))
  | .use (.parse input) =>
      (made.bind (parsable.outcomeOf input)).map .outcome
  | .use (.parseTrees input) =>
      (made.bind fun parser => parser (parsable.tokenize input)).map .trees
  | .use (.parseValues input) =>
      ((made.bind (parsable.outcomeOf input)).map Outcome.values).map .values
  | .use (.fromTree tree) => (parsable.fromTree tree).map .value
  | .parser => made.map .parser
  | .member member => .ok (parsable.read member)

/-- The log entries of an operation if a call of the engine gives `made`. -/
def entriesWith (parsable : Parsable V) (made : Except Fault Parser)
    (operation : Operation) : List LogEntry :=
  (operation.parsedInput?.map fun input =>
    parsable.parseEntry input (made.bind (parsable.outcomeOf input))).toList

/-- What stops a parse of an input if a call of the engine gives `made`. -/
inductive Stops (parsable : Parsable V) (made : Except Fault Parser)
    (input : String) : Fault → Prop
  | engine {fault : Fault} (failed : made = .error fault) :
      Stops parsable made input fault
  | parser {fault : Fault} {parser : Parser} (isMade : made = .ok parser)
      (failed : parser (parsable.tokenize input) = .error fault) :
      Stops parsable made input fault
  | tree {fault : Fault} {parser : Parser} {before after : List Tree}
      {tree : Tree} (isMade : made = .ok parser)
      (parsed : parser (parsable.tokenize input) =
        .ok (before ++ tree :: after))
      (read : ∀ other ∈ before, ∃ value, parsable.fromTree other = .ok value)
      (failed : parsable.fromTree tree = .error fault) :
      Stops parsable made input fault

/-- Whether an engine call serves the operations after some calls: it is the
first one that gives a parser or, if none has, the next one. -/
structure ServedBy (parsable : Parsable V) (calls call : Nat) : Prop where
  within : call ≤ calls
  failed : ∀ earlier < call, ∃ fault, parsable.attempt earlier = .error fault
  made : call < calls →
    calls = call + 1 ∧ ∃ parser, parsable.attempt call = .ok parser

/-- Whether some log entries are those of an operation: one for each parse, and
none for any other operation. -/
structure Logs (parsable : Parsable V) (made : Except Fault Parser)
    (operation : Operation) (entries : List LogEntry) : Prop where
  quiet : operation.parsedInput? = none → entries = []
  once : ∀ input, operation.parsedInput? = some input →
    ∃ entry, entries = [entry] ∧
      entry.level = Outcome.levelOf (made.bind (parsable.outcomeOf input))
  stops : ∀ input, operation.parsedInput? = some input →
    ∀ fault, parsable.answerWith made operation = .error fault ↔
      parsable.Stops made input fault
  failed : ∀ input, operation.parsedInput? = some input →
    ∀ fault, parsable.answerWith made operation = .error fault →
      entries = [.failed parsable.name fault.message]

/-- What an operation does to a state of a parsable, given the engine call that
serves it. -/
structure Performs (fresh state : Parsable V) (call : Nat)
    (operation : Operation) : Prop where
  result : (state.perform operation).result =
    fresh.answerWith (fresh.attempt call) operation
  parsable : (state.perform operation).parsable =
    if operation.needsParser then
      { fresh with
        engineCalls := call + 1
        parser? := (fresh.attempt call).toOption }
    else state
  events : ∃ entries, fresh.Logs (fresh.attempt call) operation entries ∧
    (state.perform operation).events =
      (if operation.needsParser ∧ call = state.engineCalls then
        [.engineCalled fresh.grammar fresh.options.maxTrees]
      else []) ++ entries.map .logged

variable {fresh state : Parsable V} {calls call : Nat}

/-! ## One operation -/

section Perform

variable (state) (operation : Operation)

theorem result_perform :
    (state.perform operation).result =
      state.answerWith state.requireParser.result operation := by
  cases operation with
  | use use => cases use <;> rfl
  | parser => rfl
  | member member => rfl

theorem parsable_perform :
    (state.perform operation).parsable =
      if operation.needsParser then state.requireParser.parsable
      else state := by
  cases operation with
  | use use => cases use <;> rfl
  | parser => rfl
  | member member => rfl

theorem events_perform :
    (state.perform operation).events =
      (if operation.needsParser then state.requireParser.events else []) ++
        (state.entriesWith state.requireParser.result operation).map
          .logged := by
  cases operation with
  | use use =>
      cases use with
      | tokenize input => rfl
      | parse input => rfl
      | parseTrees input => exact (List.append_nil _).symm
      | parseValues input => rfl
      | fromTree tree => rfl
  | parser => exact (List.append_nil _).symm
  | member member => rfl

end Perform

/-! ## Log entries -/

theorem level_parseEntry (parsable : Parsable V) (input : String)
    (result : Except Fault (Outcome V)) :
    (parsable.parseEntry input result).level = Outcome.levelOf result := by
  cases result with
  | error fault => rfl
  | ok outcome => cases outcome <;> rfl

/-- A parse is stopped by what stops the engine, the parser or the reading of
the first tree that is stopped. -/
theorem bind_outcomeOf_eq_error_iff {parsable : Parsable V} {input : String}
    {made : Except Fault Parser} {fault : Fault} :
    made.bind (parsable.outcomeOf input) = .error fault ↔
      parsable.Stops made input fault := by
  have outcomeOf : ∀ parser, parsable.outcomeOf input parser =
      (parser (parsable.tokenize input)).bind fun trees =>
        (parsable.reader.readings parsable.root trees).map fun values =>
          .ofParse (parsable.tokenize input) trees values := fun _ => rfl
  rw [bind_eq_error_iff]
  simp only [outcomeOf, bind_eq_error_iff, map_eq_error_iff,
    Reader.readings_eq_error_iff]
  constructor
  · rintro (failed | ⟨parser, isMade, failed | ⟨_, parsed, before, tree, after,
      rfl, read, failed⟩⟩)
    · exact .engine failed
    · exact .parser isMade failed
    · exact .tree isMade parsed read failed
  · rintro (failed | ⟨isMade, failed⟩ | ⟨isMade, parsed, read, failed⟩)
    · exact Or.inl failed
    · exact Or.inr ⟨_, isMade, Or.inl failed⟩
    · exact Or.inr ⟨_, isMade, Or.inr ⟨_, parsed, _, _, _, rfl, read, failed⟩⟩

theorem answerWith_eq_error_iff {parsable : Parsable V}
    {made : Except Fault Parser} {operation : Operation} {input : String}
    (parsed : operation.parsedInput? = some input) {fault : Fault} :
    parsable.answerWith made operation = .error fault ↔
      made.bind (parsable.outcomeOf input) = .error fault := by
  unfold Operation.parsedInput? at parsed
  split at parsed
  · cases parsed
    exact map_eq_error_iff
  · cases parsed
    rw [answerWith, map_eq_error_iff, map_eq_error_iff]
  · cases parsed

theorem logs_entriesWith (parsable : Parsable V) (made : Except Fault Parser)
    (operation : Operation) :
    parsable.Logs made operation (parsable.entriesWith made operation) where
  quiet := fun quiet => by rw [entriesWith, quiet]; rfl
  once := fun input parsed => by
    refine ⟨_, by rw [entriesWith, parsed]; rfl, level_parseEntry _ _ _⟩
  stops := fun input parsed fault => by
    rw [answerWith_eq_error_iff parsed, bind_outcomeOf_eq_error_iff]
  failed := fun input parsed fault failed => by
    rw [answerWith_eq_error_iff parsed] at failed
    rw [entriesWith, parsed, Option.map_some, failed]
    rfl

/-! ## Operations one after another -/

/-- Whether a state of a parsable that was new once is what operations leave
when an engine call serves the next ones. -/
structure IsServed (fresh state : Parsable V) (call : Nat) : Prop where
  same : state = { fresh with
    engineCalls := state.engineCalls
    parser? := state.parser? }
  served : fresh.ServedBy state.engineCalls call
  parser?_eq : state.parser? =
    if call < state.engineCalls then (fresh.attempt call).toOption else none

namespace IsServed

theorem of_new (uncalled : fresh.engineCalls = 0)
    (unmade : fresh.parser? = none) : fresh.IsServed fresh 0 where
  same := rfl
  served := ⟨Nat.zero_le _, by simp, by simp [uncalled]⟩
  parser?_eq := by simp [uncalled, unmade]

/-- The parser that is required is what the serving call gives, and the engine
is called for it if that is the next call. -/
theorem requireParser (served : fresh.IsServed state call) :
    state.requireParser = ⟨fresh.attempt call,
      { fresh with
        engineCalls := call + 1
        parser? := (fresh.attempt call).toOption },
      if call = state.engineCalls then
        [.engineCalled fresh.grammar fresh.options.maxTrees]
      else []⟩ := by
  obtain ⟨same, ⟨within, -, made⟩, kept⟩ := served
  generalize state.engineCalls = calls at *
  generalize state.parser? = parser? at *
  subst same
  rcases Nat.lt_or_eq_of_le within with earlier | rfl
  -- Either the last call gave a parser, which is kept, or there is none yet.
  · obtain ⟨rfl, parser, isMade⟩ := made earlier
    rw [if_pos earlier, isMade] at kept
    subst kept
    rw [if_neg (by omega), isMade]
    rfl
  · rw [if_neg (Nat.lt_irrefl _)] at kept
    subst kept
    rw [if_pos rfl]
    rfl

/-- Operations give the same on all states that were one parsable once. -/
theorem answerWith_eq (served : fresh.IsServed state call)
    (made : Except Fault Parser) (operation : Operation) :
    state.answerWith made operation = fresh.answerWith made operation := by
  rw [served.same]
  cases operation with
  | use use => cases use <;> rfl
  | parser => rfl
  | member member => cases member <;> rfl

theorem entriesWith_eq (served : fresh.IsServed state call)
    (made : Except Fault Parser) (operation : Operation) :
    state.entriesWith made operation = fresh.entriesWith made operation := by
  rw [served.same]
  cases operation with
  | use use => cases use <;> rfl
  | parser => rfl
  | member member => rfl

theorem performs (served : fresh.IsServed state call) (operation : Operation) :
    fresh.Performs state call operation where
  result := by
    rw [result_perform, served.requireParser, served.answerWith_eq]
  parsable := by
    rw [parsable_perform, served.requireParser]
  events := by
    refine ⟨fresh.entriesWith (fresh.attempt call) operation,
      fresh.logs_entriesWith _ operation, ?_⟩
    rw [events_perform, served.requireParser, served.entriesWith_eq, ite_and]

/-- After a call that gives a parser, this call serves again, and after any
other one the next call does. -/
theorem exists_requireParser (served : fresh.IsServed state call) :
    ∃ next, fresh.IsServed state.requireParser.parsable next := by
  rw [served.requireParser]
  cases made : fresh.attempt call with
  | ok parser =>
      refine ⟨call, rfl, ⟨Nat.le_succ call, served.served.failed,
        fun _ => ⟨rfl, parser, made⟩⟩, ?_⟩
      simp [made]
  | error fault =>
      refine ⟨call + 1, rfl, ⟨Nat.le_refl _, fun earlier before => ?_,
        fun beyond => (Nat.lt_irrefl _ beyond).elim⟩, ?_⟩
      · rcases Nat.lt_succ_iff_lt_or_eq.mp before with isEarlier | rfl
        · exact served.served.failed earlier isEarlier
        · exact ⟨fault, made⟩
      · simp [Except.toOption]

theorem exists_perform (served : fresh.IsServed state call)
    (operation : Operation) :
    ∃ next, fresh.IsServed (state.perform operation).parsable next := by
  rw [parsable_perform]
  split
  · exact served.exists_requireParser
  · exact ⟨call, served⟩

theorem exists_afterOperations (served : fresh.IsServed state call)
    (operations : List Operation) :
    ∃ next, fresh.IsServed (state.afterOperations operations) next := by
  induction operations generalizing state call with
  | nil => exact ⟨call, served⟩
  | cons operation operations ih =>
      obtain ⟨next, servedNext⟩ := served.exists_perform operation
      exact ih servedNext

theorem engineCalls_perform (served : fresh.IsServed state call)
    (operation : Operation) :
    List.replicate state.engineCalls
        (fresh.grammar, fresh.options.maxTrees) ++
      (state.perform operation).events.filterMap Event.engineCall? =
        List.replicate (state.perform operation).parsable.engineCalls
          (fresh.grammar, fresh.options.maxTrees) := by
  obtain ⟨-, after, ⟨entries, -, events⟩⟩ := served.performs operation
  have quiet : (entries.map Event.logged).filterMap Event.engineCall? = [] := by
    simp [List.filterMap_eq_nil_iff, Event.engineCall?]
  rw [events, after, List.filterMap_append, quiet, List.append_nil]
  by_cases needs : operation.needsParser = true
  · by_cases next : call = state.engineCalls
    · simp [needs, next, Event.engineCall?, List.replicate_succ']
    · have earlier : call < state.engineCalls :=
        Nat.lt_of_le_of_ne served.served.within next
      simp [needs, (served.served.made earlier).1]
  · simp [needs]

theorem engineCalls_eventsOf (served : fresh.IsServed state call)
    (operations : List Operation) :
    List.replicate state.engineCalls
        (fresh.grammar, fresh.options.maxTrees) ++
      (state.eventsOf operations).filterMap Event.engineCall? =
        List.replicate (state.afterOperations operations).engineCalls
          (fresh.grammar, fresh.options.maxTrees) := by
  induction operations generalizing state call with
  | nil => exact List.append_nil _
  | cons operation operations ih =>
      obtain ⟨next, servedNext⟩ := served.exists_perform operation
      rw [eventsOf, List.filterMap_append, ← List.append_assoc,
        served.engineCalls_perform, ih servedNext]
      rfl

end IsServed

theorem afterOperations_append (parsable : Parsable V)
    (earlier later : List Operation) :
    parsable.afterOperations (earlier ++ later) =
      (parsable.afterOperations earlier).afterOperations later :=
  List.foldl_append

/-- An operation leaves behind what the request for a parser does, if it needs
one, and nothing if not. -/
theorem afterOperations_cons (parsable : Parsable V) (operation : Operation)
    (later : List Operation) :
    parsable.afterOperations (operation :: later) =
      parsable.afterOperations
        ((if operation.needsParser then [.parser] else []) ++ later) := by
  rw [afterOperations, List.foldl_cons, parsable_perform]
  split <;> rfl

/-- A new parsable has not called its engine.  After any operations, each call
was for the same grammar with the bound of the options, and the engine was
called until a call gave a parser and no more.  All that is left of the
operations is the number of calls and the parser.  Any next operation gives what
it gives with the first call that gave a parser or, if there is none, with the
next call, which is then made if the operation needs a parser.  Parses log one
entry that fits what they give or what stops them.  And all operations, whether
they are stopped or not, change what comes later only as a request for the
parser does. -/
theorem performs_afterOperations {derivation : Derivation V}
    {options : ParsingOptions}
    (made : ofDerivation? derivation options = .ok fresh)
    (operations : List Operation) :
    let state := fresh.afterOperations operations
    fresh.options = options ∧ fresh.engineCalls = 0 ∧
      (fresh.history operations).filterMap Event.engineCall? =
        List.replicate state.engineCalls (fresh.grammar, options.maxTrees) ∧
      (∃ call, fresh.ServedBy state.engineCalls call ∧
        state = { fresh with
          engineCalls := state.engineCalls
          parser? := if call < state.engineCalls then
              (fresh.attempt call).toOption
            else none } ∧
        ∀ operation, fresh.Performs state call operation) ∧
      ∀ operation later,
        fresh.afterOperations (operations ++ operation :: later) =
          fresh.afterOperations (operations ++
            ((if operation.needsParser then [.parser] else []) ++ later)) := by
  intro state
  obtain ⟨rfl, rfl, unmade⟩ := eq_of_ofDerivation?_eq_ok made
  have whole := made.symm.trans (ofDerivation?_eq_ok fresh.derives_productions
    fresh.derives_tokenizer fresh.options)
  have uncalled : fresh.engineCalls = 0 :=
    congrArg engineCalls (Except.ok.inj whole)
  have served := IsServed.of_new uncalled unmade
  refine ⟨rfl, uncalled, ?_, ?_, ?_⟩
  · have counted := served.engineCalls_eventsOf operations
    rw [uncalled] at counted
    exact counted
  · obtain ⟨call, servedAfter⟩ := served.exists_afterOperations operations
    refine ⟨call, servedAfter.served, ?_, servedAfter.performs⟩
    rw [← servedAfter.parser?_eq]
    exact servedAfter.same
  · intro operation later
    rw [afterOperations_append, afterOperations_append, afterOperations_cons]

/-- An engine whose first call fails and whose parsers fail without tokens. -/
def unsteady : Engine := fun call grammar maxTrees =>
  if call = 0 then
    .error (.error "no engine")
  else
    .ok fun tokens =>
      if tokens = [] then .error (.text "no tokens")
      else Chart.parser grammar maxTrees tokens

/-- After a failure of the engine and one of its parser, the second call of the
engine serves all operations. -/
theorem performs_afterOperations_unsteady :
    let operations : List Operation :=
      [.use (.parse "dogs bark"), .member .tokens, .use (.parseValues ""),
        .use (.parseTrees "say")]
    ∃ fresh, ofDerivation? ⟨clauses, ⟨1⟩, [⟨2⟩, ⟨7⟩, ⟨0⟩, ⟨3⟩, ⟨8⟩, ⟨6⟩]⟩
        { engine := unsteady, maxTrees := some 4 } = .ok fresh ∧
      (fresh.history operations).filterMap Event.engineCall? =
        [(fresh.grammar, some 4), (fresh.grammar, some 4)] ∧
      ∀ operation,
        fresh.Performs (fresh.afterOperations operations) 1 operation := by
  intro operations
  have counted : (ofDerivation?
      ⟨clauses, ⟨1⟩, [⟨2⟩, ⟨7⟩, ⟨0⟩, ⟨3⟩, ⟨8⟩, ⟨6⟩]⟩
      { engine := unsteady, maxTrees := some 4 }).map (fun fresh =>
        (fresh.afterOperations operations).engineCalls) = .ok 2 := by
    decide +kernel
  obtain ⟨fresh, made, twice⟩ := exists_of_map_eq_ok counted
  obtain ⟨options, -, calls, ⟨call, served, -, performs⟩, -⟩ :=
    performs_afterOperations made operations
  rw [twice] at served calls
  have second : call = 1 := by
    have within := served.within
    have notFirst : call ≠ 0 := by
      rintro rfl
      cases (served.made (by omega)).1
    have notThird : call ≠ 2 := by
      rintro rfl
      obtain ⟨fault, failed⟩ := served.failed 1 (by omega)
      rw [attempt, options] at failed
      cases failed
    omega
  subst second
  exact ⟨fresh, made, calls, performs⟩

end Parsable

end SemanticGrammar
