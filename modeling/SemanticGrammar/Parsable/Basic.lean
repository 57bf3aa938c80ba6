import SemanticGrammar.Chart.Parser
import SemanticGrammar.Derivation
import SemanticGrammar.Parsable.Event
import SemanticGrammar.Reading

/-!
# Parsables

A parsable binds a root symbol to its derived grammar, its tokenizer and a
parsing engine.  Making one checks everything that can be wrong with the
grammar, so that parsing raises no configuration error.

The engine is called when a parser is first needed.  A call that fails is
repeated at the next need; the parser of the first call that succeeds is
kept.  Each operation gives its result, the parsable after it and the events
that it reports, in order.
-/

namespace SemanticGrammar

/-- A way to make parsers.  The outcome may depend on how many calls have
gone before. -/
abbrev Engine := Nat → Grammar → Option Int → Except Fault Parser

def Engine.chart : Engine :=
  fun _ grammar maxTrees => .ok (Chart.parser grammar maxTrees)

structure ParsingOptions where
  engine : Engine := Engine.chart
  maxTrees : Option Int := none

/-- What a parse finds.  A value is found together with all values and all
trees; the first value is the one of the first tree that has one. -/
inductive Outcome (V : Type) where
  | ok (first : V) (others : List V) (trees : List Tree)
  | noParse (tokens : List String)
  | noInterpretation (tokens : List String) (trees : List Tree)

namespace Outcome

variable {V : Type}

/-- All values of an outcome, in tree order. -/
def values : Outcome V → List V
  | ok first others _ => first :: others
  | noParse _ => []
  | noInterpretation _ _ => []

def ofParse (tokens : List String) (trees : List Tree) (values : List V) :
    Outcome V :=
  match trees, values with
  | [], _ => noParse tokens
  | _, [] => noInterpretation tokens trees
  | _, first :: others => ok first others trees

def logEntry (name input : String) : Outcome V → LogEntry
  | ok _ others trees => .parsed name trees.length (others.length + 1)
  | noParse _ => .noParse name input
  | noInterpretation _ trees => .noInterpretation trees.length name input

end Outcome

/-- A root symbol with all that is needed to parse its texts, the number of
engine calls so far, and the parser once there is one. -/
structure Parsable (V : Type) where
  derivation : Derivation V
  productions : List Production
  tokenizer : Tokenizer
  derives_productions : derivation.productions = .ok productions
  derives_tokenizer : derivation.tokenizer = .ok tokenizer
  options : ParsingOptions
  reader : Reader V := derivation.registry.reader
  reader_eq : reader = derivation.registry.reader := by rfl
  engineCalls : Nat := 0
  parser? : Option Parser := none

/-- What an operation on a parsable does. -/
structure Run (V α : Type) where
  result : Except Fault α
  parsable : Parsable V
  events : List Event

namespace Parsable

variable {V α : Type}

/-- A parsable for a derivation.  The productions are checked before the
tokens. -/
def ofDerivation? (derivation : Derivation V) (options : ParsingOptions) :
    Except Fault (Parsable V) :=
  match checkedProductions : derivation.productions with
  | .error fault => .error fault
  | .ok productions =>
      match checkedTokenizer : derivation.tokenizer with
      | .error fault => .error fault
      | .ok tokenizer =>
          .ok {
            derivation := derivation
            productions := productions
            tokenizer := tokenizer
            derives_productions := checkedProductions
            derives_tokenizer := checkedTokenizer
            options := options }

def root (parsable : Parsable V) : Symbol :=
  parsable.derivation.root

def name (parsable : Parsable V) : String :=
  parsable.derivation.registry.name parsable.root

/-- The grammar that engines are given. -/
def grammar (parsable : Parsable V) : Grammar :=
  parsable.derivation.grammarOf parsable.productions

def derivedEntry (parsable : Parsable V) : LogEntry :=
  .derived parsable.name parsable.derivation.symbols.length
    parsable.productions.length parsable.tokenizer.literals.length

def tokenize (parsable : Parsable V) (input : String) : List String :=
  parsable.tokenizer.tokenize input

def fromTree (parsable : Parsable V) (tree : Tree) :
    Except Fault (Option V) :=
  parsable.reader.read parsable.root tree

/-- The parser, made by the engine if there is none yet. -/
def requireParser (parsable : Parsable V) : Run V Parser :=
  match parsable.parser? with
  | some parser => ⟨.ok parser, parsable, []⟩
  | none =>
      let result := parsable.options.engine parsable.engineCalls
        parsable.grammar parsable.options.maxTrees
      ⟨result,
        { parsable with
          engineCalls := parsable.engineCalls + 1
          parser? := result.toOption },
        [.engineCalled parsable.grammar parsable.options.maxTrees]⟩

def parseTrees (parsable : Parsable V) (input : String) :
    Run V (List Tree) :=
  let required := parsable.requireParser
  { required with
    result := required.result.bind fun parser =>
      parser (parsable.tokenize input) }

def outcomeOf (parsable : Parsable V) (input : String) (parser : Parser) :
    Except Fault (Outcome V) := do
  let tokens := parsable.tokenize input
  let trees ← parser tokens
  let values ← parsable.reader.readings parsable.root trees
  return .ofParse tokens trees values

def parseEntry (parsable : Parsable V) (input : String) :
    Except Fault (Outcome V) → LogEntry
  | .ok outcome => outcome.logEntry parsable.name input
  | .error fault => .failed parsable.name fault.message

/-- The outcome of an input, which is logged. -/
def parse (parsable : Parsable V) (input : String) : Run V (Outcome V) :=
  let required := parsable.requireParser
  let result := required.result.bind (parsable.outcomeOf input)
  ⟨result, required.parsable,
    required.events ++ [.logged (parsable.parseEntry input result)]⟩

/-- All values of an input, which is logged as a parse. -/
def parseValues (parsable : Parsable V) (input : String) :
    Run V (List V) :=
  let run := parsable.parse input
  { run with result := run.result.map Outcome.values }

end Parsable

end SemanticGrammar
