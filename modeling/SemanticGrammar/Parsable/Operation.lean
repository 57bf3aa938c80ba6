import SemanticGrammar.Session

/-!
# Operations on a parsable

Everything that can be done with a parsable is a use of it, the request for its
parser or the reading of one of its other members.  An operation gives an
answer, unless it is stopped, and the parsable goes on to the next operation
either way.
-/

namespace SemanticGrammar

/-- A member of a parsable that is there from the start. -/
inductive Member where
  | symbol
  | closure
  | productions
  | lexicalCategories
  | tokens
  | tokenizer
  | grammar

inductive Operation where
  | use (use : Use)
  | parser
  | member (member : Member)

/-- What an operation gives when it is not stopped. -/
inductive Answer (V : Type) where
  | tokens (tokens : List String)
  | outcome (outcome : Outcome V)
  | trees (trees : List Tree)
  | values (values : List V)
  | value (value : Option V)
  | parser (parser : Parser)
  | symbols (symbols : List Symbol)
  | productions (productions : List Production)
  | tokenizer (tokenizer : Tokenizer)
  | grammar (grammar : Grammar)

/-- Whether an operation cannot do without a parser. -/
def Operation.needsParser : Operation → Bool
  | use (.parse _) => true
  | use (.parseTrees _) => true
  | use (.parseValues _) => true
  | parser => true
  | use (.tokenize _) => false
  | use (.fromTree _) => false
  | member _ => false

/-- A run with another form of its result. -/
def Run.map {V α β : Type} (run : Run V α) (change : α → β) : Run V β :=
  { run with result := run.result.map change }

namespace Parsable

variable {V : Type}

def read (parsable : Parsable V) : Member → Answer V
  | .symbol => .symbols [parsable.root]
  | .closure => .symbols parsable.derivation.closure
  | .productions => .productions parsable.productions
  | .lexicalCategories => .symbols parsable.derivation.lexicalCategories
  | .tokens => .tokens parsable.derivation.tokens
  | .tokenizer => .tokenizer parsable.tokenizer
  | .grammar => .grammar parsable.grammar

def perform (parsable : Parsable V) : Operation → Run V (Answer V)
  | .use (.tokenize input) =>
      ⟨.ok (.tokens (parsable.tokenize input)), parsable, []⟩
  | .use (.parse input) => (parsable.parse input).map .outcome
  | .use (.parseTrees input) => (parsable.parseTrees input).map .trees
  | .use (.parseValues input) => (parsable.parseValues input).map .values
  | .use (.fromTree tree) =>
      ⟨(parsable.fromTree tree).map .value, parsable, []⟩
  | .parser => parsable.requireParser.map .parser
  | .member member => ⟨.ok (parsable.read member), parsable, []⟩

def afterOperations (parsable : Parsable V) (operations : List Operation) :
    Parsable V :=
  operations.foldl
    (fun parsable operation => (parsable.perform operation).parsable) parsable

@[simp]
theorem parsable_perform_use (parsable : Parsable V) (use : Use) :
    (parsable.perform (.use use)).parsable = parsable.afterUse use := by
  cases use <;> rfl

/-- What is reported by several operations, one after another. -/
def eventsOf (parsable : Parsable V) : List Operation → List Event
  | [] => []
  | operation :: later =>
      let run := parsable.perform operation
      run.events ++ run.parsable.eventsOf later

/-- What is reported of a parsable from its making on. -/
def history (parsable : Parsable V) (operations : List Operation) :
    List Event :=
  .logged parsable.derivedEntry :: parsable.eventsOf operations

end Parsable

end SemanticGrammar
