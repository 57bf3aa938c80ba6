import SemanticGrammar.Text.Quoted

/-!
# What can go wrong

A grammar can be configured so that it cannot be used at all; such an error
names its cause, and its message and the literals involved are read off the
cause.  The callbacks of a grammar (membership tests, constructors and
parsing engines) may also stop with an error or a bare text of their own,
which is passed on unchanged.
-/

namespace SemanticGrammar

/-- The causes that make a grammar unusable. -/
inductive ConfigurationError where
  /-- A literal of a rule is empty or holds a blank. -/
  | malformedTerminal (literal : String)
  /-- A token of the grammar is empty or holds a blank. -/
  | malformedToken (literal : String)
  /-- A token of the grammar is a concatenation of other tokens. -/
  | ambiguousToken (literal : String) (parts : List String)
  /-- A nonterminal declares one constituent sequence twice; the symbols are
  given by name. -/
  | duplicateProduction (head : String) (constituents : List String)
  /-- No token starts at an offset of an input, for a reason that the lexer
  gives. -/
  | uncoveredCharacter (literals : List String) (offset : Nat)
      (reason : String)
  deriving DecidableEq

namespace ConfigurationError

/-- A text between double quotes, without escapes. -/
private def enclosed (text : String) : String :=
  "\x22" ++ text ++ "\x22"

def message : ConfigurationError → String
  | malformedTerminal literal =>
      "Terminal literal " ++ Text.quote literal ++
        " must be non-empty and contain no whitespace"
  | malformedToken literal =>
      "Token " ++ Text.quote literal ++
        " must be non-empty and contain no whitespace"
  | ambiguousToken literal parts =>
      "Token " ++ enclosed literal ++ " can also be read as " ++
        " ".intercalate (parts.map enclosed)
  | duplicateProduction head constituents =>
      enclosed head ++ " declares the production " ++ head ++ " -> " ++
        " ".intercalate constituents ++ " more than once"
  | uncoveredCharacter literals offset reason =>
      "Literal set [" ++ ",".intercalate (literals.map Text.quote) ++
        "] does not cover the character at offset " ++ offset.repr ++ ": " ++
        reason

/-- The literals involved, when the problem is one of literals. -/
def tokens : ConfigurationError → List String
  | malformedTerminal literal => [literal]
  | malformedToken literal => [literal]
  | ambiguousToken literal parts => literal :: parts
  | duplicateProduction _ _ => []
  | uncoveredCharacter literals _ _ => literals

end ConfigurationError

/-- What can stop an operation.  What a callback throws is represented by its
text; values that have no text are left out. -/
inductive Fault where
  /-- The grammar cannot be used. -/
  | configuration (cause : ConfigurationError)
  /-- A callback stopped with an error. -/
  | error (message : String)
  /-- A callback stopped with a bare text. -/
  | text (content : String)
  deriving DecidableEq

def Fault.message : Fault → String
  | .configuration cause => cause.message
  | .error message => message
  | .text content => content

/-! ## Results that may be faults -/

theorem exists_error_iff {ε α : Type} {result : Except ε α} :
    (∃ fault, result = .error fault) ↔ ¬∃ value, result = .ok value := by
  cases result <;> simp

theorem exists_of_map_eq_ok {α β : Type} {result : Except Fault α}
    {change : α → β} {image : β} (mapped : result.map change = .ok image) :
    ∃ value, result = .ok value ∧ change value = image := by
  cases result with
  | error fault => cases mapped
  | ok value => exact ⟨value, rfl, Except.ok.inj mapped⟩

theorem map_eq_error_iff {α β : Type} {result : Except Fault α}
    {change : α → β} {fault : Fault} :
    result.map change = .error fault ↔ result = .error fault := by
  cases result <;> simp [Except.map]

theorem bind_eq_error_iff {α β : Type} {result : Except Fault α}
    {next : α → Except Fault β} {fault : Fault} :
    result.bind next = .error fault ↔
      result = .error fault ∨
        ∃ value, result = .ok value ∧ next value = .error fault := by
  cases result <;> simp [Except.bind]

/-- Whether a result is stopped by allowed faults only, if at all. -/
def FailsOnly {α : Type} (allowed : Fault → Prop) (result : Except Fault α) :
    Prop :=
  ∀ fault, result = .error fault → allowed fault

namespace FailsOnly

variable {α β : Type} {allowed : Fault → Prop} {result : Except Fault α}

@[simp]
theorem ok (value : α) : FailsOnly allowed (.ok value) := by
  simp [FailsOnly]

@[simp]
theorem error_iff {fault : Fault} :
    FailsOnly (α := α) allowed (.error fault) ↔ allowed fault := by
  simp [FailsOnly]

theorem bind {next : α → Except Fault β} (first : FailsOnly allowed result)
    (rest : ∀ value, result = .ok value → FailsOnly allowed (next value)) :
    FailsOnly allowed (result.bind next) := by
  cases result with
  | error fault => exact error_iff.mpr (first fault rfl)
  | ok value => exact rest value rfl

theorem map {change : α → β} (first : FailsOnly allowed result) :
    FailsOnly allowed (result.map change) := by
  cases result with
  | error fault => exact error_iff.mpr (first fault rfl)
  | ok value => exact ok _

/-- A result that no fault may stop is there. -/
theorem exists_eq_ok (never : FailsOnly (fun _ => False) result) :
    ∃ value, result = .ok value := by
  cases result with
  | error fault => exact (never fault rfl).elim
  | ok value => exact ⟨value, rfl⟩

end FailsOnly

end SemanticGrammar
