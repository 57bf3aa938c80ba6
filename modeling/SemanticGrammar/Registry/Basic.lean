import SemanticGrammar.FirstOccurrence
import SemanticGrammar.Grammar
import SemanticGrammar.Text.Blank

/-!
# Declared symbols

A registry holds the declarations of a family of grammars and issues a handle
for each.  Literals are interned: one literal has one handle.  A nonterminal
is declared first and defined later, so that rules may mention every declared
symbol, the head included.

A rule pairs a constituent sequence with a constructor.  The constructor sees
one value for each constituent: the token of a lexical category or the value
of a nonterminal.  It may decline, which leaves the tree without a value.

A definition that mentions a malformed literal is kept with its error, which
then stands wherever the rules are asked for.

The empty symbol is declared first in every registry, and nothing that is
declared later is empty.
-/

namespace SemanticGrammar

/-- A constituent sequence with the constructor of its value. -/
structure Rule (V : Type) where
  constituents : List Symbol
  build : List V → Except Fault (Option V)

/-- The value that a rule builds: none when the number of values is not the
number of constituents. -/
def Rule.construct {V : Type} (rule : Rule V) (values : List V) :
    Except Fault (Option V) :=
  if values.length = rule.constituents.length then rule.build values
  else .ok none

/-- A constituent as it is written in a rule. -/
inductive Constituent where
  | symbol (symbol : Symbol)
  | literal (text : String)
  deriving DecidableEq

/-- A rule whose literals are not interned yet. -/
structure RuleDraft (V : Type) where
  constituents : List Constituent
  build : List V → Except Fault (Option V)

/-- What a handle stands for. -/
inductive Declaration (V : Type) where
  /-- The symbol that matches nothing and has no value. -/
  | empty
  /-- The lexical category of one literal. -/
  | terminal (literal : String)
  /-- A lexical category given by a membership test. -/
  | category (name : String) (member : String → Except Fault Bool)
  /-- A nonterminal with further tokens of its own and with its rules. -/
  | nonterminal (name : String) (tokens : List String)
      (rules : Except Fault (List (Rule V)))

namespace Declaration

variable {V : Type} {declarations : Array (Declaration V)}

/-- A declaration of a nonterminal with other rules.  Other declarations have no
rules and keep none. -/
def withRules (rules : Except Fault (List (Rule V))) :
    Declaration V → Declaration V
  | .nonterminal name tokens _ => .nonterminal name tokens rules
  | declaration => declaration

theorem withRules_eq_empty_iff {rules : Except Fault (List (Rule V))}
    {declaration : Declaration V} :
    declaration.withRules rules = .empty ↔ declaration = .empty := by
  cases declaration <;> simp [withRules]

/-- Whether the empty symbol is declared first and never again. -/
def EmptyIsFirst (declarations : Array (Declaration V)) : Prop :=
  ∀ id : Nat, declarations[id]? = some .empty ↔ id = 0

theorem emptyIsFirst_of_later (later : List (Declaration V))
    (differ : .empty ∉ later) :
    EmptyIsFirst (.empty :: later).toArray := by
  rintro (_ | id)
  · simp
  · simpa using fun declared => differ (List.mem_of_getElem? declared)

theorem EmptyIsFirst.push (first : EmptyIsFirst declarations)
    {declaration : Declaration V} (differs : declaration ≠ .empty) :
    EmptyIsFirst (declarations.push declaration) := by
  intro id
  rw [← first id, Array.getElem?_push]
  split
  · rename_i new
    simp [new, differs]
  · rfl

theorem EmptyIsFirst.withRules (first : EmptyIsFirst declarations) (head : Nat)
    (rules : Except Fault (List (Rule V))) :
    EmptyIsFirst (declarations.modify head (.withRules rules)) := by
  intro id
  rw [← first id, Array.getElem?_modify]
  split
  · simp [withRules_eq_empty_iff]
  · rfl

end Declaration

/-- The declarations of a family of grammars with values in `V`.  A handle is
an index into the declarations; `ofToken` is the value of a single token. -/
structure Registry (V : Type) where
  ofToken : String → V
  declarations : Array (Declaration V)
  emptyIsFirst : Declaration.EmptyIsFirst declarations

namespace Registry

variable {V : Type}

/-- The registry that declares the empty symbol only. -/
def initial (ofToken : String → V) : Registry V where
  ofToken := ofToken
  declarations := #[.empty]
  emptyIsFirst := Declaration.emptyIsFirst_of_later [] List.not_mem_nil

def declaration? (registry : Registry V) (symbol : Symbol) :
    Option (Declaration V) :=
  registry.declarations[symbol.id]?

/-! ## Reading declarations -/

/-- What a symbol can match.  A handle that was never issued is a nonterminal
without rules. -/
def role (registry : Registry V) (symbol : Symbol) : Role :=
  match registry.declaration? symbol with
  | none => .nonterminal
  | some .empty => .empty
  | some (.terminal literal) => .lexical fun token => .ok (token == literal)
  | some (.category _ member) => .lexical member
  | some (.nonterminal _ _ _) => .nonterminal

/-- The name of a symbol; a literal is named by its quoted text. -/
def name (registry : Registry V) (symbol : Symbol) : String :=
  match registry.declaration? symbol with
  | none => ""
  | some .empty => "ε"
  | some (.terminal literal) => Text.quote literal
  | some (.category name _) => name
  | some (.nonterminal name _ _) => name

def tokens (registry : Registry V) (symbol : Symbol) : List String :=
  match registry.declaration? symbol with
  | some (.terminal literal) => [literal]
  | some (.nonterminal _ tokens _) => firstOccurrences tokens
  | _ => []

/-- The rules of a symbol in the order of their declaration. -/
def rules (registry : Registry V) (symbol : Symbol) :
    Except Fault (List (Rule V)) :=
  match registry.declaration? symbol with
  | some (.nonterminal _ _ rules) => rules
  | _ => .ok []

def constituents (registry : Registry V) (symbol : Symbol) :
    Except Fault (List Symbol) :=
  (registry.rules symbol).map fun rules => rules.flatMap Rule.constituents

def isLexical (registry : Registry V) (symbol : Symbol) : Bool :=
  match registry.role symbol with
  | .lexical _ => true
  | _ => false

/-! ## Declaring symbols -/

/-- Issue a new handle for a declaration. -/
def declare (registry : Registry V) (declaration : Declaration V)
    (differs : declaration ≠ .empty) : Symbol × Registry V :=
  (⟨registry.declarations.size⟩,
    { registry with
      declarations := registry.declarations.push declaration
      emptyIsFirst := registry.emptyIsFirst.push differs })

/-- Declare a lexical category by its membership test. -/
def category (registry : Registry V) (name : String)
    (member : String → Except Fault Bool) : Symbol × Registry V :=
  registry.declare (.category name member) nofun

/-- Declare a nonterminal that has no rules yet. -/
def nonterminal (registry : Registry V) (name : String)
    (tokens : List String) : Symbol × Registry V :=
  registry.declare (.nonterminal name tokens (.ok [])) nofun

/-- The handle of a literal that is already interned. -/
def terminal? (registry : Registry V) (literal : String) : Option Symbol :=
  (registry.declarations.findIdx? fun declaration =>
    match declaration with
    | .terminal known => known == literal
    | _ => false).map Symbol.mk

/-- The handle of a literal, interned when it is new.  A literal that is
empty or holds a blank is refused. -/
def terminal (registry : Registry V) (literal : String) :
    Except ConfigurationError (Symbol × Registry V) :=
  match registry.terminal? literal with
  | some known => .ok (known, registry)
  | none =>
      if Text.isUnbroken literal then
        .ok (registry.declare (.terminal literal) nofun)
      else
        .error (.malformedTerminal literal)

def resolve (registry : Registry V) :
    Constituent → Except ConfigurationError (Symbol × Registry V)
  | .symbol symbol => .ok (symbol, registry)
  | .literal text => registry.terminal text

/-- The handles of a constituent sequence, resolved from left to right up to
the first malformed literal. -/
def resolveAll (registry : Registry V) :
    List Constituent → Except ConfigurationError (List Symbol) × Registry V
  | [] => (.ok [], registry)
  | constituent :: rest =>
      match registry.resolve constituent with
      | .error cause => (.error cause, registry)
      | .ok (symbol, registry) =>
          let (symbols, registry) := registry.resolveAll rest
          (symbols.map (symbol :: ·), registry)

/-- The rules of a list of drafts, resolved in order up to the first
malformed literal. -/
def resolveRules (registry : Registry V) :
    List (RuleDraft V) → Except ConfigurationError (List (Rule V)) × Registry V
  | [] => (.ok [], registry)
  | draft :: rest =>
      match registry.resolveAll draft.constituents with
      | (.error cause, registry) => (.error cause, registry)
      | (.ok symbols, registry) =>
          let (rules, registry) := registry.resolveRules rest
          (rules.map (⟨symbols, draft.build⟩ :: ·), registry)

/-- Give a declared nonterminal its rules.  Other symbols have no rules and
keep none. -/
def define (registry : Registry V) (symbol : Symbol)
    (drafts : List (RuleDraft V)) : Registry V :=
  let (resolved, registry) := registry.resolveRules drafts
  let rules := resolved.mapError Fault.configuration
  { registry with
    declarations := registry.declarations.modify symbol.id (.withRules rules)
    emptyIsFirst := registry.emptyIsFirst.withRules symbol.id rules }

/-! ## What the operations do to the declarations -/

section Declare

variable (registry : Registry V) (declaration : Declaration V)
  (differs : declaration ≠ .empty)

theorem declaration?_declare_self :
    (registry.declare declaration differs).2.declaration?
        (registry.declare declaration differs).1 =
      some declaration := by
  simp [declare, declaration?]

theorem declaration?_declare_fst :
    registry.declaration? (registry.declare declaration differs).1 = none := by
  simp [declare, declaration?]

theorem declaration?_declare_of_ne {symbol : Symbol}
    (other : symbol ≠ (registry.declare declaration differs).1) :
    (registry.declare declaration differs).2.declaration? symbol =
      registry.declaration? symbol := by
  have otherId : symbol.id ≠ registry.declarations.size := fun same =>
    other (congrArg Symbol.mk same)
  simp [declare, declaration?, Array.getElem?_push, otherId]

end Declare

theorem declaration?_eq_empty_iff {registry : Registry V} {symbol : Symbol} :
    registry.declaration? symbol = some .empty ↔ symbol = Symbol.empty := by
  obtain ⟨id⟩ := symbol
  rw [declaration?, registry.emptyIsFirst id, Symbol.empty, Symbol.mk.injEq]

/-- The empty symbol, and no other, matches nothing. -/
theorem role_eq_empty_iff {registry : Registry V} {symbol : Symbol} :
    registry.role symbol = .empty ↔ symbol = Symbol.empty := by
  unfold role
  constructor
  · intro empty
    split at empty
    all_goals cases empty
    exact declaration?_eq_empty_iff.mp ‹_›
  · rintro rfl
    rw [declaration?_eq_empty_iff.mpr rfl]

end Registry

end SemanticGrammar
