import SemanticGrammar.Registry.Basic

/-!
# The productions of a declared nonterminal

Each rule of a nonterminal becomes a production headed by it, with the
production's key.  A nonterminal that declares one constituent sequence twice
has no productions at all: a tree could not tell the two rules apart.
-/

namespace SemanticGrammar

/-- A production together with its key and the rule that it comes from. -/
structure DerivedRule (V : Type) where
  production : Production
  rule : Rule V
  key : String := production.key
  key_eq : key = production.key := by rfl

/-- The derived rules of all declared symbols, by handle. -/
abbrev RuleTable (V : Type) := Array (Except Fault (List (DerivedRule V)))

namespace Registry

variable {V : Type}

def derive (head : Symbol) (rule : Rule V) : DerivedRule V :=
  { production := ⟨head, rule.constituents⟩
    rule := rule }

/-- The error of a head that declares one constituent sequence twice. -/
def duplicate (registry : Registry V) (head : Symbol) (rule : Rule V) :
    ConfigurationError :=
  .duplicateProduction (registry.name head)
    (rule.constituents.map registry.name)

/-- Add the productions of the rules of a head to those already derived,
unless a key occurs twice. -/
def deriveAll (registry : Registry V) (head : Symbol) :
    List (DerivedRule V) → List (Rule V) → Except Fault (List (DerivedRule V))
  | derived, [] => .ok derived
  | derived, rule :: rules =>
      let next := derive head rule
      if next.key ∈ derived.map DerivedRule.key then
        .error (.configuration (registry.duplicate head rule))
      else
        registry.deriveAll head (derived ++ [next]) rules

/-- The productions of a symbol with their rules, in the order of their
declaration. -/
def derivedRules (registry : Registry V) (head : Symbol) :
    Except Fault (List (DerivedRule V)) :=
  match registry.rules head with
  | .error fault => .error fault
  | .ok rules => registry.deriveAll head [] rules

def productions (registry : Registry V) (head : Symbol) :
    Except Fault (List Production) :=
  (registry.derivedRules head).map (·.map DerivedRule.production)

def ruleTable (registry : Registry V) : RuleTable V :=
  (Array.range registry.declarations.size).map fun id =>
    registry.derivedRules ⟨id⟩

theorem derivedRules_of_size_le (registry : Registry V) {head : Symbol}
    (unissued : registry.declarations.size ≤ head.id) :
    registry.derivedRules head = .ok [] := by
  have undeclared : registry.declaration? head = none :=
    Array.getElem?_eq_none unissued
  simp [derivedRules, rules, undeclared, deriveAll]

end Registry

namespace RuleTable

variable {V : Type}

def derivedRules (table : RuleTable V) (head : Symbol) :
    Except Fault (List (DerivedRule V)) :=
  match table[head.id]? with
  | some derived => derived
  | none => .ok []

/-- The rule of a symbol whose production has a key. -/
def rule? (table : RuleTable V) (head : Symbol) (key : String) :
    Except Fault (Option (Rule V)) :=
  (table.derivedRules head).map fun derived =>
    (derived.find? (·.key == key)).map DerivedRule.rule

end RuleTable

@[simp]
theorem Registry.derivedRules_ruleTable {V : Type} (registry : Registry V)
    (head : Symbol) :
    registry.ruleTable.derivedRules head = registry.derivedRules head := by
  unfold RuleTable.derivedRules ruleTable
  by_cases issued : head.id < registry.declarations.size
  · simp [issued]
  · rw [registry.derivedRules_of_size_le (Nat.le_of_not_lt issued)]
    simp [issued]

end SemanticGrammar
