import SemanticGrammar.Derivation
import SemanticGrammar.Proofs.NodeReading
import SemanticGrammar.Proofs.ProductionKey

/-!
# The productions of well-declared symbols

The rules of a symbol are derived exactly when they can be had and no
constituent sequence is declared twice.  The productions of a grammar are then
those that its symbols declare, symbol by symbol, and the alternatives of a
head are those of its declaration, wherever the head stands among the symbols.
-/

namespace SemanticGrammar

namespace Registry

variable {V : Type}

def shapes (registry : Registry V) (symbol : Symbol) : List (List Symbol) :=
  match registry.rules symbol with
  | .error _ => []
  | .ok rules => rules.map Rule.constituents

/-- Whether the rules of a symbol can be had and declare no constituent
sequence twice. -/
structure WellDeclared (registry : Registry V) (symbol : Symbol) : Prop where
  rules_ok : ∃ rules, registry.rules symbol = .ok rules
  nodup : (registry.shapes symbol).Nodup

variable {registry : Registry V} {head : Symbol} {rules : List (Rule V)}

theorem shapes_eq (declared : registry.rules head = .ok rules) :
    registry.shapes head = rules.map Rule.constituents := by
  rw [shapes, declared]

theorem WellDeclared.nodup_constituents
    (wellDeclared : registry.WellDeclared head)
    (declared : registry.rules head = .ok rules) :
    (rules.map Rule.constituents).Nodup :=
  shapes_eq declared ▸ wellDeclared.nodup

theorem nodup_keys_iff :
    (rules.map fun rule => (derive head rule).key).Nodup ↔
      (rules.map Rule.constituents).Nodup := by
  have sameKey : (fun rule => (derive head rule).key) =
      (fun constituents => Production.key ⟨head, constituents⟩) ∘
        Rule.constituents (V := V) :=
    rfl
  rw [sameKey, ← List.map_map]
  refine List.nodup_map_iff fun first second same => ?_
  exact (Production.mk.inj (Production.key_injective same)).2

theorem nodup_of_deriveAll {derived result : List (DerivedRule V)}
    (distinct : (derived.map DerivedRule.key).Nodup)
    (derives : registry.deriveAll head derived rules = .ok result) :
    ((derived ++ rules.map (derive head)).map DerivedRule.key).Nodup := by
  induction rules generalizing derived with
  | nil => simpa using distinct
  | cons rule rules ih =>
      rw [deriveAll] at derives
      split at derives
      · cases derives
      · rename_i isNew
        rw [List.map_cons, List.append_cons]
        refine ih ?_ derives
        rw [List.map_append, List.nodup_append]
        refine ⟨distinct, by simp, ?_⟩
        intro key earlier key' last same
        exact isNew (List.mem_singleton.mp last ▸ same ▸ earlier)

theorem derivedRules_eq_ok_iff {derived : List (DerivedRule V)} :
    registry.derivedRules head = .ok derived ↔
      ∃ rules, registry.rules head = .ok rules ∧
        (rules.map Rule.constituents).Nodup ∧
        derived = rules.map (derive head) := by
  constructor
  · intro derives
    cases declared : registry.rules head with
    | error fault =>
        rw [derivedRules, declared] at derives
        cases derives
    | ok rules =>
        have start : (([] : List (DerivedRule V)).map
            DerivedRule.key).Nodup := List.nodup_nil
        have keys : (rules.map fun rule => (derive head rule).key).Nodup := by
          rw [derivedRules, declared] at derives
          simpa [Function.comp_def] using nodup_of_deriveAll start derives
        rw [derivedRules_eq_ok declared keys] at derives
        exact ⟨rules, rfl, nodup_keys_iff.mp keys, (Except.ok.inj derives).symm⟩
  · rintro ⟨rules, declared, distinct, rfl⟩
    exact derivedRules_eq_ok declared (nodup_keys_iff.mpr distinct)

/-- A symbol with rules has no productions exactly when it declares a constituent
sequence twice. -/
theorem exists_derivedRules_error_iff
    (declared : registry.rules head = .ok rules) :
    (∃ fault, registry.derivedRules head = .error fault) ↔
      ¬(rules.map Rule.constituents).Nodup := by
  rw [exists_error_iff, not_iff_not]
  constructor
  · rintro ⟨derived, derives⟩
    obtain ⟨rules', declared', distinct, -⟩ := derivedRules_eq_ok_iff.mp derives
    exact Except.ok.inj (declared'.symm.trans declared) ▸ distinct
  · intro distinct
    exact ⟨_, derivedRules_eq_ok_iff.mpr ⟨rules, declared, distinct, rfl⟩⟩

theorem exists_duplicate_of_deriveAll {derived : List (DerivedRule V)}
    {fault : Fault}
    (fails : registry.deriveAll head derived rules = .error fault) :
    ∃ rule ∈ rules, fault = .configuration (registry.duplicate head rule) := by
  induction rules generalizing derived with
  | nil => cases fails
  | cons rule rules ih =>
      rw [deriveAll] at fails
      split at fails
      · exact ⟨rule, List.mem_cons_self, (Except.error.inj fails).symm⟩
      · obtain ⟨other, member, same⟩ := ih fails
        exact ⟨other, List.mem_cons_of_mem _ member, same⟩

/-- The error of a symbol with rules but without productions says which of the
rules is a repetition. -/
theorem exists_duplicate_of_derivedRules {fault : Fault}
    (declared : registry.rules head = .ok rules)
    (fails : registry.derivedRules head = .error fault) :
    ∃ rule ∈ rules, fault = .configuration (registry.duplicate head rule) := by
  rw [derivedRules, declared] at fails
  exact exists_duplicate_of_deriveAll fails

theorem productions_eq_ok_iff {productions : List Production} :
    registry.productions head = .ok productions ↔
      registry.WellDeclared head ∧
        productions = (registry.shapes head).map (Production.mk head) := by
  constructor
  · intro derives
    cases derived : registry.derivedRules head with
    | error fault =>
        rw [Registry.productions, derived] at derives
        cases derives
    | ok derivedRules =>
        rw [Registry.productions, derived] at derives
        obtain ⟨rules, declared, distinct, rfl⟩ :=
          derivedRules_eq_ok_iff.mp derived
        rw [← shapes_eq declared] at distinct
        refine ⟨⟨⟨rules, declared⟩, distinct⟩, ?_⟩
        rw [← Except.ok.inj derives, shapes_eq declared]
        simp [derive]
  · rintro ⟨⟨⟨rules, declared⟩, distinct⟩, rfl⟩
    rw [shapes_eq declared] at distinct ⊢
    rw [Registry.productions, derivedRules_eq_ok_iff.mpr
      ⟨rules, declared, distinct, rfl⟩]
    simp [Except.map, derive]

/-- The rule of a head that is found by the key of a production is the one of
this production. -/
theorem rule?_ruleTable (declared : registry.rules head = .ok rules)
    (distinct : (rules.map Rule.constituents).Nodup) (production : Production) :
    registry.ruleTable.rule? head production.key =
      .ok (rules.find? fun rule =>
        decide (Production.mk head rule.constituents = production)) := by
  have derives : registry.derivedRules head = .ok (rules.map (derive head)) :=
    derivedRules_eq_ok_iff.mpr ⟨rules, declared, distinct, rfl⟩
  have sameTest : (fun rule => (derive head rule).key == production.key) =
      fun rule : Rule V =>
        decide (Production.mk head rule.constituents = production) := by
    funext rule
    rw [beq_eq_decide, decide_eq_decide]
    exact ⟨fun same => Production.key_injective same, congrArg Production.key⟩
  rw [RuleTable.rule?, derivedRules_ruleTable, derives]
  simp only [Except.map, List.find?_map, Option.map_map, Function.comp_def,
    sameTest]
  simp [derive]

/-- The key of a production leads to the rules of this production and to no
others. -/
theorem rule?_ruleTable_eq_some_iff (declared : registry.rules head = .ok rules)
    (distinct : (rules.map Rule.constituents).Nodup) {production : Production}
    {rule : Rule V} :
    registry.ruleTable.rule? head production.key = .ok (some rule) ↔
      rule ∈ rules ∧ production = ⟨head, rule.constituents⟩ := by
  constructor
  · intro found
    rw [rule?_ruleTable declared distinct, Except.ok.injEq] at found
    have matched := List.find?_some found
    rw [decide_eq_true_eq] at matched
    exact ⟨List.mem_of_find?_eq_some found, matched.symm⟩
  · rintro ⟨member, rfl⟩
    exact RuleTable.rule?_key declared (nodup_keys_iff.mpr distinct) member

end Registry

namespace Derivation

variable {V : Type} {registry : Registry V}

theorem productionsOf_cons_eq_ok_iff {symbol : Symbol} {symbols : List Symbol}
    {productions : List Production} :
    productionsOf registry (symbol :: symbols) = .ok productions ↔
      ∃ own others, registry.productions symbol = .ok own ∧
        productionsOf registry symbols = .ok others ∧
        productions = own ++ others := by
  rw [productionsOf]
  cases registry.productions symbol with
  | error fault => simp [bind, Except.bind]
  | ok own =>
      cases productionsOf registry symbols with
      | error fault => simp [bind, Except.bind]
      | ok others =>
          simp [bind, Except.bind, pure, Except.pure, eq_comm]

theorem productionsOf_eq_ok_iff {symbols : List Symbol}
    {productions : List Production} :
    productionsOf registry symbols = .ok productions ↔
      (∀ symbol ∈ symbols, registry.WellDeclared symbol) ∧
        productions = symbols.flatMap fun symbol =>
          (registry.shapes symbol).map (Production.mk symbol) := by
  induction symbols generalizing productions with
  | nil => simp [productionsOf, eq_comm]
  | cons symbol symbols ih =>
      simp only [productionsOf_cons_eq_ok_iff, Registry.productions_eq_ok_iff,
        ih, List.forall_mem_cons, List.flatMap_cons]
      constructor
      · rintro ⟨own, others, ⟨declared, rfl⟩, ⟨each, rfl⟩, rfl⟩
        exact ⟨⟨declared, each⟩, rfl⟩
      · rintro ⟨⟨declared, each⟩, rfl⟩
        exact ⟨_, _, ⟨declared, rfl⟩, ⟨each, rfl⟩, rfl⟩

theorem productions_eq_ok_iff {derivation : Derivation V}
    {productions : List Production} :
    derivation.productions = .ok productions ↔
      (∀ symbol ∈ derivation.symbols,
        derivation.registry.WellDeclared symbol) ∧
      productions = derivation.symbols.flatMap fun symbol =>
        (derivation.registry.shapes symbol).map (Production.mk symbol) :=
  productionsOf_eq_ok_iff

/-- The alternatives of a head among the symbols of a derived grammar are the
constituent sequences that it declares. -/
theorem alternatives_grammarOf {derivation : Derivation V}
    {productions : List Production}
    (derives : derivation.productions = .ok productions)
    (distinct : derivation.symbols.Nodup) (head : Symbol) :
    (derivation.grammarOf productions).alternatives head =
      if head ∈ derivation.symbols then derivation.registry.shapes head
      else [] := by
  obtain ⟨-, rfl⟩ := productions_eq_ok_iff.mp derives
  simp only [Grammar.alternatives, grammarOf]
  generalize derivation.symbols = symbols at distinct
  induction symbols with
  | nil => rfl
  | cons symbol symbols ih =>
      rw [List.nodup_cons] at distinct
      rw [List.flatMap_cons, List.filter_append, List.map_append,
        ih distinct.2, List.filter_map]
      by_cases same : head = symbol
      · subst same
        simp [distinct.1, Function.comp_def]
      · simp [same, Ne.symm same, Function.comp_def]

end Derivation

end SemanticGrammar
