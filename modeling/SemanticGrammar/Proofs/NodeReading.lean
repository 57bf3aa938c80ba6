import Mathlib.Data.List.Nodup
import SemanticGrammar.Reading

/-!
# Reading nodes by declared rules

The rules of a symbol whose productions have different keys are all derived,
and each is found by its key.  A node whose children have the tags of a rule
is therefore read by the constructor of that rule.
-/

namespace SemanticGrammar

namespace Registry

variable {V : Type} {registry : Registry V} {head : Symbol}
  {rules : List (Rule V)}

theorem deriveAll_eq_ok {derived : List (DerivedRule V)}
    (distinct : ((derived ++ rules.map (derive head)).map
      DerivedRule.key).Nodup) :
    registry.deriveAll head derived rules =
      .ok (derived ++ rules.map (derive head)) := by
  induction rules generalizing derived with
  | nil => simp [deriveAll]
  | cons rule rules ih =>
      have isNew : (derive head rule).key ∉ derived.map DerivedRule.key := by
        rw [List.map_cons, List.map_append, List.map_cons, List.nodup_middle,
          List.nodup_cons, List.mem_append, not_or] at distinct
        exact distinct.1.1
      rw [List.map_cons, List.append_cons] at distinct ⊢
      rw [deriveAll, if_neg isNew, ih distinct]

theorem derivedRules_eq_ok (declared : registry.rules head = .ok rules)
    (distinct : (rules.map fun rule => (derive head rule).key).Nodup) :
    registry.derivedRules head = .ok (rules.map (derive head)) := by
  rw [derivedRules, declared]
  apply deriveAll_eq_ok
  simpa [Function.comp_def] using distinct

end Registry

theorem find?_eq_some_of_nodup {α κ : Type} [BEq κ] [LawfulBEq κ]
    {key : α → κ} {members : List α} (distinct : (members.map key).Nodup)
    {wanted : α} (isMember : wanted ∈ members) :
    members.find? (fun member => key member == key wanted) = some wanted := by
  induction members with
  | nil => cases isMember
  | cons member members ih =>
      rw [List.map_cons, List.nodup_cons] at distinct
      rcases List.mem_cons.mp isMember with rfl | later
      · simp
      · have differ : key member ≠ key wanted := fun same =>
          distinct.1 (same ▸ List.mem_map_of_mem later)
        rw [List.find?_cons_of_neg (by simpa using differ),
          ih distinct.2 later]

theorem RuleTable.rule?_key {V : Type} {registry : Registry V} {head : Symbol}
    {rules : List (Rule V)} (declared : registry.rules head = .ok rules)
    (distinct : (rules.map fun rule => (Registry.derive head rule).key).Nodup)
    {rule : Rule V} (isMember : rule ∈ rules) :
    registry.ruleTable.rule? head
        (Production.key ⟨head, rule.constituents⟩) = .ok (some rule) := by
  have found : rules.find? ((fun derived : DerivedRule V =>
      derived.key == Production.key ⟨head, rule.constituents⟩) ∘
        Registry.derive head) = some rule :=
    find?_eq_some_of_nodup distinct isMember
  rw [RuleTable.rule?, Registry.derivedRules_ruleTable,
    Registry.derivedRules_eq_ok declared distinct]
  simp only [Except.map, List.find?_map, found]
  rfl

namespace Reader

variable {V : Type} {reader : Reader V}

/-- Whether a tree is read by its own tag, with a value. -/
def Reads (reader : Reader V) (tree : Tree) (value : V) : Prop :=
  reader.read tree.tag tree = .ok (some value)

theorem reads_leaf {category : Symbol} {member : String → Except Fault Bool}
    {token : String} (lexical : reader.registry.role category = .lexical member)
    (accepted : member token = .ok true) :
    reader.Reads (.leaf category token) (reader.registry.ofToken token) := by
  simp [Reads, read, Tree.tag, lexical, accepted, Except.map]

theorem readAll_eq_ok {trees : List Tree} {values : List V}
    (reads : List.Forall₂ reader.Reads trees values) :
    reader.readAll trees = .ok (some values) := by
  induction reads with
  | nil => rfl
  | cons first _ ih =>
      rw [Reads] at first
      rw [readAll, first, ih]
      rfl

/-- A node is read by the rule whose constituents are the tags of its
children. -/
theorem reads_node {head : Symbol} {rules : List (Rule V)}
    (nonterminal : reader.registry.role head = .nonterminal)
    (declared : reader.registry.rules head = .ok rules)
    (distinct : (rules.map fun rule => (Registry.derive head rule).key).Nodup)
    {rule : Rule V} (isMember : rule ∈ rules) {children : List Tree}
    (tags : children.map Tree.tag = rule.constituents) {values : List V}
    (reads : List.Forall₂ reader.Reads children values) {value : V}
    (built : rule.build values = .ok (some value)) :
    reader.Reads (.node head children) value := by
  have found := RuleTable.rule?_key declared distinct isMember
  rw [← reader.table_eq] at found
  have lengths : values.length = rule.constituents.length := by
    rw [← tags, List.length_map, reads.length_eq]
  rw [Reads, Tree.tag, read, nonterminal]
  simp only [tags, readAll_eq_ok reads]
  rw [found]
  exact (if_pos lengths).trans built

theorem readings_eq_ok {symbol : Symbol} {trees : List Tree}
    (tags : ∀ tree ∈ trees, tree.tag = symbol) {values : List V}
    (reads : List.Forall₂ reader.Reads trees values) :
    reader.readings symbol trees = .ok values := by
  induction reads with
  | nil => rfl
  | cons first _ ih =>
      rw [List.forall_mem_cons] at tags
      rw [Reads, tags.1] at first
      rw [readings, first, ih tags.2]
      rfl

end Reader

end SemanticGrammar
