import SemanticGrammar.Proofs.DeclaredProductions
import SemanticGrammar.Proofs.DerivationTree
import SemanticGrammar.Proofs.Reachability

/-!
# How trees are read

A node is read by the one rule of its head that has the tags of its children
as constituents, and it has no value when there is none.  The constructor of
the rule is then given one value for each constituent.

So a reader looks only at symbols that the root involves, also in a tree that
is no parse: a child is read after a rule has mentioned its tag.
-/

namespace SemanticGrammar

namespace Registry

variable {V : Type}

def BuildsFailOnly (registry : Registry V) (allowed : Fault → Prop) : Prop :=
  ∀ symbol rules, registry.rules symbol = .ok rules →
    ∀ rule ∈ rules, ∀ values, FailsOnly allowed (rule.build values)

end Registry

namespace Reader

variable {V : Type} {reader : Reader V} {symbol head : Symbol}
  {rules : List (Rule V)} {children trees : List Tree}

/-! ## Lists of trees -/

theorem readAll_cons (tree : Tree) (trees : List Tree) :
    reader.readAll (tree :: trees) =
      (reader.read tree.tag tree).bind fun value? =>
        value?.elim (.ok none) fun value =>
          (reader.readAll trees).map (Option.map (value :: ·)) := by
  rw [readAll]
  cases reader.read tree.tag tree with
  | error fault => rfl
  | ok value? =>
      cases value? with
      | none => rfl
      | some value => cases reader.readAll trees <;> rfl

theorem readAll_eq_some_iff {values : List V} :
    reader.readAll trees = .ok (some values) ↔
      List.Forall₂ reader.Reads trees values := by
  refine ⟨fun read => ?_, readAll_eq_ok⟩
  induction trees generalizing values with
  | nil =>
      obtain rfl := Option.some.inj (Except.ok.inj read)
      exact .nil
  | cons tree trees ih =>
      rw [readAll_cons] at read
      cases first : reader.read tree.tag tree with
      | error fault =>
          rw [first] at read
          cases read
      | ok value? =>
          cases value? with
          | none =>
              rw [first] at read
              cases read
          | some value =>
              cases others : reader.readAll trees with
              | error fault =>
                  rw [first, others] at read
                  cases read
              | ok values? =>
                  rw [first, others] at read
                  obtain ⟨rest, rfl, rfl⟩ :=
                    Option.map_eq_some_iff.mp (Except.ok.inj read)
                  exact .cons first (ih others)

theorem failsOnly_readAll {allowed : Fault → Prop}
    (each : ∀ tree ∈ trees, FailsOnly allowed (reader.read tree.tag tree)) :
    FailsOnly allowed (reader.readAll trees) := by
  induction trees with
  | nil => exact .ok _
  | cons tree trees ih =>
      rw [List.forall_mem_cons] at each
      rw [readAll_cons]
      refine each.1.bind fun value? _ => ?_
      cases value? with
      | none => exact .ok _
      | some value => exact (ih each.2).map

/-! ## Nodes -/

section Nodes

variable (nonterminal : reader.registry.role symbol = .nonterminal)
  (declared : reader.registry.rules symbol = .ok rules)
  (distinct : (rules.map Rule.constituents).Nodup)

include nonterminal declared distinct

theorem read_node_of_rule {rule : Rule V} (isMember : rule ∈ rules)
    (tags : children.map Tree.tag = rule.constituents) :
    reader.read symbol (.node symbol children) =
      (reader.readAll children).bind fun values? =>
        values?.elim (.ok none) rule.build := by
  have found := RuleTable.rule?_key declared
    (Registry.nodup_keys_iff.mpr distinct) isMember
  rw [← reader.table_eq, ← tags] at found
  rw [read, nonterminal]
  simp only [found]
  cases read : reader.readAll children with
  | error fault => rfl
  | ok values? =>
      cases values? with
      | none => rfl
      | some values =>
          have sameLength := (readAll_eq_some_iff.mp read).length_eq
          refine if_pos ?_
          rw [← tags, List.length_map, sameLength]

theorem read_node_of_no_rule
    (foreign : ∀ rule ∈ rules,
      Production.mk symbol rule.constituents ≠ ⟨head, children.map Tree.tag⟩) :
    reader.read symbol (.node head children) = .ok none := by
  have lookup := Registry.rule?_ruleTable declared distinct
    ⟨head, children.map Tree.tag⟩
  have none : (rules.find? fun rule => decide
      (Production.mk symbol rule.constituents =
        ⟨head, children.map Tree.tag⟩)) = none := by
    simpa [List.find?_eq_none] using foreign
  rw [none, ← reader.table_eq] at lookup
  rw [read, nonterminal]
  simp only [lookup]
  rfl

theorem failsOnly_read_node_of_rule {allowed : Fault → Prop}
    (builds : reader.registry.BuildsFailOnly allowed) {rule : Rule V}
    (isMember : rule ∈ rules)
    (tags : children.map Tree.tag = rule.constituents)
    (each : ∀ child ∈ children,
      FailsOnly allowed (reader.read child.tag child)) :
    FailsOnly allowed (reader.read symbol (.node symbol children)) := by
  rw [read_node_of_rule nonterminal declared distinct isMember tags]
  refine (failsOnly_readAll each).bind fun values? _ => ?_
  cases values? with
  | none => exact .ok _
  | some values => exact builds symbol rules declared rule isMember values

end Nodes

/-! ## Any trees -/

theorem read_node_of_role_ne (role : reader.registry.role symbol ≠ .nonterminal) :
    reader.read symbol (.node head children) = .ok none := by
  rw [read]
  split
  · rename_i nonterminal
    exact (role nonterminal).elim
  · rfl

theorem failsOnly_read_leaf {allowed : Fault → Prop}
    (tests : TestsFailOnly reader.registry.role allowed) (symbol category : Symbol)
    (token : String) :
    FailsOnly allowed (reader.read symbol (.leaf category token)) := by
  rw [read]
  split
  · rename_i member lexical
    split
    · exact (tests symbol member lexical token).map
    · exact .ok _
  · exact .ok _

/-- Reading any tree whatever as a symbol that is involved stops with faults of
the callbacks only. -/
theorem failsOnly_read {allowed : Fault → Prop} {root : Symbol}
    (wellDeclared : ∀ symbol, reader.registry.Involves root symbol →
      reader.registry.WellDeclared symbol)
    (tests : TestsFailOnly reader.registry.role allowed)
    (builds : reader.registry.BuildsFailOnly allowed) (tree : Tree)
    (involved : reader.registry.Involves root symbol) :
    FailsOnly allowed (reader.read symbol tree) := by
  induction tree generalizing symbol with
  | leaf category token => exact failsOnly_read_leaf tests symbol category token
  | empty =>
      rw [read]
      exact .ok _
  | node head children ih =>
      obtain ⟨rules, declared⟩ := (wellDeclared symbol involved).rules_ok
      have distinct :=
        (wellDeclared symbol involved).nodup_constituents declared
      by_cases nonterminal : reader.registry.role symbol = .nonterminal
      · by_cases known : ∃ rule ∈ rules, Production.mk symbol rule.constituents =
            ⟨head, children.map Tree.tag⟩
        · obtain ⟨rule, isMember, same⟩ := known
          obtain ⟨rfl, tags⟩ := Production.mk.inj same
          refine failsOnly_read_node_of_rule nonterminal declared distinct builds
            isMember tags.symm fun child isChild => ih child isChild ?_
          refine involved.tail ⟨_, Registry.constituents_eq_ok declared,
            List.mem_flatMap.mpr ⟨rule, isMember, ?_⟩⟩
          exact tags ▸ List.mem_map_of_mem isChild
        · rw [read_node_of_no_rule nonterminal declared distinct (by
            simpa using known)]
          exact .ok _
      · rw [read_node_of_role_ne nonterminal]
        exact .ok _

theorem failsOnly_readings {allowed : Fault → Prop}
    (each : ∀ tree ∈ trees, FailsOnly allowed (reader.read symbol tree)) :
    FailsOnly allowed (reader.readings symbol trees) := by
  induction trees with
  | nil => exact .ok _
  | cons tree trees ih =>
      rw [List.forall_mem_cons] at each
      refine each.1.bind fun value? _ => ?_
      exact (ih each.2).bind fun others _ => .ok _

end Reader

end SemanticGrammar
