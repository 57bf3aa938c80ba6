import SemanticGrammar.Proofs.ParsableUses
import SemanticGrammar.Proofs.ParseTrees

/-!
# The values of parse trees

The value of a tree is computed from its leaves upwards: a leaf has the value
of its token, and a node has what the constructor of its rule builds from the
values of its children.  A reader finds just this value for every tree that the
chart parser lists, and it finds none exactly where there is none: for an empty
tree below the root, or for a node whose constructor declines.
-/

namespace SemanticGrammar

namespace Registry

variable {V : Type}

/-- Whether a rule is the one of a node: a rule of the head that has the tags of
the children as constituents. -/
structure IsRuleOf (registry : Registry V) (head : Symbol)
    (children : List Tree) (rule : Rule V) : Prop where
  declared : ∃ rules, registry.rules head = .ok rules ∧ rule ∈ rules
  tags : rule.constituents = children.map Tree.tag

/-- Whether a value is that of a tree, computed from the leaves upwards. -/
inductive Evaluates (registry : Registry V) : Tree → V → Prop where
  | leaf (category : Symbol) (token : String) :
      Evaluates registry (.leaf category token) (registry.ofToken token)
  | node {head : Symbol} {children : List Tree} {rule : Rule V}
      {values : List V} {value : V}
      (isRule : registry.IsRuleOf head children rule)
      (evaluated : List.Forall₂ (Evaluates registry) children values)
      (built : rule.build values = .ok (some value)) :
      Evaluates registry (.node head children) value

/-- Whether the constructor of a node declines the values of the children. -/
def Declines (registry : Registry V) (head : Symbol) (children : List Tree) :
    Prop :=
  ∃ rule values, registry.IsRuleOf head children rule ∧
    List.Forall₂ registry.Evaluates children values ∧
    rule.build values = .ok none

/-- Whether something in a tree has no value. -/
def Lacks (registry : Registry V) (tree : Tree) : Prop :=
  .empty ∈ tree.subtrees ∨
    ∃ head children, .node head children ∈ tree.subtrees ∧
      registry.Declines head children

/-- Whether each node of a tree has a rule among well-declared ones, and each
leaf is a member of its category. -/
structure Understands (registry : Registry V) (tree : Tree) : Prop where
  nodes : ∀ head children, .node head children ∈ tree.subtrees →
    registry.role head = .nonterminal ∧ registry.WellDeclared head ∧
      ∃ rule, registry.IsRuleOf head children rule
  leaves : ∀ category token, .leaf category token ∈ tree.subtrees →
    ∃ member, registry.role category = .lexical member ∧
      member token = .ok true

variable {registry : Registry V} {head : Symbol} {children : List Tree}

theorem Understands.of_child {child : Tree}
    (understands : registry.Understands (.node head children))
    (isChild : child ∈ children) : registry.Understands child where
  nodes := fun inner innerChildren within =>
    understands.nodes inner innerChildren
      (Tree.mem_subtrees_of_child isChild within)
  leaves := fun category token within =>
    understands.leaves category token
      (Tree.mem_subtrees_of_child isChild within)

theorem IsRuleOf.unique {rule rule' : Rule V}
    (wellDeclared : registry.WellDeclared head)
    (isRule : registry.IsRuleOf head children rule)
    (isRule' : registry.IsRuleOf head children rule') : rule' = rule := by
  obtain ⟨rules, declared, isMember⟩ := isRule.declared
  obtain ⟨rules', declared', isMember'⟩ := isRule'.declared
  obtain rfl := Except.ok.inj (declared.symm.trans declared')
  exact List.inj_on_of_nodup_map (wellDeclared.nodup_constituents declared)
    isMember' isMember (isRule'.tags.trans isRule.tags.symm)

theorem IsRuleOf.rule?_eq {rule : Rule V}
    (wellDeclared : registry.WellDeclared head)
    (isRule : registry.IsRuleOf head children rule) :
    registry.ruleTable.rule? head
        (Production.key ⟨head, children.map Tree.tag⟩) =
      .ok (some rule) := by
  obtain ⟨rules, declared, isMember⟩ := isRule.declared
  rw [← isRule.tags]
  exact RuleTable.rule?_key declared
    (nodup_keys_iff.mpr (wellDeclared.nodup_constituents declared)) isMember

theorem evaluates_node_iff {rule : Rule V} {value : V}
    (wellDeclared : registry.WellDeclared head)
    (isRule : registry.IsRuleOf head children rule) :
    registry.Evaluates (.node head children) value ↔
      ∃ values, List.Forall₂ registry.Evaluates children values ∧
        rule.build values = .ok (some value) := by
  constructor
  · intro evaluates
    cases evaluates with
    | node isRule' evaluated built =>
        obtain rfl := isRule.unique wellDeclared isRule'
        exact ⟨_, evaluated, built⟩
  · rintro ⟨values, evaluated, built⟩
    exact .node isRule evaluated built

theorem declines_iff {rule : Rule V}
    (wellDeclared : registry.WellDeclared head)
    (isRule : registry.IsRuleOf head children rule) :
    registry.Declines head children ↔
      ∃ values, List.Forall₂ registry.Evaluates children values ∧
        rule.build values = .ok none := by
  constructor
  · rintro ⟨rule', values, isRule', evaluated, declined⟩
    obtain rfl := isRule.unique wellDeclared isRule'
    exact ⟨values, evaluated, declined⟩
  · rintro ⟨values, evaluated, declined⟩
    exact ⟨rule, values, isRule, evaluated, declined⟩

theorem lacks_node_iff :
    registry.Lacks (.node head children) ↔
      (∃ child ∈ children, registry.Lacks child) ∨
        registry.Declines head children := by
  constructor
  · rintro (within | ⟨inner, innerChildren, within, declines⟩)
    · rcases Tree.mem_subtrees_node.mp within with same | ⟨child, isChild, deeper⟩
      · cases same
      · exact Or.inl ⟨child, isChild, Or.inl deeper⟩
    · rcases Tree.mem_subtrees_node.mp within with same | ⟨child, isChild, deeper⟩
      · cases same
        exact Or.inr declines
      · exact Or.inl ⟨child, isChild,
          Or.inr ⟨inner, innerChildren, deeper, declines⟩⟩
  · rintro (⟨child, isChild, within |
      ⟨inner, innerChildren, within, declines⟩⟩ | declines)
    · exact Or.inl (Tree.mem_subtrees_of_child isChild within)
    · exact Or.inr ⟨inner, innerChildren,
        Tree.mem_subtrees_of_child isChild within, declines⟩
    · exact Or.inr ⟨head, children, Tree.mem_subtrees_self _, declines⟩

end Registry

namespace Reader

variable {V : Type} {reader : Reader V} {head : Symbol}
  {children trees : List Tree} {tree : Tree}

/-! ## Values and readings -/

theorem bind_elim_eq_some_iff {α β : Type} {result : Except Fault (Option α)}
    {next : α → Except Fault (Option β)} {value : β} :
    (result.bind fun value? => value?.elim (.ok none) next) =
        .ok (some value) ↔
      ∃ middle, result = .ok (some middle) ∧ next middle = .ok (some value) := by
  rcases result with fault | (_ | middle) <;> simp [Except.bind]

theorem bind_elim_eq_none_iff {α β : Type} {result : Except Fault (Option α)}
    {next : α → Except Fault (Option β)} :
    (result.bind fun value? => value?.elim (.ok none) next) = .ok none ↔
      result = .ok none ∨
        ∃ middle, result = .ok (some middle) ∧ next middle = .ok none := by
  rcases result with fault | (_ | middle) <;> simp [Except.bind]

theorem forall₂_iff_of_mem {α β : Type} {first second : α → β → Prop}
    {members : List α} {others : List β}
    (same : ∀ member ∈ members, ∀ other,
      first member other ↔ second member other) :
    List.Forall₂ first members others ↔
      List.Forall₂ second members others := by
  induction members generalizing others with
  | nil => simp
  | cons member members ih =>
      rw [List.forall_mem_cons] at same
      cases others with
      | nil => simp
      | cons other others =>
          rw [List.forall₂_cons, List.forall₂_cons, same.1, ih same.2]

theorem read_node_of_isRule {rule : Rule V}
    (nonterminal : reader.registry.role head = .nonterminal)
    (wellDeclared : reader.registry.WellDeclared head)
    (isRule : reader.registry.IsRuleOf head children rule) :
    reader.read head (.node head children) =
      (reader.readAll children).bind fun values? =>
        values?.elim (.ok none) rule.build := by
  obtain ⟨⟨rules, declared, isMember⟩, tags⟩ := isRule
  exact read_node_of_rule nonterminal declared
    (wellDeclared.nodup_constituents declared) isMember tags.symm

/-- A tree that is understood is read with its value. -/
theorem reads_iff_evaluates (understands : reader.registry.Understands tree)
    {value : V} :
    reader.Reads tree value ↔ reader.registry.Evaluates tree value := by
  induction tree generalizing value with
  | leaf category token =>
      obtain ⟨member, lexical, accepted⟩ :=
        understands.leaves category token (Tree.mem_subtrees_self _)
      have reads := reads_leaf lexical accepted
      constructor
      · intro read
        obtain rfl := Option.some.inj (Except.ok.inj (reads.symm.trans read))
        exact .leaf category token
      · rintro ⟨⟩
        exact reads
  | empty =>
      refine iff_of_false (fun reads => ?_) (fun evaluates => by cases evaluates)
      rw [Reads, read] at reads
      cases reads
  | node head children ih =>
      obtain ⟨nonterminal, wellDeclared, rule, isRule⟩ :=
        understands.nodes head children (Tree.mem_subtrees_self _)
      rw [Reads, Tree.tag_node,
        read_node_of_isRule nonterminal wellDeclared isRule,
        bind_elim_eq_some_iff, Registry.evaluates_node_iff wellDeclared isRule]
      refine exists_congr fun values => and_congr_left fun _ => ?_
      rw [readAll_eq_some_iff]
      exact forall₂_iff_of_mem fun child isChild value =>
        ih child isChild (understands.of_child isChild)

theorem readAll_eq_none_iff
    (each : ∀ tree ∈ trees, ∃ value?, reader.read tree.tag tree = .ok value?) :
    reader.readAll trees = .ok none ↔
      ∃ tree ∈ trees, reader.read tree.tag tree = .ok none := by
  induction trees with
  | nil => simp [readAll]
  | cons tree trees ih =>
      rw [List.forall_mem_cons] at each
      obtain ⟨⟨value?, first⟩, others⟩ := each
      rw [readAll_cons, List.exists_mem_cons_iff, ← ih others, first]
      cases value? with
      | none => simp [Except.bind]
      | some value =>
          cases reader.readAll trees with
          | error fault => simp [Except.bind, Except.map]
          | ok values? => simp [Except.bind, Except.map]

theorem failsOnly_read_of_understands {allowed : Fault → Prop}
    (builds : reader.registry.BuildsFailOnly allowed)
    (understands : reader.registry.Understands tree) :
    FailsOnly allowed (reader.read tree.tag tree) := by
  induction tree with
  | leaf category token =>
      obtain ⟨member, lexical, accepted⟩ :=
        understands.leaves category token (Tree.mem_subtrees_self _)
      have reads : reader.Reads (.leaf category token) _ :=
        reads_leaf lexical accepted
      rw [reads]
      exact .ok _
  | empty =>
      rw [read]
      exact .ok _
  | node head children ih =>
      obtain ⟨nonterminal, wellDeclared, rule, isRule⟩ :=
        understands.nodes head children (Tree.mem_subtrees_self _)
      rw [Tree.tag_node, read_node_of_isRule nonterminal wellDeclared isRule]
      refine FailsOnly.bind (failsOnly_readAll fun child isChild =>
        ih child isChild (understands.of_child isChild)) fun values? _ => ?_
      obtain ⟨rules, declared, isMember⟩ := isRule.declared
      cases values? with
      | none => exact .ok _
      | some values => exact builds head rules declared rule isMember values

/-- A tree that is understood has no value exactly where something lacks one,
if constructors are never stopped. -/
theorem read_eq_none_iff
    (builds : reader.registry.BuildsFailOnly fun _ => False)
    (understands : reader.registry.Understands tree) :
    reader.read tree.tag tree = .ok none ↔ reader.registry.Lacks tree := by
  induction tree with
  | leaf category token =>
      obtain ⟨member, lexical, accepted⟩ :=
        understands.leaves category token (Tree.mem_subtrees_self _)
      have reads : reader.Reads (.leaf category token) _ :=
        reads_leaf lexical accepted
      rw [reads]
      simp [Registry.Lacks, Tree.subtrees]
  | empty =>
      rw [read]
      simp [Registry.Lacks, Tree.subtrees]
  | node head children ih =>
      obtain ⟨nonterminal, wellDeclared, rule, isRule⟩ :=
        understands.nodes head children (Tree.mem_subtrees_self _)
      have childRead : ∀ child ∈ children,
          ∃ value?, reader.read child.tag child = .ok value? :=
        fun child isChild => (failsOnly_read_of_understands builds
          (understands.of_child isChild)).exists_eq_ok
      have noValues : reader.readAll children = .ok none ↔
          ∃ child ∈ children, reader.registry.Lacks child := by
        rw [readAll_eq_none_iff childRead]
        exact exists_congr fun child => and_congr_right fun isChild =>
          ih child isChild (understands.of_child isChild)
      have allValues : ∀ values, reader.readAll children = .ok (some values) ↔
          List.Forall₂ reader.registry.Evaluates children values := by
        intro values
        rw [readAll_eq_some_iff]
        exact forall₂_iff_of_mem fun child isChild _ =>
          reads_iff_evaluates (understands.of_child isChild)
      rw [Tree.tag_node, read_node_of_isRule nonterminal wellDeclared isRule,
        bind_elim_eq_none_iff, noValues, Registry.lacks_node_iff,
        Registry.declines_iff wellDeclared isRule]
      simp only [allValues]

end Reader

namespace Derivation

variable {V : Type} {derivation : Derivation V} {productions : List Production}
  {grammar : Grammar} {tree : Tree}

theorem grammar_eq_ok_iff :
    derivation.grammar = .ok grammar ↔
      ∃ productions, derivation.productions = .ok productions ∧
        grammar = derivation.grammarOf productions := by
  unfold Derivation.grammar
  cases derivation.productions <;> simp [Except.map, eq_comm]

theorem exists_rule_of_mem_productions
    (derives : derivation.productions = .ok productions) {head : Symbol}
    {children : List Tree}
    (declared : ⟨head, children.map Tree.tag⟩ ∈ productions) :
    derivation.registry.WellDeclared head ∧
      ∃ rule, derivation.registry.IsRuleOf head children rule := by
  obtain ⟨wellDeclared, rfl⟩ := productions_eq_ok_iff.mp derives
  obtain ⟨symbol, isSymbol, made⟩ := List.mem_flatMap.mp declared
  obtain ⟨shape, isShape, same⟩ := List.mem_map.mp made
  obtain ⟨rfl, rfl⟩ := Production.mk.inj same
  obtain ⟨rules, rulesDeclared⟩ := (wellDeclared symbol isSymbol).rules_ok
  rw [Registry.shapes_eq rulesDeclared] at isShape
  obtain ⟨rule, isMember, tags⟩ := List.mem_map.mp isShape
  exact ⟨wellDeclared symbol isSymbol, rule, ⟨rules, rulesDeclared, isMember⟩,
    tags⟩

theorem understands_of_derives
    (derives : derivation.productions = .ok productions) {symbol : Symbol}
    (derived : (derivation.grammarOf productions).Derives symbol tree) :
    derivation.registry.Understands tree := by
  have admitted := derived.admits (emptyIsUnique_grammarOf productions)
  constructor
  · intro head children within
    obtain ⟨nonterminal, declared⟩ :=
      admitted.node_declared head children within
    exact ⟨nonterminal, exists_rule_of_mem_productions derives declared⟩
  · exact admitted.leaf_accepted

/-- A registry reads every tree that the chart parser lists for its grammar.
The rule of each node is found by its key, and its constructor is given one
value for each constituent.  Each leaf is a member of its category.  The tree
has the value that is computed from its leaves upwards, and no value exactly
when it holds an empty tree or a node whose constructor declines. -/
theorem read_of_mem_parse (derives : derivation.grammar = .ok grammar)
    (maxTrees : Option Int) (tokens : List String) {trees : List Tree}
    (listed : Chart.parser grammar maxTrees tokens = .ok trees)
    (member : tree ∈ trees) :
    let registry := derivation.registry
    let reader := registry.reader
    (∀ head children, .node head children ∈ tree.subtrees →
        ∃ rule, registry.IsRuleOf head children rule ∧
          registry.ruleTable.rule? head
              (Production.key ⟨head, children.map Tree.tag⟩) =
            .ok (some rule) ∧
          ∀ values, reader.readAll children = .ok (some values) →
            values.length = rule.constituents.length) ∧
      (∀ category token, .leaf category token ∈ tree.subtrees →
        ∃ member, registry.role category = .lexical member ∧
          member token = .ok true) ∧
      (∀ value, reader.read derivation.root tree = .ok (some value) ↔
        registry.Evaluates tree value) ∧
      (registry.BuildsFailOnly (fun _ => False) →
        (∃ value?, reader.read derivation.root tree = .ok value?) ∧
        (reader.read derivation.root tree = .ok none ↔
          .empty ∈ tree.subtrees ∨
            ∃ head children, .node head children ∈ tree.subtrees ∧
              registry.Declines head children)) := by
  intro registry reader
  obtain ⟨productions, derivesProductions, rfl⟩ := grammar_eq_ok_iff.mp derives
  obtain ⟨start, isStart, derived⟩ := Chart.derives_of_mem_parse listed member
  have rooted : tree.tag = derivation.root :=
    (derived.tag_eq (emptyIsUnique_grammarOf productions)).trans
      (List.mem_singleton.mp isStart)
  have understands : registry.Understands tree :=
    understands_of_derives derivesProductions derived
  rw [← rooted]
  refine ⟨fun head children within => ?_, understands.leaves,
    fun value => Reader.reads_iff_evaluates understands, fun builds =>
      ⟨(Reader.failsOnly_read_of_understands builds understands).exists_eq_ok,
        Reader.read_eq_none_iff builds understands⟩⟩
  obtain ⟨-, wellDeclared, rule, isRule⟩ :=
    understands.nodes head children within
  refine ⟨rule, isRule, isRule.rule?_eq wellDeclared, fun values read => ?_⟩
  rw [isRule.tags, List.length_map,
    (Reader.readAll_eq_some_iff.mp read).length_eq]

end Derivation

/-- What dogs say about cats has a value, and that dogs say has none. -/
theorem Derivation.read_of_mem_parse_clauses :
    let derivation : Derivation String :=
      ⟨clauses, ⟨1⟩, [⟨2⟩, ⟨7⟩, ⟨0⟩, ⟨3⟩, ⟨8⟩, ⟨6⟩]⟩
    ∃ grammar, derivation.grammar = .ok grammar ∧
      (∃ trees, ∃ tree ∈ trees,
        Chart.parser grammar none ["dogs", "say", "cats", "bark"] =
            .ok trees ∧
          clauses.Evaluates tree "((dogs) (say ((cats) bark)))") ∧
      ∃ trees, ∃ tree ∈ trees,
        Chart.parser grammar none ["dogs", "say"] = .ok trees ∧
          clauses.Lacks tree := by
  intro derivation
  let productions : List Production :=
    [⟨⟨1⟩, [⟨2⟩, ⟨3⟩]⟩, ⟨⟨1⟩, [⟨1⟩, ⟨6⟩, ⟨1⟩]⟩, ⟨⟨2⟩, [⟨7⟩]⟩, ⟨⟨2⟩, [⟨0⟩]⟩,
      ⟨⟨3⟩, [⟨8⟩]⟩, ⟨⟨3⟩, [⟨8⟩, ⟨1⟩]⟩]
  have derives : derivation.grammar = .ok (derivation.grammarOf productions) :=
    grammar_eq_ok_iff.mpr ⟨productions, by decide +kernel, rfl⟩
  have valued : (Chart.parser (derivation.grammarOf productions) none
      ["dogs", "say", "cats", "bark"]).map
        (List.map (clauses.reader.read ⟨1⟩)) =
      .ok [.ok (some "((dogs) (say ((cats) bark)))")] := by
    decide +kernel
  have valueless : (Chart.parser (derivation.grammarOf productions) none
      ["dogs", "say"]).map (List.map (clauses.reader.read ⟨1⟩)) =
      .ok [.ok none] := by
    decide +kernel
  obtain ⟨trees, listed, reads⟩ := exists_of_map_eq_ok valued
  obtain ⟨tree, rfl, read⟩ := List.map_eq_singleton_iff.mp reads
  obtain ⟨others, otherListed, otherReads⟩ := exists_of_map_eq_ok valueless
  obtain ⟨other, rfl, otherRead⟩ := List.map_eq_singleton_iff.mp otherReads
  obtain ⟨-, -, evaluates, -⟩ := read_of_mem_parse derives none _
    listed (List.mem_singleton_self tree)
  obtain ⟨-, -, -, none_iff⟩ := read_of_mem_parse derives none _
    otherListed (List.mem_singleton_self other)
  exact ⟨_, derives,
    ⟨_, tree, List.mem_singleton_self tree, listed, (evaluates _).mp read⟩,
    _, other, List.mem_singleton_self other, otherListed,
    (none_iff buildsFailOnly_clauses).2.mp otherRead⟩

end SemanticGrammar
