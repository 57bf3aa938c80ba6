import SemanticGrammar.Proofs.TreeValues

/-!
# The trees of a symbol

A tree is one of a symbol when it is headed by the symbol, each of its nodes
follows a production of its own head, each leaf is a member of its category and
nothing in it is empty.  A reader finds values for such trees only, whatever
tree it is given, and the value is the one that is computed from the leaves
upwards.  For a tree of the symbol it finds none only where a constructor
declines.
-/

namespace SemanticGrammar

namespace Registry

variable {V : Type} {registry : Registry V} {symbol head : Symbol}
  {children : List Tree} {tree : Tree}

/-- Whether a tree is one of a symbol. -/
structure IsTreeOf (registry : Registry V) (symbol : Symbol) (tree : Tree) :
    Prop where
  tag_eq : tree.tag = symbol
  nodes : ∀ head children, .node head children ∈ tree.subtrees →
    ∃ productions, registry.productions head = .ok productions ∧
      ⟨head, children.map Tree.tag⟩ ∈ productions
  leaves : ∀ category token, .leaf category token ∈ tree.subtrees →
    ∃ member, registry.role category = .lexical member ∧
      member token = .ok true
  nonempty : .empty ∉ tree.subtrees

theorem role_eq_nonterminal_of_mem_rules {rules : List (Rule V)}
    {rule : Rule V} (declared : registry.rules symbol = .ok rules)
    (isMember : rule ∈ rules) : registry.role symbol = .nonterminal := by
  unfold Registry.rules at declared
  split at declared
  · rename_i found
    rw [role, found]
  · obtain rfl := Except.ok.inj declared
    cases isMember

/-- A node has a rule among well-declared ones when it follows a production of
its head. -/
theorem exists_isRuleOf_iff :
    (registry.role head = .nonterminal ∧ registry.WellDeclared head ∧
        ∃ rule, registry.IsRuleOf head children rule) ↔
      ∃ productions, registry.productions head = .ok productions ∧
        ⟨head, children.map Tree.tag⟩ ∈ productions := by
  simp only [productions_eq_ok_iff]
  constructor
  · rintro ⟨-, wellDeclared, rule, ⟨rules, declared, isMember⟩, tags⟩
    refine ⟨_, ⟨wellDeclared, rfl⟩, List.mem_map.mpr ⟨_, ?_, rfl⟩⟩
    rw [shapes_eq declared]
    exact tags ▸ List.mem_map_of_mem isMember
  · rintro ⟨productions, ⟨wellDeclared, rfl⟩, follows⟩
    obtain ⟨rules, declared⟩ := wellDeclared.rules_ok
    obtain ⟨shape, isShape, same⟩ := List.mem_map.mp follows
    rw [shapes_eq declared] at isShape
    obtain ⟨rule, isMember, rfl⟩ := List.mem_map.mp isShape
    exact ⟨role_eq_nonterminal_of_mem_rules declared isMember, wellDeclared,
      rule, ⟨rules, declared, isMember⟩, (Production.mk.inj same).2⟩

theorem isTreeOf_iff :
    registry.IsTreeOf symbol tree ↔ tree.tag = symbol ∧
      registry.Understands tree ∧ .empty ∉ tree.subtrees := by
  constructor
  · rintro ⟨tagged, nodes, leaves, nonempty⟩
    exact ⟨tagged, ⟨fun head children within =>
      exists_isRuleOf_iff.mpr (nodes head children within), leaves⟩, nonempty⟩
  · rintro ⟨tagged, ⟨nodes, leaves⟩, nonempty⟩
    exact ⟨tagged, fun head children within =>
      exists_isRuleOf_iff.mp (nodes head children within), leaves, nonempty⟩

theorem IsTreeOf.of_child {child : Tree}
    (isTree : registry.IsTreeOf symbol (.node head children))
    (isChild : child ∈ children) : registry.IsTreeOf child.tag child := by
  obtain ⟨-, understands, nonempty⟩ := isTreeOf_iff.mp isTree
  exact isTreeOf_iff.mpr ⟨rfl, understands.of_child isChild,
    fun within => nonempty (Tree.mem_subtrees_of_child isChild within)⟩

theorem isTreeOf_leaf {member : String → Except Fault Bool} {token : String}
    (lexical : registry.role symbol = .lexical member)
    (accepted : member token = .ok true) :
    registry.IsTreeOf symbol (.leaf symbol token) where
  tag_eq := rfl
  nodes := by simp [Tree.subtrees]
  leaves := by
    intro category token' within
    simp only [Tree.subtrees, List.mem_singleton, Tree.leaf.injEq] at within
    obtain ⟨rfl, rfl⟩ := within
    exact ⟨member, lexical, accepted⟩
  nonempty := by simp [Tree.subtrees]

theorem isTreeOf_node {productions : List Production}
    (derives : registry.productions head = .ok productions)
    (follows : ⟨head, children.map Tree.tag⟩ ∈ productions)
    (each : ∀ child ∈ children, registry.IsTreeOf child.tag child) :
    registry.IsTreeOf head (.node head children) where
  tag_eq := rfl
  nodes := by
    intro inner innerChildren within
    rcases Tree.mem_subtrees_node.mp within with same | ⟨child, isChild, deeper⟩
    · obtain ⟨rfl, rfl⟩ := Tree.node.inj same
      exact ⟨productions, derives, follows⟩
    · exact (each child isChild).nodes inner innerChildren deeper
  leaves := by
    intro category token within
    rcases Tree.mem_subtrees_node.mp within with same | ⟨child, isChild, deeper⟩
    · cases same
    · exact (each child isChild).leaves category token deeper
  nonempty := by
    intro within
    rcases Tree.mem_subtrees_node.mp within with same | ⟨child, isChild, deeper⟩
    · cases same
    · exact (each child isChild).nonempty deeper

end Registry

namespace Reader

variable {V : Type} {reader : Reader V} {symbol head : Symbol}
  {children : List Tree} {tree : Tree}

theorem exists_reads_of_mem {trees : List Tree} {values : List V}
    (read : reader.readAll trees = .ok (some values)) (isMember : tree ∈ trees) :
    ∃ value, reader.Reads tree value := by
  induction readAll_eq_some_iff.mp read with
  | nil => cases isMember
  | cons first others ih =>
      rcases List.mem_cons.mp isMember with rfl | later
      · exact ⟨_, first⟩
      · exact ih (readAll_eq_some_iff.mpr others) later

theorem exists_rules_of_read_node {value : V}
    (reads : reader.read symbol (.node head children) = .ok (some value)) :
    reader.registry.role symbol = .nonterminal ∧ ∃ rules,
      reader.registry.rules symbol = .ok rules ∧
        (rules.map Rule.constituents).Nodup := by
  rw [read] at reads
  split at reads
  · rename_i nonterminal
    refine ⟨nonterminal, ?_⟩
    cases derives : reader.registry.derivedRules symbol with
    | error fault =>
        simp only [RuleTable.rule?, reader.table_eq,
          Registry.derivedRules_ruleTable, derives] at reads
        cases reads
    | ok derived =>
        obtain ⟨rules, declared, distinct, -⟩ :=
          Registry.derivedRules_eq_ok_iff.mp derives
        exact ⟨rules, declared, distinct⟩
  · cases reads

/-- Whatever tree is read with a value as a symbol is a tree of this symbol. -/
theorem isTreeOf_of_read {value : V}
    (reads : reader.read symbol tree = .ok (some value)) :
    reader.registry.IsTreeOf symbol tree := by
  induction tree generalizing symbol value with
  | leaf category token =>
      rw [read] at reads
      split at reads
      · rename_i member lexical
        split at reads
        · rename_i same
          subst same
          obtain ⟨accepted, tested, found⟩ := exists_of_map_eq_ok reads
          cases accepted with
          | true => exact Registry.isTreeOf_leaf lexical tested
          | false => cases found
        · cases reads
      · cases reads
  | empty =>
      rw [read] at reads
      cases reads
  | node head children ih =>
      obtain ⟨nonterminal, rules, declared, distinct⟩ :=
        exists_rules_of_read_node reads
      by_cases known : ∃ rule ∈ rules, Production.mk symbol rule.constituents =
          ⟨head, children.map Tree.tag⟩
      · obtain ⟨rule, isMember, same⟩ := known
        obtain ⟨rfl, tags⟩ := Production.mk.inj same
        rw [read_node_of_rule nonterminal declared distinct isMember tags.symm,
          bind_elim_eq_some_iff] at reads
        obtain ⟨values, childrenRead, -⟩ := reads
        have isRule : reader.registry.IsRuleOf symbol children rule :=
          ⟨⟨rules, declared, isMember⟩, tags⟩
        have wellDeclared : reader.registry.WellDeclared symbol :=
          ⟨⟨rules, declared⟩, Registry.shapes_eq declared ▸ distinct⟩
        obtain ⟨productions, derives, follows⟩ := Registry.exists_isRuleOf_iff.mp
          ⟨nonterminal, wellDeclared, rule, isRule⟩
        refine Registry.isTreeOf_node derives follows fun child isChild => ?_
        obtain ⟨value, childReads⟩ := exists_reads_of_mem childrenRead isChild
        exact ih child isChild childReads
      · rw [read_node_of_no_rule nonterminal declared distinct (by
          simpa using known)] at reads
        cases reads

/-- A symbol reads its own trees, and no others, with the values that are
computed from their leaves upwards. -/
theorem read_eq_some_iff {value : V} :
    reader.read symbol tree = .ok (some value) ↔
      reader.registry.IsTreeOf symbol tree ∧
        reader.registry.Evaluates tree value := by
  constructor
  · intro reads
    have isTree := isTreeOf_of_read reads
    obtain ⟨rfl, understands, -⟩ := Registry.isTreeOf_iff.mp isTree
    exact ⟨isTree, (reads_iff_evaluates understands).mp reads⟩
  · rintro ⟨isTree, evaluates⟩
    obtain ⟨rfl, understands, -⟩ := Registry.isTreeOf_iff.mp isTree
    exact (reads_iff_evaluates understands).mpr evaluates

/-- A symbol that can always be read finds no value where the tree is not one of
its own, and where a constructor declines. -/
theorem read_eq_none_iff_of_involves
    (wellDeclared : ∀ other, reader.registry.Involves symbol other →
      reader.registry.WellDeclared other)
    (tests : TestsFailOnly reader.registry.role fun _ => False)
    (builds : reader.registry.BuildsFailOnly fun _ => False) :
    reader.read symbol tree = .ok none ↔
      ¬reader.registry.IsTreeOf symbol tree ∨
        ∃ head children, .node head children ∈ tree.subtrees ∧
          reader.registry.Declines head children := by
  by_cases isTree : reader.registry.IsTreeOf symbol tree
  · obtain ⟨rfl, understands, nonempty⟩ := Registry.isTreeOf_iff.mp isTree
    rw [read_eq_none_iff builds understands, Registry.Lacks]
    simp only [nonempty, isTree, not_true_eq_false]
  · refine iff_of_true ?_ (Or.inl isTree)
    obtain ⟨value?, read⟩ := (failsOnly_read wellDeclared tests builds tree
      .refl).exists_eq_ok
    cases value? with
    | none => exact read
    | some value => exact (isTree (isTreeOf_of_read read)).elim

end Reader

end SemanticGrammar
