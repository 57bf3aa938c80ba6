import SemanticGrammar.Derivation
import SemanticGrammar.Proofs.Enumeration

/-!
# Parse trees of a token list

A tree is a parse of a token list when its root is a start symbol, each node
is a production, each leaf is accepted by its category, its leaves read the
tokens from left to right, and no path goes through one cell twice.

The plain enumeration lists the parses.  It lists each of them once if neither
productions nor start symbols repeat, since a tree determines the production
at each node and the place where each constituent ends.
-/

namespace SemanticGrammar

namespace Grammar

/-- Whether the empty symbol, and no other symbol, matches nothing, as in every
derived grammar. -/
def EmptyIsUnique (grammar : Grammar) : Prop :=
  ∀ symbol, grammar.role symbol = .empty ↔ symbol = Symbol.empty

def Accepts (grammar : Grammar) (category : Symbol) (token : String) : Prop :=
  ∃ member, grammar.role category = .lexical member ∧ member token = .ok true

/-- Whether a nonterminal has a production for the tags of some children. -/
def Declares (grammar : Grammar) (head : Symbol) (children : List Tree) :
    Prop :=
  grammar.role head = .nonterminal ∧
    ⟨head, children.map Tree.tag⟩ ∈ grammar.productions

/-- Whether each node of a tree is a production of a grammar and each of its
leaves is accepted. -/
structure Admits (grammar : Grammar) (tree : Tree) : Prop where
  node_declared : ∀ head children, .node head children ∈ tree.subtrees →
    grammar.Declares head children
  leaf_accepted : ∀ category token, .leaf category token ∈ tree.subtrees →
    grammar.Accepts category token

/-- Whether a tree is a parse of a token list. -/
structure IsParse (grammar : Grammar) (tokens : List String)
    (tree : Tree) : Prop where
  rooted : tree.tag ∈ grammar.startSymbols
  admitted : grammar.Admits tree
  reads : tree.tokens = tokens
  acyclic : ∀ path ∈ tree.pathsFrom 0, path.Nodup

variable {grammar : Grammar}

/-! ## Derivations by tags -/

theorem admits_node {head : Symbol} {children : List Tree} :
    grammar.Admits (.node head children) ↔
      grammar.Declares head children ∧
        ∀ child ∈ children, grammar.Admits child := by
  constructor
  · intro admitted
    refine ⟨admitted.node_declared head children (Tree.mem_subtrees_self _),
      fun child member => ⟨fun inner innerChildren within => ?_,
        fun category token within => ?_⟩⟩
    · exact admitted.node_declared inner innerChildren
        (Tree.mem_subtrees_of_child member within)
    · exact admitted.leaf_accepted category token
        (Tree.mem_subtrees_of_child member within)
  · rintro ⟨declared, each⟩
    constructor
    · intro inner innerChildren within
      rcases Tree.mem_subtrees_node.mp within with same | ⟨child, member, deeper⟩
      · cases same
        exact declared
      · exact (each child member).node_declared inner innerChildren deeper
    · intro category token within
      rcases Tree.mem_subtrees_node.mp within with same | ⟨child, member, deeper⟩
      · cases same
      · exact (each child member).leaf_accepted category token deeper

theorem Derives.tag_eq (unique : grammar.EmptyIsUnique) {symbol : Symbol}
    {tree : Tree} (derived : grammar.Derives symbol tree) :
    tree.tag = symbol := by
  cases derived with
  | leaf => rfl
  | node => rfl
  | empty empty => exact ((unique symbol).mp empty).symm

theorem Derives.map_tag_eq (unique : grammar.EmptyIsUnique)
    {symbols : List Symbol} {trees : List Tree}
    (derived : List.Forall₂ grammar.Derives symbols trees) :
    trees.map Tree.tag = symbols := by
  induction derived with
  | nil => rfl
  | cons first rest ih => rw [List.map_cons, first.tag_eq unique, ih]

theorem Derives.admits (unique : grammar.EmptyIsUnique) {symbol : Symbol}
    {tree : Tree} (derived : grammar.Derives symbol tree) :
    grammar.Admits tree := by
  induction tree generalizing symbol with
  | leaf category token =>
      cases derived with
      | leaf lexical accepted =>
          refine ⟨by simp [Tree.subtrees], fun _ _ within => ?_⟩
          simp only [Tree.subtrees, List.mem_singleton, Tree.leaf.injEq]
            at within
          obtain ⟨rfl, rfl⟩ := within
          exact ⟨_, lexical, accepted⟩
  | empty => exact ⟨by simp [Tree.subtrees], by simp [Tree.subtrees]⟩
  | node head children ih =>
      obtain ⟨rfl, nonterminal, alternative, declared, childrenDerived⟩ :=
        derived.exists_alternative
      rw [admits_node, Declares, Derives.map_tag_eq unique childrenDerived]
      refine ⟨⟨nonterminal, mem_alternatives.mp declared⟩,
        fun child member => ?_⟩
      obtain ⟨_, childDerived⟩ := exists_symbol_of_mem childrenDerived member
      exact ih child member childDerived

theorem Admits.derives (unique : grammar.EmptyIsUnique) {tree : Tree}
    (admitted : grammar.Admits tree) : grammar.Derives tree.tag tree := by
  induction tree with
  | leaf category token =>
      obtain ⟨_, lexical, accepted⟩ :=
        admitted.leaf_accepted category token (Tree.mem_subtrees_self _)
      exact .leaf lexical accepted
  | empty => exact .empty ((unique _).mpr rfl)
  | node head children ih =>
      obtain ⟨⟨nonterminal, declared⟩, each⟩ := admits_node.mp admitted
      refine .node nonterminal (mem_alternatives.mpr declared) ?_
      rw [List.forall₂_map_left_iff, List.forall₂_same]
      exact fun child member => ih child member (each child member)

theorem mem_allTrees_iff_isParse (unique : grammar.EmptyIsUnique)
    {tokens : List String} {tree : Tree} :
    tree ∈ grammar.allTrees tokens ↔ grammar.IsParse tokens tree := by
  have acyclic_iff : tree.Avoids [] 0 ↔
      ∀ path ∈ tree.pathsFrom 0, path.Nodup := by
    simp [Tree.avoids_iff_paths]
  rw [mem_allTrees]
  constructor
  · rintro ⟨start, startMem, derived, avoids, reads⟩
    exact ⟨derived.tag_eq unique ▸ startMem, derived.admits unique, reads,
      acyclic_iff.mp avoids⟩
  · rintro ⟨rooted, admitted, reads, acyclic⟩
    exact ⟨tree.tag, rooted, admitted.derives unique,
      acyclic_iff.mpr acyclic, reads⟩

/-! ## No tree is listed twice -/

theorem nodup_alternatives (distinct : grammar.productions.Nodup)
    (head : Symbol) : (grammar.alternatives head).Nodup := by
  refine (distinct.filter _).map_on ?_
  rintro ⟨head', _⟩ left ⟨head'', _⟩ right same
  simp only [List.mem_filter, decide_eq_true_eq] at left right
  simp_all

theorem nodup_leavesOver (tokens : List String) (category : Symbol)
    (member : String → Except Fault Bool) (first last : Nat) :
    (leavesOver tokens category member first last).Nodup := by
  unfold leavesOver
  split
  · exact List.nodup_nil
  · split <;> simp

/-- Nodes made from the children of different alternatives are different,
since the tags of the children are the alternative. -/
theorem nodup_treesOver_of_alternatives (unique : grammar.EmptyIsUnique)
    (distinct : grammar.productions.Nodup) {tokens : List String}
    {active : List Cell} {symbol : Symbol} {first last : Nat}
    (each : ∀ alternative ∈ grammar.alternatives symbol,
      (grammar.childrenOver tokens active alternative first last).Nodup) :
    ((grammar.alternatives symbol).flatMap fun alternative =>
      (grammar.childrenOver tokens active alternative first last).map
        (Tree.node symbol)).Nodup := by
  rw [List.nodup_flatMap]
  constructor
  · intro alternative declared
    exact (each alternative declared).map fun _ _ same => (Tree.node.inj same).2
  · apply (nodup_alternatives distinct symbol).imp
    intro alternative alternative' differs tree left right
    obtain ⟨children, childrenMem, rfl⟩ := List.mem_map.mp left
    obtain ⟨children', childrenMem', same⟩ := List.mem_map.mp right
    obtain rfl := (Tree.node.inj same).2
    apply differs
    rw [← Derives.map_tag_eq unique (mem_childrenOver.mp childrenMem).1,
      Derives.map_tag_eq unique (mem_childrenOver.mp childrenMem').1]

/-- Sequences that end their first constituent at different places are
different, since a tree ends where its tokens do. -/
theorem nodup_childrenOver_cons {tokens : List String} {active : List Cell}
    {symbol : Symbol} {rest : List Symbol} {first last : Nat}
    (heads : ∀ split ∈ List.range' first (last + 1 - first),
      (grammar.treesOver tokens active symbol first split).Nodup)
    (tails : ∀ split ∈ List.range' first (last + 1 - first),
      (grammar.childrenOver tokens active rest split last).Nodup) :
    (grammar.childrenOver tokens active (symbol :: rest) first last).Nodup := by
  have distinctEnds :
      (List.range' first (last + 1 - first)).Nodup := List.nodup_range'
  rw [childrenOver_cons, List.nodup_flatMap]
  constructor
  · intro split inside
    rw [List.nodup_flatMap]
    constructor
    · intro tree _
      exact (tails split inside).map fun _ _ same => (List.cons.inj same).2
    · apply (heads split inside).imp
      intro tree tree' differs trees left right
      obtain ⟨_, _, rfl⟩ := List.mem_map.mp left
      obtain ⟨_, _, same⟩ := List.mem_map.mp right
      exact differs (List.cons.inj same).1.symm
  · apply distinctEnds.imp
    intro split split' differs trees left right
    simp only [List.mem_flatMap, List.mem_map] at left right
    obtain ⟨tree, treeMem, _, _, rfl⟩ := left
    obtain ⟨tree', treeMem', _, _, same⟩ := right
    obtain rfl := (List.cons.inj same).1
    have ends := (mem_treesOver.mp treeMem).2.2.1
    have ends' := (mem_treesOver.mp treeMem').2.2.1
    exact differs (ends.symm.trans ends')

theorem nodup_treesOver (unique : grammar.EmptyIsUnique)
    (distinct : grammar.productions.Nodup) (tokens : List String)
    (active : List Cell) (symbol : Symbol) (first last : Nat) :
    (grammar.treesOver tokens active symbol first last).Nodup := by
  apply treesOver.induct grammar
    (fun active symbol first last =>
      (grammar.treesOver tokens active symbol first last).Nodup)
    (fun active symbols first last =>
      (grammar.childrenOver tokens active symbols first last).Nodup)
  case case1 =>
      intro active symbol first last member lexical
      rw [treesOver_of_lexical _ _ _ _ _ lexical]
      exact nodup_leavesOver tokens symbol member first last
  case case2 =>
      intro active symbol last empty
      rw [treesOver_of_empty _ _ _ _ _ empty, if_pos rfl]
      exact List.nodup_singleton _
  case case3 =>
      intro active symbol first last empty differ
      rw [treesOver_of_empty _ _ _ _ _ empty, if_neg differ]
      exact List.nodup_nil
  case case4 =>
      intro active symbol first last nonterminal inProgress
      rw [treesOver_of_nonterminal _ _ _ _ _ nonterminal, if_pos inProgress]
      exact List.nodup_nil
  case case5 =>
      intro active symbol first last nonterminal idle ih
      rw [treesOver_of_nonterminal _ _ _ _ _ nonterminal, if_neg idle]
      exact nodup_treesOver_of_alternatives unique distinct
        fun alternative declared => ih ⟨alternative, declared⟩
  case case6 =>
      intro active last
      rw [childrenOver_nil, if_pos rfl]
      exact List.nodup_singleton _
  case case7 =>
      intro active first last differ
      rw [childrenOver_nil, if_neg differ]
      exact List.nodup_nil
  case case8 =>
      intro active first last symbol rest ihTails ihHeads
      exact nodup_childrenOver_cons
        (fun split inside => ihHeads ⟨split, inside⟩)
        (fun split inside => ihTails ⟨split, inside⟩)

/-- No parse is listed twice, since the tag of a tree is the start symbol. -/
theorem nodup_allTrees (unique : grammar.EmptyIsUnique)
    (distinct : grammar.productions.Nodup)
    (distinctStarts : grammar.startSymbols.Nodup) (tokens : List String) :
    (grammar.allTrees tokens).Nodup := by
  rw [allTrees, List.nodup_flatMap]
  refine ⟨fun start _ => nodup_treesOver unique distinct _ _ _ _ _, ?_⟩
  apply distinctStarts.imp
  intro start start' differs tree left right
  apply differs
  rw [← (mem_treesOver.mp left).1.tag_eq unique,
    (mem_treesOver.mp right).1.tag_eq unique]

end Grammar

theorem Derivation.emptyIsUnique_grammarOf {V : Type}
    {derivation : Derivation V} (productions : List Production) :
    (derivation.grammarOf productions).EmptyIsUnique := fun _ =>
  Registry.role_eq_empty_iff

end SemanticGrammar
