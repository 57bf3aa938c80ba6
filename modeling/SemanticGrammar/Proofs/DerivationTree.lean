import Mathlib.Data.List.Forall2
import SemanticGrammar.Grammar

/-!
# Derivation trees

A tree is a derivation of a symbol when each of its leaves passes the
membership test of its category, each of its nodes follows an alternative of
its head, and the empty tree stands only where the empty symbol does.  A
derivation may repeat a symbol over one span along a path any number of times.

Such repetitions can always be cut out: given a mark for each node that tells
heads apart, a derivation shrinks to one in which no mark recurs along a path.
The shrunken tree reads some of the leaves, and all of them when marks also
count leaves.
-/

namespace SemanticGrammar

namespace Tree

/-! ## Trees and their children -/

/-- Induction on trees through the children of each node. -/
@[induction_eliminator]
theorem induction {motive : Tree → Prop}
    (leaf : ∀ category token, motive (.leaf category token))
    (node : ∀ head children, (∀ child ∈ children, motive child) →
      motive (.node head children))
    (empty : motive .empty) : ∀ tree, motive tree
  | .leaf category token => leaf category token
  | .node head children =>
      node head children fun child _ => induction leaf node empty child
  | .empty => empty

theorem leavesOfAll_eq_flatMap (trees : List Tree) :
    leavesOfAll trees = trees.flatMap leaves := by
  induction trees with
  | nil => rfl
  | cons tree trees ih => simp [leavesOfAll, ih]

@[simp]
theorem leaves_leaf (category : Symbol) (token : String) :
    (leaf category token).leaves = [(category, token)] := by
  simp [leaves]

@[simp]
theorem leaves_node (head : Symbol) (children : List Tree) :
    (node head children).leaves = children.flatMap leaves := by
  simp [leaves, leavesOfAll_eq_flatMap]

@[simp]
theorem leaves_empty : empty.leaves = [] := by
  simp [leaves]

@[simp]
theorem tag_leaf (category : Symbol) (token : String) :
    (leaf category token).tag = category :=
  rfl

@[simp]
theorem tag_node (head : Symbol) (children : List Tree) :
    (node head children).tag = head :=
  rfl

@[simp]
theorem tokens_leaf (category : Symbol) (token : String) :
    (leaf category token).tokens = [token] := by
  simp [tokens]

@[simp]
theorem tokens_node (head : Symbol) (children : List Tree) :
    (node head children).tokens = children.flatMap tokens := by
  simp only [tokens, leaves_node, List.map_flatMap]
  rfl

@[simp]
theorem tokens_empty : empty.tokens = [] := by
  simp [tokens]

/-- The number of tokens that a tree reads. -/
def width (tree : Tree) : Nat :=
  tree.tokens.length

@[simp]
theorem length_tokens (tree : Tree) : tree.tokens.length = tree.width :=
  rfl

@[simp]
theorem length_leaves (tree : Tree) : tree.leaves.length = tree.width := by
  simp [width, tokens]

def totalWidth : List Tree → Nat
  | [] => 0
  | tree :: trees => tree.width + totalWidth trees

@[simp]
theorem totalWidth_nil : totalWidth [] = 0 :=
  rfl

@[simp]
theorem totalWidth_cons (tree : Tree) (trees : List Tree) :
    totalWidth (tree :: trees) = tree.width + totalWidth trees :=
  rfl

@[simp]
theorem totalWidth_append (front back : List Tree) :
    totalWidth (front ++ back) = totalWidth front + totalWidth back := by
  induction front with
  | nil => simp
  | cons tree front ih =>
      rw [List.cons_append, totalWidth_cons, totalWidth_cons, ih]
      omega

theorem length_flatMap_leaves (trees : List Tree) :
    (trees.flatMap leaves).length = totalWidth trees := by
  induction trees with
  | nil => rfl
  | cons tree trees ih => simp [ih]

@[simp]
theorem width_leaf (category : Symbol) (token : String) :
    (leaf category token).width = 1 := by
  simp [width]

@[simp]
theorem width_node (head : Symbol) (children : List Tree) :
    (node head children).width = totalWidth children := by
  rw [← length_leaves, leaves_node, length_flatMap_leaves]

@[simp]
theorem width_empty : empty.width = 0 := by
  simp [width]

/-! ## Subtrees -/

mutual

/-- The subtrees of a tree, the tree itself first. -/
def subtrees : Tree → List Tree
  | leaf category token => [leaf category token]
  | node head children => node head children :: subtreesOfAll children
  | empty => [empty]

def subtreesOfAll : List Tree → List Tree
  | [] => []
  | tree :: trees => tree.subtrees ++ subtreesOfAll trees

end

theorem mem_subtreesOfAll {subtree : Tree} {trees : List Tree} :
    subtree ∈ subtreesOfAll trees ↔
      ∃ tree ∈ trees, subtree ∈ tree.subtrees := by
  induction trees with
  | nil => simp [subtreesOfAll]
  | cons tree trees ih => simp [subtreesOfAll, ih]

theorem mem_subtrees_self (tree : Tree) : tree ∈ tree.subtrees := by
  cases tree <;> simp [subtrees]

theorem mem_subtrees_node {subtree : Tree} {head : Symbol}
    {children : List Tree} :
    subtree ∈ (node head children).subtrees ↔
      subtree = node head children ∨
        ∃ child ∈ children, subtree ∈ child.subtrees := by
  simp [subtrees, mem_subtreesOfAll]

theorem mem_subtrees_of_child {subtree child : Tree} {head : Symbol}
    {children : List Tree} (isChild : child ∈ children)
    (within : subtree ∈ child.subtrees) :
    subtree ∈ (node head children).subtrees :=
  mem_subtrees_node.mpr (Or.inr ⟨child, isChild, within⟩)

theorem leaves_sublist_of_mem_subtrees {subtree tree : Tree}
    (within : subtree ∈ tree.subtrees) :
    subtree.leaves.Sublist tree.leaves := by
  induction tree with
  | leaf category token =>
      simp only [subtrees, List.mem_singleton] at within
      rw [within]
  | node head children ih =>
      rcases mem_subtrees_node.mp within with same | ⟨child, childMem, deeper⟩
      · rw [same]
      · rw [leaves_node]
        exact (ih child childMem deeper).trans
          (List.sublist_flatten_of_mem (List.mem_map_of_mem childMem))
  | empty =>
      simp only [subtrees, List.mem_singleton] at within
      rw [within]

theorem mem_subtrees_trans {first second third : Tree}
    (inner : first ∈ second.subtrees) (outer : second ∈ third.subtrees) :
    first ∈ third.subtrees := by
  induction third with
  | leaf category token =>
      simp only [subtrees, List.mem_singleton] at outer
      exact outer ▸ inner
  | node head children ih =>
      rcases mem_subtrees_node.mp outer with same | ⟨child, childMem, deeper⟩
      · exact same ▸ inner
      · exact mem_subtrees_of_child childMem (ih child childMem deeper)
  | empty =>
      simp only [subtrees, List.mem_singleton] at outer
      exact outer ▸ inner

/-! ## Marks along a path -/

section Marks

variable {κ : Type} (mark : Symbol → Nat → κ)

/-- Whether no node has the mark of a node above it.  The mark of a node may
depend on its head and on the number of tokens that it reads. -/
def Unrepeated (tree : Tree) : Prop :=
  ∀ head children, node head children ∈ tree.subtrees →
    ∀ inner innerChildren,
      node inner innerChildren ∈ subtreesOfAll children →
        mark inner (totalWidth innerChildren) ≠
          mark head (totalWidth children)

/-- Whether one tree reads some of the leaves of another one, and all of them
when marks determine the number of tokens. -/
structure Shrinks (shrunk tree : Tree) : Prop where
  leaves_sublist : shrunk.leaves.Sublist tree.leaves
  leaves_eq : (∀ head count count', mark head count = mark head count' →
    count = count') → shrunk.leaves = tree.leaves

variable {mark}

theorem unrepeated_leaf (category : Symbol) (token : String) :
    (leaf category token).Unrepeated mark := by
  simp [Unrepeated, subtrees]

theorem unrepeated_empty : empty.Unrepeated mark := by
  simp [Unrepeated, subtrees]

theorem unrepeated_node {head : Symbol} {children : List Tree} :
    (node head children).Unrepeated mark ↔
      (∀ inner innerChildren,
        node inner innerChildren ∈ subtreesOfAll children →
          mark inner (totalWidth innerChildren) ≠
            mark head (totalWidth children)) ∧
        ∀ child ∈ children, child.Unrepeated mark := by
  constructor
  · intro unrepeated
    refine ⟨unrepeated head children (mem_subtrees_self _), ?_⟩
    intro child member inner innerChildren within
    exact unrepeated inner innerChildren
      (mem_subtrees_of_child member within)
  · rintro ⟨own, others⟩ inner innerChildren within
    rcases mem_subtrees_node.mp within with same | ⟨child, member, deeper⟩
    · cases same
      exact own
    · exact others child member inner innerChildren deeper

theorem Unrepeated.of_mem_subtrees {subtree tree : Tree}
    (unrepeated : tree.Unrepeated mark) (within : subtree ∈ tree.subtrees) :
    subtree.Unrepeated mark :=
  fun head children deeper =>
    unrepeated head children (mem_subtrees_trans deeper within)

theorem Shrinks.refl (mark : Symbol → Nat → κ) (tree : Tree) :
    tree.Shrinks mark tree :=
  ⟨List.Sublist.refl _, fun _ => rfl⟩

theorem Shrinks.trans {first second third : Tree}
    (left : first.Shrinks mark second) (right : second.Shrinks mark third) :
    first.Shrinks mark third :=
  ⟨left.leaves_sublist.trans right.leaves_sublist,
    fun counts => (left.leaves_eq counts).trans (right.leaves_eq counts)⟩

theorem Shrinks.node (head : Symbol) {shrunken trees : List Tree}
    (small : List.Forall₂ (Shrinks mark) shrunken trees) :
    (Tree.node head shrunken).Shrinks mark (.node head trees) := by
  induction small with
  | nil => exact .refl mark _
  | cons first rest ih =>
      constructor
      · have others := ih.leaves_sublist
        simp only [leaves_node, List.flatMap_cons] at others ⊢
        exact first.leaves_sublist.append others
      · intro counts
        have others := ih.leaves_eq counts
        simp only [leaves_node, List.flatMap_cons] at others ⊢
        rw [first.leaves_eq counts, others]

theorem Shrinks.of_mem_subtrees {head : Symbol} {inner outer : List Tree}
    (within : Tree.node head inner ∈ (Tree.node head outer).subtrees)
    (same : mark head (totalWidth inner) = mark head (totalWidth outer)) :
    (Tree.node head inner).Shrinks mark (.node head outer) := by
  have sublist := leaves_sublist_of_mem_subtrees within
  refine ⟨sublist, fun counts => sublist.eq_of_length ?_⟩
  rw [length_leaves, length_leaves, width_node, width_node]
  exact counts head _ _ same

end Marks

end Tree

namespace Grammar

/-! ## Derivations -/

/-- Whether a tree is a derivation of a symbol. -/
inductive Derives (grammar : Grammar) : Symbol → Tree → Prop where
  /-- One token that the category accepts. -/
  | leaf {category : Symbol} {member : String → Except Fault Bool}
      {token : String} (lexical : grammar.role category = .lexical member)
      (accepted : member token = .ok true) :
      Derives grammar category (.leaf category token)
  /-- A head made from derivations of the constituents of an alternative. -/
  | node {head : Symbol} {alternative : List Symbol} {children : List Tree}
      (nonterminal : grammar.role head = .nonterminal)
      (declared : alternative ∈ grammar.alternatives head)
      (derived : List.Forall₂ (Derives grammar) alternative children) :
      Derives grammar head (.node head children)
  /-- The empty tree for the empty symbol. -/
  | empty {symbol : Symbol} (empty : grammar.role symbol = .empty) :
      Derives grammar symbol .empty

theorem mem_alternatives {grammar : Grammar} {head : Symbol}
    {alternative : List Symbol} :
    alternative ∈ grammar.alternatives head ↔
      ⟨head, alternative⟩ ∈ grammar.productions := by
  simp only [alternatives, List.mem_map, List.mem_filter, decide_eq_true_eq]
  constructor
  · rintro ⟨production, ⟨declared, same⟩, rfl⟩
    rw [← same]
    exact declared
  · intro declared
    exact ⟨_, ⟨declared, rfl⟩, rfl⟩

namespace Derives

variable {grammar : Grammar}

theorem iff_of_lexical {category : Symbol}
    {member : String → Except Fault Bool}
    (lexical : grammar.role category = .lexical member) {tree : Tree} :
    grammar.Derives category tree ↔
      ∃ token, member token = .ok true ∧ tree = .leaf category token := by
  constructor
  · intro derived
    cases derived with
    | @leaf _ member' token lexical' accepted =>
        obtain rfl := Role.lexical.inj (lexical.symm.trans lexical')
        exact ⟨token, accepted, rfl⟩
    | node nonterminal => simp [lexical] at nonterminal
    | empty empty => simp [lexical] at empty
  · rintro ⟨token, accepted, rfl⟩
    exact .leaf lexical accepted

theorem iff_of_nonterminal {head : Symbol}
    (nonterminal : grammar.role head = .nonterminal) {tree : Tree} :
    grammar.Derives head tree ↔
      ∃ alternative ∈ grammar.alternatives head, ∃ children,
        List.Forall₂ grammar.Derives alternative children ∧
          tree = .node head children := by
  constructor
  · intro derived
    cases derived with
    | leaf lexical => simp [nonterminal] at lexical
    | node _ declared derived => exact ⟨_, declared, _, derived, rfl⟩
    | empty empty => simp [nonterminal] at empty
  · rintro ⟨alternative, declared, children, derived, rfl⟩
    exact .node nonterminal declared derived

theorem exists_children_nil {property : List Tree → Prop} :
    (∃ children, List.Forall₂ grammar.Derives [] children ∧
        property children) ↔
      property [] := by
  simp

theorem exists_children_cons {symbol : Symbol} {rest : List Symbol}
    {property : List Tree → Prop} :
    (∃ children, List.Forall₂ grammar.Derives (symbol :: rest) children ∧
        property children) ↔
      ∃ child, grammar.Derives symbol child ∧
        ∃ children, List.Forall₂ grammar.Derives rest children ∧
          property (child :: children) := by
  constructor
  · rintro ⟨_, derived, holds⟩
    cases derived with
    | cons first others => exact ⟨_, first, _, others, holds⟩
  · rintro ⟨child, first, children, others, holds⟩
    exact ⟨child :: children, .cons first others, holds⟩

theorem exists_alternative {symbol head : Symbol} {children : List Tree}
    (derived : grammar.Derives symbol (.node head children)) :
    symbol = head ∧ grammar.role head = .nonterminal ∧
      ∃ alternative ∈ grammar.alternatives head,
        List.Forall₂ grammar.Derives alternative children := by
  cases derived with
  | node nonterminal declared derived =>
      exact ⟨rfl, nonterminal, _, declared, derived⟩

theorem exists_symbol_of_mem {symbols : List Symbol} {trees : List Tree}
    (derived : List.Forall₂ grammar.Derives symbols trees) {tree : Tree}
    (member : tree ∈ trees) :
    ∃ symbol, grammar.Derives symbol tree := by
  induction derived with
  | nil => cases member
  | cons first rest ih =>
      rcases List.mem_cons.mp member with rfl | later
      · exact ⟨_, first⟩
      · exact ih later

theorem of_mem_subtrees {symbol head : Symbol} {tree : Tree}
    {children : List Tree} (derived : grammar.Derives symbol tree)
    (within : Tree.node head children ∈ tree.subtrees) :
    grammar.Derives head (.node head children) := by
  induction tree generalizing symbol with
  | leaf category token => simp [Tree.subtrees] at within
  | node outer inner ih =>
      obtain ⟨rfl, -, alternative, -, innerDerived⟩ :=
        derived.exists_alternative
      rcases Tree.mem_subtrees_node.mp within with same | ⟨child, member, deeper⟩
      · cases same
        exact derived
      · obtain ⟨_, childDerived⟩ := exists_symbol_of_mem innerDerived member
        exact ih child member childDerived deeper
  | empty => simp [Tree.subtrees] at within

/-! ## Cutting out repetitions -/

section Repetitions

variable {κ : Type} {mark : Symbol → Nat → κ}

theorem exists_unrepeated_of_forall₂ {symbols : List Symbol}
    {trees : List Tree}
    (derived : List.Forall₂ grammar.Derives symbols trees)
    (shrinks : ∀ tree ∈ trees, ∀ symbol, grammar.Derives symbol tree →
      ∃ shrunk, grammar.Derives symbol shrunk ∧ shrunk.Shrinks mark tree ∧
        shrunk.Unrepeated mark) :
    ∃ shrunken, List.Forall₂ grammar.Derives symbols shrunken ∧
      List.Forall₂ (Tree.Shrinks mark) shrunken trees ∧
      ∀ shrunk ∈ shrunken, shrunk.Unrepeated mark := by
  induction derived with
  | nil => exact ⟨[], .nil, .nil, by simp⟩
  | cons first rest ih =>
      obtain ⟨shrunk, shrunkDerived, small, unrepeated⟩ :=
        shrinks _ List.mem_cons_self _ first
      obtain ⟨shrunken, shrunkenDerived, smalls, allUnrepeated⟩ :=
        ih fun tree member => shrinks tree (List.mem_cons_of_mem _ member)
      exact ⟨shrunk :: shrunken, .cons shrunkDerived shrunkenDerived,
        .cons small smalls,
        List.forall_mem_cons.mpr ⟨unrepeated, allUnrepeated⟩⟩

/-- A derivation shrinks to one in which no mark recurs along a path.  No
leaf is lost when marks determine the number of tokens. -/
theorem exists_unrepeated (mark : Symbol → Nat → κ)
    (sameHead : ∀ {head head' : Symbol} {count count' : Nat},
      mark head count = mark head' count' → head = head')
    {symbol : Symbol} {tree : Tree} (derived : grammar.Derives symbol tree) :
    ∃ shrunk, grammar.Derives symbol shrunk ∧ shrunk.Shrinks mark tree ∧
      shrunk.Unrepeated mark := by
  induction tree generalizing symbol with
  | leaf category token =>
      exact ⟨_, derived, .refl mark _, Tree.unrepeated_leaf category token⟩
  | empty => exact ⟨_, derived, .refl mark _, Tree.unrepeated_empty⟩
  | node head children ih =>
      obtain ⟨rfl, nonterminal, alternative, declared, childrenDerived⟩ :=
        derived.exists_alternative
      obtain ⟨shrunken, shrunkenDerived, small, childrenUnrepeated⟩ :=
        exists_unrepeated_of_forall₂ childrenDerived
          fun child member _ childDerived => ih child member childDerived
      have whole : grammar.Derives symbol (.node symbol shrunken) :=
        .node nonterminal declared shrunkenDerived
      have wholeShrinks :
          (Tree.node symbol shrunken).Shrinks mark (.node symbol children) :=
        Tree.Shrinks.node symbol small
      by_cases recurs : ∃ inner innerChildren,
          Tree.node inner innerChildren ∈ Tree.subtreesOfAll shrunken ∧
            mark inner (Tree.totalWidth innerChildren) =
              mark symbol (Tree.totalWidth shrunken)
      · -- The inner node stands for the whole.
        obtain ⟨inner, innerChildren, within, same⟩ := recurs
        obtain rfl := sameHead same
        have below : Tree.node inner innerChildren ∈
            (Tree.node inner shrunken).subtrees := by
          simp [Tree.subtrees, within]
        refine ⟨_, whole.of_mem_subtrees below,
          (Tree.Shrinks.of_mem_subtrees below same).trans wholeShrinks, ?_⟩
        obtain ⟨child, member, deeper⟩ := Tree.mem_subtreesOfAll.mp within
        exact (childrenUnrepeated child member).of_mem_subtrees deeper
      · -- The whole repeats nothing below it.
        refine ⟨_, whole, wholeShrinks, Tree.unrepeated_node.mpr
          ⟨fun inner innerChildren within same =>
            recurs ⟨inner, innerChildren, within, same⟩,
            childrenUnrepeated⟩⟩

end Repetitions

end Derives

end Grammar

end SemanticGrammar
