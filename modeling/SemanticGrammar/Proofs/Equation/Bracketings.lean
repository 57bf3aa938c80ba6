import Mathlib.Combinatorics.Enumerative.Catalan.Tree
import Mathlib.Data.List.Nodup
import SemanticGrammar.Proofs.Equation.Phrase

/-!
# Bracketings of a chain

A chain is a row of names in which neighbours are joined by connectives.  A
bracketing of it says which parts are joined by each connective: it is a full
binary tree with the names at its leaves and the connectives at its nodes, both
in the order of the chain.

The shape of a bracketing is the tree of its nodes alone.  A chain has one
bracketing for each shape with as many nodes as there are connectives, so the
number of its bracketings is a Catalan number.
-/

namespace SemanticGrammar

namespace EquationGrammar

/-! ## Chains -/

/-- A name, followed by further names, each after a connective. -/
@[ext]
structure Chain where
  first : String
  rest : List (Connective × String)
  deriving DecidableEq, Repr

namespace Chain

def names (chain : Chain) : List String :=
  chain.first :: chain.rest.map Prod.snd

def words (chain : Chain) : List String :=
  chain.first :: chain.rest.flatMap fun link => [link.1.word, link.2]

def text (chain : Chain) : String :=
  " ".intercalate chain.words

def join (connective : Connective) (left right : Chain) : Chain :=
  ⟨left.first, left.rest ++ (connective, right.first) :: right.rest⟩

@[simp]
theorem names_join (connective : Connective) (left right : Chain) :
    (join connective left right).names = left.names ++ right.names := by
  simp [join, names]

@[simp]
theorem words_join (connective : Connective) (left right : Chain) :
    (join connective left right).words =
      left.words ++ connective.word :: right.words := by
  simp [join, words]

end Chain

/-! ## Bracketings -/

/-- A name, or two bracketings joined by a connective. -/
inductive Bracketing where
  | name (content : String)
  | joined (connective : Connective) (left right : Bracketing)
  deriving DecidableEq, Repr

namespace Bracketing

/-- The chain of the names and the connectives of a bracketing, from left to
right. -/
def chain : Bracketing → Chain
  | name content => ⟨content, []⟩
  | joined connective left right => .join connective left.chain right.chain

/-- The phrase without brackets whose parts are joined as in a bracketing. -/
def phrase : Bracketing → Phrase
  | name content => .mentioned (.identifier (.named content))
  | joined connective left right =>
      .joined connective left.phrase right.phrase

/-- The nodes of a bracketing. -/
def shape : Bracketing → BinaryTree Unit
  | name _ => .nil
  | joined _ left right => .node () left.shape right.shape

theorem length_rest_chain (bracketing : Bracketing) :
    bracketing.chain.rest.length = bracketing.shape.numNodes := by
  induction bracketing with
  | name content => rfl
  | joined connective left right leftIH rightIH =>
      simp only [chain, Chain.join, shape, List.length_append,
        List.length_cons, BinaryTree.numNodes, leftIH, rightIH]
      omega

/-- The chain and the shape determine a bracketing. -/
theorem eq_of_shape_eq {first second : Bracketing}
    (sameShape : first.shape = second.shape)
    (sameChain : first.chain = second.chain) : first = second := by
  induction first generalizing second with
  | name content =>
      cases second with
      | name content' => exact congrArg name (Chain.mk.inj sameChain).1
      | joined connective left right => cases sameShape
  | joined connective left right leftIH rightIH =>
      cases second with
      | name content => cases sameShape
      | joined connective' left' right' =>
          obtain ⟨-, sameLeft, sameRight⟩ := BinaryTree.node.inj sameShape
          obtain ⟨sameFirst, sameRest⟩ := Chain.mk.inj sameChain
          have sameLength :
              left.chain.rest.length = left'.chain.rest.length := by
            rw [length_rest_chain, length_rest_chain, sameLeft]
          obtain ⟨sameFront, sameOthers⟩ :=
            List.append_inj sameRest sameLength
          obtain ⟨sameLink, sameBack⟩ := List.cons.inj sameOthers
          obtain ⟨rfl, sameName⟩ := Prod.mk.inj sameLink
          rw [leftIH sameLeft (Chain.ext sameFirst sameFront),
            rightIH sameRight (Chain.ext sameName sameBack)]

theorem exists_of_shape {shape : BinaryTree Unit} {chain : Chain}
    (enough : chain.rest.length = shape.numNodes) :
    ∃ bracketing : Bracketing,
      bracketing.shape = shape ∧ bracketing.chain = chain := by
  induction shape generalizing chain with
  | nil =>
      obtain ⟨first, rest⟩ := chain
      obtain rfl := List.length_eq_zero_iff.mp enough
      exact ⟨name first, rfl, rfl⟩
  | node value left right leftIH rightIH =>
      rw [BinaryTree.numNodes] at enough
      -- The root joins the names around the link after the left nodes.
      have inside : left.numNodes < chain.rest.length := by omega
      obtain ⟨front, link, back, parts, frontLength⟩ :
          ∃ front link back, chain.rest = front ++ link :: back ∧
            front.length = left.numNodes := by
        refine ⟨chain.rest.take left.numNodes, chain.rest[left.numNodes],
          chain.rest.drop (left.numNodes + 1), ?_,
          List.length_take_of_le inside.le⟩
        rw [← List.drop_eq_getElem_cons inside, List.take_append_drop]
      rw [parts, List.length_append, List.length_cons] at enough
      obtain ⟨leftBracketing, rfl, leftChain⟩ :=
        @leftIH ⟨chain.first, front⟩ frontLength
      obtain ⟨rightBracketing, rfl, rightChain⟩ :=
        @rightIH ⟨link.2, back⟩ (by simp only; omega)
      refine ⟨joined link.1 leftBracketing rightBracketing, rfl, ?_⟩
      rw [Bracketing.chain, leftChain, rightChain]
      exact Chain.ext rfl parts.symm

theorem catalan_pos (nodes : Nat) : 0 < catalan nodes := by
  have positive := Nat.centralBinom_pos nodes
  rw [← succ_mul_catalan_eq_centralBinom] at positive
  exact pos_of_mul_pos_right positive (Nat.zero_le _)

/-- A list of all bracketings of a chain has a Catalan number of members. -/
theorem length_eq_catalan {chain : Chain} {bracketings : List Bracketing}
    (distinct : bracketings.Nodup)
    (all : ∀ bracketing, bracketing ∈ bracketings ↔ bracketing.chain = chain) :
    bracketings.length = catalan chain.rest.length := by
  have distinctShapes : (bracketings.map shape).Nodup := by
    apply distinct.map_on
    intro first isFirst second isSecond same
    exact eq_of_shape_eq same
      (((all first).mp isFirst).trans ((all second).mp isSecond).symm)
  have allShapes : (bracketings.map shape).toFinset =
      BinaryTree.treesOfNumNodesEq chain.rest.length := by
    ext tree
    rw [List.mem_toFinset, List.mem_map, BinaryTree.mem_treesOfNumNodesEq]
    constructor
    · rintro ⟨bracketing, member, rfl⟩
      rw [← length_rest_chain, (all bracketing).mp member]
    · intro nodes
      obtain ⟨bracketing, rfl, brackets⟩ := exists_of_shape nodes.symm
      exact ⟨bracketing, (all bracketing).mpr brackets, rfl⟩
  calc
    bracketings.length = (bracketings.map shape).length :=
      (List.length_map shape).symm
    _ = (bracketings.map shape).toFinset.card :=
      (List.toFinset_card_of_nodup distinctShapes).symm
    _ = catalan chain.rest.length := by
      rw [allShapes, BinaryTree.treesOfNumNodesEq_card_eq_catalan]

end Bracketing

end EquationGrammar

end SemanticGrammar
