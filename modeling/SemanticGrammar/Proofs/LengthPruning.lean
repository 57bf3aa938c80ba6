import SemanticGrammar.Chart.Parser
import SemanticGrammar.Proofs.ShortestLength
import SemanticGrammar.Proofs.TreeSpan

/-!
# Lengths rule out no derivation

A search passes over the spans that are too short for their symbol and the
places where a constituent cannot end, as the shortest lengths have it.  As far
as capped counts tell, these are least over all derivations.  So a derivation
stands in none of the spans that are passed over, and its constituents end at
places that are tried.

Lengths that are not capped are not always right.  When each nonterminal of a
chain is made of two of the one before, the least number of tokens doubles from
link to link.  It is too large for a double after 1024 links, and after 53 links
it is so large that a further token is not counted.
-/

namespace SemanticGrammar

namespace Chart

variable {chart : Chart} {tokens : List String} {symbol : Symbol}
  {rest : List Symbol} {tree : Tree} {trees : List Tree}
  {first split last : Nat}

theorem tooShort_eq_false_of_derives
    (nonterminal : chart.grammar.role symbol = .nonterminal)
    (derived : chart.grammar.Derives symbol tree)
    (occupies : Occupies tokens tree.tokens first last) :
    chart.tooShort symbol first last = false := by
  have room := derived.capped_lengthOf_le
  have width := occupies.1
  rw [Tree.length_tokens] at width
  obtain ⟨alternative, declared, -⟩ :=
    (Grammar.Derives.iff_of_nonterminal nonterminal).mp derived
  rw [tooShort, chart.lengths_eq, Bool.or_eq_false_iff,
    decide_eq_false_iff_not, List.isEmpty_eq_false_iff]
  exact ⟨by omega, List.ne_nil_of_mem declared⟩

/-- The place where the first of some derivations ends is tried. -/
theorem mem_splits_of_derives (derived : chart.grammar.Derives symbol tree)
    (restDerived : List.Forall₂ chart.grammar.Derives rest trees)
    (occupies : Occupies tokens tree.tokens first split)
    (restOccupies : Occupies tokens (trees.flatMap Tree.tokens) split last) :
    split ∈ chart.splits symbol rest first last := by
  have room := derived.capped_lengthOf_le
  have restRoom := Grammar.Derives.capped_totalLength_le restDerived
  have width := occupies.1
  have restWidth := restOccupies.1
  rw [Tree.length_tokens] at width
  rw [← Tree.tokens_node symbol, Tree.length_tokens,
    Tree.width_node] at restWidth
  rw [splits, chart.lengths_eq, List.mem_range'_1]
  omega

/-- The passes over the productions of any grammar end, with a pass that lowers
nothing.  The lengths that they end with are the least counts of leaves of
derivations in doubles, whatever the membership tests say.  They are the least
numbers of leaves up to 2 ^ 53, and above that they do not fall below 2 ^ 53;
nonterminals without a derivation of finite count have none.  They do not depend
on the order of the productions and on repetitions, and no derivation is passed
over because of them. -/
theorem shortestLengths_rule_out_no_derivation (grammar : Grammar) :
    (∃ passes,
      grammar.shortestLengths = grammar.afterPasses [] passes ∧
        (∀ earlier < passes,
          (grammar.pass (grammar.afterPasses [] earlier)).lowered = true) ∧
        (grammar.pass grammar.shortestLengths).lowered = false) ∧
      (∀ head, grammar.role head = .nonterminal →
        (∀ length, grammar.shortestLengths.lookup head = some length ↔
          IsLeast {count | ∃ tree, grammar.permissive.Derives head tree ∧
            tree.counted = some count} length) ∧
        (∀ length, IsLeast {count | ∃ tree,
            grammar.permissive.Derives head tree ∧
              tree.leaves.length = count} length →
          (length ≤ Double.exactLimit →
            grammar.shortestLengths.lookup head = some length) ∧
          Double.capped (grammar.shortestLengths.lookup head) =
            min length Double.exactLimit) ∧
        (grammar.shortestLengths.lookup head = none ↔
          ∀ tree, grammar.permissive.Derives head tree →
            tree.counted = none)) ∧
      (∀ other : Grammar, other.role = grammar.role →
        (∀ production, production ∈ other.productions ↔
          production ∈ grammar.productions) →
        ∀ head, grammar.role head = .nonterminal →
          other.shortestLengths.lookup head =
            grammar.shortestLengths.lookup head) ∧
      ∀ chart : Chart, chart.grammar = grammar → ∀ tokens,
        (∀ head tree first last, grammar.role head = .nonterminal →
          grammar.Derives head tree →
          Occupies tokens tree.tokens first last →
            chart.tooShort head first last = false) ∧
        ∀ symbol rest tree trees first split last,
          grammar.Derives symbol tree →
          List.Forall₂ grammar.Derives rest trees →
          Occupies tokens tree.tokens first split →
          Occupies tokens (trees.flatMap Tree.tokens) split last →
            split ∈ chart.splits symbol rest first last := by
  have lookup_eq : ∀ (grammar : Grammar) head,
      grammar.role head = .nonterminal →
        grammar.shortestLengths.lookup head =
          grammar.lengthOf grammar.shortestLengths head := by
    intro grammar head nonterminal
    simp only [Grammar.lengthOf, nonterminal]
  refine ⟨grammar.exists_settle_eq_afterPasses [], ?_, ?_, ?_⟩
  · intro head nonterminal
    rw [lookup_eq grammar head nonterminal]
    simp only [Tree.length_leaves]
    exact ⟨fun _ => Grammar.lengthOf_shortestLengths_eq_some_iff,
      fun _ least => ⟨Grammar.shortestLength_of_le least,
        Grammar.capped_shortestLength least⟩,
      Grammar.lengthOf_shortestLengths_eq_none_iff⟩
  · intro other roles same head nonterminal
    rw [lookup_eq grammar head nonterminal,
      lookup_eq other head (roles ▸ nonterminal)]
    exact Grammar.lengthOf_shortestLengths_congr roles same head
  · rintro chart rfl tokens
    exact ⟨fun _ _ _ _ => tooShort_eq_false_of_derives,
      fun _ _ _ _ _ _ _ => mem_splits_of_derives⟩

/-- A grammar in which the lengths of three nonterminals come down over several
passes, and a fourth one has no finite derivation. -/
def lopsided : Grammar where
  role symbol :=
    match symbol.id with
    | 0 => .empty
    | 1 | 2 | 3 | 4 => .nonterminal
    | _ => .lexical fun token => .ok (token == "x")
  productions :=
    [⟨⟨1⟩, [⟨2⟩, ⟨2⟩]⟩, ⟨⟨1⟩, [⟨4⟩]⟩, ⟨⟨2⟩, [⟨5⟩, ⟨5⟩, ⟨5⟩]⟩, ⟨⟨2⟩, [⟨3⟩]⟩,
      ⟨⟨3⟩, [⟨0⟩, ⟨5⟩]⟩, ⟨⟨3⟩, [⟨1⟩, ⟨1⟩]⟩, ⟨⟨4⟩, [⟨5⟩, ⟨4⟩]⟩]
  lexicalCategories := [⟨5⟩]
  startSymbols := [⟨1⟩]

example : lopsided.afterPasses [] 3 =
    [(⟨1⟩, 2), (⟨2⟩, 1), (⟨1⟩, 6), (⟨3⟩, 1), (⟨2⟩, 3)] := by
  decide +kernel

/-- The first nonterminal has the length two, also when the productions stand in
another order and twice, and the fourth one has none. -/
theorem shortestLengths_rule_out_no_derivation_lopsided :
    let shuffled := { lopsided with
      productions := lopsided.productions.reverse ++ lopsided.productions }
    let chart := ofGrammar lopsided none
    let one := Tree.node ⟨2⟩ [.node ⟨3⟩ [.empty, .leaf ⟨5⟩ "x"]]
    IsLeast {count | ∃ tree, lopsided.permissive.Derives ⟨1⟩ tree ∧
        tree.counted = some count} 2 ∧
      lopsided.shortestLengths.lookup ⟨4⟩ = none ∧
      shuffled.shortestLengths.lookup ⟨1⟩ = some 2 ∧
      lopsided.Derives ⟨2⟩ one ∧
      chart.tooShort ⟨2⟩ 0 1 = false ∧
      1 ∈ chart.splits ⟨2⟩ [⟨2⟩] 0 2 := by
  intro shuffled chart one
  obtain ⟨-, exact, sameLengths, searches⟩ :=
    shortestLengths_rule_out_no_derivation lopsided
  have two : lopsided.shortestLengths.lookup ⟨1⟩ = some 2 := by decide +kernel
  have padded : [⟨0⟩, ⟨5⟩] ∈ lopsided.alternatives ⟨3⟩ := by decide
  have derived : lopsided.Derives ⟨2⟩ one :=
    .node rfl (by decide)
      (.cons (.node rfl padded
        (.cons (.empty rfl) (.cons (.leaf rfl rfl) .nil))) .nil)
  obtain ⟨spans, places⟩ := searches chart rfl ["x", "x"]
  have first : Occupies ["x", "x"] one.tokens 0 1 :=
    ⟨by decide, by decide⟩
  have second : Occupies ["x", "x"] ([one].flatMap Tree.tokens) 1 2 :=
    ⟨by decide, by decide⟩
  refine ⟨((exact ⟨1⟩ rfl).1 2).mp two, by decide +kernel, ?_, derived,
    spans _ _ _ _ rfl derived first,
    places _ _ _ _ _ _ _ derived (.cons derived .nil) first second⟩
  rw [sameLengths shuffled rfl (fun production => by simp [shuffled]) ⟨1⟩ rfl]
  exact two

/-! ## Lengths that double -/

namespace Doubling

/-- What the nonterminals of a chain are made of: the first one of a token, each
later one of two of the one before, and the one after the chain of a token and
the last one of the chain. -/
def constituents (links : Nat) : Nat → List Symbol
  | 0 => [⟨0⟩]
  | link + 1 => [⟨if link < links then link + 1 else 0⟩, ⟨link + 1⟩]

/-- The grammar of a chain of nonterminals and of the one after it. -/
def grammar (links : Nat) : Grammar where
  role symbol :=
    if symbol.id = 0 then .lexical fun token => .ok (token == "x")
    else .nonterminal
  productions := (List.range (links + 2)).map fun link =>
    ⟨⟨link + 1⟩, constituents links link⟩
  lexicalCategories := [⟨0⟩]
  startSymbols := [⟨links + 2⟩]

variable {links link : Nat}

theorem derives_token_iff :
    (grammar links).permissive.Derives ⟨0⟩ tree ↔
      ∃ token, tree = .leaf ⟨0⟩ token := by
  have role : (grammar links).permissive.role ⟨0⟩ =
      .lexical fun _ => .ok true :=
    Grammar.role_permissive_of_lexical rfl
  simp [Grammar.Derives.iff_of_lexical role]

theorem derives_link_iff (within : link ≤ links + 1) :
    (grammar links).permissive.Derives ⟨link + 1⟩ tree ↔
      ∃ children, List.Forall₂ (grammar links).permissive.Derives
        (constituents links link) children ∧
          tree = .node ⟨link + 1⟩ children := by
  have role : (grammar links).permissive.role ⟨link + 1⟩ = .nonterminal :=
    Grammar.role_permissive_eq_nonterminal_iff.mpr rfl
  have alternatives : ∀ alternative,
      alternative ∈ (grammar links).permissive.alternatives ⟨link + 1⟩ ↔
        alternative = constituents links link := by
    intro alternative
    rw [Grammar.mem_alternatives]
    simp only [Grammar.permissive, grammar, List.mem_map, List.mem_range,
      Production.mk.injEq, Symbol.mk.injEq, Nat.add_right_cancel_iff]
    constructor
    · rintro ⟨_, -, rfl, rfl⟩
      rfl
    · rintro rfl
      exact ⟨link, by omega, rfl, rfl⟩
  simp only [Grammar.Derives.iff_of_nonterminal role, alternatives,
    exists_eq_left]

theorem derives_first_iff :
    (grammar links).permissive.Derives ⟨1⟩ tree ↔
      ∃ token, tree = .node ⟨1⟩ [.leaf ⟨0⟩ token] := by
  simp only [derives_link_iff (Nat.zero_le _), constituents,
    Grammar.Derives.exists_children_cons, Grammar.Derives.exists_children_nil,
    derives_token_iff]
  constructor
  · rintro ⟨_, ⟨token, rfl⟩, rfl⟩
    exact ⟨token, rfl⟩
  · rintro ⟨token, rfl⟩
    exact ⟨_, ⟨token, rfl⟩, rfl⟩

theorem derives_two_iff (within : link ≤ links) :
    (grammar links).permissive.Derives ⟨link + 2⟩ tree ↔
      ∃ left, (grammar links).permissive.Derives
          ⟨if link < links then link + 1 else 0⟩ left ∧
        ∃ right, (grammar links).permissive.Derives ⟨link + 1⟩ right ∧
          tree = .node ⟨link + 2⟩ [left, right] := by
  simp only [derives_link_iff (Nat.succ_le_succ within), constituents,
    Grammar.Derives.exists_children_cons, Grammar.Derives.exists_children_nil]

/-- The number of tokens doubles from link to link, and so does their count. -/
theorem counted_of_derives_link (within : link ≤ links)
    (derived : (grammar links).permissive.Derives ⟨link + 1⟩ tree) :
    tree.counted = Double.round (Nat.pow 2 link) ∧
      tree.width = Nat.pow 2 link := by
  induction link generalizing tree with
  | zero =>
      obtain ⟨token, rfl⟩ := derives_first_iff.mp derived
      simp only [Tree.counted_node, Tree.width_node, List.map_cons,
        List.map_nil, Tree.counted_leaf, Tree.totalWidth_cons, Tree.width_leaf]
      exact ⟨by decide +kernel, rfl⟩
  | succ link ih =>
      rw [derives_two_iff (Nat.le_of_succ_le within),
        if_pos (Nat.lt_of_succ_le within)] at derived
      obtain ⟨left, leftDerived, right, rightDerived, rfl⟩ := derived
      obtain ⟨counted, width⟩ := ih (Nat.le_of_succ_le within) leftDerived
      obtain ⟨counted', width'⟩ := ih (Nat.le_of_succ_le within) rightDerived
      rw [Tree.counted_node, Tree.width_node]
      simp only [List.map_cons, List.map_nil, counted, counted',
        Double.sum_round_two_pow, Tree.totalWidth_cons, Tree.totalWidth_nil,
        width, width']
      exact ⟨trivial, (Nat.mul_two _).symm⟩

theorem exists_derives_link (within : link ≤ links) :
    ∃ tree, (grammar links).permissive.Derives ⟨link + 1⟩ tree := by
  induction link with
  | zero => exact ⟨_, derives_first_iff.mpr ⟨"x", rfl⟩⟩
  | succ link ih =>
      obtain ⟨tree, derived⟩ := ih (Nat.le_of_succ_le within)
      refine ⟨.node ⟨link + 2⟩ [tree, tree],
        (derives_two_iff (Nat.le_of_succ_le within)).mpr ?_⟩
      rw [if_pos (Nat.lt_of_succ_le within)]
      exact ⟨tree, derived, tree, derived, rfl⟩

/-- A link whose number of tokens is too large for a double has no length. -/
theorem lookup_link_of_long (long : Double.exponentLimit ≤ link)
    (within : link ≤ links) :
    (grammar links).shortestLengths.lookup ⟨link + 1⟩ = none := by
  refine Grammar.lengthOf_shortestLengths_of_counted
    (exists_derives_link within) fun tree derived => ?_
  rw [(counted_of_derives_link within derived).1, Double.round_two_pow,
    if_neg (Nat.not_lt_of_le long)]

/-- The nonterminal after a chain takes one token more than the last link, and
its length is the rounded sum. -/
theorem counted_of_derives_last
    (derived : (grammar links).permissive.Derives ⟨links + 2⟩ tree) :
    tree.counted = Double.sum [some 1, Double.round (Nat.pow 2 links)] ∧
      tree.width = 1 + Nat.pow 2 links := by
  rw [derives_two_iff (Nat.le_refl links),
    if_neg (Nat.lt_irrefl links)] at derived
  obtain ⟨left, leftDerived, right, rightDerived, rfl⟩ := derived
  obtain ⟨token, rfl⟩ := derives_token_iff.mp leftDerived
  obtain ⟨counted, width⟩ :=
    counted_of_derives_link (Nat.le_refl links) rightDerived
  simp only [Tree.counted_node, Tree.width_node, List.map_cons, List.map_nil,
    Tree.counted_leaf, counted, Tree.totalWidth_cons, Tree.totalWidth_nil,
    Tree.width_leaf, width, Nat.add_zero, and_self]

theorem exists_derives_last :
    ∃ tree, (grammar links).permissive.Derives ⟨links + 2⟩ tree := by
  obtain ⟨tree, derived⟩ := exists_derives_link (Nat.le_refl links)
  refine ⟨.node ⟨links + 2⟩ [.leaf ⟨0⟩ "x", tree],
    (derives_two_iff (Nat.le_refl links)).mpr ?_⟩
  rw [if_neg (Nat.lt_irrefl links)]
  exact ⟨_, derives_token_iff.mpr ⟨"x", rfl⟩, tree, derived, rfl⟩

/-- After 53 links a further token is not counted.  After 1024 links the last
nonterminal of the chain has a derivation but no length. -/
theorem long_lengths_are_not_exact :
    (grammar 53).shortestLengths.lookup ⟨55⟩ = some Double.exactLimit ∧
      IsLeast {count | ∃ tree, (grammar 53).permissive.Derives ⟨55⟩ tree ∧
        tree.leaves.length = count} (Double.exactLimit + 1) ∧
      (grammar 1024).shortestLengths.lookup ⟨1025⟩ = none ∧
      ∃ tree, (grammar 1024).permissive.Derives ⟨1025⟩ tree := by
  have link := Nat.le_refl 1024
  refine ⟨?_, ⟨?_, ?_⟩, ?_, exists_derives_link link⟩
  · have rounded : Double.sum [some 1, Double.round (Nat.pow 2 53)] =
        some Double.exactLimit := by
      decide +kernel
    rw [← rounded]
    exact Grammar.lengthOf_shortestLengths_of_counted exists_derives_last
      fun tree derived => (counted_of_derives_last derived).1
  · obtain ⟨tree, derived⟩ := @exists_derives_last 53
    refine ⟨tree, derived, ?_⟩
    rw [Tree.length_leaves, (counted_of_derives_last derived).2]
    exact Nat.add_comm _ _
  · rintro _ ⟨tree, derived, rfl⟩
    rw [Tree.length_leaves, (counted_of_derives_last derived).2]
    exact Nat.le_of_eq (Nat.add_comm _ _)
  · exact lookup_link_of_long (Nat.le_refl 1024) link

end Doubling

end Chart

end SemanticGrammar
