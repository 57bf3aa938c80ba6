import SemanticGrammar.Chart.Parser
import SemanticGrammar.Proofs.ChartSearch

/-!
# Searches that may be stopped

A membership test may stop a search.  All that a search finds up to there, and
all that it remembers, are derivations, and nothing but a membership test stops
it.  So the trees of a parser that is not stopped are derivations of its start
symbols, whatever the tests do on other tokens.
-/

namespace SemanticGrammar

namespace Chart

/-- Whether all trees of the remembered cells are derivations. -/
def Sound (chart : Chart) (memo : Memo) : Prop :=
  ∀ (cell : Cell) trees, memo[cell]? = some trees →
    ∀ tree ∈ trees, chart.grammar.Derives cell.symbol tree

/-- Whether a search remembers derivations only and is stopped by allowed
faults only, and what it finds has a property. -/
def Finds {σ α : Type} (chart : Chart) (allowed : Fault → Prop)
    (good : α → Prop) (search : Search σ α) : Prop :=
  ∀ before : State σ, chart.Sound before.memo →
    FailsOnly allowed (search.run before) ∧
    ∀ found after, search.run before = .ok (found, after) →
      good found ∧ chart.Sound after.memo

variable {σ : Type} {chart : Chart} {allowed : Fault → Prop}

theorem Sound.insert {memo : Memo} (sound : chart.Sound memo) {cell : Cell}
    {trees : List Tree}
    (derived : ∀ tree ∈ trees, chart.grammar.Derives cell.symbol tree) :
    chart.Sound (memo.insert cell trees) := by
  intro other otherTrees remembered
  rw [Std.TreeMap.getElem?_insert] at remembered
  split at remembered
  · rename_i same
    obtain rfl := Std.LawfulEqCmp.eq_of_compare same
    obtain rfl := Option.some.inj remembered
    exact derived
  · exact sound other otherTrees remembered

/-! ## Rules for searches -/

namespace Finds

variable {α β : Type} {good : α → Prop} {goodNext : β → Prop}
  {search : Search σ α} {next : α → Search σ β}

theorem pure {found : α} (isGood : good found) :
    Finds (σ := σ) chart allowed good (pure found) := by
  intro before sound
  refine ⟨FailsOnly.ok _, fun result after ran => ?_⟩
  obtain ⟨rfl, rfl⟩ := Prod.mk.inj (Except.ok.inj ran)
  exact ⟨isGood, sound⟩

theorem bind (first : Finds chart allowed good search)
    (rest : ∀ found, good found → Finds chart allowed goodNext (next found)) :
    Finds chart allowed goodNext (search >>= next) := by
  intro before sound
  obtain ⟨firstFails, firstFinds⟩ := first before sound
  rw [StateT.run_bind]
  cases ran : search.run before with
  | error fault =>
      refine ⟨FailsOnly.error_iff.mpr (firstFails fault ran), ?_⟩
      intro result after done
      cases done
  | ok result =>
      obtain ⟨isGood, stillSound⟩ := firstFinds _ _ ran
      exact rest result.1 isGood result.2 stillSound

theorem get {next : State σ → Search σ β}
    (rest : ∀ state, chart.Sound state.memo →
      Finds chart allowed goodNext (next state)) :
    Finds chart allowed goodNext (get >>= next) :=
  fun before sound => rest before sound before sound

theorem modify {change : State σ → State σ}
    (keeps : ∀ state, chart.Sound state.memo →
      chart.Sound (change state).memo) :
    Finds chart allowed (fun _ => True) (modify change) := by
  intro before sound
  refine ⟨FailsOnly.ok _, fun result after ran => ?_⟩
  obtain ⟨-, rfl⟩ := Prod.mk.inj (Except.ok.inj ran)
  exact ⟨trivial, keeps before sound⟩

theorem lift {result : Except Fault α} (fails : FailsOnly allowed result) :
    Finds (σ := σ) chart allowed (fun found => result = .ok found)
      (liftM result) := by
  intro before sound
  cases result with
  | error fault =>
      refine ⟨FailsOnly.error_iff.mpr (fails fault rfl), ?_⟩
      intro result after done
      cases done
  | ok value =>
      refine ⟨FailsOnly.ok _, fun result after ran => ?_⟩
      obtain ⟨rfl, rfl⟩ := Prod.mk.inj (Except.ok.inj ran)
      exact ⟨rfl, sound⟩

theorem report (observer : Observer σ) (step : Step) :
    Finds chart allowed (fun _ => True) (report observer step) :=
  modify fun _ sound => sound

end Finds

/-! ## The searches of a chart -/

section Searches

variable {observer : Observer σ} {head symbol : Symbol} {rest : List Symbol}
  {alternatives : List (List Symbol)} {first last : Nat}

def Derivations (chart : Chart) (symbol : Symbol) (trees : List Tree) : Prop :=
  ∀ tree ∈ trees, chart.grammar.Derives symbol tree

def SequenceDerivations (chart : Chart) (symbols : List Symbol)
    (sequences : List (List Tree)) : Prop :=
  ∀ children ∈ sequences, List.Forall₂ chart.grammar.Derives symbols children

def FindsTrees (chart : Chart) (allowed : Fault → Prop)
    (treesOf : Symbol → Nat → Nat → Search σ (List Tree)) : Prop :=
  ∀ symbol first last,
    Finds chart allowed (chart.Derivations symbol) (treesOf symbol first last)

theorem derivations_nil : chart.Derivations symbol [] :=
  fun _ member => by cases member

theorem derivations_singleton {tree : Tree}
    (derived : chart.grammar.Derives symbol tree) :
    chart.Derivations symbol [tree] :=
  List.forall_mem_singleton.mpr derived

theorem finds_leavesAt {member : String → Except Fault Bool}
    (tests : TestsFailOnly chart.grammar.role allowed) (tokens : Array String)
    (lexical : chart.grammar.role symbol = .lexical member) :
    Finds chart allowed (chart.Derivations symbol)
      (leavesAt observer tokens symbol member first last) := by
  unfold leavesAt
  split
  · refine (Finds.report observer _).bind fun _ _ => ?_
    split
    · exact .pure derivations_nil
    · rename_i token _
      refine (Finds.lift (tests symbol member lexical token)).bind ?_
      intro accepted decided
      cases accepted with
      | false => exact .pure derivations_nil
      | true => exact .pure (derivations_singleton (.leaf lexical decided))
  · exact .pure derivations_nil

theorem sequenceDerivations_prependUpTo {limit : Nat} {heads : List Tree}
    {tails : List (List Tree)} (headsDerive : chart.Derivations symbol heads)
    (tailsDerive : chart.SequenceDerivations rest tails) :
    chart.SequenceDerivations (symbol :: rest)
      (prependUpTo limit heads tails) := by
  intro children member
  rw [prependUpTo_eq_take] at member
  obtain ⟨head, headMem, made⟩ :=
    List.mem_flatMap.mp (List.mem_of_mem_take member)
  obtain ⟨tail, tailMem, rfl⟩ := List.mem_map.mp made
  exact .cons (headsDerive head headMem) (tailsDerive tail tailMem)

theorem finds_sequencesOver {limit : Nat}
    {headsTo : Nat → Search σ (List Tree)}
    {tailsFrom : Nat → Search σ (List (List Tree))} {splits : List Nat}
    {found : List (List Tree)}
    (findsHeads : ∀ split,
      Finds chart allowed (chart.Derivations symbol) (headsTo split))
    (findsTails : ∀ split,
      Finds chart allowed (chart.SequenceDerivations rest) (tailsFrom split))
    (foundDerive : chart.SequenceDerivations (symbol :: rest) found) :
    Finds chart allowed (chart.SequenceDerivations (symbol :: rest))
      (sequencesOver limit headsTo tailsFrom found splits) := by
  induction splits generalizing found with
  | nil => exact .pure foundDerive
  | cons split splits ih =>
      refine (findsHeads split).bind fun heads headsDerive => ?_
      split
      · exact ih foundDerive
      · refine (findsTails split).bind fun tails tailsDerive => ?_
        have longer : chart.SequenceDerivations (symbol :: rest)
            (found ++ prependUpTo (limit - found.length) heads tails) :=
          List.forall_mem_append.mpr ⟨foundDerive,
            sequenceDerivations_prependUpTo headsDerive tailsDerive⟩
        simp only
        split
        · exact .pure longer
        · exact ih longer

variable {treesOf : Symbol → Nat → Nat → Search σ (List Tree)}

theorem finds_sequencesAt (finds : FindsTrees chart allowed treesOf)
    (symbols : List Symbol) :
    Finds chart allowed (chart.SequenceDerivations symbols)
      (sequencesAt chart treesOf symbols first last) := by
  induction symbols generalizing first with
  | nil =>
      apply Finds.pure
      intro children member
      split at member
      · rw [List.mem_singleton.mp member]
        exact .nil
      · cases member
  | cons symbol rest ih =>
      refine finds_sequencesOver (finds symbol first) (fun split => ih) ?_
      intro children member
      cases member

theorem finds_nodesOver (finds : FindsTrees chart allowed treesOf)
    (nonterminal : chart.grammar.role head = .nonterminal)
    (declared : alternatives ⊆ chart.grammar.alternatives head)
    {found : List Tree} (foundDerive : chart.Derivations head found) :
    Finds chart allowed (chart.Derivations head)
      (nodesOver chart treesOf head first last found alternatives) := by
  induction alternatives generalizing found with
  | nil => exact .pure foundDerive
  | cons alternative alternatives ih =>
      rw [List.cons_subset] at declared
      refine (finds_sequencesAt finds alternative).bind ?_
      intro sequences derived
      refine ih declared.2 (List.forall_mem_append.mpr ⟨foundDerive, ?_⟩)
      intro tree member
      obtain ⟨children, kept, rfl⟩ := List.mem_map.mp member
      exact .node nonterminal declared.1
        (derived children (List.mem_of_mem_take kept))

theorem finds_remember {cell : Cell} {trees : List Tree}
    (derived : chart.Derivations cell.symbol trees) :
    Finds chart allowed (fun _ => True) (remember observer cell trees) :=
  (Finds.report observer _).bind fun _ _ =>
    .modify fun _ sound => sound.insert derived

theorem finds_fill {cell : Cell} {search : Search σ (List Tree)}
    (finds : Finds chart allowed (chart.Derivations cell.symbol) search) :
    Finds chart allowed (chart.Derivations cell.symbol)
      (fill observer cell search) := by
  refine (Finds.report observer _).bind fun _ _ => .get fun before _ => ?_
  refine finds.bind fun trees derived => ?_
  refine (Finds.report observer _).bind fun _ _ => .get fun after _ => ?_
  split
  · exact (finds_remember derived).bind fun _ _ => .pure derived
  · exact .pure derived

theorem finds_cutAt (cell : Cell) :
    Finds chart allowed (chart.Derivations cell.symbol)
      (cutAt observer cell) := by
  refine (Finds.report observer _).bind fun _ _ => ?_
  refine Finds.bind (Finds.modify ?_) fun _ _ => .pure derivations_nil
  exact fun _ sound => sound

theorem findsTrees_treesAt_of_nested
    (tests : TestsFailOnly chart.grammar.role allowed) {tokens : Array String}
    {depth : Nat} {active : List Cell}
    (nested : ∀ cell depth', depth = depth' + 1 →
      FindsTrees chart allowed
        (chart.treesAt observer tokens depth' (cell :: active))) :
    FindsTrees chart allowed (chart.treesAt observer tokens depth active) := by
  intro symbol first last
  rw [treesAt.eq_def]
  split
  · rename_i member lexical
    exact finds_leavesAt tests tokens lexical
  · rename_i empty
    apply Finds.pure
    split
    · exact derivations_singleton (.empty empty)
    · exact derivations_nil
  · rename_i nonterminal
    split
    · exact .pure derivations_nil
    · refine .get fun state sound => ?_
      split
      · rename_i trees remembered
        refine (Finds.report observer _).bind fun _ _ => .pure ?_
        exact sound _ trees remembered
      · split
        · exact finds_cutAt _
        · split
          · exact .pure derivations_nil
          · rename_i depth'
            exact finds_fill (finds_nodesOver (nested _ depth' rfl) nonterminal
              (List.Subset.refl _) derivations_nil)

theorem findsTrees_treesAt (tests : TestsFailOnly chart.grammar.role allowed)
    (tokens : Array String) (depth : Nat) (active : List Cell) :
    FindsTrees chart allowed (chart.treesAt observer tokens depth active) := by
  induction depth generalizing active with
  | zero =>
      apply findsTrees_treesAt_of_nested tests
      intro cell depth' impossible
      cases impossible
  | succ depth ih =>
      apply findsTrees_treesAt_of_nested tests
      intro cell depth' same
      obtain rfl := Nat.succ.inj same
      exact ih (cell :: active)

theorem finds_startTrees (tests : TestsFailOnly chart.grammar.role allowed)
    (tokens : Array String) {starts : List Symbol}
    (declared : starts ⊆ chart.grammar.startSymbols) {found : List Tree}
    (foundDerive : ∀ tree ∈ found, ∃ start ∈ chart.grammar.startSymbols,
      chart.grammar.Derives start tree) :
    Finds chart allowed
      (fun trees => ∀ tree ∈ trees, ∃ start ∈ chart.grammar.startSymbols,
        chart.grammar.Derives start tree)
      (startTrees chart observer tokens found starts) := by
  induction starts generalizing found with
  | nil => exact .pure foundDerive
  | cons start starts ih =>
      rw [List.cons_subset] at declared
      refine (findsTrees_treesAt tests tokens _ [] start 0 _).bind ?_
      intro trees derived
      have longer : ∀ tree ∈ found ++ trees,
          ∃ start ∈ chart.grammar.startSymbols,
            chart.grammar.Derives start tree :=
        List.forall_mem_append.mpr ⟨foundDerive,
          fun tree member => ⟨start, declared.1, derived tree member⟩⟩
      simp only
      split
      · exact .pure fun tree kept => longer tree (List.mem_of_mem_take kept)
      · exact ih declared.2 longer

end Searches

variable {grammar : Grammar} {maxTrees : Option Int} {tokens : List String}

theorem finds_parse (tests : TestsFailOnly grammar.role allowed)
    (maxTrees : Option Int) (tokens : List String) :
    FailsOnly allowed (parser grammar maxTrees tokens) ∧
      ∀ trees, parser grammar maxTrees tokens = .ok trees →
        ∀ tree ∈ trees, ∃ start ∈ grammar.startSymbols,
          grammar.Derives start tree := by
  let chart := ofGrammar grammar maxTrees
  have nothingKept : chart.Sound ∅ := by simp [Sound]
  have finds : Finds chart allowed _
      (startTrees chart silent tokens.toArray [] grammar.startSymbols) :=
    finds_startTrees tests tokens.toArray (List.Subset.refl _) (by simp)
  obtain ⟨fails, derived⟩ := finds ⟨∅, 0, ()⟩ nothingKept
  refine ⟨fails.map, fun trees listed => ?_⟩
  obtain ⟨result, ran, rfl⟩ := exists_of_map_eq_ok listed
  exact (derived result.1 result.2 ran).1

/-- A parser is stopped by membership tests only. -/
theorem failsOnly_parse (tests : TestsFailOnly grammar.role allowed)
    (maxTrees : Option Int) (tokens : List String) :
    FailsOnly allowed (parser grammar maxTrees tokens) :=
  (finds_parse tests maxTrees tokens).1

/-- All trees that a parser lists are derivations of start symbols. -/
theorem derives_of_mem_parse {trees : List Tree}
    (listed : parser grammar maxTrees tokens = .ok trees) {tree : Tree}
    (member : tree ∈ trees) :
    ∃ start ∈ grammar.startSymbols, grammar.Derives start tree := by
  have anyFault : TestsFailOnly grammar.role fun _ => True :=
    fun _ _ _ _ _ _ => trivial
  exact (finds_parse anyFault maxTrees tokens).2 trees listed tree member

end Chart

end SemanticGrammar
