import SemanticGrammar.Registry.Basic

/-!
# The closure of a symbol

The closure of a root is the list of the symbols other than the root that its
rules reach, in order of discovery.  A walk keeps the symbols found so far
and a stack of those still to be expanded.  It expands a symbol at most once,
which cuts every recursion among the rules.  A constituent whose own closure
is known already is not expanded: its closure is merged as it stands.

The walk ends because each symbol put on the stack is mentioned by some rule
and was not found before.
-/

namespace SemanticGrammar

/-- Closures computed so far, by root. -/
abbrev KnownClosures := List (Symbol × List Symbol)

/-- What a walk has found, and what of it is still to be expanded, the next
first. -/
structure Discovery where
  found : List Symbol
  stack : List Symbol

namespace Discovery

/-- Add a symbol to those found, unless it is the root or found already. -/
def addNew (root : Symbol) (found : List Symbol) (symbol : Symbol) :
    List Symbol :=
  if symbol = root ∨ symbol ∈ found then found else found ++ [symbol]

/-- Meet a constituent: a new one is found, and either its known closure is
merged or it is put on the stack. -/
def meet (known : KnownClosures) (root : Symbol) (discovery : Discovery)
    (child : Symbol) : Discovery :=
  if child = root ∨ child ∈ discovery.found then
    discovery
  else
    match known.lookup child with
    | some closure =>
        ⟨closure.foldl (addNew root) (discovery.found ++ [child]),
          discovery.stack⟩
    | none => ⟨discovery.found ++ [child], child :: discovery.stack⟩

/-- The number of members of a list that are not found yet. -/
def unseen (symbols found : List Symbol) : Nat :=
  symbols.countP fun symbol => decide (symbol ∉ found)

theorem unseen_le_of_subset (symbols : List Symbol)
    {found larger : List Symbol} (subset : found ⊆ larger) :
    unseen symbols larger ≤ unseen symbols found := by
  apply List.countP_mono_left
  intro symbol _ absent
  simp only [decide_eq_true_eq] at absent ⊢
  exact fun present => absent (subset present)

theorem unseen_cons (first : Symbol) (symbols found : List Symbol) :
    unseen (first :: symbols) found =
      unseen symbols found + if first ∈ found then 0 else 1 := by
  by_cases present : first ∈ found <;> simp [unseen, present]

theorem unseen_append_singleton_lt (symbols : List Symbol)
    {found : List Symbol} {symbol : Symbol}
    (mentioned : symbol ∈ symbols) (isNew : symbol ∉ found) :
    unseen symbols (found ++ [symbol]) < unseen symbols found := by
  induction symbols with
  | nil => cases mentioned
  | cons first symbols induction =>
      have shrinks :
          unseen symbols (found ++ [symbol]) ≤ unseen symbols found :=
        unseen_le_of_subset symbols (List.subset_append_left _ _)
      rw [unseen_cons, unseen_cons]
      rcases List.mem_cons.mp mentioned with same | later
      · subst same
        simp only [isNew, List.mem_append, List.mem_singleton, or_true,
          if_true, if_false]
        omega
      · have smaller := induction later
        by_cases present : first ∈ found
        · simp only [present, List.mem_append, true_or, if_true]
          omega
        · simp only [present, if_false]
          split <;> omega

theorem subset_addNew (root : Symbol) (found : List Symbol) (symbol : Symbol) :
    found ⊆ addNew root found symbol := by
  unfold addNew
  split
  · exact List.Subset.refl _
  · exact List.subset_append_left _ _

theorem subset_foldl_addNew (root : Symbol) (symbols found : List Symbol) :
    found ⊆ symbols.foldl (addNew root) found := by
  induction symbols generalizing found with
  | nil => exact List.Subset.refl _
  | cons symbol symbols induction =>
      exact List.Subset.trans (subset_addNew root found symbol) (induction _)

/-- Meeting a mentioned constituent never makes more work: the stack grows
only by symbols that were unseen. -/
theorem meet_work_le (known : KnownClosures) (root : Symbol)
    (discovery : Discovery) {symbols : List Symbol} {child : Symbol}
    (mentioned : child ∈ symbols) :
    unseen symbols (meet known root discovery child).found +
        (meet known root discovery child).stack.length ≤
      unseen symbols discovery.found + discovery.stack.length := by
  unfold meet
  split
  · exact Nat.le_refl _
  · rename_i absent
    have isNew : child ∉ discovery.found := fun present =>
      absent (Or.inr present)
    have fewer := unseen_append_singleton_lt symbols mentioned isNew
    split
    · rename_i closure _
      have merged := unseen_le_of_subset symbols
        (subset_foldl_addNew root closure (discovery.found ++ [child]))
      simp only
      omega
    · simp only [List.length_cons]
      omega

theorem foldl_meet_work_le (known : KnownClosures) (root : Symbol)
    (symbols children : List Symbol) (discovery : Discovery)
    (mentioned : children ⊆ symbols) :
    unseen symbols (children.foldl (meet known root) discovery).found +
        (children.foldl (meet known root) discovery).stack.length ≤
      unseen symbols discovery.found + discovery.stack.length := by
  induction children generalizing discovery with
  | nil => exact Nat.le_refl _
  | cons child children induction =>
      exact Nat.le_trans
        (induction (meet known root discovery child)
          (fun _ member => mentioned (List.mem_cons_of_mem _ member)))
        (meet_work_le known root discovery (mentioned List.mem_cons_self))

end Discovery

namespace Registry

variable {V : Type}

def mentioned (registry : Registry V) : List Symbol :=
  registry.declarations.toList.flatMap fun declaration =>
    match declaration with
    | .nonterminal _ _ (.ok rules) => rules.flatMap Rule.constituents
    | _ => []

theorem constituents_subset_mentioned (registry : Registry V)
    {symbol : Symbol} {children : List Symbol}
    (read : registry.constituents symbol = .ok children) :
    children ⊆ registry.mentioned := by
  intro child childMem
  unfold constituents rules at read
  split at read
  · rename_i name tokens rules found
    cases rules with
    | error fault => simp [Except.map] at read
    | ok rules =>
        simp only [Except.map, Except.ok.injEq] at read
        subst read
        exact List.mem_flatMap.mpr
          ⟨.nonterminal name tokens (.ok rules),
            Array.mem_toList_iff.mpr (Array.mem_of_getElem? found), childMem⟩
  · simp only [Except.map, List.flatMap_nil, Except.ok.injEq] at read
    subst read
    cases childMem

/-- Expand the symbols on the stack until none is left. -/
def walk (registry : Registry V) (known : KnownClosures) (root : Symbol)
    (discovery : Discovery) : Except Fault (List Symbol) :=
  match _ : discovery.stack with
  | [] => .ok discovery.found
  | current :: rest =>
      match _ : registry.constituents current with
      | .error fault => .error fault
      | .ok symbols =>
          registry.walk known root
            (symbols.foldl (Discovery.meet known root) ⟨discovery.found, rest⟩)
  termination_by
    Discovery.unseen registry.mentioned discovery.found +
      discovery.stack.length
  decreasing_by
    rename_i unexpanded children
    have bound := Discovery.foldl_meet_work_le known root registry.mentioned
      symbols ⟨discovery.found, rest⟩
      (registry.constituents_subset_mentioned children)
    simp only [unexpanded, List.length_cons]
    simp only at bound
    omega

/-- The closure of a root, given the closures known so far. -/
def closure (registry : Registry V) (known : KnownClosures) (root : Symbol) :
    Except Fault (List Symbol) :=
  match known.lookup root with
  | some closure => .ok closure
  | none => registry.walk known root ⟨[], [root]⟩

end Registry

end SemanticGrammar
