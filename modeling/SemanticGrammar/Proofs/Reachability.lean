import Mathlib.Data.List.Nodup
import Mathlib.Logic.Relation
import Mathlib.Tactic.Tauto
import SemanticGrammar.Registry.Closure

/-!
# What a symbol reaches

A symbol reaches the constituents of its rules, the constituents of those, and
so on.  The walk from a root finds exactly what the root reaches, each symbol
once and the root not at all, and it fails exactly when some rules on the way
cannot be had.

While a walk goes on, each symbol that was met is on the stack or has been
expanded: all its constituents were met.  A known closure is merged without
being expanded, but it is exact, so that its members have their constituents
in it or in its root.
-/

namespace SemanticGrammar

theorem mem_of_lookup_eq_some {α β : Type} [BEq α] [LawfulBEq α] {key : α}
    {value : β} {entries : List (α × β)}
    (found : entries.lookup key = some value) : (key, value) ∈ entries := by
  obtain ⟨front, back, rfl, -⟩ := List.lookup_eq_some_iff.mp found
  simp

namespace Registry

variable {V : Type}

def Mentions (registry : Registry V) (symbol child : Symbol) : Prop :=
  ∃ children, registry.constituents symbol = .ok children ∧ child ∈ children

/-- Whether a symbol leads to another one in one or more steps from a symbol
to a constituent. -/
def Reaches (registry : Registry V) : Symbol → Symbol → Prop :=
  Relation.TransGen registry.Mentions

/-- Whether a symbol is a root or reached from it. -/
def Involves (registry : Registry V) : Symbol → Symbol → Prop :=
  Relation.ReflTransGen registry.Mentions

/-- Whether a list holds what a root reaches, the root excepted, each symbol
once, and the rules of all these symbols can be had. -/
structure IsClosure (registry : Registry V) (root : Symbol)
    (closure : List Symbol) : Prop where
  nodup : closure.Nodup
  mem_iff : ∀ symbol, symbol ∈ closure ↔
    registry.Reaches root symbol ∧ symbol ≠ root
  rules_ok : ∀ symbol, registry.Involves root symbol →
    ∃ rules, registry.rules symbol = .ok rules

/-- Whether an attempt at the closure of a root succeeds with its closure or
fails with the fault of some rules that it involves. -/
def Closes (registry : Registry V) (root : Symbol) :
    Except Fault (List Symbol) → Prop
  | .ok closure => registry.IsClosure root closure
  | .error fault => ∃ symbol, registry.Involves root symbol ∧
      registry.rules symbol = .error fault

def Knows (registry : Registry V) (known : KnownClosures) : Prop :=
  ∀ entry ∈ known, registry.IsClosure entry.1 entry.2

/-- Whether the constituents of a symbol can be had and were all met. -/
def Expanded (registry : Registry V) (met : List Symbol) (symbol : Symbol) :
    Prop :=
  ∃ children, registry.constituents symbol = .ok children ∧ children ⊆ met

variable {registry : Registry V} {root symbol : Symbol}

theorem involves_iff :
    registry.Involves root symbol ↔
      symbol = root ∨ registry.Reaches root symbol :=
  Relation.reflTransGen_iff_eq_or_transGen

theorem constituents_eq_error_iff {fault : Fault} :
    registry.constituents symbol = .error fault ↔
      registry.rules symbol = .error fault := by
  unfold constituents
  cases registry.rules symbol <;> simp [Except.map]

theorem constituents_eq_ok {rules : List (Rule V)}
    (declared : registry.rules symbol = .ok rules) :
    registry.constituents symbol = .ok (rules.flatMap Rule.constituents) := by
  rw [constituents, declared]
  rfl

/-- The rules of some symbol that is involved cannot be had exactly when the
attempt at the closure fails. -/
theorem Closes.exists_error_iff {attempt : Except Fault (List Symbol)}
    (closes : registry.Closes root attempt) :
    (∃ fault, attempt = .error fault) ↔
      ∃ symbol, registry.Involves root symbol ∧
        ∃ fault, registry.rules symbol = .error fault := by
  cases attempt with
  | error fault =>
      obtain ⟨symbol, involved, fails⟩ := closes
      exact iff_of_true ⟨fault, rfl⟩ ⟨symbol, involved, fault, fails⟩
  | ok closure =>
      refine iff_of_false (by simp) ?_
      rintro ⟨symbol, involved, fault, fails⟩
      obtain ⟨rules, declared⟩ := closes.rules_ok symbol involved
      rw [declared] at fails
      cases fails

namespace IsClosure

variable {closure : List Symbol}

theorem mem_cons_iff (exact : registry.IsClosure root closure) :
    symbol ∈ root :: closure ↔ registry.Involves root symbol := by
  rw [involves_iff, List.mem_cons, exact.mem_iff]
  by_cases same : symbol = root <;> simp [same]

theorem nodup_cons (exact : registry.IsClosure root closure) :
    (root :: closure).Nodup :=
  List.nodup_cons.mpr
    ⟨fun member => ((exact.mem_iff root).mp member).2 rfl, exact.nodup⟩

theorem expanded (exact : registry.IsClosure root closure)
    (member : symbol ∈ root :: closure) :
    registry.Expanded (root :: closure) symbol := by
  have involved := exact.mem_cons_iff.mp member
  obtain ⟨rules, declared⟩ := exact.rules_ok symbol involved
  refine ⟨_, constituents_eq_ok declared, fun child isChild => ?_⟩
  exact exact.mem_cons_iff.mpr
    (involved.tail ⟨_, constituents_eq_ok declared, isChild⟩)

theorem perm {other : List Symbol} (first : registry.IsClosure root closure)
    (second : registry.IsClosure root other) : closure.Perm other := by
  rw [List.perm_ext_iff_of_nodup first.nodup second.nodup]
  exact fun symbol => (first.mem_iff symbol).trans (second.mem_iff symbol).symm

end IsClosure

theorem Expanded.mono {met larger : List Symbol}
    (expanded : registry.Expanded met symbol) (subset : met ⊆ larger) :
    registry.Expanded larger symbol := by
  obtain ⟨children, read, all⟩ := expanded
  exact ⟨children, read, List.Subset.trans all subset⟩

theorem isClosure_of_lookup {known : KnownClosures} {closure : List Symbol}
    (knows : registry.Knows known)
    (found : known.lookup symbol = some closure) :
    registry.IsClosure symbol closure := by
  exact knows (symbol, closure) (mem_of_lookup_eq_some found)

end Registry

namespace Discovery

variable {V : Type} {registry : Registry V} {known : KnownClosures}
  {root current child symbol : Symbol} {symbols found : List Symbol}

/-! ## Merging a closure -/

theorem mem_foldl_addNew :
    symbol ∈ symbols.foldl (addNew root) found ↔
      symbol ∈ found ∨ symbol ∈ symbols ∧ symbol ≠ root := by
  induction symbols generalizing found with
  | nil => simp
  | cons first symbols ih =>
      rw [List.foldl_cons, ih, addNew, List.mem_cons]
      split
      · rename_i old
        by_cases same : symbol = first
        · subst same
          tauto
        · tauto
      · rename_i isNew
        rw [List.mem_append, List.mem_singleton]
        by_cases same : symbol = first
        · subst same
          tauto
        · tauto

theorem nodup_foldl_addNew (distinct : (root :: found).Nodup) :
    (root :: symbols.foldl (addNew root) found).Nodup := by
  induction symbols generalizing found with
  | nil => exact distinct
  | cons first symbols ih =>
      apply ih
      unfold addNew
      split
      · exact distinct
      · rename_i isNew
        rw [not_or] at isNew
        rw [← List.cons_append, List.nodup_append]
        refine ⟨distinct, List.nodup_singleton first, ?_⟩
        rintro member isMember _ isFirst rfl
        rw [List.mem_singleton.mp isFirst, List.mem_cons] at isMember
        exact isMember.elim isNew.1 isNew.2

theorem subset_meet (known : KnownClosures) (root : Symbol)
    (discovery : Discovery) (child : Symbol) :
    discovery.found ⊆ (meet known root discovery child).found := by
  unfold meet
  split
  · exact List.Subset.refl _
  · split
    · exact List.Subset.trans (List.subset_append_left _ _)
        (subset_foldl_addNew _ _ _)
    · exact List.subset_append_left _ _

/-! ## The invariant of a walk -/

/-- Whether a walk from a root has met symbols that the root reaches, and has
expanded all of them but those still to do. -/
structure Explores (registry : Registry V) (root : Symbol)
    (todo found : List Symbol) : Prop where
  distinct : (root :: found).Nodup
  reached : ∀ symbol ∈ found, registry.Reaches root symbol
  todo_met : todo ⊆ root :: found
  expanded : ∀ symbol ∈ root :: found, symbol ∉ todo →
    registry.Expanded (root :: found) symbol

namespace Explores

theorem start (registry : Registry V) (root : Symbol) :
    Explores registry root [root] [] where
  distinct := List.nodup_singleton root
  reached := by simp
  todo_met := List.Subset.refl _
  expanded := fun _ met waiting => (waiting met).elim

variable {todo : List Symbol}

theorem involves (explores : Explores registry root todo found)
    (met : symbol ∈ root :: found) : registry.Involves root symbol := by
  rw [Registry.involves_iff]
  exact (List.mem_cons.mp met).imp_right (explores.reached symbol)

theorem push (explores : Explores registry root (current :: todo) found)
    (mentions : registry.Mentions current child)
    (isNew : child ∉ root :: found) :
    Explores registry root (current :: child :: todo) (found ++ [child]) := by
  have reachesChild : registry.Reaches root child :=
    Relation.TransGen.tail' (explores.involves
      (explores.todo_met List.mem_cons_self)) mentions
  constructor
  · rw [← List.cons_append, List.nodup_append]
    refine ⟨explores.distinct, List.nodup_singleton child, ?_⟩
    rintro member isMember _ isChild rfl
    exact isNew (List.mem_singleton.mp isChild ▸ isMember)
  · intro symbol member
    rcases List.mem_append.mp member with old | new
    · exact explores.reached symbol old
    · exact List.mem_singleton.mp new ▸ reachesChild
  · intro symbol waiting
    have met := @explores.todo_met symbol
    simp only [List.mem_cons, List.mem_append, List.not_mem_nil] at waiting met ⊢
    tauto
  · intro symbol met settled
    simp only [List.mem_cons, not_or] at settled
    rw [← List.cons_append, List.mem_append, List.mem_singleton] at met
    have old : symbol ∈ root :: found := met.resolve_right settled.2.1
    have expanded := explores.expanded symbol old (by
      simp [settled.1, settled.2.2])
    exact expanded.mono (List.subset_append_left (root :: found) [child])

theorem merge (explores : Explores registry root (current :: todo) found)
    (mentions : registry.Mentions current child)
    (isNew : child ∉ root :: found) {closure : List Symbol}
    (exact : registry.IsClosure child closure) :
    Explores registry root (current :: todo)
      (closure.foldl (addNew root) (found ++ [child])) := by
  have pushed := explores.push mentions isNew
  have reachesChild := pushed.reached child (by simp)
  have grows : root :: (found ++ [child]) ⊆
      root :: closure.foldl (addNew root) (found ++ [child]) :=
    List.cons_subset_cons root (subset_foldl_addNew root closure _)
  have merged : child :: closure ⊆
      root :: closure.foldl (addNew root) (found ++ [child]) := by
    intro symbol member
    simp only [List.mem_cons, mem_foldl_addNew, List.mem_append,
      List.not_mem_nil] at member ⊢
    tauto
  constructor
  · exact nodup_foldl_addNew pushed.distinct
  · intro symbol member
    rcases mem_foldl_addNew.mp member with old | ⟨inClosure, -⟩
    · exact pushed.reached symbol old
    · exact reachesChild.trans ((exact.mem_iff symbol).mp inClosure).1
  · exact List.Subset.trans
      (List.Subset.trans explores.todo_met
        (List.subset_append_left (root :: found) [child])) grows
  · intro symbol met settled
    by_cases fromChild : symbol ∈ child :: closure
    · exact (exact.expanded fromChild).mono merged
    · have old : symbol ∈ root :: (found ++ [child]) := by
        simp only [List.mem_cons, mem_foldl_addNew] at met fromChild ⊢
        tauto
      refine (pushed.expanded symbol old ?_).mono grows
      simp only [List.mem_cons] at settled fromChild ⊢
      tauto

theorem meet (knows : registry.Knows known) {discovery : Discovery}
    (explores : Explores registry root (current :: discovery.stack)
      discovery.found)
    (mentions : registry.Mentions current child) :
    Explores registry root
        (current :: (Discovery.meet known root discovery child).stack)
        (Discovery.meet known root discovery child).found ∧
      child ∈ root :: (Discovery.meet known root discovery child).found := by
  unfold Discovery.meet
  split
  · rename_i met
    exact ⟨explores, List.mem_cons.mpr met⟩
  · rename_i isNew
    rw [← List.mem_cons] at isNew
    split
    · rename_i closure found
      refine ⟨explores.merge mentions isNew
        (Registry.isClosure_of_lookup knows found), ?_⟩
      exact List.mem_cons_of_mem root
        (subset_foldl_addNew root closure _ (by simp))
    · exact ⟨explores.push mentions isNew, by simp⟩

theorem foldl_meet (knows : registry.Knows known) {discovery : Discovery}
    (explores : Explores registry root (current :: discovery.stack)
      discovery.found) {children : List Symbol}
    (mentions : ∀ child ∈ children, registry.Mentions current child) :
    Explores registry root
        (current ::
          (children.foldl (Discovery.meet known root) discovery).stack)
        (children.foldl (Discovery.meet known root) discovery).found ∧
      children ⊆
        root :: (children.foldl (Discovery.meet known root) discovery).found ∧
      discovery.found ⊆
        (children.foldl (Discovery.meet known root) discovery).found := by
  induction children generalizing discovery with
  | nil => exact ⟨explores, List.nil_subset _, List.Subset.refl _⟩
  | cons child children ih =>
      rw [List.forall_mem_cons] at mentions
      obtain ⟨next, childMet⟩ := explores.meet knows mentions.1
      obtain ⟨last, childrenMet, grows⟩ := ih next mentions.2
      refine ⟨last, List.cons_subset.mpr ⟨?_, childrenMet⟩,
        List.Subset.trans (subset_meet known root discovery child) grows⟩
      exact List.cons_subset_cons root grows childMet

theorem done (explores : Explores registry root (current :: todo) found)
    (expanded : registry.Expanded (root :: found) current) :
    Explores registry root todo found where
  distinct := explores.distinct
  reached := explores.reached
  todo_met := List.Subset.trans (List.subset_cons_self _ _) explores.todo_met
  expanded := by
    intro symbol met settled
    by_cases same : symbol = current
    · exact same ▸ expanded
    · exact explores.expanded symbol met (by simp [same, settled])

theorem isClosure (explores : Explores registry root [] found) :
    registry.IsClosure root found := by
  have complete : ∀ symbol, registry.Involves root symbol →
      symbol ∈ root :: found := by
    intro symbol involved
    induction involved with
    | refl => exact List.mem_cons_self
    | tail _ step ih =>
        obtain ⟨children, read, isChild⟩ := step
        obtain ⟨met, readMet, allMet⟩ := explores.expanded _ ih (by simp)
        obtain rfl := Except.ok.inj (read.symm.trans readMet)
        exact allMet isChild
  obtain ⟨rootNew, distinct⟩ := List.nodup_cons.mp explores.distinct
  refine ⟨distinct, fun symbol => ⟨fun member => ?_, ?_⟩, ?_⟩
  · exact ⟨explores.reached symbol member, fun same => rootNew (same ▸ member)⟩
  · rintro ⟨reached, differs⟩
    exact List.mem_of_ne_of_mem differs (complete symbol reached.to_reflTransGen)
  · intro symbol involved
    obtain ⟨children, read, -⟩ :=
      explores.expanded symbol (complete symbol involved) (by simp)
    cases declared : registry.rules symbol with
    | ok rules => exact ⟨rules, rfl⟩
    | error fault =>
        rw [Registry.constituents_eq_error_iff.mpr declared] at read
        cases read

end Explores

end Discovery

namespace Registry

variable {V : Type} {registry : Registry V} {known : KnownClosures}
  {root : Symbol}

/-- A walk that goes on from any point ends with the closure of its root or
with the fault of some rules that the root involves. -/
theorem closes_walk (knows : registry.Knows known) {discovery : Discovery}
    (explores : Discovery.Explores registry root discovery.stack
      discovery.found) :
    registry.Closes root (registry.walk known root discovery) := by
  fun_induction walk registry known root discovery with
  | case1 discovery finished =>
      rw [finished] at explores
      exact explores.isClosure
  | case2 discovery current rest unexpanded fault failed =>
      rw [unexpanded] at explores
      exact ⟨current, explores.involves (explores.todo_met List.mem_cons_self),
        constituents_eq_error_iff.mp failed⟩
  | case3 discovery current rest unexpanded children read ih =>
      rw [unexpanded] at explores
      have atCurrent : Discovery.Explores registry root
          (current :: (Discovery.mk discovery.found rest).stack)
          (Discovery.mk discovery.found rest).found := explores
      obtain ⟨next, allMet, -⟩ := atCurrent.foldl_meet knows
        fun child isChild => ⟨children, read, isChild⟩
      exact ih (next.done ⟨children, read, allMet⟩)

/-- The closure of a root is exact, whatever closures are known. -/
theorem closes_closure (knows : registry.Knows known) (root : Symbol) :
    registry.Closes root (registry.closure known root) := by
  unfold closure
  split
  · rename_i closure found
    exact isClosure_of_lookup knows found
  · exact closes_walk knows (Discovery.Explores.start registry root)

end Registry

end SemanticGrammar
