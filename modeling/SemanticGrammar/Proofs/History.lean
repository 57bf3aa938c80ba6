import SemanticGrammar.Proofs.ParsableRuns
import SemanticGrammar.Proofs.Reachability
import SemanticGrammar.Session

/-!
# What earlier calls leave behind

Whatever is called over a registry, all closures that are known are exact, and
each derivation that is kept has the closure that is known for its root.  So
the closure of a root is always that of the registry, up to its order, and a
derivation that is kept is the one that the workspace would make.
-/

namespace SemanticGrammar

namespace Workspace

variable {V : Type} {workspace : Workspace V} {root : Symbol}

theorem closes_closure (knows : workspace.registry.Knows workspace.known)
    (root : Symbol) :
    workspace.registry.Closes root (workspace.closure root).1 := by
  have closes := workspace.registry.closes_closure knows root
  unfold Workspace.closure
  split
  · rename_i fault failed
    exact failed ▸ closes
  · rename_i closure found
    exact found ▸ closes

theorem knows_keep (knows : workspace.registry.Knows workspace.known)
    {closure : List Symbol}
    (exact : workspace.registry.IsClosure root closure) :
    workspace.registry.Knows (workspace.keep root closure).known := by
  unfold keep
  split
  · exact knows
  · intro entry member
    rcases List.mem_append.mp member with old | new
    · exact knows entry old
    · exact List.mem_singleton.mp new ▸ exact

theorem knows_closure (knows : workspace.registry.Knows workspace.known)
    (root : Symbol) :
    workspace.registry.Knows (workspace.closure root).2.known := by
  have closes := workspace.registry.closes_closure knows root
  unfold Workspace.closure
  split
  · exact knows
  · rename_i closure found
    rw [found] at closes
    exact knows_keep knows closes

theorem closure_of_error {fault : Fault}
    (failed : (workspace.closure root).1 = .error fault) :
    (workspace.closure root).2 = workspace := by
  unfold Workspace.closure at failed ⊢
  split
  · rfl
  · rename_i closure found
    rw [found] at failed
    cases failed

theorem lookup_closure {other : Symbol} {closure : List Symbol}
    (found : workspace.known.lookup other = some closure) :
    (workspace.closure root).2.known.lookup other = some closure := by
  unfold Workspace.closure
  split
  · exact found
  · unfold keep
    split
    · exact found
    · rw [List.lookup_append, found]
      rfl

theorem lookup_closure_self {closure : List Symbol}
    (found : (workspace.closure root).1 = .ok closure) :
    (workspace.closure root).2.known.lookup root = some closure := by
  unfold Workspace.closure at found ⊢
  split at found
  · cases found
  · rename_i walked computed
    obtain rfl := Except.ok.inj found
    simp only [keep]
    cases known : workspace.known.lookup root with
    | none => simp [known, List.lookup_append]
    | some earlier =>
        simp only [Registry.closure, known, Except.ok.injEq] at computed
        simp [known, computed]

theorem closure_of_lookup {closure : List Symbol}
    (found : workspace.known.lookup root = some closure) :
    workspace.closure root = (.ok closure, workspace) := by
  simp [Workspace.closure, Registry.closure, found, keep]

theorem result_derivation (workspace : Workspace V) (root : Symbol) :
    (workspace.derivation root).1 =
      (workspace.closure root).1.map (⟨workspace.registry, root, ·⟩) := by
  rw [← workspace.registry_closure root]
  rfl

end Workspace

namespace Session

variable {V : Type}

/-- Whether all that a session keeps is exact for a registry. -/
structure Exact (registry : Registry V) (session : Session V) : Prop where
  registry_eq : session.workspace.registry = registry
  knows : registry.Knows session.workspace.known
  keeps : ∀ entry ∈ session.derivations,
    ∃ closure, session.workspace.known.lookup entry.1 = some closure ∧
      entry.2 = ⟨registry, entry.1, closure⟩

theorem exact_ofRegistry (registry : Registry V) :
    (ofRegistry registry).Exact registry where
  registry_eq := rfl
  knows := by simp [ofRegistry, Workspace.ofRegistry, Registry.Knows]
  keeps := by simp [ofRegistry]

namespace Exact

variable {registry : Registry V} {session : Session V}

theorem closes (exact : session.Exact registry) (root : Symbol) :
    registry.Closes root (session.workspace.closure root).1 := by
  obtain ⟨rfl, knows, -⟩ := exact
  exact Workspace.closes_closure knows root

theorem closure (exact : session.Exact registry) (root : Symbol) :
    (session.closure root).2.Exact registry := by
  obtain ⟨rfl, knows, keeps⟩ := exact
  refine ⟨Workspace.registry_closure _ root,
    Workspace.knows_closure knows root, fun entry kept => ?_⟩
  obtain ⟨closure, known, same⟩ := keeps entry kept
  exact ⟨closure, Workspace.lookup_closure known, same⟩

/-- A session derives what its workspace derives, be the derivation kept or
new. -/
theorem result_derivation (exact : session.Exact registry) (root : Symbol) :
    (session.derivation root).1 =
      (session.workspace.closure root).1.map (⟨registry, root, ·⟩) := by
  obtain ⟨rfl, -, keeps⟩ := exact
  rw [← Workspace.result_derivation]
  unfold Session.derivation
  split
  · rename_i derivation kept
    obtain ⟨closure, known, same⟩ :=
      keeps (root, derivation) (mem_of_lookup_eq_some kept)
    rw [Workspace.result_derivation, Workspace.closure_of_lookup known]
    exact congrArg Except.ok same
  · split
    · rename_i fault workspace failed
      rw [failed]
    · rename_i derivation workspace derived
      rw [derived]

theorem derivation (exact : session.Exact registry) (root : Symbol) :
    (session.derivation root).2.Exact registry := by
  have closed := exact.closure root
  unfold Session.derivation
  split
  · exact exact
  · split
    · rename_i fault workspace failed
      obtain rfl : (session.workspace.closure root).2 = workspace :=
        congrArg Prod.snd failed
      exact closed
    · rename_i derivation workspace derived
      obtain rfl : (session.workspace.closure root).2 = workspace :=
        congrArg Prod.snd derived
      have result := session.workspace.result_derivation root
      rw [derived, exact.registry_eq] at result
      refine ⟨closed.registry_eq, closed.knows, fun entry member => ?_⟩
      rcases List.mem_append.mp member with old | new
      · exact closed.keeps entry old
      · obtain rfl := List.mem_singleton.mp new
        cases found : (session.workspace.closure root).1 with
        | error fault =>
            rw [found] at result
            cases result
        | ok closure =>
            rw [found] at result
            exact ⟨closure, Workspace.lookup_closure_self found,
              Except.ok.inj result⟩

theorem result_parsable (exact : session.Exact registry) (root : Symbol)
    (options : ParsingOptions) :
    (session.parsable root options).1 =
      (session.workspace.parsable root options).1 := by
  rw [Workspace.parsable_eq_bind, Workspace.result_derivation,
    exact.registry_eq, ← exact.result_derivation]
  unfold Session.parsable
  simp only
  split
  · rename_i fault failed
    exact failed.symm
  · rename_i parsable made
    exact made.symm

theorem parsable (exact : session.Exact registry) (root : Symbol)
    (options : ParsingOptions) :
    (session.parsable root options).2.Exact registry := by
  have derived := exact.derivation root
  unfold Session.parsable
  simp only
  split
  · exact derived
  · exact ⟨derived.registry_eq, derived.knows, derived.keeps⟩

theorem afterCall (exact : session.Exact registry) (call : Call) :
    (session.afterCall call).Exact registry := by
  cases call with
  | closure root => exact exact.closure root
  | derivation root isRead =>
      cases isRead with
      | true => exact exact.derivation root
      | false => exact exact
  | parsable root options => exact exact.parsable root options
  | use index use => exact ⟨exact.registry_eq, exact.knows, exact.keeps⟩

theorem afterCalls (exact : session.Exact registry) (calls : List Call) :
    (session.afterCalls calls).Exact registry := by
  induction calls generalizing session with
  | nil => exact exact
  | cons call calls ih => exact ih (exact.afterCall call)

end Exact

theorem exact_afterCalls (registry : Registry V) (calls : List Call) :
    ((ofRegistry registry).afterCalls calls).Exact registry :=
  (exact_ofRegistry registry).afterCalls calls

/-- After any calls, the attempt at the closure of a root fails exactly when
some rules that the root involves cannot be had, and then it leaves the
workspace as it is.  Otherwise it finds what the root reaches in one or more
steps, the root excepted and nothing twice, as all known closures do. -/
theorem closure_afterCalls (registry : Registry V) (calls : List Call)
    (root : Symbol) :
    let workspace := ((ofRegistry registry).afterCalls calls).workspace
    ((∃ fault, (workspace.closure root).1 = .error fault) ↔
        ∃ symbol, (symbol = root ∨ registry.Reaches root symbol) ∧
          ∃ fault, registry.rules symbol = .error fault) ∧
      (∀ fault, (workspace.closure root).1 = .error fault →
        (workspace.closure root).2 = workspace) ∧
      (∀ closure, (workspace.closure root).1 = .ok closure →
        closure.Nodup ∧ ∀ symbol, symbol ∈ closure ↔
          registry.Reaches root symbol ∧ symbol ≠ root) ∧
      ∀ entry ∈ (workspace.closure root).2.known,
        entry.2.Nodup ∧ ∀ symbol, symbol ∈ entry.2 ↔
          registry.Reaches entry.1 symbol ∧ symbol ≠ entry.1 := by
  have exact := exact_afterCalls registry calls
  have closes := exact.closes root
  refine ⟨?_, fun fault => Workspace.closure_of_error, ?_, ?_⟩
  · simp only [← Registry.involves_iff]
    exact closes.exists_error_iff
  · intro closure found
    rw [found] at closes
    exact ⟨closes.nodup, closes.mem_iff⟩
  · intro entry known
    have isClosure := (exact.closure root).knows entry known
    exact ⟨isClosure.nodup, isClosure.mem_iff⟩

end Session

/-! ## Some declarations -/

/-- Sentences about animals: a sentence holds subjects and predicates, a
predicate may hold a sentence, and the subject may be missing.  The rules of
rumours cannot be had, and reports mention rumours. -/
def clauses : Registry String where
  ofToken := id
  declarations :=
    #[.empty,
      .nonterminal "Sentence" ["!"]
        (.ok [⟨[⟨2⟩, ⟨3⟩], join⟩, ⟨[⟨1⟩, ⟨6⟩, ⟨1⟩], join⟩]),
      .nonterminal "Subject" [] (.ok [⟨[⟨7⟩], join⟩, ⟨[⟨0⟩], join⟩]),
      .nonterminal "Predicate" []
        (.ok [⟨[⟨8⟩], intransitive⟩, ⟨[⟨8⟩, ⟨1⟩], join⟩]),
      .nonterminal "Rumour" [] (.error (.error "unknown")),
      .nonterminal "Report" [] (.ok [⟨[⟨1⟩, ⟨4⟩], join⟩]),
      .terminal "and",
      .category "Noun" fun token => .ok (["dogs", "cats"].contains token),
      .category "Verb" fun token => .ok (["bark", "say"].contains token)]
  emptyIsFirst := Declaration.emptyIsFirst_of_later _ (by simp)
where
  join (values : List String) : Except Fault (Option String) :=
    .ok (some ("(" ++ " ".intercalate values ++ ")"))
  intransitive (values : List String) : Except Fault (Option String) :=
    .ok (if values = ["say"] then none else some (" ".intercalate values))

/-- After a failure and a closure inside of it, the closure of sentences is
found, and that of reports still is not. -/
theorem Session.closure_afterCalls_clauses :
    let calls := [.closure ⟨5⟩, .closure ⟨2⟩, .parsable ⟨3⟩ {}]
    let workspace := ((ofRegistry clauses).afterCalls calls).workspace
    (workspace.closure ⟨1⟩).1 =
        .ok [⟨2⟩, ⟨7⟩, ⟨0⟩, ⟨3⟩, ⟨8⟩, ⟨6⟩] ∧
      clauses.Reaches ⟨1⟩ ⟨8⟩ ∧
      ¬clauses.Reaches ⟨1⟩ ⟨4⟩ ∧
      ∃ symbol, (symbol = ⟨5⟩ ∨ clauses.Reaches ⟨5⟩ symbol) ∧
        ∃ fault, clauses.rules symbol = .error fault := by
  intro calls workspace
  have found : (workspace.closure ⟨1⟩).1 =
      .ok [⟨2⟩, ⟨7⟩, ⟨0⟩, ⟨3⟩, ⟨8⟩, ⟨6⟩] := by
    decide +kernel
  obtain ⟨-, -, exact, -⟩ := closure_afterCalls clauses calls ⟨1⟩
  obtain ⟨fails, -⟩ := closure_afterCalls clauses calls ⟨5⟩
  have members := (exact _ found).2
  refine ⟨found, ((members ⟨8⟩).mp (by decide)).1, fun reaches => ?_,
    fails.mp ⟨.error "unknown", by decide +kernel⟩⟩
  exact absurd ((members ⟨4⟩).mpr ⟨reaches, by decide⟩) (by decide)

end SemanticGrammar
