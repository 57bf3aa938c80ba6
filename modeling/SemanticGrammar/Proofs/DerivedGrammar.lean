import SemanticGrammar.Proofs.Configuration
import SemanticGrammar.Proofs.TreeValues

/-!
# Derived grammars are closed and exact

The symbols of a derived grammar are those that its root involves.  Each of them
contributes its own productions, once and in the order of their declaration, so
that no production and no key occurs twice, and each constituent is a symbol of
the grammar.  A derivation is kept once it was read, so what is read of it at
any later time is of the same grammar.
-/

namespace SemanticGrammar

namespace Derivation

variable {V : Type} {derivation : Derivation V} {productions : List Production}

/-! ## The productions of each head -/

section Productions

variable (derives : derivation.productions = .ok productions)

include derives

theorem mem_productions_iff {production : Production} :
    production ∈ productions ↔ production.head ∈ derivation.symbols ∧
      production.constituents ∈
        derivation.registry.shapes production.head := by
  obtain ⟨-, rfl⟩ := productions_eq_ok_iff.mp derives
  obtain ⟨head, constituents⟩ := production
  simp only [List.mem_flatMap, List.mem_map, Production.mk.injEq]
  constructor
  · rintro ⟨symbol, isSymbol, shape, isShape, rfl, rfl⟩
    exact ⟨isSymbol, isShape⟩
  · rintro ⟨isSymbol, isShape⟩
    exact ⟨head, isSymbol, constituents, isShape, rfl, rfl⟩

theorem filter_productions (distinct : derivation.symbols.Nodup)
    {head : Symbol} (isSymbol : head ∈ derivation.symbols) :
    productions.filter (·.head = head) =
      (derivation.registry.shapes head).map (Production.mk head) := by
  have shapes := alternatives_grammarOf derives distinct head
  rw [if_pos isSymbol] at shapes
  rw [← shapes, Grammar.alternatives, List.map_map]
  refine (List.map_id _).symm.trans (List.map_congr_left ?_)
  intro production member
  obtain rfl := of_decide_eq_true (List.mem_filter.mp member).2
  rfl

theorem nodup_productions (distinct : derivation.symbols.Nodup) :
    productions.Nodup := by
  obtain ⟨wellDeclared, rfl⟩ := productions_eq_ok_iff.mp derives
  rw [List.nodup_flatMap]
  constructor
  · intro symbol isSymbol
    apply (wellDeclared symbol isSymbol).nodup.map
    exact fun first second same => (Production.mk.inj same).2
  · apply distinct.imp
    intro first second differ production own other
    obtain ⟨shape, -, rfl⟩ := List.mem_map.mp own
    obtain ⟨shape', -, same⟩ := List.mem_map.mp other
    exact differ (Production.mk.inj same).1.symm

theorem constituents_subset_symbols
    (exact : derivation.registry.IsClosure derivation.root derivation.closure)
    {production : Production} (member : production ∈ productions) :
    production.constituents ⊆ derivation.symbols := by
  obtain ⟨isSymbol, isShape⟩ := (mem_productions_iff derives).mp member
  obtain ⟨children, read, met⟩ := exact.expanded isSymbol
  obtain ⟨rules, declared⟩ :=
    ((productions_eq_ok_iff.mp derives).1 _ isSymbol).rules_ok
  rw [Registry.shapes_eq declared] at isShape
  obtain ⟨rule, isRule, same⟩ := List.mem_map.mp isShape
  obtain rfl := Except.ok.inj
    ((Registry.constituents_eq_ok declared).symm.trans read)
  intro child isChild
  rw [← same] at isChild
  exact met (List.mem_flatMap.mpr ⟨rule, isRule, isChild⟩)

end Productions

theorem mem_lexicalCategories_iff {symbol : Symbol} :
    symbol ∈ derivation.lexicalCategories ↔ symbol ∈ derivation.symbols ∧
      ∃ member, derivation.registry.role symbol = .lexical member := by
  rw [lexicalCategories, List.mem_filter, Registry.isLexical]
  cases derivation.registry.role symbol <;> simp

end Derivation

namespace Session

variable {V : Type} {session : Session V} {root : Symbol}
  {derivation : Derivation V}

/-! ## Derivations that are kept -/

theorem lookup_derivation_self
    (derived : (session.derivation root).1 = .ok derivation) :
    (session.derivation root).2.derivations.lookup root =
      some derivation := by
  unfold Session.derivation at derived ⊢
  split at derived
  · rename_i kept found
    obtain rfl := Except.ok.inj derived
    exact found
  · rename_i absent
    split at derived
    · cases derived
    · obtain rfl := Except.ok.inj derived
      simp [List.lookup_append, absent]

theorem lookup_derivation
    (kept : session.derivations.lookup root = some derivation)
    (other : Symbol) :
    (session.derivation other).2.derivations.lookup root =
      some derivation := by
  unfold Session.derivation
  split
  · exact kept
  · split
    · exact kept
    · simp [List.lookup_append, kept]

theorem lookup_afterCall
    (kept : session.derivations.lookup root = some derivation) (call : Call) :
    (session.afterCall call).derivations.lookup root = some derivation := by
  cases call with
  | closure other => exact kept
  | derivation other isRead =>
      cases isRead with
      | true => exact lookup_derivation kept other
      | false => exact kept
  | parsable other options =>
      have still := lookup_derivation kept other
      simp only [afterCall, parsable]
      split
      · exact still
      · exact still
  | use index use => exact kept

theorem lookup_afterCalls
    (kept : session.derivations.lookup root = some derivation)
    (calls : List Call) :
    (session.afterCalls calls).derivations.lookup root = some derivation := by
  induction calls generalizing session with
  | nil => exact kept
  | cons call calls ih => exact ih (lookup_afterCall kept call)

/-- A derivation that was read is what is read again after any calls. -/
theorem derivation_afterCalls_of_read
    (derived : (session.derivation root).1 = .ok derivation)
    (calls : List Call) :
    (((session.derivation root).2.afterCalls calls).derivation root).1 =
      .ok derivation := by
  have kept := lookup_afterCalls (lookup_derivation_self derived) calls
  rw [Session.derivation, kept]

/-! ## Derived grammars -/

theorem Exact.isClosure_of_derivation {registry : Registry V}
    (exact : session.Exact registry)
    (derived : (session.derivation root).1 = .ok derivation) :
    derivation.registry = registry ∧ derivation.root = root ∧
      registry.IsClosure root derivation.closure := by
  have closes := exact.closes root
  rw [exact.result_derivation] at derived
  obtain ⟨closure, found, rfl⟩ := exists_of_map_eq_ok derived
  rw [found] at closes
  exact ⟨rfl, rfl, closes⟩

/-- Whatever was called before, a derivation whose productions can be had is
that of a closed grammar.  Its symbols are the root and what the root reaches,
the root first and nothing twice.  Of each symbol there are the productions that
its rules declare, in the order of the rules, and there are no others; none of
them and none of their keys occurs twice, and all their constituents are
symbols of the grammar.  The lexical categories are the lexical symbols, the
tokens are those that the symbols own, and the root is the start symbol.  Once
read, the derivation is the one that is read after any calls. -/
theorem derivation_afterCalls_closed (registry : Registry V)
    (calls : List Call) (root : Symbol) {derivation : Derivation V}
    {productions : List Production}
    (derived : (((ofRegistry registry).afterCalls calls).derivation root).1 =
      .ok derivation)
    (derives : derivation.productions = .ok productions) :
    (derivation.symbols.head? = some root ∧ derivation.symbols.Nodup ∧
        ∀ symbol, symbol ∈ derivation.symbols ↔
          symbol = root ∨ registry.Reaches root symbol) ∧
      ((∀ production ∈ productions, production.head ∈ derivation.symbols) ∧
        (∀ head ∈ derivation.symbols, ∃ rules,
          registry.rules head = .ok rules ∧
            productions.filter (·.head = head) =
              rules.map fun rule => ⟨head, rule.constituents⟩) ∧
        productions.Nodup ∧ (productions.map Production.key).Nodup ∧
        ∀ production ∈ productions,
          production.constituents ⊆ derivation.symbols) ∧
      (derivation.lexicalCategories.Nodup ∧
        ∀ symbol, symbol ∈ derivation.lexicalCategories ↔
          symbol ∈ derivation.symbols ∧
            ∃ member, registry.role symbol = .lexical member) ∧
      (derivation.tokens.Nodup ∧
        ∀ token, token ∈ derivation.tokens ↔
          ∃ symbol ∈ derivation.symbols, token ∈ registry.tokens symbol) ∧
      derivation.grammar = .ok {
        role := registry.role
        productions := productions
        lexicalCategories := derivation.lexicalCategories
        startSymbols := [root] } ∧
      ∀ later, (((ofRegistry registry).afterCalls
        (calls ++ .derivation root true :: later)).derivation root).1 =
          .ok derivation := by
  have kept := derivation_afterCalls_of_read derived
  obtain ⟨rfl, rfl, exact⟩ :=
    (exact_afterCalls registry calls).isClosure_of_derivation derived
  have distinct : derivation.symbols.Nodup := exact.nodup_cons
  have nodup := derivation.nodup_productions derives distinct
  obtain ⟨wellDeclared, -⟩ := Derivation.productions_eq_ok_iff.mp derives
  refine ⟨⟨rfl, distinct, fun symbol => ?_⟩,
    ⟨fun production member => ?_, fun head isSymbol => ?_, nodup, ?_,
      fun production => Derivation.constituents_subset_symbols derives exact⟩,
    ⟨distinct.filter _, fun symbol => Derivation.mem_lexicalCategories_iff⟩,
    ⟨nodup_firstOccurrences _, fun token => ?_⟩, ?_, fun later => ?_⟩
  · exact exact.mem_cons_iff.trans Registry.involves_iff
  · exact ((Derivation.mem_productions_iff derives).mp member).1
  · obtain ⟨rules, declared⟩ := (wellDeclared head isSymbol).rules_ok
    refine ⟨rules, declared, ?_⟩
    rw [Derivation.filter_productions derives distinct isSymbol,
      Registry.shapes_eq declared, List.map_map]
    rfl
  · exact nodup.map fun first second => Production.key_injective
  · rw [Derivation.tokens, mem_firstOccurrences, List.mem_flatMap]
  · exact Derivation.grammar_eq_ok_iff.mpr ⟨productions, derives, rfl⟩
  · rw [afterCalls, List.foldl_append]
    exact kept later

/-- The grammar of sentences is closed without rumours, also after a failure and
after closures that change the order of its symbols. -/
theorem derivation_afterCalls_closed_clauses :
    let calls := [.closure ⟨5⟩, .closure ⟨2⟩, .parsable ⟨3⟩ {}]
    ∃ derivation productions,
      (((ofRegistry clauses).afterCalls calls).derivation ⟨1⟩).1 =
          .ok derivation ∧
        derivation.productions = .ok productions ∧
        (productions.map Production.key).Nodup ∧
        (∀ production ∈ productions, ⟨4⟩ ∉ production.constituents) ∧
        (∃ rules, clauses.rules ⟨3⟩ = .ok rules ∧
          productions.filter (·.head = ⟨3⟩) =
            rules.map fun rule => ⟨⟨3⟩, rule.constituents⟩) ∧
        ∃ symbol ∈ derivation.symbols, "!" ∈ clauses.tokens symbol := by
  intro calls
  have listed : (((ofRegistry clauses).afterCalls calls).derivation
      ⟨1⟩).1.map (fun derivation =>
        (derivation.symbols, derivation.tokens)) =
      .ok ([⟨1⟩, ⟨2⟩, ⟨7⟩, ⟨0⟩, ⟨3⟩, ⟨8⟩, ⟨6⟩], ["!", "and"]) := by
    decide +kernel
  have productive : (((ofRegistry clauses).afterCalls calls).derivation
      ⟨1⟩).1.map (fun derivation => derivation.productions.map List.length) =
      .ok (.ok 6) := by
    decide +kernel
  obtain ⟨derivation, derived, members⟩ := exists_of_map_eq_ok listed
  obtain ⟨symbols, tokens⟩ := Prod.mk.inj members
  rw [derived] at productive
  obtain ⟨productions, derives, -⟩ :=
    exists_of_map_eq_ok (Except.ok.inj productive)
  obtain ⟨-, ⟨-, declared, -, keys, closed⟩, -, ⟨-, owned⟩, -⟩ :=
    derivation_afterCalls_closed clauses calls ⟨1⟩ derived derives
  refine ⟨derivation, productions, derived, derives, keys, ?_,
    declared ⟨3⟩ (by rw [symbols]; decide),
    (owned "!").mp (by rw [tokens]; decide)⟩
  intro production member rumour
  have isSymbol := closed production member rumour
  rw [symbols] at isSymbol
  revert isSymbol
  decide

end Session

end SemanticGrammar
