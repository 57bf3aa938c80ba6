import SemanticGrammar.Proofs.DeclaredProductions
import SemanticGrammar.Registry.Request

/-!
# Symbols are told apart

Handles are never issued twice.  Whatever is asked of a registry, a symbol stays
what it was declared as, and a request for a new symbol is answered with a
handle that no symbol had before.  Only a literal that is interned already is
answered with the handle that it has.

So two answers are one symbol exactly when both are for one literal.  The keys of
productions are then as good as the productions themselves: a nonterminal has
productions unless it declares a constituent sequence twice, and each key leads
to the rule of its own sequence.
-/

namespace SemanticGrammar

variable {V : Type} {registry earlier later last : Registry V}
  {symbol symbol' : Symbol} {literal : String} {declaration : Declaration V}

theorem Declaration.withoutRules_eq_terminal_iff :
    declaration.withoutRules = .terminal literal ↔
      declaration = .terminal literal := by
  cases declaration <;>
    simp [Declaration.withoutRules, Declaration.withRules]

theorem Declaration.withoutRules_withRules
    {rules : Except Fault (List (Rule V))} :
    (declaration.withRules rules).withoutRules = declaration.withoutRules := by
  cases declaration <;> rfl

theorem Request.declaration?_eq_terminal_iff {request : Request V} :
    request.declaration? = some (.terminal literal) ↔
      request = .terminal literal := by
  cases request <;> simp [Request.declaration?]

namespace Registry

/-! ## Signatures -/

theorem signature?_eq_terminal_iff :
    registry.signature? symbol = some (.terminal literal) ↔
      registry.declaration? symbol = some (.terminal literal) := by
  simp only [signature?, Option.map_eq_some_iff,
    Declaration.withoutRules_eq_terminal_iff, exists_eq_right]

theorem signature?_empty : registry.signature? Symbol.empty = some .empty := by
  rw [signature?, declaration?_eq_empty_iff.mpr rfl]
  rfl

section Declare

variable (registry : Registry V) (declaration : Declaration V)
  (differs : declaration ≠ .empty)

theorem signature?_declare_self :
    (registry.declare declaration differs).2.signature?
        (registry.declare declaration differs).1 =
      some declaration.withoutRules := by
  rw [signature?, declaration?_declare_self]
  rfl

theorem signature?_declare_fst :
    registry.signature? (registry.declare declaration differs).1 = none := by
  rw [signature?, declaration?_declare_fst]
  rfl

theorem signature?_declare_of_ne
    (other : symbol ≠ (registry.declare declaration differs).1) :
    (registry.declare declaration differs).2.signature? symbol =
      registry.signature? symbol := by
  rw [signature?, declaration?_declare_of_ne _ _ _ other, signature?]

end Declare

/-! ## Interned literals -/

/-- Whether each literal has one handle at most, and all literals with a handle
are well-formed. -/
structure Interned (registry : Registry V) : Prop where
  unbroken : ∀ symbol literal,
    registry.signature? symbol = some (.terminal literal) →
      Text.isUnbroken literal = true
  unique : ∀ symbol symbol' literal,
    registry.signature? symbol = some (.terminal literal) →
      registry.signature? symbol' = some (.terminal literal) →
        symbol = symbol'

theorem interned_initial (ofToken : String → V) :
    (initial ofToken).Interned := by
  have onlyEmpty : ∀ symbol literal,
      (initial ofToken).signature? symbol ≠ some (.terminal literal) := by
    intro symbol literal
    rw [Ne, signature?_eq_terminal_iff, initial, declaration?,
      Array.getElem?_singleton]
    split <;> simp
  exact ⟨fun symbol literal found => absurd found (onlyEmpty symbol literal),
    fun symbol _ literal found => absurd found (onlyEmpty symbol literal)⟩

theorem signature?_of_terminal? (found : registry.terminal? literal = some symbol) :
    registry.signature? symbol = some (.terminal literal) := by
  rw [signature?_eq_terminal_iff]
  obtain ⟨id, isThere, rfl⟩ := Option.map_eq_some_iff.mp found
  obtain ⟨inside, matched, -⟩ := Array.findIdx?_eq_some_iff_getElem.mp isThere
  rw [declaration?, Array.getElem?_eq_getElem inside]
  split at matched
  · rename_i known isTerminal
    rw [isTerminal, beq_iff_eq.mp matched]
  · cases matched

theorem signature?_ne_of_terminal?_eq_none
    (isNew : registry.terminal? literal = none) (symbol : Symbol) :
    registry.signature? symbol ≠ some (.terminal literal) := by
  rw [Ne, signature?_eq_terminal_iff]
  intro declared
  have absent := Array.findIdx?_eq_none_iff.mp (Option.map_eq_none_iff.mp isNew)
    _ (Array.mem_of_getElem? declared)
  simp at absent

theorem Interned.terminal_cases (interned : registry.Interned)
    (literal : String) :
    (Text.isUnbroken literal = false ∧
        registry.terminal literal = .error (.malformedTerminal literal)) ∨
      (Text.isUnbroken literal = true ∧
        ∃ symbol later, registry.terminal literal = .ok (symbol, later)) := by
  unfold terminal
  split
  · rename_i known found
    exact Or.inr ⟨interned.unbroken known literal (signature?_of_terminal? found),
      known, registry, rfl⟩
  · split
    · rename_i unbroken
      exact Or.inr ⟨unbroken, _, _, rfl⟩
    · rename_i broken
      exact Or.inl ⟨Bool.eq_false_iff.mpr broken, rfl⟩

/-! ## What requests leave as it is -/

/-- Whether a registry develops from another one: symbols stay what they were
declared as, and literals stay interned. -/
structure Develops (earlier later : Registry V) : Prop where
  keeps : ∀ symbol signature, earlier.signature? symbol = some signature →
    later.signature? symbol = some signature
  interned : earlier.Interned → later.Interned

namespace Develops

theorem refl (registry : Registry V) : registry.Develops registry :=
  ⟨fun _ _ => id, id⟩

theorem trans (first : earlier.Develops later) (second : later.Develops last) :
    earlier.Develops last :=
  ⟨fun symbol signature found =>
      second.keeps symbol signature (first.keeps symbol signature found),
    fun interned => second.interned (first.interned interned)⟩

theorem of_signature?_eq
    (same : ∀ symbol, later.signature? symbol = earlier.signature? symbol) :
    earlier.Develops later := by
  refine ⟨fun symbol _ found => (same symbol).trans found,
    fun interned => ⟨?_, ?_⟩⟩
  · simpa only [same] using interned.unbroken
  · simpa only [same] using interned.unique

theorem declare (declaration : Declaration V) (differs : declaration ≠ .empty)
    (isNew : ∀ literal, declaration = .terminal literal →
      Text.isUnbroken literal = true ∧ registry.terminal? literal = none) :
    registry.Develops (registry.declare declaration differs).2 := by
  have keeps : ∀ symbol signature,
      registry.signature? symbol = some signature →
        (registry.declare declaration differs).2.signature? symbol =
          some signature := by
    intro symbol signature found
    rw [signature?_declare_of_ne, found]
    rintro rfl
    rw [signature?_declare_fst] at found
    cases found
  have declared : ∀ symbol literal,
      (registry.declare declaration differs).2.signature? symbol =
          some (.terminal literal) →
        symbol = (registry.declare declaration differs).1 ∧
            declaration = .terminal literal ∨
          registry.signature? symbol = some (.terminal literal) := by
    intro symbol literal found
    by_cases same : symbol = (registry.declare declaration differs).1
    · rw [same, signature?_declare_self, Option.some.injEq,
        Declaration.withoutRules_eq_terminal_iff] at found
      exact Or.inl ⟨same, found⟩
    · rw [signature?_declare_of_ne _ _ _ same] at found
      exact Or.inr found
  refine ⟨keeps, fun interned => ⟨?_, ?_⟩⟩
  · intro symbol literal found
    rcases declared symbol literal found with ⟨-, isTerminal⟩ | before
    · exact (isNew literal isTerminal).1
    · exact interned.unbroken symbol literal before
  · intro symbol symbol' literal found found'
    rcases declared symbol literal found with ⟨same, isTerminal⟩ | before <;>
      rcases declared symbol' literal found' with ⟨same', isTerminal'⟩ | before'
    · rw [same, same']
    · exact absurd before' (signature?_ne_of_terminal?_eq_none
        (isNew literal isTerminal).2 symbol')
    · exact absurd before (signature?_ne_of_terminal?_eq_none
        (isNew literal isTerminal').2 symbol)
    · exact interned.unique symbol symbol' literal before before'

theorem category (name : String) (member : String → Except Fault Bool) :
    registry.Develops (registry.category name member).2 :=
  declare (.category name member) (by simp) (by simp)

theorem nonterminal (name : String) (tokens : List String) :
    registry.Develops (registry.nonterminal name tokens).2 :=
  declare (.nonterminal name tokens (.ok [])) (by simp) (by simp)

theorem terminal (answered : registry.terminal literal = .ok (symbol, later)) :
    registry.Develops later := by
  unfold Registry.terminal at answered
  split at answered
  · cases answered
    exact refl registry
  · rename_i isNew
    split at answered
    · rename_i unbroken
      cases answered
      refine declare (.terminal literal) (by simp) fun other same => ?_
      cases same
      exact ⟨unbroken, isNew⟩
    · cases answered

theorem resolve {constituent : Constituent}
    (answered : registry.resolve constituent = .ok (symbol, later)) :
    registry.Develops later := by
  cases constituent with
  | symbol other =>
      cases answered
      exact refl registry
  | literal text => exact terminal answered

theorem resolveAll (registry : Registry V) (constituents : List Constituent) :
    registry.Develops (registry.resolveAll constituents).2 := by
  induction constituents generalizing registry with
  | nil => exact refl registry
  | cons constituent rest ih =>
      rw [Registry.resolveAll]
      split
      · exact refl registry
      · rename_i symbol later answered
        exact (resolve answered).trans (ih later)

theorem resolveRules (registry : Registry V) (drafts : List (RuleDraft V)) :
    registry.Develops (registry.resolveRules drafts).2 := by
  induction drafts generalizing registry with
  | nil => exact refl registry
  | cons draft rest ih =>
      have resolved := resolveAll registry draft.constituents
      rw [Registry.resolveRules]
      split
      · rename_i cause later answered
        rwa [answered] at resolved
      · rename_i symbols later answered
        rw [answered] at resolved
        exact resolved.trans (ih later)

theorem define (registry : Registry V) (head : Symbol)
    (drafts : List (RuleDraft V)) :
    registry.Develops (registry.define head drafts) := by
  refine (resolveRules registry drafts).trans ?_
  apply of_signature?_eq
  intro symbol
  simp only [Registry.define, signature?, declaration?, Array.getElem?_modify]
  split
  · rw [Option.map_map]
    congr 1
    funext declaration
    exact Declaration.withoutRules_withRules
  · rfl

theorem serve (registry : Registry V) (request : Request V) :
    registry.Develops (registry.serve request).2 := by
  cases request with
  | terminal literal =>
      rw [Registry.serve]
      split
      · exact refl registry
      · rename_i answered
        exact terminal answered
  | category name member => exact category name member
  | nonterminal name tokens => exact nonterminal name tokens
  | rules head drafts => exact define registry head drafts

theorem serveAll (registry : Registry V) (requests : List (Request V)) :
    registry.Develops (registry.serveAll requests).2 := by
  induction requests generalizing registry with
  | nil => exact refl registry
  | cons request requests ih => exact (serve registry request).trans (ih _)

end Develops

/-! ## Answers -/

/-- The symbol of an answer was declared as what is asked for. -/
theorem exists_signature?_of_serve {request : Request V}
    (answered : (registry.serve request).1 = .ok (some symbol)) :
    ∃ signature, request.declaration? = some signature ∧
      (registry.serve request).2.signature? symbol = some signature := by
  cases request with
  | terminal literal =>
      refine ⟨_, rfl, ?_⟩
      simp only [serve, terminal] at answered ⊢
      cases found : registry.terminal? literal with
      | some known =>
          simp only [found, Except.ok.injEq, Option.some.injEq] at answered ⊢
          exact answered ▸ signature?_of_terminal? found
      | none =>
          simp only [found] at answered ⊢
          by_cases unbroken : Text.isUnbroken literal = true
          · simp only [unbroken, if_true, Except.ok.injEq,
              Option.some.injEq] at answered ⊢
            exact answered ▸
              signature?_declare_self registry (.terminal literal) (by simp)
          · simp [unbroken] at answered
  | category name member =>
      cases answered
      exact ⟨_, rfl,
        signature?_declare_self registry (.category name member) (by simp)⟩
  | nonterminal name tokens =>
      cases answered
      exact ⟨_, rfl,
        signature?_declare_self registry (.nonterminal name tokens (.ok []))
          (by simp)⟩
  | rules head drafts => cases answered

/-- A new symbol is asked for unless a literal is. -/
theorem signature?_eq_none_of_serve {request : Request V}
    (answered : (registry.serve request).1 = .ok (some symbol))
    (noLiteral : ∀ literal, request ≠ .terminal literal) :
    registry.signature? symbol = none := by
  cases request with
  | terminal literal => exact absurd rfl (noLiteral literal)
  | category name member =>
      cases answered
      exact signature?_declare_fst registry (.category name member) (by simp)
  | nonterminal name tokens =>
      cases answered
      exact signature?_declare_fst registry (.nonterminal name tokens (.ok []))
        (by simp)
  | rules head drafts => cases answered

theorem Interned.serve_terminal_eq_error_iff (interned : registry.Interned) :
    registry.serve (.terminal literal) =
        (.error (.malformedTerminal literal), registry) ↔
      Text.isUnbroken literal = false := by
  rcases interned.terminal_cases literal with
    ⟨broken, refused⟩ | ⟨unbroken, symbol, later, answered⟩
  · simp [serve, refused, broken]
  · simp [serve, answered, unbroken]

theorem Interned.exists_serve_terminal_iff (interned : registry.Interned) :
    (∃ symbol, (registry.serve (.terminal literal)).1 = .ok (some symbol)) ↔
      Text.isUnbroken literal = true := by
  rcases interned.terminal_cases literal with
    ⟨broken, refused⟩ | ⟨unbroken, symbol, later, answered⟩
  · simp [serve, refused, broken]
  · simp [serve, answered, unbroken]

/-- A symbol that was there before is the answer exactly when it is the one of
the literal that is asked for. -/
theorem Interned.eq_answer_iff (interned : registry.Interned)
    (declared : registry.signature? symbol = some declaration)
    {request : Request V}
    (answered : (registry.serve request).1 = .ok (some symbol')) :
    symbol = symbol' ↔
      ∃ literal, declaration = .terminal literal ∧
        request = .terminal literal := by
  have develops := Develops.serve registry request
  have kept := develops.keeps symbol declaration declared
  obtain ⟨signature, asked, own⟩ := exists_signature?_of_serve answered
  by_cases forLiteral : ∃ literal, request = .terminal literal
  · obtain ⟨literal, rfl⟩ := forLiteral
    cases asked
    simp only [Request.terminal.injEq, exists_eq_right']
    constructor
    · rintro rfl
      exact Option.some.inj (kept.symm.trans own)
    · rintro rfl
      exact (develops.interned interned).unique _ _ _ kept own
  · have isNew := signature?_eq_none_of_serve answered
      fun literal same => forLiteral ⟨literal, same⟩
    refine iff_of_false ?_ fun ⟨literal, _, same⟩ => forLiteral ⟨literal, same⟩
    rintro rfl
    rw [isNew] at declared
    cases declared

/-! ## The answers to several requests -/

section Course

variable {requests : List (Request V)} {i j : Nat}

theorem exists_request_of_answer
    (answered : (registry.serveAll requests).1[i]? = some (.ok (some symbol))) :
    ∃ request signature, requests[i]? = some request ∧
      request.declaration? = some signature ∧
      (registry.serveAll requests).2.signature? symbol = some signature := by
  induction requests generalizing registry i with
  | nil => simp [serveAll] at answered
  | cons request requests ih =>
      cases i with
      | zero =>
          obtain ⟨signature, asked, own⟩ :=
            exists_signature?_of_serve (Option.some.inj answered)
          exact ⟨request, signature, rfl, asked,
            (Develops.serveAll _ requests).keeps symbol signature own⟩
      | succ i => exact ih answered

theorem Interned.eq_answer_iff_of_serveAll (interned : registry.Interned)
    (declared : registry.signature? symbol = some declaration)
    (answered : (registry.serveAll requests).1[i]? = some (.ok (some symbol'))) :
    symbol = symbol' ↔
      ∃ literal, declaration = .terminal literal ∧
        requests[i]? = some (.terminal literal) := by
  induction requests generalizing registry i with
  | nil => simp [serveAll] at answered
  | cons request requests ih =>
      cases i with
      | zero =>
          simpa using interned.eq_answer_iff declared (Option.some.inj answered)
      | succ i =>
          have develops := Develops.serve registry request
          exact ih (develops.interned interned)
            (develops.keeps symbol declaration declared) answered

/-- An answer is an earlier one again exactly when both are for one literal. -/
theorem Interned.answers_eq_iff_of_lt (interned : registry.Interned)
    (before : i < j)
    (first : (registry.serveAll requests).1[i]? = some (.ok (some symbol)))
    (second : (registry.serveAll requests).1[j]? = some (.ok (some symbol'))) :
    symbol = symbol' ↔
      ∃ literal, requests[i]? = some (.terminal literal) ∧
        requests[j]? = some (.terminal literal) := by
  induction requests generalizing registry i j with
  | nil => simp [serveAll] at first
  | cons request requests ih =>
      have develops := Develops.serve registry request
      obtain ⟨j, rfl⟩ := Nat.exists_eq_succ_of_ne_zero (Nat.ne_zero_of_lt before)
      cases i with
      | zero =>
          obtain ⟨signature, asked, own⟩ :=
            exists_signature?_of_serve (Option.some.inj first)
          rw [(develops.interned interned).eq_answer_iff_of_serveAll own second]
          simp only [List.getElem?_cons_zero, List.getElem?_cons_succ,
            Option.some.injEq, ← Request.declaration?_eq_terminal_iff, asked]
      | succ i =>
          exact ih (develops.interned interned) (Nat.lt_of_succ_lt_succ before)
            first second

end Course

/-- Whatever was asked for, an answer is a symbol that is not the empty one and
stays what it was declared as, and two answers are one symbol only for one
literal.  A literal is refused exactly when it is empty or holds a blank, and
then nothing changes.  Keys tell productions apart.  So a symbol with rules has
productions unless it declares a constituent sequence twice, and a key then leads
to the rule of its own production alone. -/
theorem symbols_and_keys_are_told_apart (ofToken : String → V)
    (requests : List (Request V)) :
    let answers := ((initial ofToken).serveAll requests).1
    let registry := ((initial ofToken).serveAll requests).2
    (∀ (i : Nat) (symbol : Symbol), answers[i]? = some (.ok (some symbol)) →
        symbol.id ≠ Symbol.empty.id ∧
          ∃ request signature, requests[i]? = some request ∧
            request.declaration? = some signature ∧
            registry.signature? symbol = some signature) ∧
      (∀ (i j : Nat) (symbol symbol' : Symbol),
        answers[i]? = some (.ok (some symbol)) →
        answers[j]? = some (.ok (some symbol')) →
          (symbol.id = symbol'.id ↔ i = j ∨
            ∃ literal, requests[i]? = some (.terminal literal) ∧
              requests[j]? = some (.terminal literal))) ∧
      (∀ symbol symbol' literal,
        registry.signature? symbol = some (.terminal literal) →
        registry.signature? symbol' = some (.terminal literal) →
          symbol.id = symbol'.id) ∧
      (∀ literal,
        ((∃ symbol,
            (registry.serve (.terminal literal)).1 = .ok (some symbol)) ↔
          literal ≠ "" ∧
            ∀ character ∈ literal.toList, Text.isBlank character = false) ∧
        (registry.serve (.terminal literal) =
            (.error (.malformedTerminal literal), registry) ↔
          literal = "" ∨
            ∃ character ∈ literal.toList, Text.isBlank character = true)) ∧
      (∀ head head' constituents constituents',
        Production.key ⟨head, constituents⟩ =
            Production.key ⟨head', constituents'⟩ ↔
          head = head' ∧ constituents = constituents') ∧
      ∀ head rules, registry.rules head = .ok rules →
        ((∃ fault, registry.derivedRules head = .error fault) ↔
          ¬(rules.map Rule.constituents).Nodup) ∧
        (∀ fault, registry.derivedRules head = .error fault →
          ∃ rule ∈ rules,
            fault = .configuration (registry.duplicate head rule)) ∧
        ((rules.map Rule.constituents).Nodup → ∀ production : Production,
          (∃ found, registry.ruleTable.rule? head production.key = .ok found) ∧
            ∀ rule, registry.ruleTable.rule? head production.key =
                .ok (some rule) ↔
              rule ∈ rules ∧ production = ⟨head, rule.constituents⟩) := by
  intro answers registry
  have sameId : ∀ symbol symbol' : Symbol,
      symbol.id = symbol'.id ↔ symbol = symbol' := by
    rintro ⟨id⟩ ⟨id'⟩
    simp
  have interned := interned_initial ofToken
  have internedLater : registry.Interned :=
    (Develops.serveAll _ requests).interned interned
  simp only [sameId]
  refine ⟨?_, ?_, internedLater.unique, ?_, ?_, ?_⟩
  · intro i symbol answered
    obtain ⟨request, signature, requested, asked, declared⟩ :=
      exists_request_of_answer answered
    refine ⟨fun isEmpty => ?_, request, signature, requested, asked, declared⟩
    obtain rfl := (sameId _ _).mp isEmpty
    obtain rfl := Option.some.inj (signature?_empty.symm.trans declared)
    cases request <;> cases asked
  · intro i j symbol symbol' first second
    rcases Nat.lt_trichotomy i j with before | rfl | after
    · rw [interned.answers_eq_iff_of_lt before first second]
      simp [Nat.ne_of_lt before]
    · simpa using (first.symm.trans second)
    · rw [eq_comm, interned.answers_eq_iff_of_lt after second first]
      simp [Nat.ne_of_gt after, and_comm]
  · intro literal
    rw [← Text.isUnbroken_iff, ← Text.isUnbroken_eq_false_iff]
    exact ⟨internedLater.exists_serve_terminal_iff,
      internedLater.serve_terminal_eq_error_iff⟩
  · intro head head' constituents constituents'
    constructor
    · intro same
      exact Production.mk.inj (Production.key_injective same)
    · rintro ⟨rfl, rfl⟩
      rfl
  · intro head rules declared
    refine ⟨exists_derivedRules_error_iff declared,
      fun fault => exists_duplicate_of_derivedRules declared,
      fun distinct production => ⟨⟨_, rule?_ruleTable declared distinct _⟩,
        fun rule => rule?_ruleTable_eq_some_iff declared distinct⟩⟩

/-- Requests for sums, two of which are refused.  The second nonterminal declares
one sequence twice, by its literal and by its handle. -/
def sums : List (Request String) :=
  [.terminal "+", .category "Word" fun _ => .ok true, .terminal "+",
    .terminal "a b", .nonterminal "Sum" [], .terminal "", .nonterminal "Sum" [],
    .rules ⟨3⟩ [⟨[.symbol ⟨3⟩, .literal "+", .symbol ⟨2⟩], join⟩,
      ⟨[.symbol ⟨2⟩], join⟩],
    .rules ⟨4⟩ [⟨[.literal "+"], join⟩, ⟨[.symbol ⟨1⟩], join⟩]]
where
  join (values : List String) : Except Fault (Option String) :=
    .ok (some (" ".intercalate values))

/-- The literal is asked for twice and is one symbol, the two nonterminals of one
name are different symbols, and only the first of them has productions. -/
theorem symbols_and_keys_are_told_apart_sums :
    let answers := ((initial id).serveAll sums).1
    let registry := ((initial id).serveAll sums).2
    let rule : Rule String := ⟨[⟨3⟩, ⟨1⟩, ⟨2⟩], sums.join⟩
    answers[0]? = some (.ok (some ⟨1⟩)) ∧
      answers[2]? = some (.ok (some ⟨1⟩)) ∧
      (∃ literal, sums[0]? = some (.terminal literal) ∧
        sums[2]? = some (.terminal literal)) ∧
      answers[4]? = some (.ok (some ⟨3⟩)) ∧
      answers[6]? = some (.ok (some ⟨4⟩)) ∧
      registry.serve (.terminal "a b") =
        (.error (.malformedTerminal "a b"), registry) ∧
      registry.rules ⟨3⟩ = .ok [rule, ⟨[⟨2⟩], sums.join⟩] ∧
      registry.ruleTable.rule? ⟨3⟩ (Production.key ⟨⟨3⟩, [⟨3⟩, ⟨1⟩, ⟨2⟩]⟩) =
        .ok (some rule) ∧
      ∃ fault, registry.derivedRules ⟨4⟩ = .error fault := by
  intro answers registry rule
  obtain ⟨-, same, -, refused, -, derived⟩ :=
    symbols_and_keys_are_told_apart id sums
  have first : answers[0]? = some (.ok (some ⟨1⟩)) := by decide +kernel
  have second : answers[2]? = some (.ok (some ⟨1⟩)) := by decide +kernel
  have rules : registry.rules ⟨3⟩ = .ok [rule, ⟨[⟨2⟩], sums.join⟩] := by
    with_unfolding_all rfl
  have twice : registry.rules ⟨4⟩ =
      .ok [⟨[⟨1⟩], sums.join⟩, ⟨[⟨1⟩], sums.join⟩] := by
    with_unfolding_all rfl
  refine ⟨first, second, ?_, by decide +kernel, by decide +kernel,
    (refused "a b").2.mpr (Or.inr ⟨' ', by decide, by decide⟩), rules, ?_,
    (derived ⟨4⟩ _ twice).1.mpr (by decide)⟩
  · exact ((same 0 2 ⟨1⟩ ⟨1⟩ first second).mp rfl).resolve_left (by decide)
  · exact (((derived ⟨3⟩ _ rules).2.2 (by decide) _).2 rule).mpr
      ⟨List.mem_cons_self, rfl⟩

end Registry

end SemanticGrammar
