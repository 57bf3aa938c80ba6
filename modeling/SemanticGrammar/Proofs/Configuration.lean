import SemanticGrammar.Proofs.DeclaredProductions
import SemanticGrammar.Proofs.History
import SemanticGrammar.Proofs.Tokenizer.Concatenation

/-!
# Grammars that can be used

A grammar can be used when all symbols that its root involves are well
declared, and when the tokens that they own are unbroken and none of them is a
concatenation of others.  A parsable is made for just these grammars.
-/

namespace SemanticGrammar

namespace Registry

variable {V : Type}

/-- Whether a token is owned by some symbol that a root involves. -/
def Owns (registry : Registry V) (root : Symbol) (token : String) : Prop :=
  ∃ symbol, registry.Involves root symbol ∧ token ∈ registry.tokens symbol

/-- Whether the grammar of a root can be used. -/
structure Configured (registry : Registry V) (root : Symbol) : Prop where
  wellDeclared : ∀ symbol, registry.Involves root symbol →
    registry.WellDeclared symbol
  unbroken : ∀ token, registry.Owns root token → Text.isUnbroken token = true
  unambiguous : ∀ token, registry.Owns root token →
    ¬∃ parts : List String, 2 ≤ parts.length ∧
      (∀ part ∈ parts, registry.Owns root part ∧ part ≠ token) ∧
      String.join parts = token

variable {registry : Registry V} {root : Symbol}

theorem not_configured_iff :
    ¬registry.Configured root ↔
      (∃ symbol, registry.Involves root symbol ∧
        ∃ fault, registry.rules symbol = .error fault) ∨
      (∃ symbol rules, registry.Involves root symbol ∧
        registry.rules symbol = .ok rules ∧
        ¬(rules.map Rule.constituents).Nodup) ∨
      (∃ token, registry.Owns root token ∧ (token = "" ∨
        ∃ character ∈ token.toList, Text.isBlank character = true)) ∨
      ∃ token parts, registry.Owns root token ∧ 2 ≤ List.length parts ∧
        (∀ part ∈ parts, registry.Owns root part ∧ part ≠ token) ∧
        String.join parts = token := by
  constructor
  · intro unusable
    by_contra nothing
    simp only [not_or, not_exists, not_and] at nothing
    obtain ⟨rulesOk, distinct, unbroken, unambiguous⟩ := nothing
    refine unusable ⟨fun symbol involved => ?_, fun token owned => ?_, ?_⟩
    · cases declared : registry.rules symbol with
      | error fault => exact (rulesOk symbol involved fault declared).elim
      | ok rules =>
          have nodup := not_not.mp (distinct symbol rules involved declared)
          exact ⟨⟨rules, declared⟩, shapes_eq declared ▸ nodup⟩
    · obtain ⟨nonempty, noBlank⟩ := unbroken token owned
      refine Text.isUnbroken_iff.mpr ⟨nonempty, fun character member => ?_⟩
      exact Bool.eq_false_iff.mpr (noBlank character member)
    · rintro token owned ⟨parts, two, members, same⟩
      exact unambiguous token parts owned two members same
  · rintro (⟨symbol, involved, fault, fails⟩ |
      ⟨symbol, rules, involved, declared, repeated⟩ |
      ⟨token, owned, broken⟩ | ⟨token, parts, owned, two, members, same⟩)
      configured
    · obtain ⟨rules, declared⟩ :=
        (configured.wellDeclared symbol involved).rules_ok
      rw [fails] at declared
      cases declared
    · exact repeated ((configured.wellDeclared symbol
        involved).nodup_constituents declared)
    · obtain ⟨nonempty, noBlank⟩ :=
        Text.isUnbroken_iff.mp (configured.unbroken token owned)
      rcases broken with empty | ⟨character, member, blank⟩
      · exact nonempty empty
      · rw [noBlank character member] at blank
        cases blank
    · exact configured.unambiguous token owned ⟨parts, two, members, same⟩

end Registry

namespace Derivation

variable {V : Type} {derivation : Derivation V}

theorem tokenizer_eq_ok_iff {tokenizer : Tokenizer} :
    derivation.tokenizer = .ok tokenizer ↔
      Tokenizer.ofLiterals? derivation.tokens = .ok tokenizer := by
  unfold Derivation.tokenizer
  cases Tokenizer.ofLiterals? derivation.tokens <;> simp [Except.mapError]

theorem mem_tokens_iff
    (exact : derivation.registry.IsClosure derivation.root derivation.closure)
    {token : String} :
    token ∈ derivation.tokens ↔
      derivation.registry.Owns derivation.root token := by
  rw [tokens, mem_firstOccurrences, List.mem_flatMap]
  exact exists_congr fun symbol => and_congr_left fun _ => exact.mem_cons_iff

theorem exists_productions_iff
    (exact : derivation.registry.IsClosure derivation.root derivation.closure) :
    (∃ productions, derivation.productions = .ok productions) ↔
      ∀ symbol, derivation.registry.Involves derivation.root symbol →
        derivation.registry.WellDeclared symbol := by
  simp only [productions_eq_ok_iff, exists_and_left, exists_eq, and_true]
  exact forall_congr' fun symbol => imp_congr_left exact.mem_cons_iff

end Derivation

namespace Parsable

variable {V : Type} {derivation : Derivation V} {options : ParsingOptions}
  {parsable : Parsable V}

theorem eq_of_ofDerivation?_eq_ok
    (made : ofDerivation? derivation options = .ok parsable) :
    parsable.derivation = derivation ∧ parsable.options = options ∧
      parsable.parser? = none := by
  unfold ofDerivation? at made
  split at made
  · cases made
  · split at made
    · cases made
    · obtain rfl := Except.ok.inj made
      exact ⟨rfl, rfl, rfl⟩

theorem exists_ofDerivation?_eq_ok_iff :
    (∃ parsable, ofDerivation? derivation options = .ok parsable) ↔
      (∃ productions, derivation.productions = .ok productions) ∧
        ∃ tokenizer, derivation.tokenizer = .ok tokenizer := by
  constructor
  · rintro ⟨parsable, made⟩
    obtain ⟨rfl, -⟩ := eq_of_ofDerivation?_eq_ok made
    exact ⟨⟨_, parsable.derives_productions⟩, ⟨_, parsable.derives_tokenizer⟩⟩
  · rintro ⟨⟨productions, derivesProductions⟩, tokenizer, derivesTokenizer⟩
    exact ⟨_, ofDerivation?_eq_ok derivesProductions derivesTokenizer options⟩

/-- A parsable is made for an exact derivation when its grammar can be
used. -/
theorem exists_ofDerivation?_eq_ok_iff_configured
    (exact : derivation.registry.IsClosure derivation.root derivation.closure) :
    (∃ parsable, ofDerivation? derivation options = .ok parsable) ↔
      derivation.registry.Configured derivation.root := by
  rw [exists_ofDerivation?_eq_ok_iff, Derivation.exists_productions_iff exact]
  simp only [Derivation.tokenizer_eq_ok_iff, Tokenizer.ofLiterals?_eq_ok_iff,
    Ambiguity.IsConcatenation, Derivation.mem_tokens_iff exact,
    exists_and_left, exists_eq, and_true]
  exact ⟨fun ⟨wellDeclared, unbroken, unambiguous⟩ =>
      ⟨wellDeclared, unbroken, unambiguous⟩,
    fun configured => ⟨configured.wellDeclared, configured.unbroken,
      configured.unambiguous⟩⟩

end Parsable

namespace Session.Exact

variable {V : Type} {registry : Registry V} {session : Session V}

theorem result_parsable_eq_bind (exact : session.Exact registry)
    (root : Symbol) (options : ParsingOptions) :
    (session.parsable root options).1 =
      (session.workspace.closure root).1.bind fun closure =>
        Parsable.ofDerivation? ⟨registry, root, closure⟩ options := by
  rw [exact.result_parsable, Workspace.parsable_eq_bind,
    Workspace.result_derivation, exact.registry_eq]
  cases (session.workspace.closure root).1 <;> rfl

/-- Whatever was called before, a parsable is made when the grammar of the root
can be used. -/
theorem exists_parsable_iff_configured (exact : session.Exact registry)
    (root : Symbol) (options : ParsingOptions) :
    (∃ parsable, (session.parsable root options).1 = .ok parsable) ↔
      registry.Configured root := by
  have closes := exact.closes root
  rw [exact.result_parsable_eq_bind]
  cases found : (session.workspace.closure root).1 with
  | error fault =>
      rw [found] at closes
      obtain ⟨symbol, involved, fails⟩ := closes
      refine iff_of_false (fun ⟨parsable, made⟩ => by cases made) ?_
      intro configured
      obtain ⟨rules, declared⟩ :=
        (configured.wellDeclared symbol involved).rules_ok
      rw [fails] at declared
      cases declared
  | ok closure =>
      rw [found] at closes
      exact Parsable.exists_ofDerivation?_eq_ok_iff_configured closes

/-- A parsable that a session makes is new and has the closure of its root. -/
theorem exists_closure_of_parsable (exact : session.Exact registry)
    {root : Symbol} {options : ParsingOptions} {parsable : Parsable V}
    (made : (session.parsable root options).1 = .ok parsable) :
    ∃ closure, registry.IsClosure root closure ∧
      parsable.derivation = ⟨registry, root, closure⟩ ∧
      parsable.options = options ∧ parsable.parser? = none := by
  have closes := exact.closes root
  rw [exact.result_parsable_eq_bind] at made
  cases found : (session.workspace.closure root).1 with
  | error fault =>
      rw [found] at made
      cases made
  | ok closure =>
      rw [found] at made closes
      exact ⟨closure, closes, Parsable.eq_of_ofDerivation?_eq_ok made⟩

theorem result_derivation_of_parsable (exact : session.Exact registry)
    {root : Symbol} {options : ParsingOptions} {parsable : Parsable V}
    (made : (session.parsable root options).1 = .ok parsable) :
    (session.derivation root).1 = .ok parsable.derivation := by
  rw [exact.result_parsable_eq_bind] at made
  rw [exact.result_derivation]
  cases found : (session.workspace.closure root).1 with
  | error fault =>
      rw [found] at made
      cases made
  | ok closure =>
      rw [found] at made
      rw [(Parsable.eq_of_ofDerivation?_eq_ok made).1]
      rfl

end Session.Exact

end SemanticGrammar
