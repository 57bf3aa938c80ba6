import SemanticGrammar.Proofs.Equation.RoundTrip

/-!
# Tokens of the lexical categories

What a lexical category of equations accepts has no blanks, so the tokenizer
reads it as one token unless it holds a character of a symbol.  Names never do.
A quoted value may, and then it is cut at that character and is a token of no
text at all.

A token that is not cut can be written: it stands in the text of an equation
that is parsed back.
-/

namespace SemanticGrammar

namespace EquationGrammar

inductive Category where
  | localName
  | attributeName
  | quotedValue
  deriving DecidableEq, Repr

namespace Category

def symbol : Category → Symbol
  | localName => variableCategory
  | attributeName => featureCategory
  | quotedValue => valueCategory

def accepts : Category → String → Bool
  | localName => Lexicon.isVariable
  | attributeName => Lexicon.isFeature
  | quotedValue => Lexicon.isValue

theorem role_symbol (category : Category) :
    (registry Value.carrier).role category.symbol =
      .lexical fun token => .ok (category.accepts token) := by
  cases category <;> rfl

/-- An expression in which a token of a category is written. -/
def expression : Category → String → Expression RelativeIdentifier
  | localName, token => .identifier (.named token)
  | attributeName, token => .application (.identifier .up) token
  | quotedValue, token => .value (Lexicon.valueText token)

/-- The equation that says that such an expression exists. -/
def equation (category : Category) (token : String) :
    Equation RelativeIdentifier :=
  .constraint ⟨true, .existence (category.expression token)⟩

end Category

/-- Whether no character of a token is one of a symbol. -/
def IsUncut (token : String) : Prop :=
  ∀ character ∈ token.toList, isSymbolCharacter character = false

instance : DecidablePred IsUncut := fun _ => List.decidableBAll _ _

variable {category : Category} {token : String}

theorem isUncut_of_isInner
    (inner : ∀ character ∈ token.toList, isInner character = true) :
    IsUncut token :=
  fun character member => (isInner_iff.mp (inner character member)).2

theorem isValueText_of_isUncut {text : String}
    (isValue : Lexicon.isValue (Expression.quoted text) = true)
    (isUncut : IsUncut (Expression.quoted text)) :
    Expression.IsValueText text :=
  isValueText_of_isValue isValue fun character member =>
    isUncut character (by simp [member])

/-- Names are words, and a quoted value is one unless it is cut. -/
theorem isWord_iff_isUncut (accepted : category.accepts token = true) :
    IsWord token ↔ IsUncut token := by
  refine ⟨fun isWord => isUncut_of_isInner isWord.2, fun isUncut => ?_⟩
  cases category with
  | localName => exact isWord_of_isVariable accepted
  | attributeName => exact isWord_of_isFeature accepted
  | quotedValue =>
      obtain ⟨text, rfl⟩ : ∃ text, Expression.quoted text = token :=
        ⟨_, Expression.quoted_valueText accepted⟩
      exact isWord_quoted (isValueText_of_isUncut accepted isUncut)

theorem not_accepts_of_mem_literals {literal : String}
    (isLiteral : literal ∈ tokenizer.literals) (category : Category) :
    category.accepts literal = false := by
  cases category <;> revert literal <;> decide

theorem isUncut_of_mem_tokenize (accepted : category.accepts token = true)
    {text : String} (isRead : token ∈ tokenizer.tokenize text) :
    IsUncut token := by
  have notLiteral : token ∉ tokenizer.literals := by
    intro isLiteral
    rw [not_accepts_of_mem_literals isLiteral] at accepted
    cases accepted
  exact isUncut_of_isInner (isInner_of_mem_tokenize isRead notLiteral)

/-- A token of a category is read as itself exactly when it is not cut. -/
theorem tokenize_eq_singleton_iff (accepted : category.accepts token = true) :
    tokenizer.tokenize token = [token] ↔ IsUncut token := by
  constructor
  · intro single
    exact isUncut_of_mem_tokenize accepted
      (by rw [single]; exact List.mem_singleton_self token)
  · intro isUncut
    have isWord := (isWord_iff_isUncut accepted).mpr isUncut
    have isRead : tokenizer.tokenize (" ".intercalate [token]) = [token] :=
      tokenize_intercalate (by simpa using isWord)
    rwa [String.intercalate_singleton] at isRead

namespace Category

theorem wellFormed_equation (accepted : category.accepts token = true)
    (isUncut : IsUncut token) : (category.equation token).WellFormed := by
  have wellFormed : (category.expression token).WellFormed := by
    cases category with
    | localName => exact accepted
    | attributeName => exact ⟨trivial, accepted⟩
    | quotedValue =>
        rw [← Expression.quoted_valueText accepted] at isUncut
        refine isValueText_of_isUncut ?_ isUncut
        rw [Expression.quoted_valueText accepted]
        exact accepted
  intro expression member
  obtain rfl := List.mem_singleton.mp member
  exact wellFormed

theorem mem_tokens_equation (accepted : category.accepts token = true) :
    token ∈ (phraseOf (category.equation token)).tokens := by
  change token ∈ (category.expression token).tokens
  cases category with
  | localName => exact List.mem_singleton_self token
  | attributeName => simp [expression, Expression.tokens]
  | quotedValue =>
      rw [expression, Expression.tokens, Expression.quoted_valueText accepted]
      exact List.mem_singleton_self token

end Category

/-- After any calls, names are read as themselves, and so are the quoted values
that hold no character of a symbol.  They stand in written equations that are
parsed back, whatever the parsable was used for before.  Any other quoted value
is read in no text. -/
theorem categories_agree_unless_cut (maxTrees : Option Int)
    (calls : List Call) :
    let session :=
      (Session.ofRegistry (registry Value.carrier)).afterCalls calls
    ∃ derivation tokenizer parsable,
      (session.derivation (equationSymbol .disjunction)).1 =
          .ok derivation ∧
        derivation.tokenizer = .ok tokenizer ∧
        (session.parsable (equationSymbol .disjunction)
          { maxTrees := maxTrees }).1 = .ok parsable ∧
        ∀ category : Category,
          derivation.registry.role category.symbol =
              .lexical (fun token => .ok (category.accepts token)) ∧
            ∀ token, category.accepts token = true →
              (category ≠ .quotedValue → IsUncut token) ∧
                (tokenizer.tokenize token = [token] ↔ IsUncut token) ∧
                (IsUncut token →
                  token ∈ tokenizer.tokenize
                      (category.equation token).render ∧
                    ∃ tree, ∀ uses, ((parsable.afterUses uses).parse
                        (category.equation token).render).result =
                      .ok (.ok (.equation (category.equation token)) []
                        [tree])) ∧
                (¬IsUncut token →
                  ∀ text, token ∉ tokenizer.tokenize text) := by
  intro session
  obtain ⟨parsable, made, alike⟩ :=
    exists_parsable_afterCalls .disjunction maxTrees calls
  have exact := Session.exact_afterCalls (registry Value.carrier) calls
  obtain ⟨closure, -, derived, -⟩ := exact.exists_closure_of_parsable made
  have sameRegistry : parsable.derivation.registry = registry Value.carrier :=
    congrArg Derivation.registry derived
  have tokens : ∀ text,
      parsable.tokenizer.tokenize text = tokenizer.tokenize text :=
    fun text => (alike.tokenize_eq text).symm
  refine ⟨parsable.derivation, parsable.tokenizer, parsable,
    exact.result_derivation_of_parsable made, parsable.derives_tokenizer, made,
    fun category => ⟨?_, fun token accepted => ?_⟩⟩
  · rw [sameRegistry]
    exact category.role_symbol
  · simp only [tokens]
    refine ⟨fun isName => ?_, tokenize_eq_singleton_iff accepted,
      fun isUncut => ?_, fun isCut text isRead => ?_⟩
    · cases category with
      | localName => exact isUncut_of_isInner (isWord_of_isVariable accepted).2
      | attributeName =>
          exact isUncut_of_isInner (isWord_of_isFeature accepted).2
      | quotedValue => exact (isName rfl).elim
    · have wellFormed := category.wellFormed_equation accepted isUncut
      refine ⟨?_, _, (finds_render alike wellFormed).parse_eq⟩
      rw [tokenize_render wellFormed]
      exact category.mem_tokens_equation accepted
    · exact isCut (isUncut_of_mem_tokenize accepted isRead)

/-- A name, an attribute and a value that are read as themselves, and a value
that is read nowhere. -/
theorem categories_agree_unless_cut_dog :
    ∃ (tokenizer : Tokenizer) (fresh : Parsable Value) (tree : Tree),
      parsable .disjunction none = .ok fresh ∧
      tokenizer.tokenize "%INc" = ["%INc"] ∧
      tokenizer.tokenize "ORDER" = ["ORDER"] ∧
      tokenizer.tokenize "'dog'" = ["'dog'"] ∧
      (fresh.parse "'dog'").result =
        .ok (.ok (.equation (.constraint ⟨true, .existence (.value "dog")⟩)) []
          [tree]) ∧
      ∀ text, "'a=b'" ∉ tokenizer.tokenize text := by
  obtain ⟨_, tokenizer, fresh, -, -, made, agree⟩ :=
    categories_agree_unless_cut none closureCalls
  obtain ⟨isUncut, name, -⟩ := (agree .localName).2 "%INc" (by decide)
  obtain ⟨isUncut', feature, -⟩ := (agree .attributeName).2 "ORDER" (by decide)
  obtain ⟨-, value, written, -⟩ := (agree .quotedValue).2 "'dog'" (by decide)
  obtain ⟨-, -, -, nowhere⟩ := (agree .quotedValue).2 "'a=b'" (by decide)
  obtain ⟨-, tree, parsed⟩ := written (by decide)
  exact ⟨tokenizer, fresh, tree, (parsable_eq_afterCalls _ _).trans made,
    name.mpr (isUncut (by decide)), feature.mpr (isUncut' (by decide)),
    value.mpr (by decide), parsed [], nowhere (by decide)⟩

/-- A quoted value with an equals sign is accepted but cut, and the written
equation in which it stands has no parse. -/
theorem quoted_value_is_cut :
    ∃ derivation tokenizer fresh member,
      ((workspace Value.carrier).derivation
          (equationSymbol .disjunction)).1 = .ok derivation ∧
        derivation.tokenizer = .ok tokenizer ∧
        parsable .disjunction none = .ok fresh ∧
        derivation.registry.role valueCategory = .lexical member ∧
        member "'a=b'" = .ok true ∧
        tokenizer.tokenize "'a=b'" = ["'a", "=", "b'"] ∧
        (Category.quotedValue.equation "'a=b'").render = "'a=b'" ∧
        (fresh.parse "'a=b'").result =
          .ok (.noParse ["'a", "=", "b'"]) := by
  obtain ⟨phrases, -, listed⟩ :=
    exists_spellings_listed .disjunction none ["'a", "=", "b'"]
  have count : (Chart.parser (grammar .disjunction) none
      ["'a", "=", "b'"]).map List.length = .ok 0 := by
    decide +kernel
  rw [listed] at count
  have noTree := List.eq_nil_of_length_eq_zero (Except.ok.inj count)
  rw [noTree] at listed
  refine ⟨_, _, _, _, derivation_workspace .disjunction,
    tokenizer_derivation .disjunction, parsable_eq_ok .disjunction none, rfl,
    by decide, by decide, by decide, ?_⟩
  rw [(usesChart_freshParsable .disjunction none).result_parse]
  exact Parsable.outcomeOf_eq_ok listed (Reader.readings_eq_ok (by simp) .nil)

end EquationGrammar

end SemanticGrammar
