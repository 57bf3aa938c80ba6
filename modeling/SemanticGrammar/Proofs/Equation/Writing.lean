import SemanticGrammar.Proofs.Equation.Words

/-!
# The tokens of a written equation

An expression is well-formed when its names are names of the grammar and its
values hold neither blanks nor quotes nor characters of symbols.  Then each
name and each value is a single word of the written form, and the tokens of a
written equation are the tokens of its phrase.
-/

namespace SemanticGrammar

/-! ## Well-formed equations -/

namespace Expression

/-- Whether a text can be written as a value. -/
def IsValueText (text : String) : Prop :=
  text ≠ "" ∧ ∀ character ∈ text.toList,
    Text.isBlank character = false ∧ character ≠ Lexicon.valueQuote ∧
      character ∉ ['^', '!', '(', ')', '=']

instance : DecidablePred IsValueText := fun text =>
  haveI : Decidable (∀ character ∈ text.toList,
      Text.isBlank character = false ∧ character ≠ Lexicon.valueQuote ∧
        character ∉ ['^', '!', '(', ')', '=']) :=
    List.decidableBAll _ _
  inferInstanceAs (Decidable (_ ∧ _))

/-- Whether the names of an expression are names of the grammar and its value
can be written. -/
def WellFormed : Expression RelativeIdentifier → Prop
  | identifier (.named name) => Lexicon.isVariable name = true
  | identifier _ => True
  | application target feature =>
      target.WellFormed ∧ Lexicon.isFeature feature = true
  | value text => IsValueText text

instance decidableWellFormed : DecidablePred WellFormed
  | identifier .up => isTrue trivial
  | identifier .down => isTrue trivial
  | identifier (.named name) =>
      inferInstanceAs (Decidable (Lexicon.isVariable name = true))
  | application target _ =>
      haveI := decidableWellFormed target
      inferInstanceAs (Decidable (_ ∧ _))
  | value text => inferInstanceAs (Decidable (IsValueText text))

end Expression

/-- Whether all expressions of an equation are well-formed. -/
def Equation.WellFormed (equation : Equation RelativeIdentifier) : Prop :=
  ∀ expression ∈ equation.expressions, expression.WellFormed

instance : DecidablePred Equation.WellFormed := fun equation =>
  inferInstanceAs (Decidable (∀ expression ∈ equation.expressions, _))

namespace EquationGrammar

/-! ## Names and values are words -/

theorem isWordCharacter_iff {character : Char} :
    Text.isWordCharacter character = true ↔
      character.isUpper = true ∨ character.isLower = true ∨
        character.isDigit = true ∨ character = '_' := by
  have kinds : Text.isWordCharacter character =
      (((character.isUpper || character.isLower) || character.isDigit) ||
        character == '_') :=
    rfl
  rw [kinds]
  simp only [Bool.or_eq_true, beq_iff_eq, or_assoc]

theorem toNat_lt_of_isWordCharacter {character : Char}
    (isWord : Text.isWordCharacter character = true) :
    character.toNat < 128 := by
  rcases isWordCharacter_iff.mp isWord with upper | lower | digit | rfl
  · have bounds : 'A'.val ≤ character.val ∧ character.val ≤ 'Z'.val :=
      of_decide_eq_true upper
    exact Nat.lt_of_le_of_lt bounds.2 (by decide)
  · have bounds := (Bool.and_eq_true _ _).mp lower
    have upperBound : character.val ≤ 'z'.val := of_decide_eq_true bounds.2
    exact Nat.lt_of_le_of_lt upperBound (by decide)
  · have bounds := (Bool.and_eq_true _ _).mp digit
    have upperBound : character.val ≤ '9'.val := of_decide_eq_true bounds.2
    exact Nat.lt_of_le_of_lt upperBound (by decide)
  · decide

theorem isInner_of_isWordCharacter {character : Char}
    (isWord : Text.isWordCharacter character = true) :
    isInner character = true := by
  have ascii : ∀ code < 128,
      Text.isWordCharacter (Char.ofNat code) = true →
        isInner (Char.ofNat code) = true := by
    decide
  have inner := ascii character.toNat (toNat_lt_of_isWordCharacter isWord)
  rw [Char.ofNat_toNat] at inner
  exact inner isWord

def IsWord (text : String) : Prop :=
  text.toList ≠ [] ∧ ∀ character ∈ text.toList, isInner character = true

theorem isWord_of_all {text : String} (nonempty : text.toList ≠ [])
    (inner : text.toList.all isInner = true) : IsWord text :=
  ⟨nonempty, List.all_eq_true.mp inner⟩

theorem tokensAfter_isWord {text : String} (isWord : IsWord text)
    {rest : List Char} (ends : EndsWord rest) :
    tokenizer.tokensAfter 0 (text.toList ++ rest) =
      text :: tokenizer.tokensAfter 0 rest := by
  rw [tokensAfter_word _ isWord.1 isWord.2 ends, String.ofList_toList]

theorem isInner_of_isName {text : List Char} (isName : Lexicon.isName text = true) :
    text ≠ [] ∧ ∀ character ∈ text, isInner character = true := by
  cases text with
  | nil => cases isName
  | cons first rest =>
      simp only [Lexicon.isName, Bool.and_eq_true, List.all_eq_true] at isName
      obtain ⟨isAlpha, areWord⟩ := isName
      refine ⟨List.cons_ne_nil _ _, fun character member => ?_⟩
      apply isInner_of_isWordCharacter
      rcases List.mem_cons.mp member with rfl | later
      · simp [Text.isWordCharacter, Char.isAlphanum, isAlpha]
      · exact areWord character later

theorem isWord_of_isVariable {name : String}
    (isVariable : Lexicon.isVariable name = true) : IsWord name := by
  simp only [Lexicon.isVariable, Bool.and_eq_true] at isVariable
  obtain ⟨isName, -⟩ := isVariable
  unfold Lexicon.withoutPercent at isName
  unfold IsWord
  split at isName
  · rename_i rest characters
    rw [characters]
    refine ⟨List.cons_ne_nil _ _, fun character member => ?_⟩
    rcases List.mem_cons.mp member with rfl | later
    · decide
    · exact (isInner_of_isName isName).2 character later
  · exact isInner_of_isName isName

theorem isWord_of_isFeature {feature : String}
    (isFeature : Lexicon.isFeature feature = true) : IsWord feature := by
  unfold Lexicon.isFeature at isFeature
  unfold IsWord
  split at isFeature
  · cases isFeature
  · rename_i first rest characters
    simp only [Bool.and_eq_true, List.all_eq_true] at isFeature
    obtain ⟨⟨isUpper, areFeature⟩, -⟩ := isFeature
    rw [characters]
    refine ⟨List.cons_ne_nil _ _, fun character member => ?_⟩
    apply isInner_of_isWordCharacter
    rcases List.mem_cons.mp member with rfl | later
    · exact isWordCharacter_iff.mpr (Or.inl isUpper)
    · have allowed := areFeature character later
      simp only [Lexicon.isFeatureCharacter, Bool.or_eq_true, beq_iff_eq]
        at allowed
      rw [isWordCharacter_iff]
      tauto

theorem isWord_quoted {text : String}
    (isValueText : Expression.IsValueText text) :
    IsWord (Expression.quoted text) := by
  unfold IsWord
  rw [Expression.toList_quoted]
  refine ⟨List.cons_ne_nil _ _, fun character member => ?_⟩
  rw [List.mem_cons, List.mem_append, List.mem_singleton] at member
  rcases member with rfl | within | rfl
  · decide
  · obtain ⟨notBlank, -, notSymbol⟩ := isValueText.2 character within
    simpa [isInner, isSymbolCharacter, notBlank] using notSymbol
  · decide

theorem isValueText_of_isValue {text : String}
    (isValue : Lexicon.isValue (Expression.quoted text) = true)
    (noSymbol : ∀ character ∈ text.toList,
      isSymbolCharacter character = false) :
    Expression.IsValueText text := by
  obtain ⟨nonempty, characters⟩ := Expression.isValue_quoted.mp isValue
  refine ⟨nonempty, fun character member => ?_⟩
  have isInside := characters character member
  have notSymbol := noSymbol character member
  simp only [Lexicon.isValueCharacter, Bool.and_eq_true, bne_iff_ne,
    Bool.not_eq_true'] at isInside
  simp only [isSymbolCharacter, List.contains_eq_mem, decide_eq_false_iff_not]
    at notSymbol
  exact ⟨isInside.2, isInside.1, notSymbol⟩

theorem isWord_word (connective : Connective) : IsWord connective.word := by
  cases connective <;> exact isWord_of_all (by decide) (by decide)

theorem endsWord_nil : EndsWord [] := by
  simp [EndsWord]

theorem endsWord_cons {character : Char} {rest : List Char}
    (outer : isInner character = false) : EndsWord (character :: rest) := by
  intro first isFirst
  cases isFirst
  exact outer

/-- Words with a blank between any two of them are read one by one. -/
theorem tokenize_intercalate {words : List String}
    (areWords : ∀ word ∈ words, IsWord word) :
    tokenizer.tokenize (" ".intercalate words) = words := by
  induction words with
  | nil => rfl
  | cons word words ih =>
      obtain ⟨isWord, others⟩ := List.forall_mem_cons.mp areWords
      cases words with
      | nil =>
          rw [String.intercalate_singleton, Tokenizer.tokenize,
            ← List.append_nil word.toList,
            tokensAfter_isWord isWord endsWord_nil, Tokenizer.tokensAfter]
      | cons second words =>
          have text : (" ".intercalate (word :: second :: words)).toList =
              word.toList ++ ' ' ::
                (" ".intercalate (second :: words)).toList := by
            simp [String.intercalate_cons_cons]
          rw [Tokenizer.tokenize, text,
            tokensAfter_isWord isWord (endsWord_cons (by decide)),
            tokensAfter_space, ← Tokenizer.tokenize, ih others]

/-! ## Written expressions and equations -/

theorem lexical_of_wellFormed {expression : Expression RelativeIdentifier}
    (wellFormed : expression.WellFormed) : expression.Lexical := by
  induction expression with
  | identifier id => cases id <;> exact wellFormed
  | application target feature ih => exact ⟨ih wellFormed.1, wellFormed.2⟩
  | value text =>
      refine Expression.isValue_quoted.mpr
        ⟨wellFormed.1, fun character member => ?_⟩
      obtain ⟨notBlank, notQuote, -⟩ := wellFormed.2 character member
      simp [Lexicon.isValueCharacter, notBlank, notQuote]

theorem lexical_phraseOf {equation : Equation RelativeIdentifier}
    (wellFormed : equation.WellFormed) : (phraseOf equation).Lexical := by
  intro expression member
  rw [expressions_phraseOf] at member
  exact lexical_of_wellFormed (wellFormed expression member)

theorem tokensAfter_expression {expression : Expression RelativeIdentifier}
    (wellFormed : expression.WellFormed) {rest : List Char}
    (ends : EndsWord rest) :
    tokenizer.tokensAfter 0 (expression.render.toList ++ rest) =
      expression.tokens ++ tokenizer.tokensAfter 0 rest := by
  induction expression generalizing rest with
  | identifier id =>
      cases id with
      | up => exact tokensAfter_up rest
      | down => exact tokensAfter_down rest
      | named name =>
          exact tokensAfter_isWord (isWord_of_isVariable wellFormed) ends
  | value text => exact tokensAfter_isWord (isWord_quoted wellFormed) ends
  | application target feature ih =>
      have text : (Expression.application target feature).render.toList ++ rest =
          '(' :: (target.render.toList ++
            ' ' :: (feature.toList ++ ')' :: rest)) := by
        simp [Expression.render]
      rw [text, tokensAfter_open, ih wellFormed.1 (endsWord_cons (by decide)),
        tokensAfter_space, tokensAfter_isWord
          (isWord_of_isFeature wellFormed.2) (endsWord_cons (by decide)),
        tokensAfter_close, Expression.tokens]
      simp

theorem render_equation (relation : Relation)
    (left right : Expression RelativeIdentifier) :
    (relation.equation left right).render.toList =
      left.render.toList ++ ' ' :: (relation.word.toList ++
        ' ' :: right.render.toList) := by
  cases relation <;>
    simp [Relation.equation, Relation.word, Equation.render,
      Definition.render, Constraint.render, Check.render]

theorem tokensAfter_related (relation : Relation)
    {left right : Expression RelativeIdentifier}
    (leftWellFormed : left.WellFormed) (rightWellFormed : right.WellFormed)
    {rest : List Char} (ends : EndsWord rest) :
    tokenizer.tokensAfter 0
        ((relation.equation left right).render.toList ++ rest) =
      (Phrase.related relation left right).tokens ++
        tokenizer.tokensAfter 0 rest := by
  have text : (relation.equation left right).render.toList ++ rest =
      left.render.toList ++ ' ' :: (relation.word.toList ++
        ' ' :: (right.render.toList ++ rest)) := by
    simp [render_equation]
  rw [text, tokensAfter_expression leftWellFormed (endsWord_cons (by decide)),
    tokensAfter_space, tokensAfter_relationWord, tokensAfter_space,
    tokensAfter_expression rightWellFormed ends, Phrase.tokens]
  simp

theorem tokensAfter_check {check : Check RelativeIdentifier}
    (wellFormed : ∀ expression ∈ check.expressions, expression.WellFormed)
    {rest : List Char} (ends : EndsWord rest) :
    tokenizer.tokensAfter 0 (check.render.toList ++ rest) =
      (checkPhrase check).tokens ++ tokenizer.tokensAfter 0 rest := by
  cases check with
  | equality left right =>
      obtain ⟨leftWellFormed, rightWellFormed⟩ :
          left.WellFormed ∧ right.WellFormed := by
        simpa [Check.expressions] using wellFormed
      exact tokensAfter_related .equality leftWellFormed rightWellFormed ends
  | containment element container =>
      obtain ⟨elementWellFormed, containerWellFormed⟩ :
          element.WellFormed ∧ container.WellFormed := by
        simpa [Check.expressions] using wellFormed
      exact tokensAfter_related .containment elementWellFormed
        containerWellFormed ends
  | existence expression =>
      have isWellFormed : expression.WellFormed := by
        simpa [Check.expressions] using wellFormed
      exact tokensAfter_expression isWellFormed ends

theorem tokensAfter_definition {definition : Definition RelativeIdentifier}
    (wellFormed :
      ∀ expression ∈ definition.expressions, expression.WellFormed)
    {rest : List Char} (ends : EndsWord rest) :
    tokenizer.tokensAfter 0 (definition.render.toList ++ rest) =
      (definitionPhrase definition).tokens ++ tokenizer.tokensAfter 0 rest := by
  cases definition with
  | assignment left right =>
      obtain ⟨leftWellFormed, rightWellFormed⟩ :
          left.WellFormed ∧ right.WellFormed := by
        simpa [Definition.expressions, Definition.check, Check.expressions]
          using wellFormed
      exact tokensAfter_related .assignment leftWellFormed rightWellFormed ends
  | containment element container =>
      obtain ⟨elementWellFormed, containerWellFormed⟩ :
          element.WellFormed ∧ container.WellFormed := by
        simpa [Definition.expressions, Definition.check, Check.expressions]
          using wellFormed
      exact tokensAfter_related .membership elementWellFormed
        containerWellFormed ends

theorem tokensAfter_equation {equation : Equation RelativeIdentifier}
    (wellFormed : equation.WellFormed) {rest : List Char}
    (ends : EndsWord rest) :
    tokenizer.tokensAfter 0 (equation.render.toList ++ rest) =
      (phraseOf equation).tokens ++ tokenizer.tokensAfter 0 rest := by
  induction equation generalizing rest with
  | compound connective left right leftIH rightIH =>
      obtain ⟨leftWellFormed, rightWellFormed⟩ :
          left.WellFormed ∧ right.WellFormed := by
        simpa [Equation.WellFormed, Equation.expressions, or_imp, forall_and]
          using wellFormed
      have text :
          (Equation.compound connective left right).render.toList ++ rest =
            '(' :: (left.render.toList ++ ' ' :: (connective.word.toList ++
              ' ' :: (right.render.toList ++ ')' :: rest))) := by
        simp [Equation.render]
      rw [text, tokensAfter_open,
        leftIH leftWellFormed (endsWord_cons (by decide)), tokensAfter_space,
        tokensAfter_isWord (isWord_word connective)
          (endsWord_cons (by decide)),
        tokensAfter_space, rightIH rightWellFormed (endsWord_cons (by decide)),
        tokensAfter_close, phraseOf, Phrase.tokens, Phrase.tokens]
      simp
  | defining definition => exact tokensAfter_definition wellFormed ends
  | constraint constraint =>
      obtain ⟨positive, check⟩ := constraint
      cases positive with
      | true => exact tokensAfter_check wellFormed ends
      | false =>
          have isWord : IsWord "NOT" := isWord_of_all (by decide) (by decide)
          have text :
              (Equation.constraint ⟨false, check⟩).render.toList ++ rest =
                '(' :: ("NOT".toList ++ ' ' :: ('(' ::
                  (check.render.toList ++ ')' :: ')' :: rest))) := by
            simp [Equation.render, Constraint.render]
          rw [text, tokensAfter_open,
            tokensAfter_isWord isWord (endsWord_cons (by decide)),
            tokensAfter_space, tokensAfter_open,
            tokensAfter_check wellFormed (endsWord_cons (by decide)),
            tokensAfter_close, tokensAfter_close]
          simp [phraseOf, Phrase.tokens]

theorem tokenize_render {equation : Equation RelativeIdentifier}
    (wellFormed : equation.WellFormed) :
    tokenizer.tokenize equation.render = (phraseOf equation).tokens := by
  have tokens := tokensAfter_equation wellFormed endsWord_nil
  rw [List.append_nil] at tokens
  rw [Tokenizer.tokenize, tokens]
  simp [Tokenizer.tokensAfter]

end EquationGrammar

end SemanticGrammar
