import SemanticGrammar.Proofs.Equation.ExpressionTokens

/-!
# The written form of an equation is one phrase

Equations can be bracketed in many ways, but the phrase of an equation is the
only one with its tokens.  A compound is bracketed, so its connective is the
only one outside of further brackets, and no phrase can be split elsewhere.
What stands between the brackets of a feature application is never a phrase.
-/

namespace SemanticGrammar

namespace EquationGrammar

/-! ## Tokens of phrases -/

theorem word_mem_operators (connective : Connective) :
    connective.word ∈ operators := by
  cases connective <;> decide

theorem relationWord_mem_operators (relation : Relation) :
    relation.word ∈ operators := by
  cases relation <;> decide

theorem word_ne_not (connective : Connective) : connective.word ≠ "NOT" := by
  cases connective <;> decide

theorem word_ne_relationWord (connective : Connective) (relation : Relation) :
    connective.word ≠ relation.word := by
  cases connective <;> cases relation <;> decide

theorem word_injective {connective connective' : Connective}
    (same : connective.word = connective'.word) : connective = connective' := by
  revert same
  cases connective <;> cases connective' <;> decide

theorem relationWord_injective {relation relation' : Relation}
    (same : relation.word = relation'.word) : relation = relation' := by
  revert same
  cases relation <;> cases relation' <;> decide

theorem balanced_operator {operator : String}
    (isOperator : operator ∈ operators) : Balanced [operator] := by
  have noBracket : ∀ operator ∈ operators, operator ≠ "(" ∧ operator ≠ ")" := by
    decide
  obtain ⟨notOpen, notClose⟩ := noBracket operator isOperator
  exact .singleton notOpen notClose

namespace Phrase

variable {phrase left right : Phrase}
  {expression expression' : Expression RelativeIdentifier}

theorem tokens_ne_nil (phrase : Phrase) : phrase.tokens ≠ [] := by
  cases phrase with
  | mentioned expression => exact expression.tokens_ne_nil
  | negated => simp [tokens]
  | joined => simp [tokens]
  | related => simp [tokens]
  | bracketed => simp [tokens]

theorem balanced_tokens (lexical : phrase.Lexical) :
    Balanced phrase.tokens := by
  induction phrase with
  | negated inner ih =>
      exact (balanced_operator (by decide)).append (ih lexical)
  | joined connective left right leftIH rightIH =>
      obtain ⟨leftLexical, rightLexical⟩ := lexical_joined.mp lexical
      have operator := balanced_operator (word_mem_operators connective)
      exact (leftIH leftLexical).append (operator.append (rightIH rightLexical))
  | related relation left right =>
      obtain ⟨leftLexical, rightLexical⟩ := lexical_related.mp lexical
      have operator := balanced_operator (relationWord_mem_operators relation)
      exact left.balanced_tokens leftLexical |>.append
        (operator.append (right.balanced_tokens rightLexical))
  | mentioned expression =>
      exact expression.balanced_tokens (lexical_mentioned.mp lexical)
  | bracketed inner ih => exact (ih lexical).enclose

/-! ## Reading a phrase off its tokens -/

theorem word_not_mem_related {relation : Relation} {connective : Connective}
    (leftLexical : expression.Lexical) (rightLexical : expression'.Lexical) :
    connective.word ∉
      expression.tokens ++ relation.word :: expression'.tokens := by
  have isOperator := word_mem_operators connective
  have notLeft :=
    Expression.not_mem_tokens_of_operator leftLexical isOperator
  have notRight :=
    Expression.not_mem_tokens_of_operator rightLexical isOperator
  have notBetween := word_ne_relationWord connective relation
  simp [notLeft, notRight, notBetween]

theorem cons_ne_tokens_append (lexical : expression.Lexical)
    {operator : String} (isOperator : operator ∈ operators)
    (front back : List String) :
    operator :: back ≠ expression.tokens ++ front := by
  have absent := Expression.not_mem_tokens_of_operator lexical isOperator
  cases tokensEq : expression.tokens with
  | nil => exact absurd tokensEq expression.tokens_ne_nil
  | cons token tokens =>
      rw [tokensEq, List.mem_cons, not_or] at absent
      intro same
      exact absent.1 (List.cons.inj same).1

theorem mentioned_or_bracketed_of_free
    (free : ∀ operator ∈ operators, operator ∉ phrase.tokens) :
    (∃ expression, phrase = mentioned expression) ∨
      ∃ inner, phrase = bracketed inner := by
  cases phrase with
  | negated inner => exact absurd (by simp [tokens]) (free "NOT" (by decide))
  | joined connective left right =>
      exact absurd (by simp [tokens])
        (free connective.word (word_mem_operators connective))
  | related relation left right =>
      exact absurd (by simp [tokens])
        (free relation.word (relationWord_mem_operators relation))
  | mentioned expression => exact Or.inl ⟨expression, rfl⟩
  | bracketed inner => exact Or.inr ⟨inner, rfl⟩

theorem tokens_ne_append_feature (lexical : phrase.Lexical)
    (targetLexical : expression.Lexical) {feature : String}
    (isFeature : Lexicon.isFeature feature = true) :
    phrase.tokens ≠ expression.tokens ++ [feature] := by
  intro same
  have free : ∀ operator ∈ operators, operator ∉ phrase.tokens := by
    intro operator isOperator
    rw [same, List.mem_append, List.mem_singleton, not_or]
    have isReserved := operators_subset_reserved isOperator
    have notFeature : feature ≠ operator := ne_of_isFeature isFeature isReserved
    have notInside := Expression.not_mem_tokens_of_operator targetLexical isOperator
    exact ⟨notInside, notFeature.symm⟩
  rcases mentioned_or_bracketed_of_free free with ⟨other, rfl⟩ | ⟨inner, rfl⟩
  · exact Expression.tokens_ne_append_cons (lexical_mentioned.mp lexical)
      targetLexical feature [] same
  · have notClose : feature ≠ ")" := ne_of_isFeature isFeature (by decide)
    have lastToken := congrArg List.getLast? same
    rw [tokens, ← List.cons_append, List.getLast?_concat,
      List.getLast?_concat] at lastToken
    exact notClose (Option.some.inj lastToken).symm

theorem tokens_bracketed_ne_expression (lexical : phrase.Lexical)
    (expressionLexical : expression.Lexical) :
    (bracketed phrase).tokens ≠ expression.tokens := by
  intro same
  cases expression with
  | identifier id => simp [tokens, Expression.tokens] at same
  | value text => simp [tokens, Expression.tokens] at same
  | application target feature =>
      -- The brackets would be those of the application.
      have sameInner : phrase.tokens ++ [")"] =
          (target.tokens ++ [feature]) ++ [")"] := by
        simpa [tokens, Expression.tokens] using same
      exact tokens_ne_append_feature lexical expressionLexical.1
        expressionLexical.2 (List.append_cancel_right sameInner)

theorem exists_bracketed_of_tokens_eq (lexical : phrase.Lexical)
    (leftLexical : left.Lexical)
    (same : phrase.tokens = (bracketed left).tokens) :
    ∃ inner, phrase = bracketed inner ∧ inner.tokens = left.tokens := by
  have balanced := left.balanced_tokens leftLexical
  cases phrase with
  | negated inner => simp [tokens] at same
  | joined connective first second =>
      have firstLexical := (lexical_joined.mp lexical).1
      have nothing := balanced.eq_nil_of_enclosed
        (first.balanced_tokens firstLexical) first.tokens_ne_nil same.symm
      cases nothing
  | related relation first second =>
      have nothing := balanced.eq_nil_of_enclosed
        (first.balanced_tokens (lexical_related.mp lexical).1)
        first.tokens_ne_nil same.symm
      cases nothing
  | mentioned expression =>
      exact absurd same.symm (tokens_bracketed_ne_expression leftLexical
        (lexical_mentioned.mp lexical))
  | bracketed inner => exact ⟨inner, rfl, by simpa [tokens] using same⟩

theorem eq_mentioned_of_tokens_eq (lexical : phrase.Lexical)
    (expressionLexical : expression.Lexical)
    (same : phrase.tokens = expression.tokens) :
    phrase = mentioned expression := by
  have free : ∀ operator ∈ operators, operator ∉ phrase.tokens := by
    intro operator isOperator
    rw [same]
    exact Expression.not_mem_tokens_of_operator expressionLexical isOperator
  rcases mentioned_or_bracketed_of_free free with ⟨other, rfl⟩ | ⟨inner, rfl⟩
  · rw [Expression.eq_of_tokens_eq (lexical_mentioned.mp lexical)
      expressionLexical same]
  · exact absurd same (tokens_bracketed_ne_expression
      (lexical_bracketed.mp lexical) expressionLexical)

theorem eq_related_of_tokens_eq {relation : Relation} (lexical : phrase.Lexical)
    (leftLexical : expression.Lexical) (rightLexical : expression'.Lexical)
    (same : phrase.tokens =
      expression.tokens ++ relation.word :: expression'.tokens) :
    phrase = related relation expression expression' := by
  cases phrase with
  | negated inner =>
      have isOperator : "NOT" ∈ operators := by decide
      exact absurd same (cons_ne_tokens_append leftLexical isOperator _ _)
  | joined connective left right =>
      have present : connective.word ∈
          expression.tokens ++ relation.word :: expression'.tokens := by
        rw [← same]
        simp [tokens]
      exact absurd present (word_not_mem_related leftLexical rightLexical)
  | related relation' left right =>
      obtain ⟨leftLexical', rightLexical'⟩ := lexical_related.mp lexical
      obtain ⟨rfl, rest⟩ :=
        Expression.eq_of_tokens_append_eq leftLexical' leftLexical same
      obtain ⟨sameWord, sameRight⟩ := List.cons.inj rest
      rw [relationWord_injective sameWord,
        Expression.eq_of_tokens_eq rightLexical' rightLexical sameRight]
  | mentioned other =>
      exact absurd same (Expression.tokens_ne_append_cons
        (lexical_mentioned.mp lexical) leftLexical _ _)
  | bracketed inner =>
      have nothing := (inner.balanced_tokens lexical).eq_nil_of_enclosed
        (expression.balanced_tokens leftLexical) expression.tokens_ne_nil same
      cases nothing

/-! ## Phrases that cannot be split -/

/-- Whether a phrase starts with no negation and has no connective outside of
its brackets. -/
structure Solid (phrase : Phrase) : Prop where
  not_negated : ∀ rest, phrase.tokens ≠ "NOT" :: rest
  not_joined : ∀ front (connective : Connective) back,
    Balanced front → phrase.tokens ≠ front ++ connective.word :: back

theorem solid_mentioned (lexical : expression.Lexical) :
    (mentioned expression).Solid where
  not_negated rest same := by
    have isOperator : "NOT" ∈ operators := by decide
    refine Expression.not_mem_tokens_of_operator lexical isOperator ?_
    rw [← tokens, same]
    exact List.mem_cons_self
  not_joined front connective back _ same := by
    refine Expression.not_mem_tokens_of_operator lexical
      (word_mem_operators connective) ?_
    rw [← tokens, same]
    simp

theorem solid_related {relation : Relation} (leftLexical : expression.Lexical)
    (rightLexical : expression'.Lexical) :
    (related relation expression expression').Solid where
  not_negated rest same := by
    have isOperator : "NOT" ∈ operators := by decide
    exact cons_ne_tokens_append leftLexical isOperator _ _ same.symm
  not_joined front connective back _ same := by
    have present : connective.word ∈
        expression.tokens ++ relation.word :: expression'.tokens := by
      rw [← tokens, same]
      simp
    exact word_not_mem_related leftLexical rightLexical present

theorem solid_bracketed (lexical : phrase.Lexical) :
    (bracketed phrase).Solid where
  not_negated rest same := by
    have sameHead : "(" = "NOT" := (List.cons.inj same).1
    exact absurd sameHead (by decide)
  not_joined front connective back balanced same := by
    cases front with
    | nil =>
        have sameHead : "(" = connective.word := (List.cons.inj same).1
        have isOperator := word_mem_operators connective
        rw [← sameHead] at isOperator
        exact absurd isOperator (by decide)
    | cons token front =>
        have nothing := (phrase.balanced_tokens lexical).eq_nil_of_enclosed
          balanced (List.cons_ne_nil _ _) same
        cases nothing

/-- Two solid phrases with a connective between them can only be split
there. -/
theorem exists_joined_of_tokens_eq {connective : Connective}
    (lexical : phrase.Lexical) (leftLexical : left.Lexical)
    (leftSolid : left.Solid) (rightSolid : right.Solid)
    (same : phrase.tokens = left.tokens ++ connective.word :: right.tokens) :
    ∃ left' right', phrase = joined connective left' right' ∧
      left'.tokens = left.tokens ∧ right'.tokens = right.tokens := by
  have leftBalanced := left.balanced_tokens leftLexical
  have present : connective.word ∈ phrase.tokens := by
    rw [same]
    simp
  have isOperator := word_mem_operators connective
  cases phrase with
  | negated inner =>
      cases leftTokens : left.tokens with
      | nil => exact absurd leftTokens left.tokens_ne_nil
      | cons token rest =>
          rw [leftTokens] at same
          have sameHead : "NOT" = token := (List.cons.inj same).1
          exact absurd (sameHead ▸ leftTokens) (leftSolid.not_negated rest)
  | related relation expression expression' =>
      obtain ⟨leftLexical', rightLexical'⟩ := lexical_related.mp lexical
      exact absurd present (word_not_mem_related leftLexical' rightLexical')
  | mentioned expression =>
      exact absurd present (Expression.not_mem_tokens_of_operator
        (lexical_mentioned.mp lexical) isOperator)
  | bracketed inner =>
      have nothing := (inner.balanced_tokens lexical).eq_nil_of_enclosed
        leftBalanced left.tokens_ne_nil same
      cases nothing
  | joined connective' left' right' =>
      obtain ⟨leftLexical', rightLexical'⟩ := lexical_joined.mp lexical
      have leftBalanced' := left'.balanced_tokens leftLexical'
      rcases List.append_eq_append_iff.mp same with
        ⟨middle, split, rest⟩ | ⟨middle, split, rest⟩
      · cases middle with
        | nil =>
            obtain ⟨sameWord, sameRight⟩ := List.cons.inj rest
            rw [word_injective sameWord]
            exact ⟨left', right', rfl, by simpa using split.symm, sameRight⟩
        | cons token middle =>
            -- The connective would be in the left phrase.
            obtain ⟨rfl, -⟩ := List.cons.inj rest
            exact absurd split (leftSolid.not_joined _ _ _ leftBalanced')
      · cases middle with
        | nil =>
            obtain ⟨sameWord, sameRight⟩ := List.cons.inj rest
            rw [word_injective sameWord.symm]
            exact ⟨left', right', rfl, by simpa using split, sameRight.symm⟩
        | cons token middle =>
            -- The connective would be in the right phrase.
            obtain ⟨rfl, sameRight⟩ := List.cons.inj rest
            rw [split, ← List.singleton_append, ← List.append_assoc]
              at leftBalanced'
            have middleBalanced := leftBalanced'.of_append
              (leftBalanced.append (balanced_operator isOperator))
            exact absurd sameRight
              (rightSolid.not_joined _ _ _ middleBalanced)

end Phrase

/-! ## The phrase of an equation -/

namespace Phrase

variable {phrase plain : Phrase}

/-- Whether a phrase only relates or mentions expressions. -/
def Plain (phrase : Phrase) : Prop :=
  (∃ relation left right, phrase = related relation left right) ∨
    ∃ expression, phrase = mentioned expression

theorem solid_of_plain (isPlain : plain.Plain) (lexical : plain.Lexical) :
    plain.Solid := by
  rcases isPlain with ⟨relation, left, right, rfl⟩ | ⟨expression, rfl⟩
  · obtain ⟨leftLexical, rightLexical⟩ := lexical_related.mp lexical
    exact solid_related leftLexical rightLexical
  · exact solid_mentioned (lexical_mentioned.mp lexical)

theorem word_not_mem_of_plain (isPlain : plain.Plain)
    (lexical : plain.Lexical) (connective : Connective) :
    connective.word ∉ plain.tokens := by
  rcases isPlain with ⟨relation, left, right, rfl⟩ | ⟨expression, rfl⟩
  · obtain ⟨leftLexical, rightLexical⟩ := lexical_related.mp lexical
    exact word_not_mem_related leftLexical rightLexical
  · exact Expression.not_mem_tokens_of_operator
      (lexical_mentioned.mp lexical) (word_mem_operators connective)

theorem eq_of_tokens_eq_of_plain (isPlain : plain.Plain)
    (plainLexical : plain.Lexical) (lexical : phrase.Lexical)
    (same : phrase.tokens = plain.tokens) : phrase = plain := by
  rcases isPlain with ⟨relation, left, right, rfl⟩ | ⟨expression, rfl⟩
  · obtain ⟨leftLexical, rightLexical⟩ := lexical_related.mp plainLexical
    exact eq_related_of_tokens_eq lexical leftLexical rightLexical same
  · exact eq_mentioned_of_tokens_eq lexical
      (lexical_mentioned.mp plainLexical) same

theorem exists_negated_of_tokens_eq (lexical : phrase.Lexical)
    {inner : Phrase} (free : ∀ connective : Connective,
      connective.word ∉ inner.tokens)
    (same : phrase.tokens = (negated inner).tokens) :
    ∃ inner', phrase = negated inner' ∧ inner'.tokens = inner.tokens := by
  cases phrase with
  | negated inner' => exact ⟨inner', rfl, (List.cons.inj same).2⟩
  | joined connective left right =>
      have present : connective.word ∈ "NOT" :: inner.tokens := by
        rw [← tokens, ← same]
        simp [tokens]
      simp [free, word_ne_not] at present
  | related relation left right =>
      exact absurd same.symm (cons_ne_tokens_append
        (lexical_related.mp lexical).1 (by decide) _ _)
  | mentioned expression =>
      have isOperator : "NOT" ∈ operators := by decide
      have sameNil : "NOT" :: inner.tokens = expression.tokens ++ [] :=
        same.symm.trans (List.append_nil _).symm
      exact absurd sameNil (cons_ne_tokens_append
        (lexical_mentioned.mp lexical) isOperator _ _)
  | bracketed inner' =>
      have sameHead : "(" = "NOT" := (List.cons.inj same).1
      exact absurd sameHead (by decide)

theorem eq_negative_of_tokens_eq (isPlain : plain.Plain)
    (plainLexical : plain.Lexical) (lexical : phrase.Lexical)
    (same : phrase.tokens =
      (bracketed (negated (bracketed plain))).tokens) :
    phrase = bracketed (negated (bracketed plain)) := by
  have negatedLexical : (negated (bracketed plain)).Lexical :=
    lexical_negated.mpr (lexical_bracketed.mpr plainLexical)
  obtain ⟨first, rfl, sameFirst⟩ :=
    exists_bracketed_of_tokens_eq lexical negatedLexical same
  rw [lexical_bracketed] at lexical
  have free (connective : Connective) :
      connective.word ∉ (bracketed plain).tokens := by
    have notOpen : connective.word ≠ "(" := by cases connective <;> decide
    have notClose : connective.word ≠ ")" := by cases connective <;> decide
    simp [tokens, notOpen, notClose,
      word_not_mem_of_plain isPlain plainLexical]
  obtain ⟨second, rfl, sameSecond⟩ :=
    exists_negated_of_tokens_eq lexical free sameFirst
  rw [lexical_negated] at lexical
  obtain ⟨third, rfl, sameThird⟩ :=
    exists_bracketed_of_tokens_eq lexical plainLexical sameSecond
  rw [lexical_bracketed] at lexical
  rw [eq_of_tokens_eq_of_plain isPlain plainLexical lexical sameThird]

end Phrase

theorem plain_checkPhrase (check : Check RelativeIdentifier) :
    (checkPhrase check).Plain := by
  cases check with
  | equality left right => exact Or.inl ⟨.equality, left, right, rfl⟩
  | containment element container =>
      exact Or.inl ⟨.containment, element, container, rfl⟩
  | existence expression => exact Or.inr ⟨expression, rfl⟩

theorem plain_definitionPhrase (definition : Definition RelativeIdentifier) :
    (definitionPhrase definition).Plain := by
  cases definition with
  | assignment left right => exact Or.inl ⟨.assignment, left, right, rfl⟩
  | containment element container =>
      exact Or.inl ⟨.membership, element, container, rfl⟩

theorem solid_phraseOf {equation : Equation RelativeIdentifier}
    (lexical : (phraseOf equation).Lexical) : (phraseOf equation).Solid := by
  cases equation with
  | compound connective left right => exact Phrase.solid_bracketed lexical
  | defining definition =>
      exact Phrase.solid_of_plain (plain_definitionPhrase definition) lexical
  | constraint constraint =>
      obtain ⟨positive, check⟩ := constraint
      cases positive with
      | false => exact Phrase.solid_bracketed lexical
      | true => exact Phrase.solid_of_plain (plain_checkPhrase check) lexical

/-- The phrase of an equation is the only phrase with its tokens. -/
theorem eq_phraseOf_of_tokens_eq {equation : Equation RelativeIdentifier}
    (lexical : (phraseOf equation).Lexical) {phrase : Phrase}
    (phraseLexical : phrase.Lexical)
    (same : phrase.tokens = (phraseOf equation).tokens) :
    phrase = phraseOf equation := by
  induction equation generalizing phrase with
  | compound connective left right leftIH rightIH =>
      rw [phraseOf, Phrase.lexical_bracketed] at lexical
      obtain ⟨leftLexical, rightLexical⟩ := Phrase.lexical_joined.mp lexical
      obtain ⟨inner, rfl, sameInner⟩ :=
        Phrase.exists_bracketed_of_tokens_eq phraseLexical lexical same
      rw [Phrase.lexical_bracketed] at phraseLexical
      obtain ⟨left', right', rfl, sameLeft, sameRight⟩ :=
        Phrase.exists_joined_of_tokens_eq phraseLexical leftLexical
          (solid_phraseOf leftLexical) (solid_phraseOf rightLexical) sameInner
      obtain ⟨leftLexical', rightLexical'⟩ :=
        Phrase.lexical_joined.mp phraseLexical
      rw [leftIH leftLexical leftLexical' sameLeft,
        rightIH rightLexical rightLexical' sameRight, phraseOf]
  | defining definition =>
      exact Phrase.eq_of_tokens_eq_of_plain (plain_definitionPhrase definition)
        lexical phraseLexical same
  | constraint constraint =>
      obtain ⟨positive, check⟩ := constraint
      cases positive with
      | false =>
          exact Phrase.eq_negative_of_tokens_eq (plain_checkPhrase check)
            lexical phraseLexical same
      | true =>
          exact Phrase.eq_of_tokens_eq_of_plain (plain_checkPhrase check)
            lexical phraseLexical same

end EquationGrammar

end SemanticGrammar
