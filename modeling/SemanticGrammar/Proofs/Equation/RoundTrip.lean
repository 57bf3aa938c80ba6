import SemanticGrammar.Proofs.Equation.Parses
import SemanticGrammar.Proofs.Equation.Unambiguity
import SemanticGrammar.Proofs.Equation.Writing

/-!
# Parsing written equations

The text of a well-formed equation has a single phrase, so its parse finds a
single tree and the equation itself.  Every equation that is found in some
text is well-formed, and is therefore found again in its own text.
-/

namespace SemanticGrammar

namespace EquationGrammar

/-! ## Equations that are found -/

theorem wellFormed_of_lexical {expression : Expression RelativeIdentifier}
    (lexical : expression.Lexical)
    (words : ∀ token ∈ expression.tokens, token ∉ tokenizer.literals →
      ∀ character ∈ token.toList, isInner character = true) :
    expression.WellFormed := by
  induction expression with
  | identifier id => cases id <;> exact lexical
  | application target feature ih =>
      refine ⟨ih lexical.1 fun token member => words token ?_, lexical.2⟩
      simp [Expression.tokens, member]
  | value text =>
      have notQuoted : ∀ literal ∈ tokenizer.literals,
          literal.toList.head? ≠ some Lexicon.valueQuote := by
        decide
      have inner := words (Expression.quoted text) (List.mem_singleton_self _)
        fun isLiteral => notQuoted _ isLiteral (by simp)
      refine isValueText_of_isValue lexical fun character member => ?_
      exact (isInner_iff.mp (inner character (by simp [member]))).2

theorem wellFormed_of_spells {phrase : Phrase} {text : String}
    (spells : phrase.Spells (tokenizer.tokenize text))
    (orBuilds : Connective) : (phrase.equation orBuilds).WellFormed := by
  intro expression member
  rw [expressions_equation] at member
  refine wellFormed_of_lexical (spells.lexical expression member) ?_
  intro token isToken notLiteral
  have isRead : token ∈ tokenizer.tokenize text := by
    rw [← spells.tokens_eq]
    exact Phrase.tokens_subset_of_mem_expressions member isToken
  exact isInner_of_mem_tokenize isRead notLiteral

/-! ## Equations that are written -/

section Written

variable {equation : Equation RelativeIdentifier}

theorem spells_phraseOf (wellFormed : equation.WellFormed) :
    (phraseOf equation).Spells (tokenizer.tokenize equation.render) where
  lexical := lexical_phraseOf wellFormed
  tokens_eq := (tokenize_render wellFormed).symm

/-- The text of a well-formed equation is spelled by one phrase only. -/
theorem eq_phraseOf_of_spells (wellFormed : equation.WellFormed)
    {phrase : Phrase}
    (spells : phrase.Spells (tokenizer.tokenize equation.render)) :
    phrase = phraseOf equation :=
  eq_phraseOf_of_tokens_eq (lexical_phraseOf wellFormed) spells.lexical
    (spells.tokens_eq.trans (tokenize_render wellFormed))

variable {maxTrees : Option Int} {parsable : Parsable Value}

/-- One tree is found in the text of a well-formed equation, and the equation. -/
theorem finds_render
    (alike : (freshParsable .disjunction maxTrees).ParsesAlike parsable)
    (wellFormed : equation.WellFormed) :
    Finds parsable equation.render [(phraseOf equation).tree .disjunction]
      [.equation equation] := by
  obtain ⟨phrases, spellings, finds⟩ :=
    exists_spellings_found alike equation.render
  have single : phrases = [phraseOf equation] :=
    spellings.eq_singleton (spells_phraseOf wellFormed)
      fun _ spells => eq_phraseOf_of_spells wellFormed spells
  rw [single, List.map_singleton, List.map_singleton, Phrase.value,
    equation_phraseOf] at finds
  exact finds

end Written

/-- After any calls, a parsable for equations can be made.  Whatever it was used
for before, it parses the text of a well-formed equation back to the equation
alone, and so it does with each equation that is found in any text. -/
theorem parse_render (maxTrees : Option Int) (calls : List Call) :
    ∃ parsable,
      (((Session.ofRegistry (registry Value.carrier)).afterCalls
        calls).parsable (equationSymbol .disjunction)
          { maxTrees := maxTrees }).1 = .ok parsable ∧
      (∀ equation : Equation RelativeIdentifier, equation.WellFormed →
        ∃ tree, ∀ uses,
          ((parsable.afterUses uses).parse equation.render).result =
            .ok (.ok (.equation equation) [] [tree])) ∧
      ∀ text, ∃ values,
        (∀ uses, ((parsable.afterUses uses).parseValues text).result =
          .ok values) ∧
          ∀ value ∈ values, ∃ equation, value = .equation equation ∧
            ∀ uses, ((parsable.afterUses uses).parseValues
              equation.render).result = .ok [.equation equation] := by
  obtain ⟨parsable, made, alike⟩ :=
    exists_parsable_afterCalls .disjunction maxTrees calls
  refine ⟨parsable, made, fun equation wellFormed => ?_, fun text => ?_⟩
  · exact ⟨_, (finds_render alike wellFormed).parse_eq⟩
  · obtain ⟨phrases, spellings, finds⟩ := exists_spellings_found alike text
    refine ⟨_, finds.parseValues_eq, fun value member => ?_⟩
    obtain ⟨phrase, isFound, rfl⟩ := List.mem_map.mp member
    have wellFormed := wellFormed_of_spells (spellings.spell phrase isFound)
      .disjunction
    exact ⟨phrase.equation .disjunction, rfl,
      (finds_render alike wellFormed).parseValues_eq⟩

/-- An equation with a negative constraint, a value and a named identifier. -/
def numberOrAdjunct : Equation RelativeIdentifier :=
  .compound .disjunction
    (.constraint ⟨false, .equality
      (.application (.application (.identifier .up) "SUBJ") "NUM")
      (.value "sg")⟩)
    (.defining (.containment (.identifier (.named "%x"))
      (.application (.identifier .down) "ADJ")))

/-- The equation is parsed back when no tree is asked for, and each of the two
equations in another text is parsed back, too. -/
theorem parse_render_numberOrAdjunct :
    numberOrAdjunct.WellFormed ∧
      numberOrAdjunct.render =
        "((NOT (((^ SUBJ) NUM) =c 'sg')) OR %x IN (! ADJ))" ∧
      (∃ fresh tree, parsable .disjunction (some 0) = .ok fresh ∧
        (fresh.parse numberOrAdjunct.render).result =
          .ok (.ok (.equation numberOrAdjunct) [] [tree])) ∧
      ∃ fresh values, parsable .disjunction none = .ok fresh ∧
        (fresh.parseValues "NOT X OR Y").result = .ok values ∧
          values.length = 2 ∧ ∀ value ∈ values, ∃ equation,
            value = .equation equation ∧
              (fresh.parseValues equation.render).result =
                .ok [.equation equation] := by
  have wellFormed : numberOrAdjunct.WellFormed := by decide
  refine ⟨wellFormed, by decide, ?_, ?_⟩
  · obtain ⟨fresh, made, written, -⟩ := parse_render (some 0) closureCalls
    obtain ⟨tree, parsed⟩ := written numberOrAdjunct wellFormed
    exact ⟨fresh, tree, (parsable_eq_afterCalls _ _).trans made, parsed []⟩
  · obtain ⟨fresh, made, -, found⟩ := parse_render none closureCalls
    rw [← parsable_eq_afterCalls] at made
    obtain ⟨values, parsed, each⟩ := found "NOT X OR Y"
    refine ⟨fresh, values, made, parsed [], ?_, fun value member => ?_⟩
    · have same := Except.ok.inj
        (made.symm.trans (parsable_eq_ok .disjunction none))
      subst same
      exact Except.ok.inj ((congrArg (Except.map List.length)
        (parsed [])).symm.trans (by decide +kernel))
    · obtain ⟨equation, same, again⟩ := each value member
      exact ⟨equation, same, again []⟩

end EquationGrammar

end SemanticGrammar
