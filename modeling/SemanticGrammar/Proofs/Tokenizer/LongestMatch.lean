import SemanticGrammar.Proofs.Tokenizer.Layout

/-!
# Tokens are longest matches

Which tokens an input has can be said without the order of the literals and
without a scan.  A token is the longest literal at its offset or, if it is
longer than all of these, a word: a text that no symbolic literal starts in and
that goes on to a place where words end.  A literal that is no symbolic one
reaches a place where words end, too.

These conditions determine the length of a token, and so a list of tokens that
meet them and leave out nothing but blanks is the one that is read.
-/

namespace SemanticGrammar

/-- Whether a literal starts at an offset of a text. -/
def StartsAt (literal : String) (text : List Char) (offset : Nat) : Prop :=
  literal.toList <+: text.drop offset

/-- Whether words end at an offset of a text: the text ends there, or a blank
or a symbolic literal stands there. -/
def WordsEndAt (literals : List String) (text : List Char) (offset : Nat) :
    Prop :=
  offset = text.length ∨
    (∃ character, text[offset]? = some character ∧
      Text.isBlank character = true) ∨
    ∃ literal ∈ literals, Text.isSymbolic literal = true ∧
      StartsAt literal text offset

/-- Whether a token is a word that is longer than all literals at its offset. -/
@[mk_iff]
structure IsWordAt (literals : List String) (text : List Char)
    (placed : PlacedToken) : Prop where
  unbroken : Text.isUnbroken placed.token = true
  longer : ∀ literal ∈ literals, StartsAt literal text placed.offset →
    literal.toList.length < placed.token.toList.length
  uncut : ∀ offset, placed.offset ≤ offset → offset < placed.stop →
    ∀ literal ∈ literals, Text.isSymbolic literal = true →
      ¬StartsAt literal text offset
  ends : WordsEndAt literals text placed.stop

/-- Whether a token is the longest match at its offset. -/
@[mk_iff]
structure IsLongestMatch (literals : List String) (text : List Char)
    (placed : PlacedToken) : Prop where
  not_shorter : ∀ literal ∈ literals, StartsAt literal text placed.offset →
    literal.toList.length ≤ placed.token.toList.length
  literal : ∀ literal ∈ literals, StartsAt literal text placed.offset →
    literal.toList.length = placed.token.toList.length →
      placed.token = literal ∧
        (Text.isSymbolic literal = false →
          ∃ offset, placed.offset < offset ∧ offset ≤ placed.stop ∧
            WordsEndAt literals text offset)
  word : (∀ literal ∈ literals, StartsAt literal text placed.offset →
      literal.toList.length ≠ placed.token.toList.length) →
    IsWordAt literals text placed

theorem isLongestMatch_congr {first second : List String}
    (same : ∀ literal, literal ∈ first ↔ literal ∈ second) (text : List Char)
    (placed : PlacedToken) :
    IsLongestMatch first text placed ↔ IsLongestMatch second text placed := by
  simp only [isLongestMatch_iff, isWordAt_iff, WordsEndAt, same]

/-- A longest match is a word or a literal that reaches a place where words
end, unless the literal is symbolic. -/
theorem IsLongestMatch.isWordAt_or {literals : List String} {text : List Char}
    {placed : PlacedToken} (longest : IsLongestMatch literals text placed) :
    IsWordAt literals text placed ∨
      placed.token ∈ literals ∧
        (Text.isSymbolic placed.token = false →
          ∃ offset, placed.offset < offset ∧ offset ≤ placed.stop ∧
            WordsEndAt literals text offset) := by
  by_cases differs : ∀ literal ∈ literals,
      StartsAt literal text placed.offset →
        literal.toList.length ≠ placed.token.toList.length
  · exact Or.inl (longest.word differs)
  · push Not at differs
    obtain ⟨literal, member, starts, same⟩ := differs
    obtain ⟨rfl, ends⟩ := longest.literal literal member starts same
    exact Or.inr ⟨member, ends⟩

namespace Tokenizer

variable {tokenizer : Tokenizer}

/-! ## Where words end -/

theorem anyStarts_symbolicLiterals_iff {text : List Char} {offset : Nat} :
    anyStarts tokenizer.symbolicLiterals (text.drop offset) = true ↔
      ∃ literal ∈ tokenizer.literals, Text.isSymbolic literal = true ∧
        StartsAt literal text offset := by
  simp only [anyStarts, symbolicLiterals, List.any_eq_true, List.mem_filter,
    List.isPrefixOf_iff_prefix, StartsAt, and_assoc]

theorem wordLength_drop_eq_zero_iff {text : List Char} {offset : Nat}
    (within : offset ≤ text.length) :
    wordLength tokenizer.symbolicLiterals (text.drop offset) = 0 ↔
      WordsEndAt tokenizer.literals text offset := by
  rw [WordsEndAt, ← anyStarts_symbolicLiterals_iff, ← List.head?_drop]
  cases remaining : text.drop offset with
  | nil =>
      have ended := List.drop_eq_nil_iff.mp remaining
      exact iff_of_true rfl (Or.inl (by omega))
  | cons character rest =>
      have more : offset ≠ text.length := by
        intro same
        rw [same, List.drop_length] at remaining
        cases remaining
      by_cases blank : Text.isBlank character = true <;>
        simp [wordLength, more, blank]

theorem wordLength_drop_of_not_ends {text : List Char} {offset : Nat}
    (within : offset < text.length)
    (goesOn : ¬WordsEndAt tokenizer.literals text offset) :
    wordLength tokenizer.symbolicLiterals (text.drop offset) =
      wordLength tokenizer.symbolicLiterals (text.drop (offset + 1)) + 1 := by
  rw [← wordLength_drop_eq_zero_iff (Nat.le_of_lt within),
    List.drop_eq_getElem_cons within, wordLength] at goesOn
  rw [List.drop_eq_getElem_cons within, wordLength]
  split at goesOn
  · exact (goesOn rfl).elim
  · rename_i inside
    rw [if_neg inside]

/-- A word has a length when words end there and nowhere before. -/
theorem wordLength_drop_eq_iff {text : List Char} {offset length : Nat}
    (within : offset + length ≤ text.length) :
    wordLength tokenizer.symbolicLiterals (text.drop offset) = length ↔
      (∀ other, offset ≤ other → other < offset + length →
        ¬WordsEndAt tokenizer.literals text other) ∧
        WordsEndAt tokenizer.literals text (offset + length) := by
  induction length generalizing offset with
  | zero =>
      rw [Nat.add_zero] at within ⊢
      rw [wordLength_drop_eq_zero_iff within]
      refine (and_iff_right ?_).symm
      intro other after before
      omega
  | succ length ih =>
      by_cases ends : WordsEndAt tokenizer.literals text offset
      · have zero := (wordLength_drop_eq_zero_iff (by omega)).mpr ends
        refine iff_of_false (by omega) fun ⟨goesOn, _⟩ => ?_
        exact goesOn offset (Nat.le_refl _) (by omega) ends
      · have same : offset + (length + 1) = offset + 1 + length := by omega
        rw [wordLength_drop_of_not_ends (by omega) ends, Nat.add_right_cancel_iff,
          same, ih (by omega)]
        refine and_congr_left fun _ => ⟨fun goesOn other after before => ?_,
          fun goesOn other after before => goesOn other (by omega) before⟩
        rcases Nat.eq_or_lt_of_le after with rfl | later
        · exact ends
        · exact goesOn other later before

theorem wordLength_drop_le {text : List Char} {offset stop : Nat}
    (ordered : offset ≤ stop)
    (ends : WordsEndAt tokenizer.literals text stop) :
    wordLength tokenizer.symbolicLiterals (text.drop offset) ≤
      stop - offset := by
  have within := wordLength_le tokenizer.symbolicLiterals (text.drop offset)
  rw [List.length_drop] at within
  by_contra longer
  have bound : offset + wordLength tokenizer.symbolicLiterals
      (text.drop offset) ≤ text.length := by
    omega
  have goesOn := ((wordLength_drop_eq_iff bound).mp rfl).1
  exact goesOn stop ordered (by omega) ends

/-! ## The token at an offset -/

section Token

variable {text : List Char} {offset : Nat}

theorem eq_of_startsAt_of_length_eq {first second : String}
    (firstStarts : StartsAt first text offset)
    (secondStarts : StartsAt second text offset)
    (same : first.toList.length = second.toList.length) : first = second := by
  apply String.toList_injective
  rw [List.prefix_iff_eq_take.mp firstStarts,
    List.prefix_iff_eq_take.mp secondStarts, same]

theorem not_startsAt_of_isKeyword {keyword literal : String}
    (isKeyword : Text.isKeyword keyword = true)
    (starts : StartsAt keyword text offset)
    (isSymbolic : Text.isSymbolic literal = true)
    (notLonger : literal.toList.length ≤ keyword.toList.length) :
    ¬StartsAt literal text offset := by
  intro literalStarts
  have isPrefix : literal.toList <+: keyword.toList :=
    List.prefix_of_prefix_length_le literalStarts starts notLonger
  rw [Text.isSymbolic, Text.isKeyword, Bool.not_eq_true',
    List.all_eq_false] at isSymbolic
  obtain ⟨character, member, notWord⟩ := isSymbolic
  rw [Text.isKeyword, List.all_eq_true] at isKeyword
  exact notWord (isKeyword character (isPrefix.subset member))

theorem exists_literalAt?_eq_some {literal : String}
    (member : literal ∈ tokenizer.literals)
    (starts : StartsAt literal text offset) :
    ∃ first, tokenizer.literalAt? (text.drop offset) = some first := by
  rw [← Option.isSome_iff_exists, literalAt?, List.find?_isSome]
  exact ⟨literal, member, List.isPrefixOf_iff_prefix.mpr starts⟩

variable (arranged : tokenizer.literals.Pairwise (Text.precedes · · = true))

include arranged in
theorem length_le_tokenLength {literal : String}
    (member : literal ∈ tokenizer.literals)
    (starts : StartsAt literal text offset) :
    literal.toList.length ≤ tokenizer.tokenLength (text.drop offset) := by
  obtain ⟨first, found⟩ := exists_literalAt?_eq_some member starts
  have notShorter := length_le_of_literalAt? arranged found member starts
  rw [tokenLength, found]
  simp only
  split <;> omega

include arranged in
theorem tokenLength_of_longest {literal : String}
    (member : literal ∈ tokenizer.literals)
    (starts : StartsAt literal text offset)
    (longest : ∀ other ∈ tokenizer.literals, StartsAt other text offset →
      other.toList.length ≤ literal.toList.length) :
    tokenizer.tokenLength (text.drop offset) =
      if Text.isKeyword literal then
        max literal.toList.length
          (wordLength tokenizer.symbolicLiterals (text.drop offset))
      else literal.toList.length := by
  obtain ⟨first, found⟩ := exists_literalAt?_eq_some member starts
  obtain ⟨firstMember, firstStarts⟩ := tokenizer.prefix_of_literalAt? found
  have same : literal.toList.length = first.toList.length :=
    Nat.le_antisymm (length_le_of_literalAt? arranged found member starts)
      (longest first firstMember firstStarts)
  obtain rfl := eq_of_startsAt_of_length_eq starts firstStarts same
  rw [tokenLength, found]

theorem tokenLength_eq_wordLength
    (longer : ∀ literal ∈ tokenizer.literals, StartsAt literal text offset →
      literal.toList.length ≠ tokenizer.tokenLength (text.drop offset)) :
    tokenizer.tokenLength (text.drop offset) =
      wordLength tokenizer.symbolicLiterals (text.drop offset) := by
  cases found : tokenizer.literalAt? (text.drop offset) with
  | none => rw [tokenLength, found]
  | some literal =>
      obtain ⟨member, starts⟩ := tokenizer.prefix_of_literalAt? found
      have differs := longer literal member starts
      rw [tokenLength, found] at differs ⊢
      simp only at differs ⊢
      split at differs
      · rename_i isKeyword
        rw [if_pos isKeyword]
        omega
      · exact (differs rfl).elim

end Token

/-! ## Tokens as long as the one at their offset -/

section Placed

variable {text : List Char} {placed : PlacedToken}
  (inside : placed.token.toList <+: text.drop placed.offset)

theorem offset_lt_stop (nonempty : placed.token ≠ "") :
    placed.offset < placed.stop := by
  rw [← String.toList_eq_nil_iff.ne, ← List.length_pos_iff] at nonempty
  rw [PlacedToken.stop]
  omega

include inside in
theorem stop_le_length (nonempty : placed.token ≠ "") :
    placed.stop ≤ text.length := by
  have before := offset_lt_stop nonempty
  have within := inside.length_le
  rw [List.length_drop] at within
  rw [PlacedToken.stop] at before ⊢
  omega

include inside in
/-- Words do not end inside an unbroken text in which no symbolic literal
starts. -/
theorem not_wordsEndAt_of_inside
    (isUnbroken : Text.isUnbroken placed.token = true) {offset : Nat}
    (after : placed.offset ≤ offset) (before : offset < placed.stop)
    (uncut : ∀ literal ∈ tokenizer.literals,
      Text.isSymbolic literal = true → ¬StartsAt literal text offset) :
    ¬WordsEndAt tokenizer.literals text offset := by
  obtain ⟨nonempty, noBlank⟩ := Text.isUnbroken_iff.mp isUnbroken
  have within := stop_le_length inside nonempty
  rintro (ended | ⟨character, found, isBlank⟩ | ⟨literal, member, cuts, starts⟩)
  · omega
  · have position : offset - placed.offset < placed.token.toList.length := by
      rw [PlacedToken.stop] at before
      omega
    have same := List.prefix_iff_getElem?.mp inside _ position
    rw [List.getElem?_drop, Nat.add_sub_cancel' after, found,
      Option.some.injEq] at same
    have notBlank := noBlank character (same ▸ List.getElem_mem position)
    rw [isBlank] at notBlank
    cases notBlank
  · exact uncut literal member cuts starts

variable (unbroken : ∀ literal ∈ tokenizer.literals,
    Text.isUnbroken literal = true)
  (arranged : tokenizer.literals.Pairwise (Text.precedes · · = true))

include unbroken in
theorem IsLongestMatch.isUnbroken
    (longest : IsLongestMatch tokenizer.literals text placed) :
    Text.isUnbroken placed.token = true := by
  rcases longest.isWordAt_or with isWord | ⟨member, -⟩
  · exact isWord.unbroken
  · exact unbroken placed.token member

include inside in
theorem tokenLength_of_isWordAt
    (isWord : IsWordAt tokenizer.literals text placed) :
    tokenizer.tokenLength (text.drop placed.offset) =
      placed.token.toList.length := by
  have nonempty := (Text.isUnbroken_iff.mp isWord.unbroken).1
  have within : placed.offset + placed.token.toList.length ≤ text.length :=
    stop_le_length inside nonempty
  have word : wordLength tokenizer.symbolicLiterals
      (text.drop placed.offset) = placed.token.toList.length := by
    rw [wordLength_drop_eq_iff within]
    refine ⟨fun other after before => ?_, isWord.ends⟩
    exact not_wordsEndAt_of_inside inside isWord.unbroken after before
      (isWord.uncut other after before)
  cases found : tokenizer.literalAt? (text.drop placed.offset) with
  | none =>
      rw [tokenLength, found]
      exact word
  | some literal =>
      obtain ⟨member, starts⟩ := tokenizer.prefix_of_literalAt? found
      have shorter := isWord.longer literal member starts
      have isKeyword : Text.isKeyword literal = true := by
        by_contra notKeyword
        exact isWord.uncut placed.offset (Nat.le_refl _)
          (offset_lt_stop nonempty) literal member
          (by simpa [Text.isSymbolic] using notKeyword) starts
      rw [tokenLength, found]
      simp only [isKeyword, if_true]
      omega

include inside arranged in
theorem tokenLength_of_isLongestMatch
    (longest : IsLongestMatch tokenizer.literals text placed) :
    tokenizer.tokenLength (text.drop placed.offset) =
      placed.token.toList.length := by
  rcases longest.isWordAt_or with isWord | ⟨member, ends⟩
  · exact tokenLength_of_isWordAt inside isWord
  · rw [tokenLength_of_longest arranged member inside longest.not_shorter]
    split
    · rename_i isKeyword
      obtain ⟨offset, later, within, ends⟩ :=
        ends (by rw [Text.isSymbolic, isKeyword, Bool.not_true])
      have word := wordLength_drop_le (Nat.le_of_lt later) ends
      rw [PlacedToken.stop] at within
      omega
    · rfl

include inside arranged in
/-- A keyword that is as long as the token at its offset reaches a place where
words end: the end of the word that starts with it. -/
theorem exists_wordsEndAt_of_isKeyword
    (isUnbroken : Text.isUnbroken placed.token = true)
    (member : placed.token ∈ tokenizer.literals)
    (isKeyword : Text.isKeyword placed.token = true)
    (length : tokenizer.tokenLength (text.drop placed.offset) =
      placed.token.toList.length) :
    ∃ offset, placed.offset < offset ∧ offset ≤ placed.stop ∧
      WordsEndAt tokenizer.literals text offset := by
  have nonempty := (Text.isUnbroken_iff.mp isUnbroken).1
  have within : placed.offset + placed.token.toList.length ≤ text.length :=
    stop_le_length inside nonempty
  have longest : ∀ other ∈ tokenizer.literals,
      StartsAt other text placed.offset →
        other.toList.length ≤ placed.token.toList.length := by
    intro other otherMember otherStarts
    rw [← length]
    exact length_le_tokenLength arranged otherMember otherStarts
  have notLonger := tokenLength_of_longest arranged member inside longest
  rw [length, if_pos isKeyword] at notLonger
  have goesOn : ¬WordsEndAt tokenizer.literals text placed.offset :=
    not_wordsEndAt_of_inside inside isUnbroken (Nat.le_refl _)
      (offset_lt_stop nonempty) fun other otherMember isSymbolic otherStarts =>
        not_startsAt_of_isKeyword isKeyword inside isSymbolic
          (longest other otherMember otherStarts) otherStarts
  -- So a word starts with the keyword, and it ends inside of it or with it.
  rw [← wordLength_drop_eq_zero_iff (by omega)] at goesOn
  refine ⟨placed.offset + wordLength tokenizer.symbolicLiterals
    (text.drop placed.offset), by omega, ?_, ?_⟩
  · rw [PlacedToken.stop]
    omega
  · exact ((wordLength_drop_eq_iff (by omega)).mp rfl).2

include inside arranged in
/-- An unbroken text that is as long as the token at its offset is the longest
match there. -/
theorem isLongestMatch_of_tokenLength
    (isUnbroken : Text.isUnbroken placed.token = true)
    (length : tokenizer.tokenLength (text.drop placed.offset) =
      placed.token.toList.length) :
    IsLongestMatch tokenizer.literals text placed := by
  have within : placed.offset + placed.token.toList.length ≤ text.length :=
    stop_le_length inside (Text.isUnbroken_iff.mp isUnbroken).1
  refine ⟨fun literal member starts => ?_, fun literal member starts same => ?_,
    fun differs => ?_⟩
  · rw [← length]
    exact length_le_tokenLength arranged member starts
  · obtain rfl := eq_of_startsAt_of_length_eq inside starts same.symm
    refine ⟨rfl, fun isKeyword => ?_⟩
    rw [Text.isSymbolic, Bool.not_eq_false'] at isKeyword
    exact exists_wordsEndAt_of_isKeyword inside arranged isUnbroken member
      isKeyword length
  · have word := tokenLength_eq_wordLength fun literal member starts => by
      rw [length]
      exact differs literal member starts
    rw [length] at word
    obtain ⟨goesOn, ends⟩ := (wordLength_drop_eq_iff within).mp word.symm
    refine ⟨isUnbroken, fun literal member starts => ?_,
      fun offset after before literal member isSymbolic starts => ?_, ends⟩
    · have notLonger := length_le_tokenLength arranged member starts
      rw [length] at notLonger
      exact Nat.lt_of_le_of_ne notLonger (differs literal member starts)
    · exact goesOn offset after before
        (Or.inr (Or.inr ⟨literal, member, isSymbolic, starts⟩))

end Placed

/-! ## All tokens of an input -/

section Input

variable (unbroken : ∀ literal ∈ tokenizer.literals,
    Text.isUnbroken literal = true)
  (arranged : tokenizer.literals.Pairwise (Text.precedes · · = true))

include unbroken arranged in
theorem isLongestMatch_of_mem_placedAfter {text rest : List Char}
    {skipped offset : Nat} (remaining : text.drop offset = rest)
    {placed : PlacedToken}
    (member : placed ∈ tokenizer.placedAfter skipped offset rest) :
    IsLongestMatch tokenizer.literals text placed := by
  induction rest generalizing skipped offset with
  | nil => cases skipped <;> cases member
  | cons character rest ih =>
      have next : text.drop (offset + 1) = rest := by
        rw [← List.drop_drop, remaining, List.drop_one, List.tail_cons]
      cases skipped with
      | succ skipped => exact ih next member
      | zero =>
          have token : Text.isUnbroken placed.token = true := by
            apply isUnbroken_of_mem_tokensAfter unbroken
            rw [← map_token_placedAfter]
            exact List.mem_map_of_mem member
          rw [placedAfter] at member
          split at member
          · exact ih next member
          · rcases List.mem_cons.mp member with rfl | later
            · apply isLongestMatch_of_tokenLength ?_ arranged token ?_
              · rw [String.toList_ofList, remaining]
                exact List.take_prefix _ _
              · rw [String.toList_ofList, remaining]
                exact (List.length_take_of_le
                  (tokenizer.tokenLength_le _)).symm
            · exact ih next later

theorem placedAfter_append_of_blank {gap : List Char}
    (blank : ∀ character ∈ gap, Text.isBlank character = true) (offset : Nat)
    (text : List Char) :
    tokenizer.placedAfter 0 offset (gap ++ text) =
      tokenizer.placedAfter 0 (offset + gap.length) text := by
  induction gap generalizing offset with
  | nil => rfl
  | cons character gap ih =>
      rw [List.forall_mem_cons] at blank
      rw [List.cons_append, placedAfter, if_pos blank.1, ih blank.2,
        List.length_cons, Nat.add_right_comm, Nat.add_assoc]

theorem placedAfter_eq_drop (skipped offset : Nat) (text : List Char) :
    tokenizer.placedAfter skipped offset text =
      tokenizer.placedAfter 0 (offset + skipped) (text.drop skipped) := by
  induction text generalizing skipped offset with
  | nil => cases skipped <;> simp [placedAfter]
  | cons character rest ih =>
      cases skipped with
      | zero => rfl
      | succ skipped =>
          rw [placedAfter, ih, List.drop_succ_cons, Nat.add_right_comm,
            Nat.add_assoc]

theorem placedAfter_of_tokenLength {text : List Char} {placed : PlacedToken}
    (inside : placed.token.toList <+: text.drop placed.offset)
    (isUnbroken : Text.isUnbroken placed.token = true)
    (length : tokenizer.tokenLength (text.drop placed.offset) =
      placed.token.toList.length) :
    tokenizer.placedAfter 0 placed.offset (text.drop placed.offset) =
      placed :: tokenizer.placedAfter 0 placed.stop
        (text.drop placed.stop) := by
  obtain ⟨nonempty, noBlank⟩ := Text.isUnbroken_iff.mp isUnbroken
  obtain ⟨after, split⟩ := inside
  have dropped : text.drop placed.stop = after := by
    rw [PlacedToken.stop, ← List.drop_drop, ← split, List.drop_left]
  have token : (text.drop placed.offset).take placed.token.toList.length =
      placed.token.toList := by
    rw [← split, List.take_left]
  rw [← String.toList_eq_nil_iff.ne] at nonempty
  obtain ⟨character, rest, spelled⟩ := List.exists_cons_of_ne_nil nonempty
  have notBlank : ¬Text.isBlank character = true := by
    rw [noBlank character (by rw [spelled]; exact List.mem_cons_self)]
    exact Bool.false_ne_true
  have remaining : text.drop placed.offset = character :: (rest ++ after) := by
    rw [← split, spelled, List.cons_append]
  rw [remaining] at token length ⊢
  rw [placedAfter, if_neg notBlank]
  simp only [length, token, String.ofList_toList]
  rw [placedAfter_eq_drop, dropped, PlacedToken.stop, spelled,
    List.length_cons, Nat.add_sub_cancel, List.drop_left, Nat.add_right_comm,
    Nat.add_assoc]

include unbroken arranged in
/-- A layout of longest matches is the one that is read.  The induction is on
the layout. -/
theorem eq_placedAfter_of_isLayout {text : List Char} {start : Nat}
    {placed : List PlacedToken} (layout : IsLayout text start placed)
    (longest : ∀ one ∈ placed, IsLongestMatch tokenizer.literals text one) :
    placed = tokenizer.placedAfter 0 start (text.drop start) := by
  induction layout with
  | @nil start blank =>
      have all := blank.take_drop
      rw [List.take_of_length_le (by simp)] at all
      have read := tokenizer.placedAfter_append_of_blank all start []
      rw [List.append_nil] at read
      rw [read, placedAfter]
  | @cons start first later ordered blank inside rest ih =>
      rw [List.forall_mem_cons] at longest
      have isUnbroken := IsLongestMatch.isUnbroken unbroken longest.1
      have length := tokenLength_of_isLongestMatch inside arranged longest.1
      have gap : ((text.drop start).take (first.offset - start)).length =
          first.offset - start := by
        have before := offset_lt_stop (Text.isUnbroken_iff.mp isUnbroken).1
        have within := stop_le_length inside
          (Text.isUnbroken_iff.mp isUnbroken).1
        rw [List.length_take, List.length_drop]
        omega
      have split := List.take_append_drop (first.offset - start)
        (text.drop start)
      rw [List.drop_drop, Nat.add_sub_cancel' ordered] at split
      calc first :: later
          = first :: tokenizer.placedAfter 0 first.stop
              (text.drop first.stop) := by
            rw [← ih longest.2]
        _ = tokenizer.placedAfter 0 first.offset (text.drop first.offset) :=
            (placedAfter_of_tokenLength inside isUnbroken length).symm
        _ = tokenizer.placedAfter 0 start (text.drop start) := by
            rw [← split, placedAfter_append_of_blank blank.take_drop, gap,
              Nat.add_sub_cancel' ordered]

end Input

/-- The tokens of an input, as the lexer of the token types gives them, are
longest matches with nothing but blanks outside of them, and no other tokens
are. -/
theorem tokenize_longest_match {literals : List String}
    (made : ofLiterals? literals = .ok tokenizer) (input : String) :
    TokenType.lexAfter tokenizer.tokenTypes 0 input.toList =
        .ok (tokenizer.tokenize input) ∧
      (tokenizer.placedTokens input).map PlacedToken.token =
        tokenizer.tokenize input ∧
      ∀ placed : List PlacedToken,
        (IsLayout input.toList 0 placed ∧
          ∀ one ∈ placed, IsLongestMatch literals input.toList one) ↔
            placed = tokenizer.placedTokens input := by
  have members : ∀ literal, literal ∈ tokenizer.literals ↔
      literal ∈ literals := fun literal => mem_literals_of_ofLiterals? made
  have nonempty : ∀ literal ∈ tokenizer.literals, literal ≠ "" :=
    fun literal => ne_empty_of_mem_literals made
  obtain ⟨allUnbroken, -, arrangement⟩ := ofLiterals?_eq_ok_iff.mp made
  have unbroken : ∀ literal ∈ tokenizer.literals,
      Text.isUnbroken literal = true := fun literal member =>
    allUnbroken literal ((members literal).mp member)
  have arranged : tokenizer.literals.Pairwise (Text.precedes · · = true) := by
    rw [arrangement]
    exact pairwise_arrange _
  refine ⟨lexAfter_tokenTypes nonempty 0 input.toList,
    map_token_placedTokens input, fun placed => ⟨?_, ?_⟩⟩
  · rintro ⟨layout, longest⟩
    exact eq_placedAfter_of_isLayout unbroken arranged layout fun one member =>
      (isLongestMatch_congr members input.toList one).mpr (longest one member)
  · rintro rfl
    refine ⟨isLayout_placedTokens nonempty input, fun one member => ?_⟩
    rw [← isLongestMatch_congr members]
    exact isLongestMatch_of_mem_placedAfter unbroken arranged rfl member

/-- A keyword gives way to a longer word, but not to a symbolic literal inside
of it. -/
theorem tokenize_longest_match_keywords :
    ∃ tokenizer, ofLiterals? ["IN", "c=", "INc", "="] = .ok tokenizer ∧
      tokenizer.tokenize "INc=INcx INxc=" =
        ["INc", "=", "INcx", "INx", "c="] ∧
      ∀ placed : List PlacedToken,
        (IsLayout "INc=INcx INxc=".toList 0 placed ∧
          ∀ one ∈ placed, IsLongestMatch ["IN", "c=", "INc", "="]
            "INc=INcx INxc=".toList one) ↔
          placed = [⟨0, "INc"⟩, ⟨3, "="⟩, ⟨4, "INcx"⟩, ⟨9, "INx"⟩,
            ⟨12, "c="⟩] := by
  let tokenizer : Tokenizer := ⟨["INc", "IN", "c=", "="]⟩
  have made : ofLiterals? ["IN", "c=", "INc", "="] = .ok tokenizer := by
    decide +kernel
  have placed : tokenizer.placedTokens "INc=INcx INxc=" =
      [⟨0, "INc"⟩, ⟨3, "="⟩, ⟨4, "INcx"⟩, ⟨9, "INx"⟩, ⟨12, "c="⟩] := by
    decide +kernel
  obtain ⟨-, tokens, longest⟩ :=
    tokenize_longest_match made "INc=INcx INxc="
  rw [placed] at tokens longest
  exact ⟨tokenizer, made, tokens.symm, longest⟩

end Tokenizer

end SemanticGrammar
