import Mathlib.Data.List.Basic
import SemanticGrammar.Symbol

/-!
# Keys determine productions

The key of a production writes its handles in decimal digits, the head before
a colon and the constituents between commas.  Neither mark is a digit and each
handle has a digit, so two productions with one key are the same.
-/

namespace SemanticGrammar

/-- The first mark that is no digit divides a text in one way. -/
theorem append_cons_inj_of_digits {front front' rest rest' : List Char}
    {mark mark' : Char} (digits : ∀ digit ∈ front, digit.isDigit = true)
    (digits' : ∀ digit ∈ front', digit.isDigit = true)
    (isMark : mark.isDigit = false) (isMark' : mark'.isDigit = false)
    (same : front ++ mark :: rest = front' ++ mark' :: rest') :
    front = front' ∧ rest = rest' := by
  induction front generalizing front' with
  | nil =>
      cases front' with
      | nil => exact ⟨rfl, (List.cons.inj same).2⟩
      | cons digit' front' =>
          obtain rfl := (List.cons.inj same).1
          rw [digits' mark List.mem_cons_self] at isMark
          cases isMark
  | cons digit front ih =>
      cases front' with
      | nil =>
          obtain rfl := (List.cons.inj same).1
          rw [digits digit List.mem_cons_self] at isMark'
          cases isMark'
      | cons digit' front' =>
          obtain ⟨rfl, sameRest⟩ := List.cons.inj same
          rw [List.forall_mem_cons] at digits digits'
          obtain ⟨rfl, rfl⟩ := ih digits.2 digits'.2 sameRest
          exact ⟨rfl, rfl⟩

namespace Symbol

def digits (symbol : Symbol) : List Char :=
  Nat.toDigits 10 symbol.id

theorem isDigit_of_mem_digits {symbol : Symbol} {digit : Char}
    (member : digit ∈ symbol.digits) : digit.isDigit = true :=
  Nat.isDigit_of_mem_toDigits (by decide) (by decide) member

theorem digits_injective {first second : Symbol}
    (same : first.digits = second.digits) : first = second := by
  have read := congrArg (fun digits => Nat.ofDigitChars 10 digits 0) same
  simp only [digits, Nat.ofDigitChars_toDigits (by decide : 1 < 10)
    (by decide)] at read
  cases first
  cases second
  exact congrArg Symbol.mk read

end Symbol

namespace Production

def enumeration (symbols : List Symbol) : List Char :=
  symbols.flatMap fun symbol => symbol.digits ++ [',']

theorem enumeration_injective {symbols symbols' : List Symbol}
    (same : enumeration symbols = enumeration symbols') :
    symbols = symbols' := by
  induction symbols generalizing symbols' with
  | nil =>
      cases symbols' with
      | nil => rfl
      | cons first' rest' => simp [enumeration] at same
  | cons first rest ih =>
      cases symbols' with
      | nil => simp [enumeration] at same
      | cons first' rest' =>
          simp only [enumeration, List.flatMap_cons, List.append_assoc,
            List.singleton_append] at same
          obtain ⟨firsts, rests⟩ := append_cons_inj_of_digits
            (fun _ => Symbol.isDigit_of_mem_digits)
            (fun _ => Symbol.isDigit_of_mem_digits) (by decide) (by decide) same
          rw [Symbol.digits_injective firsts, ih rests]

/-- One comma more makes an enumeration of the constituents in a key. -/
theorem intercalate_append_comma (first : Symbol) (rest : List Symbol) :
    [','].intercalate ((first :: rest).map Symbol.digits) ++ [','] =
      enumeration (first :: rest) := by
  induction rest generalizing first with
  | nil => simp [enumeration]
  | cons second rest ih =>
      rw [List.map_cons, List.map_cons, List.intercalate_cons_cons,
        List.append_assoc, ← List.map_cons, ih]
      simp [enumeration]

theorem intercalate_cons_ne_nil (first : Symbol) (rest : List Symbol) :
    [','].intercalate ((first :: rest).map Symbol.digits) ≠ [] := by
  cases rest with
  | nil => simp [Symbol.digits, Nat.toDigits_ne_nil]
  | cons second rest => simp [List.intercalate_cons_cons]

theorem intercalate_injective {symbols symbols' : List Symbol}
    (same : [','].intercalate (symbols.map Symbol.digits) =
      [','].intercalate (symbols'.map Symbol.digits)) :
    symbols = symbols' := by
  cases symbols with
  | nil =>
      cases symbols' with
      | nil => rfl
      | cons first' rest' =>
          exact (intercalate_cons_ne_nil first' rest' same.symm).elim
  | cons first rest =>
      cases symbols' with
      | nil => exact (intercalate_cons_ne_nil first rest same).elim
      | cons first' rest' =>
          apply enumeration_injective
          rw [← intercalate_append_comma, same, intercalate_append_comma]

theorem toList_key (production : Production) :
    production.key.toList = production.head.digits ++
      ':' :: [','].intercalate (production.constituents.map Symbol.digits) := by
  simp [key, keyWith, String.toList_intercalate, Function.comp_def]
  rfl

theorem key_injective {first second : Production}
    (same : first.key = second.key) : first = second := by
  have texts := congrArg String.toList same
  rw [toList_key, toList_key] at texts
  obtain ⟨heads, others⟩ := append_cons_inj_of_digits
    (fun _ => Symbol.isDigit_of_mem_digits)
    (fun _ => Symbol.isDigit_of_mem_digits) (by decide) (by decide) texts
  cases first
  cases second
  exact congrArg₂ Production.mk (Symbol.digits_injective heads)
    (intercalate_injective others)

end Production

end SemanticGrammar
