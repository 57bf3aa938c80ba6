/-!
# Lists without repetitions, in order of first occurrence

Closures, token sets and identifier lists keep one member for each key, and
their order is the order in which the keys were first met.
-/

namespace SemanticGrammar

/-- Append to `known`, in order, each member of `more` whose key is new. -/
def unionBy {α κ : Type} [DecidableEq κ] (key : α → κ)
    (known more : List α) : List α :=
  more.foldl
    (fun found member =>
      if key member ∈ found.map key then found else found ++ [member])
    known

/-- The members of a list whose key has not occurred before them. -/
def firstOccurrencesBy {α κ : Type} [DecidableEq κ] (key : α → κ)
    (members : List α) : List α :=
  unionBy key [] members

/-- The members of a list without repetitions. -/
def firstOccurrences {α : Type} [DecidableEq α] (members : List α) : List α :=
  firstOccurrencesBy id members

@[simp]
theorem unionBy_nil {α κ : Type} [DecidableEq κ] (key : α → κ)
    (known : List α) :
    unionBy key known [] = known :=
  rfl

theorem unionBy_cons {α κ : Type} [DecidableEq κ] (key : α → κ)
    (known : List α) (member : α) (more : List α) :
    unionBy key known (member :: more) =
      unionBy key
        (if key member ∈ known.map key then known else known ++ [member])
        more :=
  rfl

theorem unionBy_append {α κ : Type} [DecidableEq κ] (key : α → κ)
    (known first second : List α) :
    unionBy key known (first ++ second) =
      unionBy key (unionBy key known first) second := by
  simp [unionBy, List.foldl_append]

theorem mem_map_unionBy {α κ : Type} [DecidableEq κ] (key : α → κ)
    (known more : List α) (wanted : κ) :
    wanted ∈ (unionBy key known more).map key ↔
      wanted ∈ known.map key ∨ wanted ∈ more.map key := by
  induction more generalizing known with
  | nil => simp
  | cons member more induction =>
      rw [unionBy_cons, induction]
      split
      · rename_i present
        constructor
        · rintro (left | right)
          · exact Or.inl left
          · exact Or.inr (List.mem_cons_of_mem _ right)
        · rintro (left | right)
          · exact Or.inl left
          · rcases List.mem_cons.mp right with same | later
            · exact Or.inl (same ▸ present)
            · exact Or.inr later
      · simp [or_assoc]

theorem nodup_map_unionBy {α κ : Type} [DecidableEq κ] (key : α → κ)
    (known more : List α) (distinct : (known.map key).Nodup) :
    ((unionBy key known more).map key).Nodup := by
  induction more generalizing known with
  | nil => simpa using distinct
  | cons member more induction =>
      rw [unionBy_cons]
      apply induction
      split
      · exact distinct
      · rename_i absent
        rw [List.map_append, List.nodup_append]
        refine ⟨distinct, by simp, ?_⟩
        intro left leftMem right rightMem same
        simp only [List.map_cons, List.map_nil, List.mem_singleton] at rightMem
        exact absent (rightMem ▸ same ▸ leftMem)

theorem mem_firstOccurrences {α : Type} [DecidableEq α] {member : α}
    {members : List α} :
    member ∈ firstOccurrences members ↔ member ∈ members := by
  simpa [firstOccurrences, firstOccurrencesBy] using
    mem_map_unionBy id [] members member

theorem nodup_firstOccurrences {α : Type} [DecidableEq α] (members : List α) :
    (firstOccurrences members).Nodup := by
  simpa [firstOccurrences, firstOccurrencesBy] using
    nodup_map_unionBy id [] members List.nodup_nil

theorem find?_unionBy {α : Type} [DecidableEq α] (test : α → Bool)
    (known more : List α) :
    (unionBy id known more).find? test = (known ++ more).find? test := by
  induction more generalizing known with
  | nil => simp
  | cons member more induction =>
      rw [unionBy_cons, induction]
      split
      · rename_i present
        rw [id, List.map_id] at present
        rw [List.find?_append, List.find?_append, List.find?_cons]
        -- A repetition is only reached when no earlier member passes.
        cases missed : known.find? test with
        | some found => rfl
        | none =>
            rw [List.find?_eq_none] at missed
            simp [missed member present]
      · rw [List.append_assoc, List.singleton_append]

/-- The first member that passes a test is no repetition. -/
theorem find?_firstOccurrences {α : Type} [DecidableEq α] (test : α → Bool)
    (members : List α) :
    (firstOccurrences members).find? test = members.find? test :=
  find?_unionBy test [] members

end SemanticGrammar
