import Mathlib.Data.List.Basic
import Mathlib.Data.List.Induction
import SemanticGrammar.FirstOccurrence

/-!
# Members with new keys

The first occurrences of a list are its members whose key no member before
them has.  A list that is read to its end gains its last member or nothing,
so that all that is said here is shown by following a list to its end.

Dropping repetitions early changes nothing: first occurrences of parts, or of
members whose keys are then replaced by coarser ones, have the same first
occurrences as the whole.
-/

namespace SemanticGrammar

/-- The members of a list whose key no member before them has, each looked up
at its place. -/
def newMembersBy {α κ : Type} [DecidableEq κ] (key : α → κ)
    (members : List α) : List α :=
  (members.zipIdx.filter fun placed =>
    key placed.1 ∉ (members.take placed.2).map key).map Prod.fst

section

variable {α β κ κ' : Type} [DecidableEq κ] [DecidableEq κ'] (key : α → κ)

/-! ## One more member -/

theorem unionBy_singleton (known : List α) (member : α) :
    unionBy key known [member] =
      if key member ∈ known.map key then known else known ++ [member] :=
  rfl

theorem mem_map_firstOccurrencesBy {members : List α} {wanted : κ} :
    wanted ∈ (firstOccurrencesBy key members).map key ↔
      wanted ∈ members.map key := by
  simp [firstOccurrencesBy, mem_map_unionBy]

theorem firstOccurrencesBy_concat (members : List α) (member : α) :
    firstOccurrencesBy key (members ++ [member]) =
      if key member ∈ members.map key then firstOccurrencesBy key members
      else firstOccurrencesBy key members ++ [member] := by
  rw [firstOccurrencesBy, unionBy_append, unionBy_singleton,
    ← firstOccurrencesBy]
  simp only [mem_map_firstOccurrencesBy]

theorem newMembersBy_concat (members : List α) (member : α) :
    newMembersBy key (members ++ [member]) =
      if key member ∈ members.map key then newMembersBy key members
      else newMembersBy key members ++ [member] := by
  have earlier : members.zipIdx.filter (fun placed =>
        key placed.1 ∉ ((members ++ [member]).take placed.2).map key) =
      members.zipIdx.filter fun placed =>
        key placed.1 ∉ (members.take placed.2).map key := by
    apply List.filter_congr
    intro placed inside
    have before : placed.2 ≤ members.length :=
      Nat.le_of_lt (List.snd_lt_of_mem_zipIdx inside)
    rw [List.take_append_of_le_length before]
  rw [newMembersBy, List.zipIdx_append, List.filter_append, earlier]
  by_cases known : key member ∈ members.map key
  · simp [newMembersBy, known]
  · simp [newMembersBy, known]

theorem firstOccurrencesBy_eq_newMembersBy (members : List α) :
    firstOccurrencesBy key members = newMembersBy key members := by
  induction members using List.reverseRecOn with
  | nil => rfl
  | append_singleton members member ih =>
      rw [firstOccurrencesBy_concat, newMembersBy_concat, ih]

/-! ## Order -/

/-- First occurrences stand in the order in which their keys are first met. -/
theorem pairwise_firstOccurrencesBy (members : List α) :
    (firstOccurrencesBy key members).Pairwise fun first second =>
      (members.map key).idxOf (key first) <
        (members.map key).idxOf (key second) := by
  induction members using List.reverseRecOn with
  | nil => exact List.Pairwise.nil
  | append_singleton members member ih =>
      have isKnown : ∀ other ∈ firstOccurrencesBy key members,
          key other ∈ members.map key := fun other isFirst =>
        (mem_map_firstOccurrencesBy key).mp (List.mem_map_of_mem isFirst)
      have ordered : (firstOccurrencesBy key members).Pairwise
          fun first second =>
            ((members ++ [member]).map key).idxOf (key first) <
              ((members ++ [member]).map key).idxOf (key second) := by
        apply ih.imp_of_mem
        intro first second isFirst isFirst' before
        rw [List.map_append, List.idxOf_append_of_mem (isKnown first isFirst),
          List.idxOf_append_of_mem (isKnown second isFirst')]
        exact before
      rw [firstOccurrencesBy_concat]
      split
      · exact ordered
      · rename_i isNew
        rw [List.pairwise_append]
        refine ⟨ordered, List.pairwise_singleton _ _, ?_⟩
        intro first isFirst last isLast
        obtain rfl := List.mem_singleton.mp isLast
        rw [List.map_append, List.idxOf_append_of_mem (isKnown first isFirst),
          List.idxOf_append_of_notMem isNew]
        exact Nat.lt_add_right _ (List.idxOf_lt_length_iff.mpr
          (isKnown first isFirst))

/-! ## Repetitions that are dropped early -/

theorem unionBy_firstOccurrencesBy (known more : List α) :
    unionBy key known (firstOccurrencesBy key more) =
      unionBy key known more := by
  induction more using List.reverseRecOn with
  | nil => rfl
  | append_singleton more member ih =>
      rw [firstOccurrencesBy_concat, unionBy_append, ← ih]
      split
      · rename_i present
        have known' : key member ∈
            (unionBy key known (firstOccurrencesBy key more)).map key := by
          rw [mem_map_unionBy, mem_map_firstOccurrencesBy]
          exact Or.inr present
        rw [unionBy_singleton, if_pos known']
      · rw [unionBy_append]

theorem firstOccurrencesBy_append (first second : List α) :
    firstOccurrencesBy key (first ++ second) =
      unionBy key (firstOccurrencesBy key first)
        (firstOccurrencesBy key second) := by
  rw [unionBy_firstOccurrencesBy, firstOccurrencesBy, unionBy_append]
  rfl

variable {key}

theorem firstOccurrencesBy_map_firstOccurrencesBy {key' : β → κ'}
    {change : α → β} {members : List α}
    (respects : ∀ first ∈ members, ∀ second ∈ members,
      key first = key second → key' (change first) = key' (change second)) :
    firstOccurrencesBy key' ((firstOccurrencesBy key members).map change) =
      firstOccurrencesBy key' (members.map change) := by
  induction members using List.reverseRecOn with
  | nil => rfl
  | append_singleton members member ih =>
      have respects' : ∀ first ∈ members, ∀ second ∈ members,
          key first = key second →
            key' (change first) = key' (change second) :=
        fun first isFirst second isSecond => respects
          first (List.mem_append_left _ isFirst)
          second (List.mem_append_left _ isSecond)
      rw [firstOccurrencesBy_concat, List.map_append]
      split
      · rename_i present
        obtain ⟨earlier, isMember, same⟩ := List.mem_map.mp present
        have known : key' (change member) ∈ (members.map change).map key' := by
          rw [← respects earlier (List.mem_append_left _ isMember) member
            (by simp) same]
          exact List.mem_map_of_mem (List.mem_map_of_mem isMember)
        rw [ih respects', List.map_singleton, firstOccurrencesBy_concat,
          if_pos known]
      · rw [List.map_append, firstOccurrencesBy_append, ih respects',
          ← firstOccurrencesBy_append]

theorem map_firstOccurrencesBy (members : List α) :
    (firstOccurrencesBy key members).map key =
      firstOccurrences (members.map key) := by
  induction members using List.reverseRecOn with
  | nil => rfl
  | append_singleton members member ih =>
      rw [firstOccurrencesBy_concat, List.map_append, List.map_singleton,
        firstOccurrences, firstOccurrencesBy_concat, ← firstOccurrences, ← ih,
        id, List.map_id]
      split
      · rfl
      · rw [List.map_append, List.map_singleton]

end

end SemanticGrammar
