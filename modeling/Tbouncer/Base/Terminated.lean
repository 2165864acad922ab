import Mathlib.Data.List.Induction

/-!
# Terminated words

Words are written one after the other, each followed by a terminator that none of them
contains. A reader that cuts at the terminators gets the words back, and what it accepts
has been written so.
-/

namespace Tbouncer.Base

section
variable {α : Type} (z : α)

def terminate (words : List (List α)) : List α := words.flatMap fun w => w ++ [z]

theorem terminate_cons (w : List α) (words : List (List α)) :
    terminate z (w :: words) = w ++ z :: terminate z words := by
  rw [terminate, List.flatMap_cons, List.append_assoc, List.singleton_append, terminate]

theorem terminate_snoc (words : List (List α)) (w : List α) :
    terminate z (words ++ [w]) = terminate z words ++ w ++ [z] := by
  simp [terminate]

variable [DecidableEq α]

/- Nothing may follow the last terminator. -/
def unterminate (xs : List α) : Option (List (List α)) :=
  if (xs.splitOn z).getLast? = some [] then some (xs.splitOn z).dropLast else none

theorem splitOn_terminate {words : List (List α)} (h : ∀ w ∈ words, z ∉ w) {rest : List α}
    (hrest : z ∉ rest) : (terminate z words ++ rest).splitOn z = words ++ [rest] := by
  induction words with
  | nil => exact List.splitOn_eq_singleton hrest
  | cons w words ih =>
    have hw : z ∉ w := h w (List.mem_cons_self ..)
    rw [terminate_cons, List.append_assoc, List.cons_append,
      List.splitOn_append_cons_self_of_not_mem hw, ih fun v hv => h v (List.mem_cons_of_mem w hv),
      List.cons_append]

/- Every input is terminated words and a rest. -/
theorem exists_terminate (xs : List α) :
    ∃ words rest, xs = terminate z words ++ rest ∧ (∀ w ∈ words, z ∉ w) ∧ z ∉ rest := by
  induction xs using List.reverseRecOn with
  | nil => exact ⟨[], [], rfl, List.forall_mem_nil _, List.not_mem_nil⟩
  | append_singleton xs x ih =>
    obtain ⟨words, rest, rfl, hwords, hrest⟩ := ih
    by_cases hx : z = x
    · refine ⟨words ++ [rest], [], ?_, ?_, List.not_mem_nil⟩
      · rw [terminate_snoc, List.append_nil, hx]
      · intro w hw
        rcases List.mem_append.mp hw with hw | hw
        · exact hwords w hw
        · rw [List.mem_singleton.mp hw]
          exact hrest
    · refine ⟨words, rest ++ [x], List.append_assoc .., hwords, ?_⟩
      simp [hrest, hx]

theorem unterminate_terminate {words : List (List α)} (h : ∀ w ∈ words, z ∉ w) :
    unterminate z (terminate z words) = some words := by
  have hsplit : (terminate z words ++ []).splitOn z = words ++ [[]] :=
    splitOn_terminate z h List.not_mem_nil
  rw [List.append_nil] at hsplit
  rw [unterminate, hsplit, List.getLast?_concat, if_pos rfl, List.dropLast_concat]

theorem unterminate_eq_some_iff {xs : List α} {words : List (List α)} :
    unterminate z xs = some words ↔ terminate z words = xs ∧ ∀ w ∈ words, z ∉ w := by
  constructor
  · intro h
    obtain ⟨ws, rest, rfl, hws, hrest⟩ := exists_terminate z xs
    rw [unterminate, splitOn_terminate z hws hrest, List.getLast?_concat, List.dropLast_concat] at h
    split at h
    next hnil =>
      cases h
      rw [Option.some.inj hnil, List.append_nil]
      exact ⟨rfl, hws⟩
    next => cases h
  · rintro ⟨rfl, h⟩
    exact unterminate_terminate z h

end

end Tbouncer.Base
