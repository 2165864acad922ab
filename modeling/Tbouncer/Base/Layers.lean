import Mathlib.Data.List.Induction

/-!
# Strings written over one another

Each is stored from the front, and what reached beyond it before still does.
-/

namespace Tbouncer.Base
variable {α : Type}

def cover (top under : List α) : List α := top ++ under.drop top.length

/- What several strings leave, the last of them on top. -/
def laid (layers : List (List α)) : List α := layers.foldl (fun under top => cover top under) []

theorem laid_snoc (layers : List (List α)) (top : List α) :
    laid (layers ++ [top]) = cover top (laid layers) := by
  rw [laid, List.foldl_append]
  rfl

theorem cover_length_le_iff {top under : List α} {n : ℕ} :
    (cover top under).length ≤ n ↔ top.length ≤ n ∧ under.length ≤ n := by
  rw [cover, List.length_append, List.length_drop]
  omega

theorem laid_length_le_iff (layers : List (List α)) (n : ℕ) :
    (laid layers).length ≤ n ↔ ∀ layer ∈ layers, layer.length ≤ n := by
  induction layers using List.reverseRecOn with
  | nil => simp [laid]
  | append_singleton layers top ih =>
    rw [laid_snoc, cover_length_le_iff, ih, List.forall_mem_append, List.forall_mem_singleton,
      and_comm]

/- The last string is all there is, if none of the others was longer. -/
theorem laid_snoc_eq_iff (layers : List (List α)) (top : List α) :
    laid (layers ++ [top]) = top ↔ ∀ layer ∈ layers, layer.length ≤ top.length := by
  rw [laid_snoc, cover, List.append_right_eq_self, List.drop_eq_nil_iff, laid_length_le_iff]

theorem mem_laid {layers : List (List α)} {x : α} (h : x ∈ laid layers) :
    ∃ layer ∈ layers, x ∈ layer := by
  induction layers using List.reverseRecOn with
  | nil => cases h
  | append_singleton layers top ih =>
    rw [laid_snoc] at h
    rcases List.mem_append.mp h with htop | hunder
    · exact ⟨top, List.mem_append_right _ (List.mem_singleton_self top), htop⟩
    · obtain ⟨layer, hl, hx⟩ := ih (List.mem_of_mem_drop hunder)
      exact ⟨layer, List.mem_append_left _ hl, hx⟩

end Tbouncer.Base
