import Mathlib.Data.List.Basic

/-!
# Runs of a partial step function

A system is a function `step : σ → α → Option σ`: what an action does in a state,
`none` where the action is not enabled. The actions carry every choice (the
scheduler's, the environment's), so a run is a list of actions and a statement
about all interleavings is a statement about all lists.
-/

namespace Tbouncer.Base

section
variable {σ α : Type} (step : σ → α → Option σ)

def run : σ → List α → Option σ
  | s, [] => some s
  | s, a :: as => (step s a).bind fun t => run t as

@[simp] theorem run_nil (s : σ) : run step s [] = some s := rfl

@[simp] theorem run_cons (s : σ) (a : α) (as : List α) :
    run step s (a :: as) = (step s a).bind fun t => run step t as := rfl

theorem run_cons_eq_some {s u : σ} {a : α} {as : List α} :
    run step s (a :: as) = some u ↔ ∃ t, step s a = some t ∧ run step t as = some u := by
  rw [run_cons, Option.bind_eq_some_iff]

theorem run_append_eq_some {s u : σ} {as bs : List α} :
    run step s (as ++ bs) = some u ↔ ∃ t, run step s as = some t ∧ run step t bs = some u := by
  induction as generalizing s with
  | nil => simp
  | cons a as ih =>
    rw [List.cons_append, run_cons_eq_some]
    simp only [run_cons_eq_some, ih]
    constructor
    · rintro ⟨r, hr, t, ht, hu⟩
      exact ⟨t, ⟨r, hr, ht⟩, hu⟩
    · rintro ⟨t, ⟨r, hr, ht⟩, hu⟩
      exact ⟨r, hr, t, ht, hu⟩

theorem run_snoc_eq_some {s u : σ} {as : List α} {a : α} :
    run step s (as ++ [a]) = some u ↔ ∃ t, run step s as = some t ∧ step t a = some u := by
  rw [run_append_eq_some]
  simp only [run_cons_eq_some, run_nil, Option.some.injEq, exists_eq_right]

/-- Every step of the run is taken in a state that meets `G`. -/
def AllSteps (G : σ → α → Prop) : σ → List α → Prop
  | _, [] => True
  | s, a :: as => G s a ∧ ∀ t, step s a = some t → AllSteps G t as

theorem allSteps_cons {G : σ → α → Prop} {s t : σ} {a : α} {as : List α}
    (h : step s a = some t) :
    AllSteps step G s (a :: as) ↔ G s a ∧ AllSteps step G t as := by
  simp only [AllSteps, h, Option.some.injEq, forall_eq']

theorem allSteps_append {G : σ → α → Prop} {s t : σ} {as bs : List α}
    (h : run step s as = some t) :
    AllSteps step G s (as ++ bs) ↔ AllSteps step G s as ∧ AllSteps step G t bs := by
  induction as generalizing s with
  | nil =>
    cases h
    exact (and_iff_right trivial).symm
  | cons a as ih =>
    obtain ⟨r, hr, ht⟩ := (run_cons_eq_some step).mp h
    rw [List.cons_append, allSteps_cons step hr, allSteps_cons step hr, ih ht, and_assoc]

instance decidableAllSteps {G : σ → α → Prop} [∀ s a, Decidable (G s a)] :
    ∀ (s : σ) (as : List α), Decidable (AllSteps step G s as)
  | _, [] => .isTrue trivial
  | s, a :: as =>
      match h : step s a with
      | none =>
          decidable_of_iff (G s a) ⟨fun hG => ⟨hG, fun t ht => by rw [h] at ht; cases ht⟩, And.left⟩
      | some t =>
          have : Decidable (AllSteps step G t as) := decidableAllSteps t as
          decidable_of_iff (G s a ∧ AllSteps step G t as) (allSteps_cons step h).symm

/-- The rule for runs whose steps are restricted. -/
theorem run_guarded {G : σ → α → Prop} {I : σ → Prop}
    (hstep : ∀ s a t, I s → G s a → step s a = some t → I t)
    {s t : σ} {as : List α} (hs : I s) (hG : AllSteps step G s as)
    (hrun : run step s as = some t) : I t := by
  induction as generalizing s with
  | nil =>
    cases hrun
    exact hs
  | cons a as ih =>
    obtain ⟨r, hr, ht⟩ := (run_cons_eq_some step).mp hrun
    exact ih (hstep s a r hs hG.1 hr) (hG.2 r hr) ht

theorem allSteps_of_forall {G : σ → α → Prop} (h : ∀ s a, G s a) (s : σ) (as : List α) :
    AllSteps step G s as := by
  induction as generalizing s with
  | nil => trivial
  | cons a as ih => exact ⟨h s a, fun t _ => ih t⟩

theorem allSteps_of_mem {G : α → Prop} {as : List α} (h : ∀ a ∈ as, G a) (s : σ) :
    AllSteps step (fun _ a => G a) s as := by
  induction as generalizing s with
  | nil => trivial
  | cons a as ih =>
    exact ⟨h a (List.mem_cons_self ..), fun t _ =>
      ih (fun b hb => h b (List.mem_cons_of_mem a hb)) t⟩

/-- The invariant rule. -/
theorem run_invariant {I : σ → Prop} (hstep : ∀ s a t, I s → step s a = some t → I t)
    {s t : σ} {as : List α} (hs : I s) (hrun : run step s as = some t) : I t :=
  have hG : AllSteps step (fun _ _ => True) s as :=
    allSteps_of_forall step (fun _ _ => trivial) s as
  run_guarded step (fun s a t hI _ => hstep s a t hI) hs hG hrun

end

end Tbouncer.Base
