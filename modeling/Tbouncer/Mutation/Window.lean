import Mathlib.Data.List.Induction
import Tbouncer.Mutation.Loop

/-!
# Windows

A window opens with a `mutation_X` content met while none is open and closes with
the next `mutation_done`. The loop's variables follow the windows exactly. The
installed kretprobes do not: the closing branch (`mutation.py:71-73`) prints that
it detaches and only clears the flag.
-/

namespace Tbouncer.Mutation
open Base Bpf

def windowStep (w : Option Text) (text : Text) : Option Text :=
  match commandOf text with
  | .start x => if w.isSome then w else some x
  | .done => none
  | .foreign => w

/- The syscall whose window is open after the contents read so far. -/
def openWindow (texts : List Text) : Option Text := texts.foldl windowStep none

theorem process_snoc (texts : List Text) (text : Text) :
    process (texts ++ [text]) = onModify (process texts) text := by
  simp only [process, List.foldl_append, List.foldl_cons, List.foldl_nil]

theorem openWindow_snoc (texts : List Text) (text : Text) :
    openWindow (texts ++ [text]) = windowStep (openWindow texts) text := by
  simp only [openWindow, List.foldl_append, List.foldl_cons, List.foldl_nil]

/-! ### The variables follow the window -/

def Tracks (v : LoopVars) (w : Option Text) : Prop :=
  v.attached = w.isSome ∧ ∀ x, w = some x → v.savedName = x

theorem tracks_step {v : LoopVars} {w : Option Text} (text : Text) (h : Tracks v w) :
    Tracks (loopBody text v).1 (windowStep w text) := by
  obtain ⟨ha, hs⟩ := h
  cases hc : commandOf text with
  | foreign =>
    rw [loopBody_foreign hc, windowStep, hc]
    exact ⟨ha, hs⟩
  | done =>
    rw [loopBody_done hc, windowStep, hc]
    exact ⟨rfl, fun x hx => by cases hx⟩
  | start y =>
    rw [(loopBody_start hc v).2, windowStep, hc]
    cases hw : w with
    | none =>
      rw [hw] at ha
      simp [Tracks, ha]
    | some z =>
      rw [hw] at ha
      have hz : v.savedName = z := hs z hw
      simp [Tracks, ha, hz]

theorem tracks_process (texts : List Text) : Tracks (process texts).vars (openWindow texts) := by
  induction texts using List.reverseRecOn with
  | nil => exact ⟨rfl, fun x hx => by cases hx⟩
  | append_singleton texts text ih =>
    rw [process_snoc, openWindow_snoc]
    exact tracks_step text ih

/-! ### The probes -/

def Opens (text : Text) : Prop := ∃ x, commandOf text = .start x
def Closes (text : Text) : Prop := commandOf text = .done

theorem probes_onModify (c : Controller) (text : Text) :
    (onModify c text).probes =
      match commandOf text with
      | .start x => if c.vars.attached then c.probes else insert x c.probes
      | .done => c.probes
      | .foreign => c.probes := by
  cases hc : commandOf text with
  | foreign => simp only [onModify, loopBody_foreign hc, List.foldl_nil]
  | done => simp only [onModify, loopBody_done hc, List.foldl_nil]
  | start x =>
    have hb := (loopBody_start hc c.vars).2
    cases ha : c.vars.attached <;> simp [onModify, hb, ha, applyCall]

theorem probes_subset_onModify (c : Controller) (text : Text) :
    c.probes ⊆ (onModify c text).probes := by
  rw [probes_onModify]
  split
  · split
    · exact subset_rfl
    · exact Finset.subset_insert _ _
  · exact subset_rfl
  · exact subset_rfl

theorem probes_subset_process (texts more : List Text) :
    (process texts).probes ⊆ (process (texts ++ more)).probes := by
  induction more using List.reverseRecOn with
  | nil => rw [List.append_nil]
  | append_singleton more text ih =>
    rw [← List.append_assoc, process_snoc]
    exact ih.trans (probes_subset_onModify _ text)

/- The name of an open window is installed. -/
theorem openWindow_mem_probes (texts : List Text) (x : Text) (h : openWindow texts = some x) :
    x ∈ (process texts).probes := by
  induction texts using List.reverseRecOn with
  | nil => cases h
  | append_singleton texts text ih =>
    rw [process_snoc]
    rw [openWindow_snoc] at h
    cases hw : openWindow texts with
    | some y =>
      rw [hw] at h ih
      have hx : y = x := by
        cases hc : commandOf text <;> simp [windowStep, hc] at h
        · exact h
        · exact h
      exact probes_subset_onModify _ text (ih (by rw [hx]))
    | none =>
      have ha : (process texts).vars.attached = false := by
        rw [(tracks_process texts).1, hw]
        rfl
      rw [probes_onModify]
      cases hc : commandOf text with
      | foreign => simp [windowStep, hc, hw] at h
      | done => simp [windowStep, hc] at h
      | start y =>
        have hy : y = x := by simpa [windowStep, hc, hw] using h
        simp [ha, hy]

theorem probes_nonempty_of_opens (a b : List Text) (text : Text) (h : Opens text) :
    (process (a ++ text :: b)).probes.Nonempty := by
  obtain ⟨x, hx⟩ := h
  have hw : ∃ y, openWindow (a ++ [text]) = some y := by
    rw [openWindow_snoc, windowStep, hx]
    cases openWindow a with
    | none => exact ⟨x, rfl⟩
    | some y => exact ⟨y, rfl⟩
  obtain ⟨y, hy⟩ := hw
  have hmem := probes_subset_process (a ++ [text]) b (openWindow_mem_probes _ y hy)
  rw [List.append_assoc] at hmem
  exact ⟨y, hmem⟩

/- As long as no opening content has been read, nothing has happened. -/
theorem untouched_of_no_opens (texts : List Text) (h : ∀ t ∈ texts, ¬ Opens t) :
    openWindow texts = none ∧ (process texts).probes = ∅ := by
  induction texts using List.reverseRecOn with
  | nil => exact ⟨rfl, rfl⟩
  | append_singleton texts text ih =>
    have hpre : ∀ t ∈ texts, ¬ Opens t := fun t ht => h t (List.mem_append_left _ ht)
    have htext : ¬ Opens text := h text (by simp)
    obtain ⟨hw, hp⟩ := ih hpre
    rw [openWindow_snoc, process_snoc, probes_onModify, windowStep]
    cases hc : commandOf text with
    | foreign => exact ⟨hw, hp⟩
    | done => exact ⟨rfl, hp⟩
    | start x => exact absurd ⟨x, hc⟩ htext

/-! ### The window law -/

/- After every processed event the installed set is that of the open window. -/
structure WindowLaw (texts : List Text) : Prop where
  installed : ∀ pre, pre <+: texts →
    (process pre).probes = (openWindow pre).elim ∅ fun x => {x}
  own_window : ∀ pre, pre <+: texts → ∀ (targetCgroup current : CgroupId) (syscall : Text)
    (ret : BitVec 64), returnValue targetCgroup (process pre).probes current syscall ret ≠ ret →
      openWindow pre = some syscall
  one_at_once : ∀ pre, pre <+: texts → (process pre).probes.card ≤ 1

theorem windowLaw_of_installed {texts : List Text}
    (h : ∀ pre, pre <+: texts → (process pre).probes = (openWindow pre).elim ∅ fun x => {x}) :
    WindowLaw texts := by
  refine ⟨h, ?_, ?_⟩
  · intro pre hpre targetCgroup current syscall ret hne
    have hmem : syscall ∈ (process pre).probes := by
      by_contra hn
      exact hne (returnValue_of_not_mem hn _ _ _)
    rw [h pre hpre] at hmem
    cases hw : openWindow pre with
    | none => simp [hw] at hmem
    | some x =>
      have hx : syscall = x := by simpa [hw] using hmem
      rw [hx]
  · intro pre hpre
    rw [h pre hpre]
    cases openWindow pre with
    | none => simp
    | some x => simp

/- No window is closed after it was opened. -/
def NeverCloses (texts : List Text) : Prop :=
  texts.Pairwise fun s t => ¬ (Opens s ∧ Closes t)

theorem installed_of_neverCloses (texts : List Text) (h : NeverCloses texts) :
    (process texts).probes = (openWindow texts).elim ∅ fun x => {x} := by
  induction texts using List.reverseRecOn with
  | nil => rfl
  | append_singleton texts text ih =>
    obtain ⟨hpre, -, hlast⟩ := List.pairwise_append.mp h
    have hinst := ih hpre
    rw [process_snoc, probes_onModify, openWindow_snoc, windowStep]
    cases hc : commandOf text with
    | foreign => exact hinst
    | done =>
      have hno : ∀ t ∈ texts, ¬ Opens t := fun t ht ho =>
        hlast t ht text (List.mem_singleton_self _) ⟨ho, hc⟩
      exact (untouched_of_no_opens texts hno).2
    | start x =>
      have ha := (tracks_process texts).1
      cases hw : openWindow texts with
      | none => simp [ha, hw, hinst]
      | some y => simp [ha, hw, hinst]

theorem NeverCloses.initial {texts pre : List Text} (h : NeverCloses texts) (hpre : pre <+: texts) :
    NeverCloses pre :=
  List.Pairwise.sublist hpre.sublist h

/-- The installed probes are those of the open window, all along a sequence of
contents, exactly when no `mutation_done` follows an opening content. -/
theorem window_law_iff (texts : List Text) : WindowLaw texts ↔ NeverCloses texts := by
  constructor
  · intro hlaw
    by_contra hn
    simp only [NeverCloses, List.pairwise_iff_forall_sublist, not_forall, not_not] at hn
    obtain ⟨s, t, hsub, hs, ht⟩ := hn
    obtain ⟨u, v, rfl, hu, hv⟩ := List.cons_sublist_iff.mp hsub
    obtain ⟨a, b, rfl⟩ := List.append_of_mem hu
    obtain ⟨c, d, rfl⟩ := List.append_of_mem (List.singleton_sublist.mp hv)
    -- the state right after the closing content
    have hpre : (a ++ s :: b ++ c) ++ [t] <+: (a ++ s :: b) ++ (c ++ t :: d) := ⟨d, by simp⟩
    have hinst := hlaw.installed _ hpre
    have hnone : openWindow ((a ++ s :: b ++ c) ++ [t]) = none := by
      rw [openWindow_snoc, windowStep, ht]
    rw [hnone] at hinst
    have hne := probes_nonempty_of_opens a (b ++ c ++ [t]) s hs
    have heq : a ++ s :: (b ++ c ++ [t]) = (a ++ s :: b ++ c) ++ [t] := by simp
    rw [heq, hinst] at hne
    exact Finset.not_nonempty_empty hne
  · intro h
    exact windowLaw_of_installed fun pre hpre => installed_of_neverCloses pre (h.initial hpre)

/-- `mutation_accept`, then `mutation_done`: the window is closed and the
kretprobe on accept is still there. -/
theorem window_law_fails :
    ¬ WindowLaw ["mutation_accept".toList, "mutation_done".toList] := by
  intro h
  have hinst := h.installed _ (List.prefix_refl _)
  exact absurd hinst (by decide)

end Tbouncer.Mutation
