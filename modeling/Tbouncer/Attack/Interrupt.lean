import Tbouncer.Attack.Pollers

/-!
# A polling controller interrupted

KeyboardInterrupt can be raised between any two calls of a poll. The handler detaches
what the flag says is attached (`accept/iago_attack.py:72-76`); between the first call
of a poll and its last assignment the flag says something else than what is installed.
The handler of fstat besides names a function that the loop never attaches
(`fstat/iago_attack.py:136`).
-/

namespace Tbouncer.Attack
open Base

namespace Poller
variable (c : Poller)

def polls (contents : List Text) : Option PollState := run c.poll PollState.start contents

/- The poll of `content` after `k` of its steps. -/
def interrupted (s : PollState) (content : Text) (k : ℕ) : Option PollState :=
  run opStep s ((c.ops s.attached content).take k)

/- `except KeyboardInterrupt`. -/
def handleInterrupt (s : PollState) : Option PollState :=
  if s.attached then run opStep s (c.onInterrupt.map .detach) else some s

/- The handler does not raise and leaves nothing installed. -/
def CleanExit (s : PollState) : Prop :=
  ∃ t, c.handleInterrupt s = some t ∧ t.installed = ∅

/- How the list of the handler relates to those of the loop. -/
structure Repeated : Prop where
  first : c.onInterrupt.head? = c.detach.head?
  handled : run opStep (c.settled true) (c.onInterrupt.map .detach) =
    if c = fstat then none else some ⟨true, ∅⟩

variable {c}

theorem polls_settled (hc : c.Paired) (contents : List Text) :
    ∃ attached, c.polls contents = some (c.settled attached) := by
  have hrun : ∀ attached, ∃ last, run c.poll (c.settled attached) contents =
      some (c.settled last) := by
    induction contents with
    | nil => exact fun attached => ⟨attached, rfl⟩
    | cons content contents ih =>
      intro attached
      obtain ⟨last, hlast⟩ := ih (content = c.command)
      exact ⟨last, (run_cons_eq_some _).mpr ⟨_, poll_settled hc attached content, hlast⟩⟩
  have hstart : PollState.start = c.settled false := by simp [PollState.start, settled]
  rw [polls, hstart]
  exact hrun false

/- The last content read decides. -/
theorem polls_concat (hc : c.Paired) (contents : List Text) (content : Text) :
    c.polls (contents ++ [content]) = some (c.settled (content = c.command)) := by
  obtain ⟨attached, hs⟩ := polls_settled hc contents
  exact (run_snoc_eq_some _).mpr ⟨_, hs, poll_settled hc attached content⟩

/-! ### Between two polls -/

theorem cleanExit_of_detached {s : PollState} (h : s.attached = false) :
    c.CleanExit s ↔ s.installed = ∅ := by
  simp [CleanExit, handleInterrupt, h]

theorem cleanExit_settled (hc : c.Repeated) (attached : Bool) :
    c.CleanExit (c.settled attached) ↔ (c = fstat → attached = false) := by
  cases attached with
  | false =>
    have hclean : c.CleanExit (c.settled false) := (cleanExit_of_detached rfl).mpr rfl
    simp [hclean]
  | true =>
    have hhandler : c.handleInterrupt (c.settled true) =
        run opStep (c.settled true) (c.onInterrupt.map .detach) := rfl
    rw [CleanExit, hhandler, hc.handled]
    by_cases hf : c = fstat
    · simp [hf]
    · simp [hf]

/-! ### Between two calls -/

/- Some of the probes are there, and the flag says that none is. -/
theorem not_cleanExit_attaching (hc : c.Paired) {k : ℕ} (hk : 0 < k) (hne : c.attach ≠ []) :
    ∃ u, run opStep (c.settled false) ((c.attach.take k).map .attach) = some u ∧
      ¬ c.CleanExit u := by
  have hdistinct : (c.attach.take k).Nodup := hc.distinct.sublist (List.take_sublist _ _)
  have hset := run_attach (c.attach.take k) (c.settled false) hdistinct (by simp [settled])
  refine ⟨_, hset, ?_⟩
  rw [cleanExit_of_detached rfl]
  intro hempty
  obtain ⟨p, ps, hp⟩ := List.exists_cons_of_ne_nil hne
  obtain ⟨j, rfl⟩ : ∃ j, k = j + 1 := ⟨k - 1, by omega⟩
  simp [hp, settled] at hempty

theorem installed_subset_of_detach {s t : PollState} {ds : List Detach}
    (h : run opStep s (ds.map .detach) = some t) :
    t.attached = s.attached ∧ t.installed ⊆ s.installed := by
  induction ds generalizing s with
  | nil =>
    cases h
    exact ⟨rfl, Finset.Subset.refl _⟩
  | cons d ds ih =>
    obtain ⟨r, hr, ht⟩ := (run_cons_eq_some _).mp h
    simp only [opStep] at hr
    split at hr
    · cases hr
      obtain ⟨hflag, hsub⟩ := ih ht
      exact ⟨hflag, hsub.trans (Finset.filter_subset _ _)⟩
    · cases hr

/- The first probe to go is gone, and the handler asks for it again. -/
theorem not_cleanExit_detaching (hc : c.Paired) (hr : c.Repeated) {k : ℕ} (hk : 0 < k)
    (hne : c.detach ≠ []) :
    ∃ u, run opStep (c.settled true) ((c.detach.take k).map .detach) = some u ∧
      ¬ c.CleanExit u := by
  obtain ⟨d, ds, hd⟩ := List.exists_cons_of_ne_nil hne
  obtain ⟨j, rfl⟩ : ∃ j, k = j + 1 := ⟨k - 1, by omega⟩
  have hall : run opStep (c.settled true) (c.detach.map .detach) = some ⟨true, ∅⟩ := hc.detaches
  rw [← List.take_append_drop (j + 1) c.detach, List.map_append, run_append_eq_some] at hall
  obtain ⟨u, hu, -⟩ := hall
  refine ⟨u, hu, ?_⟩
  rw [hd, List.take_succ_cons, List.map_cons] at hu
  obtain ⟨r, hfirst, hrest⟩ := (run_cons_eq_some _).mp hu
  obtain ⟨hflag, hsub⟩ := installed_subset_of_detach hrest
  simp only [opStep] at hfirst
  split at hfirst
  · cases hfirst
    have hgone : ¬ ∃ p ∈ u.installed, d.covers p := by
      rintro ⟨p, hp, hcov⟩
      have hleft := (Finset.mem_filter.mp (hsub hp)).2
      simp [hcov] at hleft
    obtain ⟨ds', hd'⟩ : ∃ ds', c.onInterrupt = d :: ds' := by
      have hhead := hr.first
      rw [hd, List.head?_cons] at hhead
      exact List.head?_eq_some_iff.mp hhead
    have hattached : u.attached = true := hflag
    rintro ⟨t, ht, -⟩
    rw [handleInterrupt, if_pos hattached, hd', List.map_cons, run_cons, opStep,
      if_neg hgone] at ht
    cases ht
  · cases hfirst

end Poller

theorem repeated_of_mem {c : Poller} (h : c ∈ pollers) :
    c.Repeated ∧ c.attach ≠ [] ∧ c.detach ≠ [] := by
  have hall : ∀ c ∈ pollers, (c.onInterrupt.head? = c.detach.head? ∧
      run opStep (c.settled true) (c.onInterrupt.map .detach) =
        if c = Poller.fstat then none else some ⟨true, ∅⟩) ∧
      c.attach ≠ [] ∧ c.detach ≠ [] := by decide
  obtain ⟨⟨hfirst, hhandled⟩, hattach, hdetach⟩ := hall c h
  exact ⟨⟨hfirst, hhandled⟩, hattach, hdetach⟩

namespace Poller
variable {c : Poller}

/- A poll that stops short of its last step, but not before its first. -/
theorem not_cleanExit_between (hmem : c ∈ pollers) {attached : Bool} {content : Text} {k : ℕ}
    (hk : 0 < k) (hlen : k < (c.ops attached content).length) :
    ∃ u, c.interrupted (c.settled attached) content k = some u ∧ ¬ c.CleanExit u := by
  have hc := paired_of_mem hmem
  obtain ⟨hr, hattach, hdetach⟩ := repeated_of_mem hmem
  have hflag : (c.settled attached).attached = attached := rfl
  rw [interrupted, hflag]
  by_cases hcontent : content = c.command
  · cases attached with
    | true => simp [ops, hcontent] at hlen
    | false =>
      have hops : c.ops false content = c.attachOps := by simp [ops, hcontent]
      rw [hops, attachOps, List.length_append, List.length_map, List.length_singleton] at hlen
      have htake : c.attachOps.take k = (c.attach.take k).map .attach := by
        rw [attachOps, List.take_append_of_le_length (by rw [List.length_map]; omega), List.map_take]
      rw [hops, htake]
      exact not_cleanExit_attaching hc hk hattach
  · cases attached with
    | false => simp [ops, hcontent] at hlen
    | true =>
      have hops : c.ops true content = c.detachOps := by simp [ops, hcontent]
      rw [hops, detachOps, List.length_append, List.length_map, List.length_singleton] at hlen
      have htake : c.detachOps.take k = (c.detach.take k).map .detach := by
        rw [detachOps, List.take_append_of_le_length (by rw [List.length_map]; omega), List.map_take]
      rw [hops, htake]
      exact not_cleanExit_detaching hc hr hk hdetach

end Poller

/-- Interrupted in the poll of `content` after `k` of its steps, a controller exits
cleanly exactly when it is in front of the first step or behind the last one and, if it
is the one of fstat, has nothing attached. -/
theorem clean_exit_iff (c : Poller) (hc : c ∈ pollers) (contents : List Text) (content : Text)
    (k : ℕ) :
    ∃ s u, c.polls contents = some s ∧ c.interrupted s content k = some u ∧
      (c.CleanExit u ↔
        (k = 0 ∨ (c.ops s.attached content).length ≤ k) ∧
          (c = Poller.fstat → u.attached = false)) := by
  have hpaired := paired_of_mem hc
  have hrepeated := (repeated_of_mem hc).1
  obtain ⟨attached, hs⟩ := Poller.polls_settled hpaired contents
  have hflag : (c.settled attached).attached = attached := rfl
  by_cases hk : k = 0
  · refine ⟨_, c.settled attached, hs, by rw [hk]; rfl, ?_⟩
    rw [Poller.cleanExit_settled hrepeated, hflag]
    simp [hk]
  · by_cases hlen : (c.ops attached content).length ≤ k
    · refine ⟨_, c.settled (content = c.command), hs, ?_, ?_⟩
      · rw [Poller.interrupted, hflag, List.take_of_length_le hlen]
        exact Poller.poll_settled hpaired attached content
      · have hlast : (c.settled (content = c.command)).attached = decide (content = c.command) := rfl
        rw [Poller.cleanExit_settled hrepeated, hflag, hlast]
        simp [hlen]
    · obtain ⟨u, hu, hnot⟩ :=
        Poller.not_cleanExit_between hc (Nat.pos_of_ne_zero hk) (Nat.lt_of_not_le hlen)
      refine ⟨_, u, hs, hu, ?_⟩
      rw [hflag]
      simp [hnot, hk, hlen]

theorem clean_exit_iff_read :
    ∃ s u, Poller.read.polls [] = some s ∧
      Poller.read.interrupted s "iago_attack_read".toList 3 = some u ∧
      (Poller.read.CleanExit u ↔
        (3 = 0 ∨ (Poller.read.ops s.attached "iago_attack_read".toList).length ≤ 3) ∧
          (Poller.read = Poller.fstat → u.attached = false)) :=
  clean_exit_iff Poller.read (by decide) [] "iago_attack_read".toList 3

/-- The controller of fstat, interrupted in its sleep while it is attached. -/
theorem exit_not_clean :
    ¬ ∀ c ∈ pollers, ∀ (contents : List Text) (content : Text) (k : ℕ) (s u : PollState),
      c.polls contents = some s → c.interrupted s content k = some u → c.CleanExit u := by
  intro h
  have hmem : Poller.fstat ∈ pollers := by decide
  have hs := Poller.polls_concat (paired_of_mem hmem) [] Poller.fstat.command
  obtain ⟨t, ht, -⟩ := h Poller.fstat hmem _ Poller.fstat.command 0 _ _ hs rfl
  have hnone : Poller.fstat.handleInterrupt (Poller.fstat.settled true) = none := by decide
  rw [decide_eq_true rfl, hnone] at ht
  cases ht

end Tbouncer.Attack
