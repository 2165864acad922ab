import Mathlib.Data.List.Induction
import Tbouncer.Attack.Hooks

/-!
# Calls under attack

System calls of any number of threads enter and return in any order while the
hooks are attached; calls that were in progress before only return. Since every
entry overwrites the one slot, an exit hook writes where the most recent entry of
the target cgroup pointed, whichever call that was.
-/

namespace Tbouncer.Attack
open Base Bpf

structure Call where
  id : ℕ
  cgroup : CgroupId
  deriving DecidableEq

inductive Event (α : Type) where
  | enter (call : Call) (args : α)
  | exit (call : Call) (rc : BitVec 64)
  deriving DecidableEq

section
variable {α ν : Type} (H : Hooks α ν) (target : CgroupId)

def mapStep (m : BpfHash ν) : Event α → BpfHash ν
  | .enter call args => H.entry target call.cgroup args m
  | .exit _ _ => m

def mapAfter (tr : List (Event α)) : BpfHash ν := tr.foldl (mapStep H target) BpfHash.empty

/- What the exit hook of `call` writes when `pre` has happened before. -/
def writesAt (pre : List (Event α)) (call : Call) (rc : BitVec 64) : List UserWrite :=
  H.exit target call.cgroup rc (mapAfter H target pre)

/- An exit hook writes nothing, or only to what the entry hook of its call recorded. -/
def OwnWrites (tr : List (Event α)) : Prop :=
  ∀ pre call rc, pre ++ [.exit call rc] <+: tr →
    writesAt H target pre call rc = [] ∨
      ∃ args, .enter call args ∈ pre ∧
        ∀ w ∈ writesAt H target pre call rc, w.dst ∈ H.recorded args

def targetArgs : Event α → Option α
  | .enter call args => if call.cgroup = target then some args else none
  | .exit _ _ => none

/- The most recent entry of the target cgroup. -/
def lastEntry (tr : List (Event α)) : Option α := (tr.filterMap (targetArgs target)).getLast?

/- When an exit hook fires, the most recent entry, if there was any, gave the buffer
that the entry of this call gave. -/
def Matched (tr : List (Event α)) : Prop :=
  ∀ pre call rc, pre ++ [.exit call rc] <+: tr → call.cgroup = target → H.fires rc = true →
    ∀ args, lastEntry target pre = some args →
      ∃ own, .enter call own ∈ pre ∧ H.buffer own = H.buffer args

theorem mapAfter_snoc (tr : List (Event α)) (e : Event α) :
    mapAfter H target (tr ++ [e]) = mapStep H target (mapAfter H target tr) e := by
  rw [mapAfter, List.foldl_append]
  rfl

theorem lastEntry_snoc (tr : List (Event α)) (e : Event α) :
    lastEntry target (tr ++ [e]) = (targetArgs target e).or (lastEntry target tr) := by
  rw [lastEntry, List.filterMap_append]
  cases he : targetArgs target e <;> simp [he, lastEntry]

/- The slot is the record of the most recent entry. -/
theorem slot_eq (tr : List (Event α)) :
    mapAfter H target tr key = (lastEntry target tr).map H.record := by
  induction tr using List.reverseRecOn with
  | nil => rfl
  | append_singleton tr e ih =>
    rw [mapAfter_snoc, lastEntry_snoc]
    cases e with
    | exit call rc => exact ih
    | enter call args =>
      by_cases hc : call.cgroup = target
      · simp [mapStep, targetArgs, hc, H.entry_target]
      · simpa [mapStep, targetArgs, hc, H.entry_other _ _ _ _ hc] using ih

theorem writesAt_dst {pre : List (Event α)} {call : Call} {rc : BitVec 64} {args : α}
    (hc : call.cgroup = target) (hrc : H.fires rc = true)
    (hlast : lastEntry target pre = some args) :
    (writesAt H target pre call rc).map UserWrite.dst = H.recorded args := by
  have hslot : mapAfter H target pre key = some (H.record args) := by
    rw [slot_eq, hlast, Option.map_some]
  rw [writesAt, hc]
  exact H.exit_target target rc _ args hslot hrc

theorem writesAt_eq_nil {pre : List (Event α)} {call : Call} {rc : BitVec 64}
    (h : call.cgroup = target → H.fires rc = true → lastEntry target pre = none) :
    writesAt H target pre call rc = [] := by
  by_cases hc : call.cgroup = target
  · rw [writesAt, hc]
    cases hrc : H.fires rc with
    | false => exact H.exit_idle target rc _ hrc
    | true =>
      refine H.exit_empty target rc _ ?_
      rw [slot_eq, h hc hrc, Option.map_none]
  · exact H.exit_other target call.cgroup rc _ hc

/- A pair of hooks on one slot keeps the calls apart exactly in matched traces. -/
theorem ownWrites_iff_matched (tr : List (Event α)) :
    OwnWrites H target tr ↔ Matched H target tr := by
  constructor
  · intro h pre call rc hpre hc hrc args hlast
    have hdst := writesAt_dst H target hc hrc hlast
    rcases h pre call rc hpre with hnil | ⟨own, hmem, hown⟩
    · rw [hnil, List.map_nil] at hdst
      exact absurd hdst.symm (H.recorded_ne_nil args)
    · refine ⟨own, hmem, ((H.separated args own).mp fun x hx => ?_).symm⟩
      rw [← hdst] at hx
      obtain ⟨w, hw, rfl⟩ := List.mem_map.mp hx
      exact hown w hw
  · intro h pre call rc hpre
    by_cases hwrite : call.cgroup = target ∧ H.fires rc = true ∧ (lastEntry target pre).isSome
    · obtain ⟨hc, hrc, hsome⟩ := hwrite
      obtain ⟨args, hlast⟩ := Option.isSome_iff_exists.mp hsome
      obtain ⟨own, hmem, hbuf⟩ := h pre call rc hpre hc hrc args hlast
      refine Or.inr ⟨own, hmem, fun w hw => ?_⟩
      have hdst : w.dst ∈ H.recorded args := by
        rw [← writesAt_dst H target hc hrc hlast]
        exact List.mem_map_of_mem hw
      exact (H.separated args own).mpr hbuf.symm _ hdst
    · refine Or.inl (writesAt_eq_nil H target fun hc hrc => ?_)
      by_contra hne
      exact hwrite ⟨hc, hrc, Option.isSome_iff_ne_none.mpr hne⟩

end

/-- Of the three programs each keeps its calls apart exactly as long as, whenever an
exit hook fires, the last target entry gave the buffer of that exit's own call. -/
theorem calls_apart_iff (target : CgroupId) :
    (∀ tr, OwnWrites readHooks target tr ↔ Matched readHooks target tr) ∧
    (∀ tr, OwnWrites statHooks target tr ↔ Matched statHooks target tr) ∧
    (∀ tr, OwnWrites epollHooks target tr ↔ Matched epollHooks target tr) :=
  ⟨ownWrites_iff_matched readHooks target, ownWrites_iff_matched statHooks target,
    ownWrites_iff_matched epollHooks target⟩

def firstCall : Call := ⟨1, 27724⟩
def secondCall : Call := ⟨2, 27724⟩
def firstRead : ReadArgs := ⟨3, 0x7f0000001000, 64⟩
def secondRead : ReadArgs := ⟨4, 0x7f0000002000, 64⟩

/-- The first of two overlapping reads is made to write into the buffer of the second,
and so is a read that was in progress when the probes were attached. -/
theorem calls_mixed_up :
    ¬ OwnWrites readHooks 27724
        [.enter firstCall firstRead, .enter secondCall secondRead, .exit firstCall 10] ∧
      ¬ OwnWrites readHooks 27724 [.enter secondCall secondRead, .exit firstCall 10] := by
  constructor
  · intro h
    rcases h [.enter firstCall firstRead, .enter secondCall secondRead] firstCall 10
      (List.prefix_refl _) with hnil | ⟨own, hmem, hown⟩
    · exact absurd hnil (by decide)
    · have hargs : own = firstRead := by simpa [firstCall, secondCall] using hmem
      have hdst := hown ⟨secondRead.buf, leBytes 4 11⟩ (by decide)
      rw [hargs] at hdst
      exact absurd hdst (by decide)
  · intro h
    rcases h [.enter secondCall secondRead] firstCall 10 (List.prefix_refl _) with
      hnil | ⟨own, hmem, hown⟩
    · exact absurd hnil (by decide)
    · simp [firstCall, secondCall] at hmem

end Tbouncer.Attack
