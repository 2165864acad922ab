import Mathlib.Data.List.Induction
import Mathlib.Data.List.Infix
import Mathlib.Data.List.Nodup
import Tbouncer.Base.Runs
import Tbouncer.Monitor.SyscallMonitor

/-!
# The three parties of syscall_monitor.py

Processes whose system calls pass the tracepoint, the file-monitor thread that
flips the two flags, and the listener thread that pops the perf buffer. The
kernel side never looks at the switch; what is shown is decided when an event is
popped, by the flag of that moment.
-/

namespace Tbouncer.Monitor.Threads
open Base Bpf Switch

/- A submitted event, with its place in the sequence of all submissions and the
value of switch_state[0] while its system call executed. -/
structure Emission where
  data : Data
  switchAt : BitVec 32
  seq : ℕ
  deriving DecidableEq

/- `handled` records what handle_event was called with, and the flag it found. -/
structure State where
  vars : Vars
  buffer : List Emission
  emitted : List Emission
  handled : List (Emission × Bool)
  printed : List Emission
  deriving DecidableEq

def State.start : State := ⟨Vars.start, [], [], [], []⟩

inductive Act where
  | sysCall (call : SysCall)
  | observe (content : Option Bytes)
  | flip
  | poll
  deriving DecidableEq

/- handle_event: is the event printed? -/
def handleEvent (isMonitoring : Bool) : Bool := if !isMonitoring then false else true

def emit (s : State) (data : Data) : State :=
  { s with
    buffer := s.buffer ++ [⟨data, s.vars.switchState, s.emitted.length⟩]
    emitted := s.emitted ++ [⟨data, s.vars.switchState, s.emitted.length⟩] }

def step (s : State) : Act → Option State
  | .sysCall call =>
      match sysEnter s.vars.switchState call with
      | none => some s
      | some data => some (emit s data)
  | .observe content =>
      if s.vars.place = .wait then some { s with vars := updateFlags content s.vars } else none
  | .flip =>
      match s.vars.place with
      | .setSwitch _ => some { s with vars := storeSwitch s.vars }
      | _ => none
  | .poll =>
      match s.buffer with
      | [] => none
      | e :: rest =>
          some { s with
            buffer := rest
            handled := s.handled ++ [(e, s.vars.isMonitoring)]
            printed := if handleEvent s.vars.isMonitoring then s.printed ++ [e] else s.printed }

/- The tracepoint's answer to a call, which the switch has no part in. -/
def submitted : Act → Option Data
  | .sysCall call => if compareCgroupId targetCgroup call.cgroup then some (dataOf call) else none
  | _ => none

/- What a step does. -/
theorem step_cases {s t : State} {a : Act} (h : step s a = some t) :
    (∃ data, submitted a = some data ∧ (∃ call, a = .sysCall call) ∧ t = emit s data) ∨
    (submitted a = none ∧ t = s) ∨
    (∃ content, a = .observe content ∧ submitted a = none ∧ s.vars.place = .wait ∧
      t = { s with vars := updateFlags content s.vars }) ∨
    (a = .flip ∧ submitted a = none ∧ t = { s with vars := storeSwitch s.vars }) ∨
    (∃ e rest, a = .poll ∧ submitted a = none ∧ s.buffer = e :: rest ∧
      t = { s with
        buffer := rest
        handled := s.handled ++ [(e, s.vars.isMonitoring)]
        printed := if s.vars.isMonitoring then s.printed ++ [e] else s.printed }) := by
  cases a with
  | sysCall call =>
    simp only [step, sysEnter_eq] at h
    cases hc : compareCgroupId targetCgroup call.cgroup with
    | true =>
      rw [hc] at h
      exact Or.inl ⟨dataOf call, by simp [submitted, hc], ⟨call, rfl⟩, by simpa using h.symm⟩
    | false =>
      rw [hc] at h
      exact Or.inr (Or.inl ⟨by simp [submitted, hc], by simpa using h.symm⟩)
  | observe content =>
    simp only [step] at h
    split at h
    next hw => exact Or.inr (Or.inr (Or.inl ⟨content, rfl, rfl, hw, (Option.some.inj h).symm⟩))
    next => cases h
  | flip =>
    simp only [step] at h
    split at h
    next => exact Or.inr (Or.inr (Or.inr (Or.inl ⟨rfl, rfl, (Option.some.inj h).symm⟩)))
    next => cases h
  | poll =>
    simp only [step] at h
    split at h
    next => cases h
    next e rest hb =>
      refine Or.inr (Or.inr (Or.inr (Or.inr ⟨e, rest, rfl, rfl, hb, ?_⟩)))
      have ht := (Option.some.inj h).symm
      cases hm : s.vars.isMonitoring <;> simpa [handleEvent, hm] using ht

theorem agree_step {s t : State} {a : Act} (hs : Agree s.vars) (h : step s a = some t) :
    Agree t.vars := by
  obtain ⟨data, -, -, rfl⟩ | ⟨-, rfl⟩ | ⟨content, -, -, hw, rfl⟩ | ⟨-, -, rfl⟩ |
    ⟨e, rest, -, -, -, rfl⟩ := step_cases h
  · exact hs
  · exact hs
  · exact agree_updateFlags content hw hs
  · exact agree_storeSwitch hs
  · exact hs

theorem agree_run {s : State} (acts : List Act) (hrun : run step State.start acts = some s) :
    Agree s.vars :=
  run_invariant step (fun _ _ _ hI hst => agree_step hI hst) agree_start hrun

/-! ### Nothing is lost on the way to handle_event -/

structure Accounted (s : State) (acts : List Act) : Prop where
  submitted : s.emitted.map Emission.data = acts.filterMap submitted
  numbered : s.emitted.map Emission.seq = List.range s.emitted.length
  handed : s.handled.map Prod.fst ++ s.buffer = s.emitted
  shown : s.printed = (s.handled.filter Prod.snd).map Prod.fst

theorem accounted_step {s t : State} {acts : List Act} {a : Act} (hs : Accounted s acts)
    (h : step s a = some t) : Accounted t (acts ++ [a]) := by
  obtain ⟨hsub, hnum, hhand, hshown⟩ := hs
  obtain ⟨data, hd, -, rfl⟩ | ⟨hd, rfl⟩ | ⟨content, -, hd, -, rfl⟩ | ⟨-, hd, rfl⟩ |
    ⟨e, rest, -, hd, hb, rfl⟩ := step_cases h
  · refine ⟨?_, ?_, ?_, hshown⟩
    · simp [emit, hsub, hd]
    · simp [emit, hnum, List.range_succ]
    · simp [emit, ← hhand]
  · exact ⟨by simp [hsub, hd], hnum, hhand, hshown⟩
  · exact ⟨by simp [hsub, hd], hnum, hhand, hshown⟩
  · exact ⟨by simp [hsub, hd], hnum, hhand, hshown⟩
  · refine ⟨by simp [hsub, hd], hnum, ?_, ?_⟩
    · simp [← hhand, hb]
    · cases hm : s.vars.isMonitoring <;> simp [hshown]

theorem accounted_run {s : State} (acts : List Act) (hrun : run step State.start acts = some s) :
    Accounted s acts := by
  induction acts using List.reverseRecOn generalizing s with
  | nil =>
    cases hrun
    exact ⟨rfl, rfl, rfl, rfl⟩
  | append_singleton acts a ih =>
    obtain ⟨r, hr, hst⟩ := (run_snoc_eq_some step).mp hrun
    exact accounted_step (ih hr) hst

theorem Accounted.nodup {s : State} {acts : List Act} (h : Accounted s acts) :
    s.emitted.Nodup := by
  have hr : (s.emitted.map Emission.seq).Nodup := by
    rw [h.numbered]
    exact List.nodup_range
  exact List.Nodup.of_map Emission.seq hr

theorem count_shown {handled : List (Emission × Bool)} (hn : (handled.map Prod.fst).Nodup)
    {e : Emission} {on : Bool} (hmem : (e, on) ∈ handled) :
    ((handled.filter Prod.snd).map Prod.fst).count e = if on then 1 else 0 := by
  have hsub : ((handled.filter Prod.snd).map Prod.fst).Nodup :=
    hn.sublist ((List.filter_sublist).map Prod.fst)
  cases on with
  | true =>
    have hin : e ∈ (handled.filter Prod.snd).map Prod.fst :=
      List.mem_map.mpr ⟨(e, true), List.mem_filter.mpr ⟨hmem, rfl⟩, rfl⟩
    rw [List.count_eq_one_of_mem hsub hin]
    rfl
  | false =>
    have hout : e ∉ (handled.filter Prod.snd).map Prod.fst := by
      intro hin
      obtain ⟨⟨e', on'⟩, hf, rfl⟩ := List.mem_map.mp hin
      obtain ⟨hm', hon⟩ := List.mem_filter.mp hf
      have heq := List.inj_on_of_nodup_map hn hm' hmem rfl
      cases heq
      cases hon
    rw [List.count_eq_zero_of_not_mem hout]
    rfl

/-! ### An event emitted under the switch is printed unless monitoring is switched off -/

/- While the event waits in the buffer the thread stands between the two stores
that switch monitoring off. -/
def SwitchedOff (acts : List Act) (e : Emission) : Prop :=
  ∃ before, before <+: acts ∧ ∃ u ∈ run step State.start before,
    e ∈ u.buffer ∧ u.vars.place = .setSwitch 0

instance (acts : List Act) (e : Emission) : Decidable (SwitchedOff acts e) :=
  decidable_of_iff (∃ before ∈ acts.inits, ∃ u ∈ run step State.start before,
      e ∈ u.buffer ∧ u.vars.place = .setSwitch 0)
    (exists_congr fun before => and_congr_left' (List.mem_inits before acts))

theorem SwitchedOff.append {acts : List Act} {e : Emission} (h : SwitchedOff acts e)
    (more : List Act) : SwitchedOff (acts ++ more) e := by
  obtain ⟨before, hpre, hu⟩ := h
  exact ⟨before, hpre.trans (List.prefix_append acts more), hu⟩

theorem switchedOff_here {acts : List Act} {s : State} {e : Emission}
    (hrun : run step State.start acts = some s) (he : e ∈ s.buffer)
    (hp : s.vars.place = .setSwitch 0) : SwitchedOff acts e :=
  ⟨acts, List.prefix_refl acts, s, hrun, he, hp⟩

/- Where switch_state[0] is 1, is_monitoring is True or has just been set to False. -/
theorem on_of_switchState {v : Vars} (h : Agree v) (hone : v.switchState = 1) :
    v.isMonitoring = true ∨ v.place = .setSwitch 0 := by
  obtain ⟨mon, sw, place⟩ := v
  dsimp only at hone
  subst hone
  cases mon with
  | true => exact Or.inl rfl
  | false =>
    cases place with
    | wait => cases (show (1 : BitVec 32) = 0 from h)
    | raised => cases (show (1 : BitVec 32) = 0 from h)
    | setSwitch value => exact Or.inr (congrArg Place.setSwitch h.1)

theorem updateFlags_off (content : Option Bytes) {v : Vars} (hm : v.isMonitoring = true) :
    (updateFlags content v).isMonitoring = true ∨
      (updateFlags content v).place = .setSwitch 0 := by
  unfold updateFlags
  split
  · exact Or.inl hm
  · split
    · exact Or.inl rfl
    · split
      · exact Or.inr rfl
      · exact Or.inl hm

/- Where an event emitted under the switch can be. -/
def Kept (acts : List Act) (s : State) (e : Emission) : Prop :=
  SwitchedOff acts e ∨ (e ∈ s.buffer ∧ s.vars.isMonitoring = true) ∨ (e, true) ∈ s.handled

theorem kept_step {s t : State} {acts : List Act} {a : Act} (hagree : Agree s.vars)
    (hrun : run step State.start (acts ++ [a]) = some t) (h : step s a = some t)
    (hs : ∀ e ∈ s.emitted, e.switchAt = 1 → Kept acts s e) :
    ∀ e ∈ t.emitted, e.switchAt = 1 → Kept (acts ++ [a]) t e := by
  intro e he hone
  obtain ⟨data, -, -, rfl⟩ | ⟨-, rfl⟩ | ⟨content, -, -, -, rfl⟩ | ⟨-, -, rfl⟩ |
    ⟨head, rest, -, -, hb, rfl⟩ := step_cases h
  · rcases List.mem_append.mp he with hold | hnew
    · obtain hoff | ⟨hin, hm⟩ | hshown := hs e hold hone
      · exact Or.inl (hoff.append [a])
      · exact Or.inr (Or.inl ⟨List.mem_append_left _ hin, hm⟩)
      · exact Or.inr (Or.inr hshown)
    · -- the call of this step found switch_state[0] at 1
      have hin : e ∈ (emit s data).buffer := List.mem_append_right _ hnew
      rw [List.mem_singleton.mp hnew] at hone
      rcases on_of_switchState hagree hone with hm | hp
      · exact Or.inr (Or.inl ⟨hin, hm⟩)
      · exact Or.inl (switchedOff_here hrun hin hp)
  · obtain hoff | hrest := hs e he hone
    · exact Or.inl (hoff.append [a])
    · exact Or.inr hrest
  · obtain hoff | ⟨hin, hm⟩ | hshown := hs e he hone
    · exact Or.inl (hoff.append [a])
    · rcases updateFlags_off content hm with hon | hp
      · exact Or.inr (Or.inl ⟨hin, hon⟩)
      · exact Or.inl (switchedOff_here hrun hin hp)
    · exact Or.inr (Or.inr hshown)
  · obtain hoff | ⟨hin, hm⟩ | hshown := hs e he hone
    · exact Or.inl (hoff.append [a])
    · exact Or.inr (Or.inl ⟨hin, by rw [storeSwitch_isMonitoring, hm]⟩)
    · exact Or.inr (Or.inr hshown)
  · obtain hoff | ⟨hin, hm⟩ | hshown := hs e he hone
    · exact Or.inl (hoff.append [a])
    · rw [hb] at hin
      rcases List.mem_cons.mp hin with rfl | hrest
      · refine Or.inr (Or.inr (List.mem_append_right _ ?_))
        rw [hm]
        exact List.mem_singleton_self _
      · exact Or.inr (Or.inl ⟨hrest, hm⟩)
    · exact Or.inr (Or.inr (List.mem_append_left _ hshown))

theorem kept_run {s : State} (acts : List Act) (hrun : run step State.start acts = some s) :
    ∀ e ∈ s.emitted, e.switchAt = 1 → Kept acts s e := by
  induction acts using List.reverseRecOn generalizing s with
  | nil =>
    cases hrun
    exact nofun
  | append_singleton acts a ih =>
    obtain ⟨r, hr, hst⟩ := (run_snoc_eq_some step).mp hrun
    exact kept_step (agree_run acts hr) hrun hst (ih hr)

/-- When the buffer is drained every target call has had its one event handed to
handle_event, in order. A call made while switch_state[0] is 1 has its event printed
exactly once unless monitoring is switched off while the event waits. -/
theorem drained_handled (acts : List Act) (s : State)
    (hrun : run step State.start acts = some s) (hdrained : s.buffer = []) :
    s.emitted.map Emission.data = acts.filterMap submitted ∧
      s.handled.map Prod.fst = s.emitted ∧
      (∀ e on, (e, on) ∈ s.handled → s.printed.count e = if on then 1 else 0) ∧
      ∀ e ∈ s.emitted, e.switchAt = 1 → ¬ SwitchedOff acts e → s.printed.count e = 1 := by
  have hacc := accounted_run acts hrun
  have hhand : s.handled.map Prod.fst = s.emitted := by
    rw [← hacc.handed, hdrained, List.append_nil]
  have hcount : ∀ e on, (e, on) ∈ s.handled → s.printed.count e = if on then 1 else 0 := by
    intro e on hmem
    rw [hacc.shown]
    refine count_shown ?_ hmem
    rw [hhand]
    exact hacc.nodup
  refine ⟨hacc.submitted, hhand, hcount, fun e he hone hoff => ?_⟩
  obtain hsw | ⟨hin, -⟩ | hshown := kept_run acts hrun e he hone
  · exact absurd hsw hoff
  · rw [hdrained] at hin
    cases hin
  · exact hcount e true hshown

/- A target call made while switch_state[0] is 1 is shown once. -/
def ShowsAll (acts : List Act) : Prop :=
  ∀ s, run step State.start acts = some s → s.buffer = [] →
    ∀ e ∈ s.emitted, e.switchAt = 1 → s.printed.count e = 1

def sampleCall : SysCall := ⟨targetCgroup, 0x000007d0000007d0, 43, 1000⟩

/- A test that starts monitoring and makes a call. -/
def sampleRun : List Act :=
  [.observe (some (encodeUtf8 "accept01".toList)), .flip, .sysCall sampleCall, .poll]

theorem drained_handled_sample :
    ∃ s, run step State.start sampleRun = some s ∧
      (⟨dataOf sampleCall, 1, 0⟩ ∈ s.emitted ∧ ¬ SwitchedOff sampleRun ⟨dataOf sampleCall, 1, 0⟩) ∧
      s.emitted.map Emission.data = sampleRun.filterMap submitted ∧
      s.handled.map Prod.fst = s.emitted ∧
      (∀ e on, (e, on) ∈ s.handled → s.printed.count e = if on then 1 else 0) ∧
      ∀ e ∈ s.emitted, e.switchAt = 1 → ¬ SwitchedOff sampleRun e → s.printed.count e = 1 := by
  have hrun : run step State.start sampleRun =
      some ⟨⟨true, 1, .wait⟩, [], [⟨dataOf sampleCall, 1, 0⟩],
        [(⟨dataOf sampleCall, 1, 0⟩, true)], [⟨dataOf sampleCall, 1, 0⟩]⟩ := by decide
  exact ⟨_, hrun, ⟨List.mem_singleton_self _, by decide⟩,
    drained_handled sampleRun _ hrun rfl⟩

/-- Monitoring is switched off while an event emitted under it waits to be popped:
the event is dropped. -/
theorem shows_all_fails : ¬ ∀ acts, ShowsAll acts := by
  intro h
  have hrun : run step State.start
      [.observe (some (encodeUtf8 "accept01".toList)), .flip, .sysCall sampleCall,
        .observe (some (encodeUtf8 off)), .poll] =
      some ⟨⟨false, 1, .setSwitch 0⟩, [], [⟨dataOf sampleCall, 1, 0⟩],
        [(⟨dataOf sampleCall, 1, 0⟩, false)], []⟩ := by decide
  have hone := h _ _ hrun rfl ⟨dataOf sampleCall, 1, 0⟩ (List.mem_singleton_self _) rfl
  exact absurd hone (by decide)

/- Polling on empties the buffer and shows all of it or nothing. -/
theorem polls_show (buffer : List Emission) {s : State} (hb : s.buffer = buffer) :
    ∃ t, run step s (buffer.map fun _ => Act.poll) = some t ∧ t.buffer = [] ∧
      t.printed = if s.vars.isMonitoring then s.printed ++ buffer else s.printed := by
  induction buffer generalizing s with
  | nil => exact ⟨s, rfl, hb, by simp⟩
  | cons e rest ih =>
    obtain ⟨t, ht, hempty, hp⟩ := ih (s := { s with
      buffer := rest
      handled := s.handled ++ [(e, s.vars.isMonitoring)]
      printed := if s.vars.isMonitoring then s.printed ++ [e] else s.printed }) rfl
    refine ⟨t, ?_, hempty, ?_⟩
    · rw [List.map_cons, run_cons_eq_some]
      refine ⟨_, ?_, ht⟩
      cases hm : s.vars.isMonitoring <;> simp [step, hb, hm, handleEvent]
    · cases hm : s.vars.isMonitoring <;> simp [hp, hm]

/-- An event that waits while monitoring is switched off is lost if the listener
comes before the thread's next event. -/
theorem switched_off_drops (acts : List Act) {s : State} {e : Emission}
    (hrun : run step State.start acts = some s) (he : e ∈ s.buffer)
    (hp : s.vars.place = .setSwitch 0) :
    ∃ n u, run step s (List.replicate n .poll) = some u ∧ u.buffer = [] ∧
      u.printed.count e = 0 := by
  have hm : s.vars.isMonitoring = false := by
    have hagree := agree_run acts hrun
    simp only [Agree, hp] at hagree
    cases hm : s.vars.isMonitoring with
    | false => rfl
    | true =>
      rw [hm] at hagree
      exact absurd hagree.1 (by decide)
  have hacc := accounted_run acts hrun
  obtain ⟨u, hu, hempty, hshown⟩ := polls_show s.buffer rfl
  rw [List.map_const'] at hu
  refine ⟨_, u, hu, hempty, ?_⟩
  rw [hm] at hshown
  rw [hshown, List.count_eq_zero]
  intro hin
  -- what is printed has been popped, and no event is submitted twice
  have hpopped : e ∈ s.handled.map Prod.fst := by
    rw [hacc.shown] at hin
    exact List.map_subset _ (List.filter_subset_self _) hin
  have hnodup := hacc.nodup
  rw [← hacc.handed] at hnodup
  exact List.disjoint_of_nodup_append hnodup hpopped he

/-! ### What is printed was emitted under the switch -/

/- Handling this content makes the thread set is_monitoring. -/
def Starts (content : Option Bytes) (s : State) : Prop :=
  s.vars.isMonitoring = false ∧ ∃ value, readSwitchFile content = some value ∧ value ≠ off

/- Monitoring starts with no event of the time before left in the buffer, and no
target call falls between the two stores that start it. -/
def Quiet (s : State) : Act → Prop
  | .observe content => Starts content s → ∀ e ∈ s.buffer, e.switchAt = 1
  | .sysCall call => call.cgroup = targetCgroup → s.vars.place ≠ .setSwitch 1
  | _ => True

structure Clean (s : State) : Prop where
  agree : Agree s.vars
  printed : ∀ e ∈ s.printed, e.switchAt = 1
  buffered : s.vars.isMonitoring = true → ∀ e ∈ s.buffer, e.switchAt = 1

theorem clean_start : Clean State.start :=
  ⟨agree_start, nofun, nofun⟩

theorem switchState_of_agree {v : Vars} (h : Agree v) (hm : v.isMonitoring = true)
    (hp : v.place ≠ .setSwitch 1) : v.switchState = 1 := by
  obtain ⟨mon, sw, place⟩ := v
  dsimp only at hm hp
  subst hm
  cases place with
  | wait => exact h
  | raised => exact h
  | setSwitch value =>
    have hv : value = 1 := h.1
    rw [hv] at hp
    exact absurd rfl hp

/- A thread that starts monitoring was not monitoring and read another value. -/
theorem starts_of_updateFlags {content : Option Bytes} {s : State}
    (h : (updateFlags content s.vars).isMonitoring = true) :
    s.vars.isMonitoring = true ∨ Starts content s := by
  cases hm : s.vars.isMonitoring with
  | true => exact Or.inl rfl
  | false =>
    refine Or.inr ⟨hm, ?_⟩
    cases hr : readSwitchFile content with
    | none =>
      simp only [updateFlags, hr, hm] at h
      cases h
    | some value =>
      rw [updateFlags_isMonitoring hr] at h
      exact ⟨value, rfl, by simpa using h⟩

theorem clean_step {s t : State} {a : Act} (hs : Clean s) (hq : Quiet s a)
    (h : step s a = some t) : Clean t := by
  have hagree := agree_step hs.agree h
  obtain ⟨data, hd, ⟨call, rfl⟩, rfl⟩ | ⟨-, rfl⟩ | ⟨content, rfl, -, -, rfl⟩ | ⟨-, -, rfl⟩ |
    ⟨e, rest, -, -, hb, rfl⟩ := step_cases h
  · refine ⟨hagree, hs.printed, fun hm e he => ?_⟩
    have htarget : call.cgroup = targetCgroup := by
      by_contra hne
      have hc : compareCgroupId targetCgroup call.cgroup = false := by
        rw [← Bool.not_eq_true, compareCgroupId_iff]
        exact fun heq => hne heq.symm
      simp [submitted, hc] at hd
    rcases List.mem_append.mp he with hold | hnew
    · exact hs.buffered hm e hold
    · rw [List.mem_singleton.mp hnew]
      exact switchState_of_agree hs.agree hm (hq htarget)
  · exact hs
  · refine ⟨hagree, hs.printed, fun hm => ?_⟩
    rcases starts_of_updateFlags hm with hold | hstart
    · exact hs.buffered hold
    · exact hq hstart
  · refine ⟨hagree, hs.printed, fun hm => hs.buffered ?_⟩
    simpa using hm
  · have hhead : s.vars.isMonitoring = true → e.switchAt = 1 := fun hm =>
      hs.buffered hm e (by rw [hb]; exact List.mem_cons_self ..)
    refine ⟨hagree, fun x hx => ?_, fun hm x hx => ?_⟩
    · dsimp only at hx
      split at hx
      next hm =>
        rcases List.mem_append.mp hx with hold | hnew
        · exact hs.printed x hold
        · rw [List.mem_singleton.mp hnew]
          exact hhead hm
      next => exact hs.printed x hx
    · exact hs.buffered hm x (by rw [hb]; exact List.mem_cons_of_mem e hx)

/-- In a run whose steps are all quiet, what has been printed was emitted while
switch_state[0] was 1. -/
theorem printed_under_switch (acts : List Act) (s : State)
    (hquiet : AllSteps step Quiet State.start acts)
    (hrun : run step State.start acts = some s) : ∀ e ∈ s.printed, e.switchAt = 1 := by
  have hclean : Clean s :=
    run_guarded step (fun _ _ _ hs hq hst => clean_step hs hq hst) clean_start hquiet hrun
  exact hclean.printed

theorem printed_under_switch_sample :
    ∃ s, run step State.start
        [.observe (some (encodeUtf8 "accept01".toList)), .flip, .sysCall sampleCall, .poll] =
        some s ∧ ∀ e ∈ s.printed, e.switchAt = 1 := by
  have hobserve : step State.start (.observe (some (encodeUtf8 "accept01".toList))) =
      some { State.start with vars := ⟨true, 0, .setSwitch 1⟩ } := by decide
  have hflip : step { State.start with vars := ⟨true, 0, .setSwitch 1⟩ } .flip =
      some { State.start with vars := ⟨true, 1, .wait⟩ } := by decide
  have hcall : step { State.start with vars := ⟨true, 1, .wait⟩ } (.sysCall sampleCall) =
      some (emit { State.start with vars := ⟨true, 1, .wait⟩ } (dataOf sampleCall)) := by decide
  have hrun : run step State.start
      [.observe (some (encodeUtf8 "accept01".toList)), .flip, .sysCall sampleCall, .poll] =
      some ⟨⟨true, 1, .wait⟩, [], [⟨dataOf sampleCall, 1, 0⟩],
        [(⟨dataOf sampleCall, 1, 0⟩, true)], [⟨dataOf sampleCall, 1, 0⟩]⟩ := by decide
  refine ⟨_, hrun, printed_under_switch _ _ ?_ hrun⟩
  refine (allSteps_cons step hobserve).mpr ⟨fun _ => nofun, ?_⟩
  refine (allSteps_cons step hflip).mpr ⟨trivial, ?_⟩
  refine (allSteps_cons step hcall).mpr ⟨fun _ => by decide, ?_⟩
  exact ⟨trivial, fun _ _ => trivial⟩

/- What handle_event prints was emitted by a call made while switch_state[0] was 1. -/
def PrintsOnly (acts : List Act) : Prop :=
  ∀ s, run step State.start acts = some s → ∀ e ∈ s.printed, e.switchAt = 1

/-- An event emitted while the switch was 0 is popped after monitoring started. -/
theorem prints_only_fails : ¬ ∀ acts, PrintsOnly acts := by
  intro h
  have hrun : run step State.start
      [.sysCall sampleCall, .observe (some (encodeUtf8 "accept01".toList)), .poll] =
      some ⟨⟨true, 0, .setSwitch 1⟩, [], [⟨dataOf sampleCall, 0, 0⟩],
        [(⟨dataOf sampleCall, 0, 0⟩, true)], [⟨dataOf sampleCall, 0, 0⟩]⟩ := by decide
  have hone := h _ _ hrun _ (List.mem_singleton_self _)
  exact absurd hone (by decide)

/-! ### Every other run can go wrong -/

/- A call between the two stores that start monitoring is emitted under the old switch. -/
theorem emit_between_stores {s : State} (hs : Agree s.vars) (hp : s.vars.place = .setSwitch 1)
    (data : Data) :
    (emit s data).vars.isMonitoring = true ∧ ∃ e ∈ (emit s data).buffer, e.switchAt ≠ 1 := by
  simp only [Agree, hp] at hs
  obtain ⟨hone, hold⟩ := hs
  cases hm : s.vars.isMonitoring with
  | false =>
    rw [hm] at hone
    exact absurd hone (by decide)
  | true =>
    have hzero : s.vars.switchState = 0 := by simpa [hm] using hold
    refine ⟨hm, ⟨data, s.vars.switchState, s.emitted.length⟩, ?_, ?_⟩
    · exact List.mem_append_right _ (List.mem_singleton_self _)
    · show s.vars.switchState ≠ 1
      rw [hzero]
      decide

theorem noisy_step {s t : State} {a : Act} (hs : Agree s.vars) (hq : ¬ Quiet s a)
    (h : step s a = some t) : t.vars.isMonitoring = true ∧ ∃ e ∈ t.buffer, e.switchAt ≠ 1 := by
  cases a with
  | flip => exact absurd trivial hq
  | poll => exact absurd trivial hq
  | observe content =>
    simp only [Quiet, not_forall] at hq
    obtain ⟨⟨hm, value, hv, hne⟩, e, he, hone⟩ := hq
    simp only [step] at h
    split at h
    next =>
      cases h
      refine ⟨?_, e, he, hone⟩
      rw [updateFlags_isMonitoring hv]
      simpa using hne
    next => cases h
  | sysCall call =>
    simp only [Quiet, not_forall, not_not] at hq
    obtain ⟨hc, hp⟩ := hq
    have hc' : compareCgroupId targetCgroup call.cgroup = true := by
      rw [compareCgroupId_iff, hc]
    simp only [step, sysEnter_eq, hc', if_true] at h
    cases h
    exact emit_between_stores hs hp (dataOf call)

/-- After a step that is not quiet, polling alone prints an event emitted while
switch_state[0] was not 1. -/
theorem noisy_step_shows {s t : State} {a : Act} (hs : Agree s.vars) (hq : ¬ Quiet s a)
    (h : step s a = some t) :
    ∃ n u, run step t (List.replicate n .poll) = some u ∧ ∃ e ∈ u.printed, e.switchAt ≠ 1 := by
  obtain ⟨hm, e, he, hone⟩ := noisy_step hs hq h
  obtain ⟨u, hu, -, hp⟩ := polls_show t.buffer rfl
  rw [List.map_const'] at hu
  refine ⟨_, u, hu, e, ?_, hone⟩
  rw [hp, hm]
  exact List.mem_append_right _ he

end Tbouncer.Monitor.Threads
