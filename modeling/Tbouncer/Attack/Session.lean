import Tbouncer.Attack.Answers

/-!
# The demos and their scripts

A demo writes its command, sleeps, makes its call and takes the command back. Only the
sleep makes it likely that its script has polled in between, and nothing makes the script
poll before the next demo begins.
-/

namespace Tbouncer.Attack.Session
open Base Bpf Switch SharedMemory Demos

inductive Stage where
  | between
  | calling (demo : Demo)

/- A demo that has made its call: whether the probes of its script were installed then, and
whether the script had polled since the command was written. -/
structure Ended where
  demo : Demo
  armed : Bool
  seen : Bool
  ran : DemoRun

structure State where
  scripts : Scripts.State
  stage : Stage
  seen : Bool
  ended : List Ended

/- The hash maps of the hooks hold what earlier calls have left there. -/
inductive Act where
  | file (a : Scripts.Act)
  | begin (demo : Demo)
  | call (addrPoc : BpfHash Addr) (addrsPoc : BpfHash AddrsY)

def start (old : Text) : State := ⟨Scripts.start old [], .between, false, []⟩

namespace State
variable (s : State)

/- write_coordination_file has returned. -/
def free : Bool := decide (s.scripts.todo = []) && decide (s.scripts.writer.phase = .idle)

def armed (c : Poller) : Bool :=
  match s.scripts.controllers c with
  | none => false
  | some p => decide (c.probes ⊆ p.installed)

/- The script of the demo polls, the command being written. -/
def sees : Scripts.Act → Bool
  | .poll c =>
      match s.stage with
      | .calling demo => s.free && decide (demo.script = c)
      | .between => false
  | .write _ => false

end State

section
variable (targetCgroup current : CgroupId)

def step (s : State) : Act → Option State
  | .file a =>
      (Scripts.step s.scripts a).map fun t => { s with scripts := t, seen := s.seen || s.sees a }
  | .begin demo =>
      match s.stage with
      | .calling _ => none
      | .between =>
        if s.free then
          some { s with
            scripts := { s.scripts with
              todo := if demo.starts then [demo.script.command] else [] }
            stage := if demo.starts then .calling demo else .between
            seen := false }
        else none
  | .call addrPoc addrsPoc =>
      match s.stage with
      | .between => none
      | .calling demo =>
        if s.free then
          let armed := s.armed demo.script
          let ran := demo.after targetCgroup current addrPoc addrsPoc armed
          some ⟨{ s.scripts with todo := ran.strings.drop 1 }, .between, false,
            s.ended ++ [⟨demo, armed, s.seen, ran⟩]⟩
        else none

/- What a step can be. -/
inductive Steps (s : State) : State → Prop
  | file {a : Scripts.Act} {t : Scripts.State} (h : Scripts.step s.scripts a = some t) :
      Steps s { s with scripts := t, seen := s.seen || s.sees a }
  | begins {demo : Demo} (hstarts : demo.starts) (hfree : s.free = true) :
      Steps s { s with
        scripts := { s.scripts with todo := [demo.script.command] }
        stage := .calling demo
        seen := false }
  | fails (hfree : s.free = true) :
      Steps s { s with scripts := { s.scripts with todo := [] }, stage := .between, seen := false }
  | call {demo : Demo} (addrPoc : BpfHash Addr) (addrsPoc : BpfHash AddrsY)
      (hstage : s.stage = .calling demo) (hfree : s.free = true) :
      Steps s ⟨{ s.scripts with
          todo := (demo.after targetCgroup current addrPoc addrsPoc
            (s.armed demo.script)).strings.drop 1 }, .between, false,
        s.ended ++ [⟨demo, s.armed demo.script, s.seen,
          demo.after targetCgroup current addrPoc addrsPoc (s.armed demo.script)⟩]⟩

variable {targetCgroup current}

theorem steps_of_step {s t : State} {a : Act} (h : step targetCgroup current s a = some t) :
    Steps targetCgroup current s t := by
  cases a with
  | file a =>
    obtain ⟨u, hu, rfl⟩ := Option.map_eq_some_iff.mp h
    exact .file hu
  | begin demo =>
    simp only [step] at h
    split at h
    · cases h
    · split at h
      next hfree =>
        cases h
        by_cases hstarts : demo.starts
        · rw [if_pos hstarts, if_pos hstarts]
          exact .begins hstarts hfree
        · rw [if_neg hstarts, if_neg hstarts]
          exact .fails hfree
      next => cases h
  | call addrPoc addrsPoc =>
    simp only [step] at h
    split at h
    · cases h
    next demo hstage =>
      split at h
      next hfree =>
        cases h
        exact .call addrPoc addrsPoc hstage hfree
      next => cases h

/-! ### Between the command and the call -/

/- The command is still to be written, or it is the string in the file. -/
def Commanded (scripts : Scripts.State) (command : Text) : Prop :=
  scripts.todo = [command] ∨ (scripts.todo = [] ∧ Scripts.current scripts.writer = some command)

theorem free_iff (s : State) :
    s.free = true ↔ s.scripts.todo = [] ∧ s.scripts.writer.phase = .idle := by
  rw [State.free, Bool.and_eq_true, decide_eq_true_iff, decide_eq_true_iff]

theorem commanded_step {u v : Scripts.State} {command : Text} (hs : Commanded u command)
    {a : Scripts.Act} (h : Scripts.step u a = some v) : Commanded v command := by
  have hcurrent : ∀ {w : Writer Text}, (∀ d, Scripts.current u.writer = some d →
      Scripts.current w = some d) → v.writer = w → v.todo = u.todo → Commanded v command := by
    intro w hkeep hw htodo
    unfold Commanded
    rw [hw, htodo]
    exact hs.imp_right fun ⟨hnil, hc⟩ => ⟨hnil, hkeep _ hc⟩
  cases Scripts.steps_of_step h with
  | @opens data rest htodo hphase =>
    rcases hs with hnext | ⟨hnil, -⟩
    · rw [htodo] at hnext
      cases hnext
      exact Or.inr ⟨rfl, rfl⟩
    · rw [htodo] at hnil
      cases hnil
  | event hphase =>
    refine hcurrent (fun d hd => ?_) rfl rfl
    rw [Scripts.current, hphase] at hd
    exact hd
  | stores hphase =>
    refine hcurrent (fun d hd => ?_) rfl rfl
    rw [Scripts.current, hphase] at hd
    cases hd
    rw [Scripts.current]
    split_ifs <;> rfl
  | poll hc => exact hcurrent (fun d hd => hd) rfl rfl

/- The script has found the command. -/
structure Met (scripts : Scripts.State) (c : Poller) : Prop where
  todo : scripts.todo = []
  writer : scripts.writer = ⟨.idle, some c.command⟩
  settled : scripts.controllers c = some (c.settled true)

/- While the demo waits nothing is written, and the script finds nothing else. -/
theorem met_step {u v : Scripts.State} {c : Poller} (hreached : Scripts.Reached u) (hs : Met u c)
    (hc : c ∈ pollers) {a : Scripts.Act} (h : Scripts.step u a = some v) : Met v c := by
  cases Scripts.steps_of_step h with
  | opens htodo hphase =>
    rw [hs.todo] at htodo
    cases htodo
  | event hphase =>
    rw [hs.writer] at hphase
    cases hphase
  | stores hphase =>
    rw [hs.writer] at hphase
    cases hphase
  | @poll d hd =>
    refine ⟨hs.todo, hs.writer, ?_⟩
    dsimp only
    by_cases heq : c = d
    · subst heq
      have hcontent := Scripts.content_of_idle hreached.holds hs.writer
      rw [Function.update_self, Scripts.poll_content hreached hc, hcontent]
      simp
    · rw [Function.update_of_ne heq]
      exact hs.settled

theorem met_of_sees {s : State} {v : Scripts.State} (hreached : Scripts.Reached s.scripts)
    {demo : Demo} (hstage : s.stage = .calling demo) (hc : demo.script ∈ pollers)
    (hcommanded : Commanded s.scripts demo.script.command) {a : Scripts.Act}
    (hsees : s.sees a = true) (h : Scripts.step s.scripts a = some v) : Met v demo.script := by
  cases a with
  | write a => cases hsees
  | poll c =>
    rw [State.sees, hstage, Bool.and_eq_true, decide_eq_true_iff] at hsees
    obtain ⟨hfree, rfl⟩ := hsees
    obtain ⟨htodo, hphase⟩ := (free_iff s).mp hfree
    have hlast : s.scripts.writer.last = some demo.script.command := by
      rcases hcommanded with hnext | ⟨-, hcurrent⟩
      · rw [htodo] at hnext
        cases hnext
      · rwa [Scripts.current, hphase] at hcurrent
    have hwriter : s.scripts.writer = ⟨.idle, some demo.script.command⟩ := by
      rw [← hphase, ← hlast]
    cases Scripts.steps_of_step h with
    | poll _ =>
      refine ⟨htodo, hwriter, ?_⟩
      dsimp only
      rw [Function.update_self, Scripts.poll_content hreached hc,
        Scripts.content_of_idle hreached.holds hwriter]
      simp

/-! ### Whole sessions -/

/- What has ended is what came of the call, and a script that had polled was there. -/
def Faithful (targetCgroup current : CgroupId) (e : Ended) : Prop :=
  (∃ addrPoc addrsPoc, e.ran = e.demo.after targetCgroup current addrPoc addrsPoc e.armed) ∧
    (e.seen = true → e.armed = true)

structure Sound (targetCgroup current : CgroupId) (s : State) : Prop where
  reached : Scripts.Reached s.scripts
  commanded : ∀ demo, s.stage = .calling demo →
    demo.starts ∧ Commanded s.scripts demo.script.command
  met : ∀ demo, s.stage = .calling demo → s.seen = true → Met s.scripts demo.script
  faithful : ∀ e ∈ s.ended, Faithful targetCgroup current e

theorem script_mem (demo : Demo) : demo.script ∈ pollers := by
  rw [← Demo.script_after 0 0 BpfHash.empty BpfHash.empty false demo]
  exact Demos.script_mem _

theorem reached_todo {u : Scripts.State} (hs : Scripts.Reached u) {todo : List Text}
    (h : ∀ data ∈ todo, data ∈ Scripts.strings) : Scripts.Reached { u with todo := todo } :=
  ⟨hs.holds, h, hs.settled⟩

theorem armed_of_met {s : State} {c : Poller} (h : Met s.scripts c) : s.armed c = true := by
  rw [State.armed, h.settled]
  exact decide_eq_true (Finset.Subset.refl _)

theorem sound_between {scripts : Scripts.State} {ended : List Ended}
    (hreached : Scripts.Reached scripts) (hfaithful : ∀ e ∈ ended, Faithful targetCgroup current e) :
    Sound targetCgroup current ⟨scripts, .between, false, ended⟩ where
  reached := hreached
  commanded _ hstage := by cases hstage
  met _ hstage _ := by cases hstage
  faithful := hfaithful

theorem sound_step {s t : State} {a : Act} (hs : Sound targetCgroup current s)
    (h : step targetCgroup current s a = some t) : Sound targetCgroup current t := by
  cases steps_of_step h with
  | @file a v hv =>
    refine ⟨Scripts.reached_step hs.reached hv, fun demo hstage => ?_, fun demo hstage hseen => ?_,
      hs.faithful⟩
    · obtain ⟨hstarts, hcommanded⟩ := hs.commanded demo hstage
      exact ⟨hstarts, commanded_step hcommanded hv⟩
    · rcases Bool.or_eq_true_iff.mp hseen with hold | hnew
      · exact met_step hs.reached (hs.met demo hstage hold) (script_mem demo) hv
      · exact met_of_sees hs.reached hstage (script_mem demo) (hs.commanded demo hstage).2 hnew hv
  | @begins demo hstarts hfree =>
    refine ⟨reached_todo hs.reached fun data hdata => ?_, fun d hd => ?_, fun d hd hseen => ?_,
      hs.faithful⟩
    · rw [List.mem_singleton.mp hdata]
      exact List.mem_cons_of_mem _ (List.mem_map_of_mem (script_mem demo))
    · cases hd
      exact ⟨hstarts, Or.inl rfl⟩
    · cases hseen
  | fails hfree =>
    exact sound_between (reached_todo hs.reached (List.forall_mem_nil _)) hs.faithful
  | @call demo addrPoc addrsPoc hstage hfree =>
    obtain ⟨hstarts, -⟩ := hs.commanded demo hstage
    obtain ⟨rest, hstrings, hrest⟩ :=
      Demo.strings_after targetCgroup current addrPoc addrsPoc (s.armed demo.script) hstarts
    refine sound_between (reached_todo hs.reached fun data hdata => ?_) fun e he => ?_
    · rw [hstrings] at hdata
      rw [List.mem_singleton.mp (hrest hdata)]
      exact List.mem_cons_self ..
    · rcases List.mem_append.mp he with hold | hnew
      · exact hs.faithful e hold
      · obtain rfl := List.mem_singleton.mp hnew
        exact ⟨⟨addrPoc, addrsPoc, rfl⟩, fun hseen => armed_of_met (hs.met demo hstage hseen)⟩

/-- However the demos, the bytes they write and the polls of the five scripts interleave: a
demo whose script has polled since the command was written makes its call with the probes
installed. With them, in the target cgroup, and where the hooks write what it looks at, it
says that the attack has succeeded. And if the kernel's own answer is innocent, it says so
only in the target cgroup and with the probes of its script installed. -/
theorem session_verdicts (old : Text) (hold : old ∈ Scripts.leftovers) (as : List Act) (s : State)
    (hrun : run (step targetCgroup current) (start old) as = some s) :
    ∀ e ∈ s.ended, (e.seen = true → e.armed = true) ∧
      (current = targetCgroup → e.armed = true → e.demo.Vulnerable → e.ran.Succeeds) ∧
      (e.demo.Innocent → e.ran.Succeeds → current = targetCgroup ∧ e.armed = true) := by
  have hstart : Sound targetCgroup current (start old) :=
    sound_between ⟨⟨old, rfl, hold, rfl⟩, List.forall_mem_nil _, fun _ _ => ⟨false, rfl⟩⟩
      (List.forall_mem_nil _)
  have hsound : Sound targetCgroup current s :=
    run_invariant (step targetCgroup current) (fun _ _ _ hI hst => sound_step hI hst) hstart hrun
  intro e he
  obtain ⟨⟨addrPoc, addrsPoc, hran⟩, hseen⟩ := hsound.faithful e he
  refine ⟨hseen, fun hcgroup harmed hvulnerable => ?_, fun hinnocent hsucceeds => ?_⟩
  · rw [hran, harmed, hcgroup]
    exact Demo.succeeds_of_armed targetCgroup addrPoc addrsPoc hvulnerable
  · rw [hran] at hsucceeds
    have hsilent := Demo.silent_of_unarmed targetCgroup current addrPoc addrsPoc hinnocent
    by_cases hcgroup : current = targetCgroup
    · refine ⟨hcgroup, ?_⟩
      cases harmed : e.armed with
      | true => rfl
      | false =>
        rw [harmed] at hsucceeds
        exact absurd hsucceeds hsilent
    · rw [Demo.after_other targetCgroup current addrPoc addrsPoc hcgroup] at hsucceeds
      exact absurd hsucceeds hsilent

end

/- readlink gives a link of four bytes, once its script has polled and once before. -/
def linkDemo : Demo := .readlink 4

def linkActs : List Act :=
  [.begin linkDemo] ++ (Scripts.writes Poller.readlink.command).map .file ++
    [.call BpfHash.empty BpfHash.empty] ++ (Scripts.writes off).map .file ++
    [.begin linkDemo] ++ (Scripts.writes Poller.readlink.command).map .file ++
    [.file (.poll Poller.readlink), .call BpfHash.empty BpfHash.empty]

theorem session_verdicts_link :
    ∃ s, run (step 27724 27724) (start off) linkActs = some s ∧
      s.ended.map (fun e => (e.seen, e.armed)) = [(false, false), (true, true)] ∧
      ∀ e ∈ s.ended, (e.seen = true → e.armed = true) ∧
        ((27724 : CgroupId) = 27724 → e.armed = true → e.demo.Vulnerable → e.ran.Succeeds) ∧
        (e.demo.Innocent → e.ran.Succeeds → (27724 : CgroupId) = 27724 ∧ e.armed = true) := by
  have hview : (run (step 27724 27724) (start off) linkActs).map
      (fun s => s.ended.map fun e => (e.seen, e.armed)) =
      some [(false, false), (true, true)] := by decide +kernel
  obtain ⟨s, hs, hended⟩ := Option.map_eq_some_iff.mp hview
  exact ⟨s, hs, hended, session_verdicts off (by decide) linkActs s hs⟩

end Tbouncer.Attack.Session
