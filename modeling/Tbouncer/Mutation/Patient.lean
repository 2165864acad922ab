import Tbouncer.Mutation.Campaign

/-!
# A campaign that waits

No test waits for the controller. Had the controller looked at every event, and made every
call on bpf, when a test begins and when its call is made, each window would be that of its
test, and what a call returns would depend on the names of the tests alone.
-/

namespace Tbouncer.Mutation.Campaign
open Base Bpf Switch Watch

def State.caughtUp (s : State) : Bool :=
  s.world.conf.queue.isEmpty && s.world.conf.batch.isEmpty &&
    s.world.conf.reader.calls.isEmpty

/- The steps of a campaign whose tests wait for the controller. -/
def Patient (s : State) : Act → Prop
  | .file m => s.stage = .start → (Attacked.opensWith m).isSome = true → s.caughtUp = true
  | .call _ => s.caughtUp = true
  | .judge => True

instance (s : State) : ∀ a, Decidable (Patient s a)
  | .file _ => inferInstanceAs (Decidable (_ → _ → _))
  | .call _ => inferInstanceAs (Decidable (_ = _))
  | .judge => .isTrue trivial

theorem caughtUp_iff {s : State} :
    s.caughtUp = true ↔ s.world.conf.queue = [] ∧ s.world.conf.batch = [] ∧
      s.world.conf.reader.calls = [] := by
  rw [State.caughtUp, Bool.and_eq_true, Bool.and_eq_true, List.isEmpty_iff, List.isEmpty_iff,
    List.isEmpty_iff, and_assoc]

section
variable {targetCgroup : CgroupId} {opens : Text}

/-! ### At rest -/

/- The name of an open window has its probe. -/
def Held (r : Script) : Prop :=
  r.controller.vars.attached = true → r.controller.vars.savedName ∈ r.controller.probes

theorem held_onEvent (content : Bytes) {r : Script} (h : Held r) : Held (r.onEvent content) := by
  unfold Script.onEvent
  split
  · exact h
  next text hread =>
    intro ha
    dsimp only at ha ⊢
    rw [probes_onModify]
    cases hc : commandOf text with
    | foreign =>
      rw [onModify, loopBody_foreign hc] at ha ⊢
      exact h ha
    | done =>
      rw [onModify, loopBody_done hc] at ha
      cases ha
    | start x =>
      rw [onModify, (loopBody_start hc _).2]
      dsimp only
      cases hopen : r.controller.vars.attached with
      | true =>
        rw [if_pos rfl, if_pos rfl]
        exact h hopen
      | false =>
        rw [if_neg Bool.false_ne_true, if_neg Bool.false_ne_true]
        exact Finset.mem_insert_self x _

def ReachedFrom (targetCgroup : CgroupId) (opens : Text) (content : Bytes) (w : Attacked.State) :
    Prop :=
  ∃ ms, run (Attacked.step targetCgroup opens) (Attacked.start content) ms = some w

theorem rest_of_reached {content : Bytes} {w : Attacked.State}
    (hw : ReachedFrom targetCgroup opens content w) (hopens : opens ∉ w.probes)
    (hphase : w.writer.phase = .idle) (hq : w.conf.queue = []) (hb : w.conf.batch = []) :
    ∃ ms, run Mutation.step (Mutation.start content) ms = some w.plain ∧ Settled w.plain := by
  obtain ⟨ms, hms⟩ := hw
  have hrun : run Mutation.step (Mutation.start content) (ms.map Attacked.plainMove) =
      some w.plain := Attacked.plain_run (Or.inl rfl) hopens Attacked.Phase.noConfusion hms
  have hready : reader.ready w.plain.conf.reader = true := by
    have hraised : w.plain.conf.reader.raised = false := run_not_raised hrun
    show (!w.plain.conf.reader.raised) = true
    rw [hraised]
    rfl
  refine ⟨_, hrun, ?_, hq, hb, hready⟩
  show w.writer.phase.plain = .idle
  rw [hphase]
  rfl

theorem closed_of_rest {content : Bytes} {w : Attacked.State}
    (hw : ReachedFrom targetCgroup opens content w) (hopens : opens ∉ w.probes)
    (hphase : w.writer.phase = .idle) (hq : w.conf.queue = []) (hb : w.conf.batch = [])
    (hlast : w.writer.last = some doneCommand) : w.loop.attached = false := by
  obtain ⟨ms, hrun, hrest⟩ := rest_of_reached hw hopens hphase hq hb
  exact (WriteCall.settled_of_atRest reader_settles_closed isModify_modify trivial hrun hrest
    hlast).2 rfl

theorem probed_of_rest {content : Bytes} {w : Attacked.State} {name : SyscallName}
    (hw : ReachedFrom targetCgroup opens content w) (hopens : opens ∉ w.probes)
    (hphase : w.writer.phase = .idle) (hq : w.conf.queue = []) (hb : w.conf.batch = [])
    (hcalls : w.conf.reader.calls = []) (hlast : w.writer.last = some name.command)
    (hclear : w.conf.atStore.vars.attached = false) : name.text ∈ w.probes := by
  obtain ⟨ms, hrun, hrest⟩ := rest_of_reached hw hopens hphase hq hb
  have hpristine : Pristine content Script.start Script.start := fun _ _ => Or.inl ⟨rfl, rfl⟩
  have hserves : Serves name w.conf.atStore.settled w.conf.reader.settled :=
    (WriteCall.settled_of_atRest reader_settles isModify_modify hpristine hrun hrest hlast).2 name
      rfl
  have hstart : Held Script.start := fun ha => by cases ha
  have hheld : Held w.conf.reader.settled :=
    WriteCall.reader_run_of (R := reader) (G := fun _ => True) (I := Held)
      (fun _ => held_onEvent _) (fun _ _ _ => held_onEvent _) (fun _ hr => hr) hstart
      (fun _ _ => trivial) hrun
  obtain ⟨hattached, hsaved⟩ := hserves
  rw [settled_vars w.conf.atStore, hclear, if_neg Bool.false_ne_true] at hsaved
  have hmem := hheld hattached
  rw [hsaved, settled_probes hcalls] at hmem
  exact hmem

/-! ### The writes of a test -/

/- What the controller still owes to a command, if no window was open before it. -/
inductive Announces (w : Attacked.State) (name : SyscallName) : Prop
  | truncated (hphase : w.writer.phase = .truncated name.command) (hcontent : w.conf.content = [])
      (hclear : w.loop.attached = false)
  | stored (hphase : w.writer.phase = .stored name.command)
      (hclear : w.conf.atStore.vars.attached = false)
  | written (hphase : w.writer.phase = .idle) (hlast : w.writer.last = some name.command)
      (hclear : w.conf.atStore.vars.attached = false)

inductive Finishes (w : Attacked.State) : Prop
  | truncated (hphase : w.writer.phase = .truncated doneCommand)
  | stored (hphase : w.writer.phase = .stored doneCommand)
  | written (hphase : w.writer.phase = .idle) (hlast : w.writer.last = some doneCommand)

inductive Between (w : Attacked.State) : Prop
  | untouched (hphase : w.writer.phase = .idle) (hq : w.conf.queue = []) (hb : w.conf.batch = [])
      (hclear : w.loop.attached = false)
  | written (hphase : w.writer.phase = .idle) (hlast : w.writer.last = some doneCommand)

def Clear (s : State) : Prop :=
  match s.stage with
  | .start => Between s.world
  | .call => ∃ test rest, s.todo = test :: rest ∧ Announces s.world test.name
  | .finish => s.world.writer.phase = .idle
  | .judge => Finishes s.world

/- A truncating open that no probe disturbs. -/
theorem opened_step {w w' : Attacked.State} {m : Move Attacked.Act} {data : Text}
    (hopens : opens ∉ w.probes) (hm : Attacked.opensWith m = some data)
    (h : Attacked.step targetCgroup opens w m = some w') :
    w'.writer.phase = .truncated data ∧ w'.conf.content = [] ∧ w'.loop = w.loop := by
  cases m with
  | write a =>
    obtain ⟨x, hx, hw, -, hr, hcontent⟩ := Attacked.step_write h
    obtain ⟨d, fd, rfl, -, rfl⟩ | ⟨rfl, -, -⟩ | ⟨d, rfl, -, -⟩ | ⟨d, rfl, -, -⟩ :=
      Attacked.writer_cases hx
    · cases hm
      refine ⟨?_, hcontent, by rw [Attacked.State.loop, Attacked.State.loop, hr]⟩
      rw [hw]
      exact if_neg hopens
    · cases hm
    · cases hm
    · cases hm
  | take => cases hm
  | handle => cases hm
  | tick => cases hm

/- What the other steps do, by the phase of the write. -/
theorem idle_step {w w' : Attacked.State} {m : Move Attacked.Act} (hm : Attacked.opensWith m = none)
    (hphase : w.writer.phase = .idle) (h : Attacked.step targetCgroup opens w m = some w') :
    w'.writer = w.writer ∧ w'.conf.atStore = w.conf.atStore ∧ ∀ a, m ≠ .write a := by
  have hreads : ∀ a, m ≠ .write a := by
    rintro a rfl
    obtain ⟨x, hx, -⟩ := Attacked.step_write h
    obtain ⟨d, fd, rfl, -, -⟩ | ⟨-, hp, -⟩ | ⟨d, -, hp, -⟩ | ⟨d, -, hp, -⟩ :=
      Attacked.writer_cases hx
    · cases hm
    · rw [hphase] at hp
      rcases hp with ⟨d, hp⟩ | hp <;> cases hp
    · rw [hphase] at hp
      cases hp
    · rw [hphase] at hp
      cases hp
  have hmove := reader_move _ hreads h
  exact ⟨hmove.writer, hmove.atStore, hreads⟩

theorem stored_step {w w' : Attacked.State} {m : Move Attacked.Act} {data : Text}
    (hm : Attacked.opensWith m = none) (hphase : w.writer.phase = .stored data)
    (h : Attacked.step targetCgroup opens w m = some w') :
    w'.conf.atStore = w.conf.atStore ∧
      (w'.writer.phase = .stored data ∨ w'.writer = ⟨.idle, some data⟩) := by
  obtain ⟨a, rfl⟩ | hread := m.write_or
  · obtain ⟨x, hx, hw, hc, -, -⟩ := Attacked.step_write h
    obtain ⟨d, fd, rfl, -, -⟩ | ⟨-, hp, -⟩ | ⟨d, -, hp, -⟩ | ⟨d, -, hp, rfl⟩ :=
      Attacked.writer_cases hx
    · cases hm
    · rw [hphase] at hp
      rcases hp with ⟨d, hp⟩ | hp <;> cases hp
    · rw [hphase] at hp
      cases hp
    · rw [hphase] at hp
      cases hp
      refine ⟨?_, Or.inr hw⟩
      rw [← Option.some.inj hc]
  · have hmove := reader_move _ hread h
    exact ⟨hmove.atStore, Or.inl (by rw [hmove.writer, hphase])⟩

theorem truncated_step {w w' : Attacked.State} {m : Move Attacked.Act} {data : Text}
    (hm : Attacked.opensWith m = none) (hphase : w.writer.phase = .truncated data)
    (h : Attacked.step targetCgroup opens w m = some w') :
    (w'.writer.phase = .truncated data ∧ w'.conf.content = w.conf.content ∧
      (w.conf.content = [] → w'.loop.attached = w.loop.attached)) ∨
    (w'.writer.phase = .stored data ∧ w'.conf.atStore = w.conf.reader) := by
  obtain ⟨a, rfl⟩ | hread := m.write_or
  · obtain ⟨x, hx, hw, hc, hr, hcontent⟩ := Attacked.step_write h
    obtain ⟨d, fd, rfl, -, -⟩ | ⟨-, hp, rfl⟩ | ⟨d, -, hp, rfl⟩ | ⟨d, -, hp, -⟩ :=
      Attacked.writer_cases hx
    · cases hm
    · have hsame : w'.writer = w.writer := hw
      refine Or.inl ⟨by rw [hsame, hphase], hcontent, fun _ => ?_⟩
      rw [Attacked.State.loop, Attacked.State.loop, hr]
    · rw [hphase] at hp
      cases hp
      refine Or.inr ⟨by rw [hw], ?_⟩
      rw [← Option.some.inj hc]
    · rw [hphase] at hp
      cases hp
  · have hmove := controller_move _ hread h
    exact Or.inl ⟨by rw [hmove.writer, hphase], hmove.content, hmove.attached_of_nil⟩

/-! ### The order of a test's steps -/

theorem announces_step {w w' : Attacked.State} {m : Move Attacked.Act} {name : SyscallName}
    (hs : Announces w name) (hm : Attacked.opensWith m = none)
    (h : Attacked.step targetCgroup opens w m = some w') : Announces w' name := by
  cases hs with
  | truncated hphase hcontent hclear =>
    rcases truncated_step hm hphase h with ⟨hphase', hsame, hattached⟩ | ⟨hphase', hstore⟩
    · -- the file is empty, and no window is opened for it
      exact .truncated hphase' (hsame.trans hcontent) ((hattached hcontent).trans hclear)
    · refine .stored hphase' ?_
      rw [hstore]
      exact hclear
  | stored hphase hclear =>
    obtain ⟨hstore, hphase' | hw⟩ := stored_step hm hphase h
    · exact .stored hphase' (by rw [hstore, hclear])
    · exact .written (by rw [hw]) (by rw [hw]) (by rw [hstore, hclear])
  | written hphase hlast hclear =>
    obtain ⟨hw, hstore, -⟩ := idle_step hm hphase h
    exact .written (by rw [hw, hphase]) (by rw [hw, hlast]) (by rw [hstore, hclear])

theorem finishes_step {w w' : Attacked.State} {m : Move Attacked.Act} (hs : Finishes w)
    (hm : Attacked.opensWith m = none) (h : Attacked.step targetCgroup opens w m = some w') :
    Finishes w' := by
  cases hs with
  | truncated hphase =>
    rcases truncated_step hm hphase h with ⟨hphase', -, -⟩ | ⟨hphase', -⟩
    · exact .truncated hphase'
    · exact .stored hphase'
  | stored hphase =>
    obtain ⟨-, hphase' | hw⟩ := stored_step hm hphase h
    · exact .stored hphase'
    · exact .written (by rw [hw]) (by rw [hw])
  | written hphase hlast =>
    obtain ⟨hw, -, -⟩ := idle_step hm hphase h
    exact .written (by rw [hw, hphase]) (by rw [hw, hlast])

theorem between_step {w w' : Attacked.State} {m : Move Attacked.Act} (hs : Between w)
    (hm : Attacked.opensWith m = none) (h : Attacked.step targetCgroup opens w m = some w') :
    Between w' := by
  cases hs with
  | untouched hphase hq hb hclear =>
    obtain ⟨hw, -, hreads⟩ := idle_step hm hphase h
    have hmove := controller_move _ hreads h
    obtain ⟨hq', hb'⟩ := hmove.quiet hq hb
    refine .untouched (by rw [hw, hphase]) hq' hb' ?_
    rcases hmove.reader with hr | hr | ⟨hne, -⟩
    · rw [Attacked.State.loop, hr]
      exact hclear
    · rw [Attacked.State.loop, hr]
      exact hclear
    · exact absurd hb hne
  | written hphase hlast =>
    obtain ⟨hw, -, -⟩ := idle_step hm hphase h
    exact .written (by rw [hw, hphase]) (by rw [hw, hlast])

theorem Announces.idle {w : Attacked.State} {name : SyscallName} (hs : Announces w name)
    (hfree : w.writer.phase.plain = .idle) :
    w.writer.phase = .idle ∧ w.writer.last = some name.command ∧
      w.conf.atStore.vars.attached = false := by
  cases hs with
  | truncated hphase hcontent hclear => rw [hphase] at hfree; cases hfree
  | stored hphase hclear => rw [hphase] at hfree; cases hfree
  | written hphase hlast hclear => exact ⟨hphase, hlast, hclear⟩

theorem Finishes.idle {w : Attacked.State} (hs : Finishes w)
    (hfree : w.writer.phase.plain = .idle) :
    w.writer.phase = .idle ∧ w.writer.last = some doneCommand := by
  cases hs with
  | truncated hphase => rw [hphase] at hfree; cases hfree
  | stored hphase => rw [hphase] at hfree; cases hfree
  | written hphase hlast => exact ⟨hphase, hlast⟩

theorem clear_step {content : Bytes} {s t : State} {a : Act} (hs : Clear s)
    (hw : ReachedFrom targetCgroup opens content s.world) (hopens : opens ∉ s.probes)
    (hpatient : Patient s a) (h : step targetCgroup opens s a = some t) : Clear t := by
  unfold Clear at hs ⊢
  cases steps_of_step h with
  | world hm hw' =>
    dsimp only
    cases hstage : s.stage with
    | start =>
      rw [hstage] at hs
      exact between_step hs hm hw'
    | call =>
      rw [hstage] at hs
      obtain ⟨test, rest, htodo, hannounces⟩ := hs
      exact ⟨test, rest, htodo, announces_step hannounces hm hw'⟩
    | finish =>
      rw [hstage] at hs
      have hidle := (idle_step hm hs hw').1
      rw [hidle]
      exact hs
    | judge =>
      rw [hstage] at hs
      exact finishes_step hs hm hw'
  | begins htodo hstage hm hw' =>
    rw [hstage] at hs
    have hcaught : s.caughtUp = true := hpatient hstage (by rw [hm]; rfl)
    obtain ⟨hq, hb, -⟩ := caughtUp_iff.mp hcaught
    have hclosed : s.world.loop.attached = false := by
      cases hs with
      | untouched hphase hq' hb' hclear => exact hclear
      | written hphase hlast => exact closed_of_rest hw hopens hphase hq hb hlast
    obtain ⟨hphase, hcontent, hloop⟩ := opened_step hopens hm hw'
    exact ⟨_, _, htodo, .truncated hphase hcontent (by rw [hloop, hclosed])⟩
  | ends htodo hstage hm hw' => exact .truncated (opened_step hopens hm hw').1
  | call htodo hstage hfree =>
    rw [hstage] at hs
    obtain ⟨test, rest, -, hannounces⟩ := hs
    exact (hannounces.idle (of_decide_eq_true hfree)).1
  | judge htodo hstage hfree =>
    rw [hstage] at hs
    obtain ⟨hphase, hlast⟩ := hs.idle (of_decide_eq_true hfree)
    exact .written hphase hlast

/-! ### What the calls return -/

def namesOf (tests : List Test) : List Text := tests.map fun b => b.name.text

/- `i` tests have made their call before `c`: its value depends on the names alone. -/
def Exact (tests : List Test) (i : ℕ) (c : Called) : Prop :=
  c.returned = if c.test.syscall ∈ namesOf (tests.take (i + 1)) then 4099 else c.honest

structure Waited (targetCgroup : CgroupId) (opens : Text) (content : Bytes) (tests : List Test)
    (s : State) : Prop where
  sound : Sound tests s
  world : ReachedFrom targetCgroup opens content s.world
  clear : Clear s
  captured : ∀ c ∈ s.calls, c.test.name.text ∈ s.probes
  values : ∀ i c, s.calls[i]? = some c → Exact tests i c

theorem begun_subset {tests : List Test} {s : State} (hs : Ordered tests s) : s.begun ⊆ tests := by
  unfold Ordered State.waiting at hs
  rw [State.begun, ← hs]
  refine List.append_subset.mpr ⟨List.subset_append_left _ _, ?_⟩
  split
  next hstage =>
    rw [hstage]
    exact fun b hb => List.mem_append_right _ (List.mem_of_mem_take hb)
  next => exact List.nil_subset _

theorem not_probed {tests : List Test} {s : State} (hs : Sound tests s)
    (hopens : opens ∉ namesOf tests) : opens ∉ s.probes := by
  intro hmem
  have hnamed := hs.cause.probes opens hmem
  exact hopens (List.map_subset _ (begun_subset hs.ordered) hnamed)

theorem reached_step {content : Bytes} {s t : State} {a : Act}
    (hs : ReachedFrom targetCgroup opens content s.world)
    (h : step targetCgroup opens s a = some t) : ReachedFrom targetCgroup opens content t.world := by
  have hmove : ∀ m w, Attacked.step targetCgroup opens s.world m = some w →
      ReachedFrom targetCgroup opens content w := by
    intro m w hw
    obtain ⟨ms, hms⟩ := hs
    exact ⟨ms ++ [m], (run_snoc_eq_some _).mpr ⟨s.world, hms, hw⟩⟩
  cases steps_of_step h with
  | world hm hw => exact hmove _ _ hw
  | begins htodo hstage hm hw => exact hmove _ _ hw
  | ends htodo hstage hm hw => exact hmove _ _ hw
  | call htodo hstage hfree => exact hs
  | judge htodo hstage hfree => exact hs

/- The call of a test that has waited. -/
theorem values_call {content : Bytes} {tests : List Test} {s : State} {test : Test}
    {rest : List Test} {c : Called} (hs : Waited targetCgroup opens content tests s)
    (hopens : opens ∉ s.probes) (hcaught : s.caughtUp = true) (htodo : s.todo = test :: rest)
    (hstage : s.stage = .call) (hfree : s.free = true) (hc : c.test = test)
    (hvalue : c.returned = if c.test.syscall ∈ s.probes then 4099 else c.honest) :
    test.name.text ∈ s.probes ∧ Exact tests s.calls.length c := by
  obtain ⟨hq, hb, hcalls⟩ := caughtUp_iff.mp hcaught
  have hclear := hs.clear
  rw [Clear, hstage] at hclear
  obtain ⟨test', rest', htodo', hannounces⟩ := hclear
  rw [htodo] at htodo'
  cases htodo'
  obtain ⟨hphase, hlast, hstore⟩ := hannounces.idle (of_decide_eq_true hfree)
  have hown : test.name.text ∈ s.probes :=
    probed_of_rest hs.world hopens hphase hq hb hcalls hlast hstore
  -- the probes are exactly the names of the tests that have begun
  have hprobes : ∀ x, x ∈ s.probes ↔ x ∈ namesOf (tests.take (s.calls.length + 1)) := by
    intro x
    rw [← begun_eq_take hs.sound.ordered hstage]
    constructor
    · exact hs.sound.cause.probes x
    · intro hx
      obtain ⟨b, hb, rfl⟩ := List.mem_map.mp hx
      rw [State.begun, if_pos hstage, htodo] at hb
      rcases List.mem_append.mp hb with hcalled | hrunning
      · obtain ⟨d, hd, rfl⟩ := List.mem_map.mp hcalled
        exact hs.captured d hd
      · obtain rfl := List.mem_singleton.mp hrunning
        exact hown
  refine ⟨hown, ?_⟩
  rw [Exact, hvalue]
  exact if_congr (hprobes _) rfl rfl

theorem waited_step {content : Bytes} {tests : List Test} (hopens : opens ∉ namesOf tests)
    {s t : State} {a : Act} (hs : Waited targetCgroup opens content tests s)
    (hpatient : Patient s a) (h : step targetCgroup opens s a = some t) :
    Waited targetCgroup opens content tests t := by
  have hnot := not_probed hs.sound hopens
  have hsound := sound_step hs.sound h
  have hworld := reached_step hs.world h
  have hclear := clear_step hs.clear hs.world hnot hpatient h
  have hkept : ∀ c ∈ s.calls, c.test.name.text ∈ t.probes :=
    fun c hc => probes_step hs.sound.cause.asks h (hs.captured c hc)
  cases steps_of_step h with
  | world hm hw => exact ⟨hsound, hworld, hclear, hkept, hs.values⟩
  | begins htodo hstage hm hw => exact ⟨hsound, hworld, hclear, hkept, hs.values⟩
  | ends htodo hstage hm hw => exact ⟨hsound, hworld, hclear, hkept, hs.values⟩
  | @call test rest honest htodo hstage hfree =>
    obtain ⟨hown, hvalue⟩ := values_call (c := ⟨test, honest, _⟩) hs hnot hpatient htodo hstage
      hfree rfl (returnValue_target s.probes test.syscall honest)
    refine ⟨hsound, hworld, hclear, fun c hc => ?_, fun i c hc => ?_⟩
    · rcases List.mem_append.mp hc with hold | hnew
      · exact hkept c hold
      · obtain rfl := List.mem_singleton.mp hnew
        exact hown
    · rcases getElem?_snoc hc with hold | ⟨rfl, rfl⟩
      · exact hs.values i c hold
      · exact hvalue
  | judge htodo hstage hfree => exact ⟨hsound, hworld, hclear, hkept, hs.values⟩

/-- If every test begins, and makes its call, when the controller has looked at all events
and attached what they ask for, and none names the call behind open(2), then a call returns
4099 exactly if its test or one before it has named it, and the kernel's value otherwise. -/
theorem patient_campaign (content : Bytes) (tests : List Test) (as : List Act) (s : State)
    (hrun : run (step targetCgroup opens) (start content tests) as = some s)
    (hpatient : AllSteps (step targetCgroup opens) Patient (start content tests) as)
    (hopens : opens ∉ namesOf tests) :
    ∀ i c, s.calls[i]? = some c → Exact tests i c := by
  have hstart : Waited targetCgroup opens content tests (start content tests) :=
    { sound := sound_start content tests
      world := ⟨[], rfl⟩
      clear := .untouched rfl rfl rfl rfl
      captured := nofun
      values := fun _ _ hc => by cases hc }
  exact (run_guarded (step targetCgroup opens)
    (fun _ _ _ hI hG hst => waited_step hopens hI hG hst) hstart hpatient hrun).values

end

theorem patient_campaign_cap :
    ∃ s, run (step 27724 Attacked.openat) (start (encodeUtf8 ['0']) capTests) capRun = some s ∧
      s.calls.length = 3 ∧ ∀ i c, s.calls[i]? = some c → Exact capTests i c := by
  have hcalls : (run (step 27724 Attacked.openat) (start (encodeUtf8 ['0']) capTests) capRun).map
      (fun s => s.calls.length) = some 3 := by decide
  obtain ⟨s, hs, hlength⟩ := Option.map_eq_some_iff.mp hcalls
  exact ⟨s, hs, hlength, patient_campaign _ _ _ s hs (by decide) (by decide)⟩

end Tbouncer.Mutation.Campaign
