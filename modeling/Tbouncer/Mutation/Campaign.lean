import Tbouncer.Mutation.Attacked

/-!
# A campaign of mutation tests

A test writes `mutation_X`, makes a call, writes `mutation_done` and reports X if the call
has returned 4099 (`bind01_iago.c:64-68` and the other `*_iago.c`). It does not wait for
the controller, and not every test makes the call it names: `capset_iago.c:42-46` asks
for capset and calls capget. The tests of a campaign run one after the other in the
target cgroup, beside one controller.
-/

namespace Tbouncer.Mutation.Campaign
open Base Bpf Switch Watch

/- `name` is what the test writes and reports, `syscall` what it calls. -/
structure Test where
  name : SyscallName
  syscall : Text

/- A call that has been made: the kernel's value and the one the test got. -/
structure Called where
  test : Test
  honest : BitVec 64
  returned : BitVec 64

inductive Stage where
  | start
  | call
  | finish
  | judge
  deriving DecidableEq

/- `todo` begins with the test that is running. -/
structure State where
  world : Attacked.State
  todo : List Test
  stage : Stage
  calls : List Called
  reports : List Text

inductive Act where
  | file (m : Move Attacked.Act)
  | call (honest : BitVec 64)
  | judge

def State.probes (s : State) : Finset Text := s.world.probes

/- The string the running test writes next, if it is at a coordination write. -/
def State.wants (s : State) : Option Text :=
  match s.todo, s.stage with
  | test :: _, .start => some test.name.command
  | _ :: _, .finish => some doneCommand
  | _, _ => none

/- No coordination write is going on. -/
def State.free (s : State) : Bool := s.world.writer.phase.plain = .idle

def Stage.afterOpen : Stage → Stage
  | .start => .call
  | .finish => .judge
  | stage => stage

/- `if (TST_RET == 4099) write_result_file(...)`. -/
def verdict (c : Called) : List Text := if c.returned = 4099 then [c.test.name.text] else []

section
variable (targetCgroup : CgroupId) (opens : Text)

def step (s : State) : Act → Option State
  | .file m =>
      match Attacked.opensWith m with
      | none => (Attacked.step targetCgroup opens s.world m).map fun w => { s with world := w }
      | some data =>
          if s.wants = some data then
            (Attacked.step targetCgroup opens s.world m).map fun w =>
              { s with world := w, stage := s.stage.afterOpen }
          else none
  | .call honest =>
      match s.todo, s.stage with
      | test :: _, .call =>
          if s.free then
            let returned := returnValue targetCgroup s.probes targetCgroup test.syscall honest
            some { s with stage := .finish, calls := s.calls ++ [⟨test, honest, returned⟩] }
          else none
      | _, _ => none
  | .judge =>
      match s.todo, s.stage with
      | _ :: rest, .judge =>
          if s.free then
            some { s with
              todo := rest
              stage := .start
              reports := s.reports ++ s.calls.getLast?.toList.flatMap verdict }
          else none
      | _, _ => none

def start (content : Bytes) (tests : List Test) : State :=
  ⟨Attacked.start content, tests, .start, [], []⟩

/- What a step can be. -/
inductive Steps (s : State) : Act → State → Prop
  | world {m : Move Attacked.Act} {w : Attacked.State} (hm : Attacked.opensWith m = none)
      (hw : Attacked.step targetCgroup opens s.world m = some w) :
      Steps s (.file m) { s with world := w }
  | begins {m : Move Attacked.Act} {w : Attacked.State} {test : Test} {rest : List Test}
      (htodo : s.todo = test :: rest) (hstage : s.stage = .start)
      (hm : Attacked.opensWith m = some test.name.command)
      (hw : Attacked.step targetCgroup opens s.world m = some w) :
      Steps s (.file m) { s with world := w, stage := .call }
  | ends {m : Move Attacked.Act} {w : Attacked.State} {test : Test} {rest : List Test}
      (htodo : s.todo = test :: rest) (hstage : s.stage = .finish)
      (hm : Attacked.opensWith m = some doneCommand)
      (hw : Attacked.step targetCgroup opens s.world m = some w) :
      Steps s (.file m) { s with world := w, stage := .judge }
  | call {test : Test} {rest : List Test} {honest : BitVec 64} (htodo : s.todo = test :: rest)
      (hstage : s.stage = .call) (hfree : s.free = true) :
      Steps s (.call honest) { s with
        stage := .finish
        calls := s.calls ++
          [⟨test, honest, returnValue targetCgroup s.probes targetCgroup test.syscall honest⟩] }
  | judge {test : Test} {rest : List Test} (htodo : s.todo = test :: rest)
      (hstage : s.stage = .judge) (hfree : s.free = true) :
      Steps s .judge { s with
        todo := rest
        stage := .start
        reports := s.reports ++ s.calls.getLast?.toList.flatMap verdict }

variable {targetCgroup opens}

theorem steps_file {s t : State} {m : Move Attacked.Act}
    (h : step targetCgroup opens s (.file m) = some t) :
    Steps targetCgroup opens s (.file m) t := by
  simp only [step] at h
  cases hm : Attacked.opensWith m with
  | none =>
    rw [hm] at h
    obtain ⟨w, hw, rfl⟩ := Option.map_eq_some_iff.mp h
    exact .world hm hw
  | some data =>
    rw [hm] at h
    dsimp only at h
    split at h
    next hwants =>
      obtain ⟨w, hw, rfl⟩ := Option.map_eq_some_iff.mp h
      unfold State.wants at hwants
      split at hwants
      next test rest htodo hstage =>
        rw [hstage]
        exact .begins htodo hstage (by rw [hm, hwants]) hw
      next test rest htodo hstage =>
        rw [hstage]
        exact .ends htodo hstage (by rw [hm, hwants]) hw
      next => cases hwants
    next => cases h

theorem steps_of_step {s t : State} {a : Act} (h : step targetCgroup opens s a = some t) :
    Steps targetCgroup opens s a t := by
  cases a with
  | file m => exact steps_file h
  | call honest =>
    simp only [step] at h
    split at h
    next test rest htodo hstage =>
      split at h
      next hfree =>
        cases h
        exact .call htodo hstage hfree
      next => cases h
    next => cases h
  | judge =>
    simp only [step] at h
    split at h
    next test rest htodo hstage =>
      split at h
      next hfree =>
        cases h
        exact .judge htodo hstage hfree
      next => cases h
    next => cases h

/-! ### The order of the tests -/

/- The tests that have written their start command, or are about to finish doing so. -/
def State.begun (s : State) : List Test :=
  s.calls.map Called.test ++ if s.stage = .call then s.todo.take 1 else []

def State.names (s : State) : List Text := s.begun.map fun b => b.name.text

/- The tests that have not made their call. -/
def State.waiting (s : State) : List Test :=
  match s.stage with
  | .start | .call => s.todo
  | .finish | .judge => s.todo.tail

def Ordered (tests : List Test) (s : State) : Prop := s.calls.map Called.test ++ s.waiting = tests

theorem ordered_step {tests : List Test} {s t : State} {a : Act} (hs : Ordered tests s)
    (h : step targetCgroup opens s a = some t) : Ordered tests t := by
  unfold Ordered State.waiting at *
  cases steps_of_step h with
  | world hm hw => exact hs
  | begins htodo hstage hm hw =>
    rw [hstage] at hs
    exact hs
  | ends htodo hstage hm hw =>
    rw [hstage] at hs
    exact hs
  | call htodo hstage hfree =>
    rw [hstage, htodo] at hs
    dsimp only at hs ⊢
    rw [htodo, List.map_append, List.append_assoc]
    exact hs
  | judge htodo hstage hfree =>
    rw [hstage, htodo] at hs
    exact hs

theorem begun_step {s t : State} {a : Act} (h : step targetCgroup opens s a = some t) :
    s.begun ⊆ t.begun := by
  unfold State.begun
  cases steps_of_step h with
  | world hm hw => exact List.Subset.refl _
  | begins htodo hstage hm hw =>
    rw [hstage, if_neg Stage.noConfusion, List.append_nil]
    exact List.subset_append_left _ _
  | ends htodo hstage hm hw =>
    rw [hstage, if_neg Stage.noConfusion, List.append_nil]
    exact List.subset_append_left _ _
  | call htodo hstage hfree =>
    rw [hstage, if_pos rfl, htodo, List.map_append]
    exact List.subset_append_left _ _
  | judge htodo hstage hfree =>
    rw [hstage, if_neg Stage.noConfusion, List.append_nil]
    exact List.subset_append_left _ _

theorem names_step {s t : State} {a : Act} (h : step targetCgroup opens s a = some t) :
    s.names ⊆ t.names :=
  List.map_subset _ (begun_step h)

/- When a call is made, it and the calls before it are those of the tests that have begun. -/
theorem begun_eq_take {tests : List Test} {s : State} (hs : Ordered tests s)
    (hstage : s.stage = .call) : s.begun = tests.take (s.calls.length + 1) := by
  unfold Ordered State.waiting at hs
  rw [hstage] at hs
  dsimp only at hs
  have hall : (s.calls.map Called.test).take (s.calls.length + 1) = s.calls.map Called.test :=
    List.take_of_length_le (by rw [List.length_map]; omega)
  rw [State.begun, if_pos hstage, ← hs, List.take_append, hall, List.length_map,
    Nat.add_sub_cancel_left]

/-! ### Every probe is that of a test -/

/- Whatever the file starts, a test has asked for. -/
def OnlyStarts (names : List Text) (content : Bytes) : Prop :=
  ∀ text x, readText content = some text → commandOf text = .start x → x ∈ names

theorem onlyStarts_nil (names : List Text) : OnlyStarts names [] := by
  intro text x hread hcommand
  have hnil : readText [] = some [] := by decide
  have hforeign : commandOf [] = .foreign := by decide
  rw [hnil] at hread
  rw [← Option.some.inj hread, hforeign] at hcommand
  cases hcommand

theorem onlyStarts_done (names : List Text) : OnlyStarts names (encodeUtf8 doneCommand) := by
  intro text x hread hcommand
  rw [readText_doneCommand] at hread
  rw [← Option.some.inj hread, commandOf_doneCommand] at hcommand
  cases hcommand

theorem onlyStarts_command {names : List Text} (name : SyscallName) (h : name.text ∈ names) :
    OnlyStarts names (encodeUtf8 name.command) := by
  intro text x hread hcommand
  rw [name.readText_command] at hread
  rw [← Option.some.inj hread, name.commandOf_command] at hcommand
  cases hcommand
  exact h

/- The content before the first write is never read: no event is there to read it for. -/
structure CausedBy (names : List Text) (w : Attacked.State) : Prop where
  file : OnlyStarts names w.conf.content ∨
    (w.writer.phase = .idle ∧ w.conf.queue = [] ∧ w.conf.batch = [])
  data : ∀ d, w.writer.phase = .truncated d → OnlyStarts names (encodeUtf8 d)
  asks : Attacked.Asks w.conf.reader
  calls : ∀ x, w.conf.reader.calls = [.attachKretprobe x] → x ∈ names
  probes : ∀ x ∈ w.probes, x ∈ names

theorem CausedBy.mono {names names' : List Text} {w : Attacked.State} (hs : CausedBy names w)
    (h : names ⊆ names') : CausedBy names' w where
  file := hs.file.imp_left fun hf text x hread hc => h (hf text x hread hc)
  data d hd text x hread hc := h (hs.data d hd text x hread hc)
  asks := hs.asks
  calls x hx := h (hs.calls x hx)
  probes x hx := h (hs.probes x hx)

theorem causedBy_write {names : List Text} {w w' : Attacked.State} {a : Attacked.Act}
    (hs : CausedBy names w)
    (hdata : ∀ data, Attacked.opensWith (.write a) = some data → OnlyStarts names (encodeUtf8 data))
    (h : Attacked.step targetCgroup opens w (.write a) = some w') : CausedBy names w' := by
  obtain ⟨x, hx, hw, -, hr, hcontent⟩ := Attacked.step_write h
  have hasks : Attacked.Asks w'.conf.reader := hr ▸ hs.asks
  have hcalls : ∀ x, w'.conf.reader.calls = [.attachKretprobe x] → x ∈ names := hr ▸ hs.calls
  have hprobes : ∀ x ∈ w'.probes, x ∈ names := by
    rw [Attacked.State.probes, hr]
    exact hs.probes
  have hkeep : w.writer.phase ≠ .idle → OnlyStarts names w.conf.content := fun hne => by
    rcases hs.file with hf | ⟨hi, -⟩
    · exact hf
    · exact absurd hi hne
  obtain ⟨d, fd, rfl, -, rfl⟩ | ⟨rfl, hp, rfl⟩ | ⟨d, rfl, hp, rfl⟩ | ⟨d, rfl, hp, rfl⟩ :=
    Attacked.writer_cases hx
  · refine ⟨Or.inl ?_, fun d' hd' => ?_, hasks, hcalls, hprobes⟩
    · rw [hcontent]
      exact onlyStarts_nil names
    · rw [hw] at hd'
      dsimp only at hd'
      split at hd'
      · cases hd'
      · cases hd'
        exact hdata d rfl
  · have hsame : w'.writer = w.writer := hw
    refine ⟨Or.inl ?_, fun d' hd' => hs.data d' (by rw [← hsame]; exact hd'),
      hasks, hcalls, hprobes⟩
    rw [hcontent]
    refine hkeep ?_
    rcases hp with ⟨d, hp⟩ | hp
    · rw [hp]
      exact Attacked.Phase.noConfusion
    · rw [hp]
      exact Attacked.Phase.noConfusion
  · refine ⟨Or.inl ?_, fun d' hd' => ?_, hasks, hcalls, hprobes⟩
    · rw [hcontent]
      exact hs.data d hp
    · rw [hw] at hd'
      cases hd'
  · refine ⟨Or.inl ?_, fun d' hd' => ?_, hasks, hcalls, hprobes⟩
    · rw [hcontent]
      refine hkeep ?_
      rw [hp]
      exact Attacked.Phase.noConfusion
    · rw [hw] at hd'
      cases hd'

theorem causedBy_step {names : List Text} {w w' : Attacked.State} {m : Move Attacked.Act}
    (hs : CausedBy names w)
    (hdata : ∀ data, Attacked.opensWith m = some data → OnlyStarts names (encodeUtf8 data))
    (h : Attacked.step targetCgroup opens w m = some w') : CausedBy names w' := by
  obtain ⟨a, rfl⟩ | hm := m.write_or
  · exact causedBy_write hs hdata h
  · have hmove := controller_move _ hm h
    have hasks := Attacked.asks_step hs.asks h
    have hfile : OnlyStarts names w'.conf.content ∨
        (w'.writer.phase = .idle ∧ w'.conf.queue = [] ∧ w'.conf.batch = []) := by
      rw [hmove.content, hmove.writer]
      exact hs.file.imp_right fun ⟨hi, hq, hb⟩ => ⟨hi, hmove.quiet hq hb⟩
    refine ⟨hfile, hmove.writer ▸ hs.data, hasks, fun x hx => ?_, fun x hx => ?_⟩
    · rcases hmove.reader with hr | hr | ⟨hbatch, hnone, hr⟩
      · rw [hr] at hx
        exact hs.calls x hx
      · rw [hr] at hx
        cases hx
      · obtain ⟨text, hread, hcommand, -⟩ := start_of_calls hnone hr hx
        rcases hs.file with hf | ⟨-, -, hb⟩
        · exact hf text x hread hcommand
        · exact absurd hb hbatch
    · rcases Attacked.probes_cases h with heq | ⟨hr, -, -⟩
      · exact hs.probes x (heq ▸ hx)
      · rw [Attacked.State.probes, hr] at hx
        exact ((Attacked.mem_makeCalls hs.asks).mp hx).elim (hs.probes x) (hs.calls x)

theorem campaign_causedBy_step {s t : State} {a : Act} (hs : CausedBy s.names s.world)
    (h : step targetCgroup opens s a = some t) : CausedBy t.names t.world := by
  have hnames := names_step h
  have hmono := hs.mono hnames
  cases steps_of_step h with
  | world hm hw =>
    refine causedBy_step hmono (fun data hd => ?_) hw
    rw [hm] at hd
    cases hd
  | @begins m w test rest htodo hstage hm hw =>
    refine causedBy_step hmono (fun data hd => ?_) hw
    rw [hm] at hd
    obtain rfl := Option.some.inj hd
    refine onlyStarts_command test.name (List.mem_map.mpr ⟨test, ?_, rfl⟩)
    rw [State.begun, if_pos rfl]
    dsimp only
    rw [htodo]
    exact List.mem_append_right _ (List.mem_singleton_self test)
  | ends htodo hstage hm hw =>
    refine causedBy_step hmono (fun data hd => ?_) hw
    rw [hm] at hd
    obtain rfl := Option.some.inj hd
    exact onlyStarts_done _
  | call htodo hstage hfree => exact hmono
  | judge htodo hstage hfree => exact hmono

/-! ### What the calls return -/

theorem returnValue_target (probes : Finset Text) (syscall : Text) (honest : BitVec 64) :
    returnValue targetCgroup probes targetCgroup syscall honest =
      if syscall ∈ probes then 4099 else honest := by
  have hself : compareCgroupId targetCgroup targetCgroup = true := (compareCgroupId_iff _ _).mpr rfl
  simp [returnValue, handleRetvalue, hself]

/- The calls that have been judged. -/
def State.judged (s : State) : List Called :=
  match s.stage with
  | .start | .call => s.calls
  | .finish | .judge => s.calls.dropLast

/- `i` tests have made their call before `c`. -/
def Caused (tests : List Test) (i : ℕ) (c : Called) : Prop :=
  c.returned = c.honest ∨
    c.returned = 4099 ∧ ∃ b ∈ tests.take (i + 1), b.name.text = c.test.syscall

def Persists (calls : List Called) : Prop :=
  calls.Pairwise fun c d =>
    c.returned ≠ c.honest → d.test.syscall = c.test.syscall → d.returned = 4099

structure Logged (tests : List Test) (s : State) : Prop where
  caused : ∀ i c, s.calls[i]? = some c → Caused tests i c
  probed : ∀ c ∈ s.calls, c.returned ≠ c.honest → c.test.syscall ∈ s.probes
  persists : Persists s.calls
  reports : s.reports = s.judged.flatMap verdict

theorem probes_step {s t : State} {a : Act} (hs : Attacked.Asks s.world.conf.reader)
    (h : step targetCgroup opens s a = some t) : s.probes ⊆ t.probes := by
  cases steps_of_step h with
  | world hm hw => exact Attacked.probes_step hs hw
  | begins htodo hstage hm hw => exact Attacked.probes_step hs hw
  | ends htodo hstage hm hw => exact Attacked.probes_step hs hw
  | call htodo hstage hfree => exact subset_rfl
  | judge htodo hstage hfree => exact subset_rfl

theorem getElem?_snoc {calls : List Called} {c d : Called} {i : ℕ}
    (h : (calls ++ [c])[i]? = some d) : calls[i]? = some d ∨ i = calls.length ∧ d = c := by
  rw [List.getElem?_append] at h
  split at h
  · exact Or.inl h
  · rw [List.getElem?_singleton] at h
    split at h
    · exact Or.inr ⟨by omega, (Option.some.inj h).symm⟩
    · cases h

theorem logged_call {tests : List Test} {s : State} {c : Called} (hs : Logged tests s)
    (hordered : Ordered tests s) (hcause : CausedBy s.names s.world) (hstage : s.stage = .call)
    (hvalue : c.returned = if c.test.syscall ∈ s.probes then 4099 else c.honest) :
    Logged tests { s with stage := .finish, calls := s.calls ++ [c] } := by
  have hprobed : c.returned ≠ c.honest → c.test.syscall ∈ s.probes := by
    intro hne
    by_contra hmem
    rw [hvalue, if_neg hmem] at hne
    exact hne rfl
  refine ⟨fun i d hd => ?_, fun d hd hne => ?_, ?_, ?_⟩
  · rcases getElem?_snoc hd with hold | ⟨rfl, rfl⟩
    · exact hs.caused i d hold
    · by_cases hmem : d.test.syscall ∈ s.probes
      · obtain ⟨b, hb, hname⟩ := List.mem_map.mp (hcause.probes _ hmem)
        rw [begun_eq_take hordered hstage] at hb
        rw [if_pos hmem] at hvalue
        exact Or.inr ⟨hvalue, b, hb, hname⟩
      · rw [if_neg hmem] at hvalue
        exact Or.inl hvalue
  · rcases List.mem_append.mp hd with hold | hnew
    · exact hs.probed d hold hne
    · obtain rfl := List.mem_singleton.mp hnew
      exact hprobed hne
  · refine List.pairwise_append.mpr ⟨hs.persists, List.pairwise_singleton _ _, ?_⟩
    intro d hd e he hne hsame
    obtain rfl := List.mem_singleton.mp he
    have hmem := hs.probed d hd hne
    rw [← hsame] at hmem
    rw [hvalue, if_pos hmem]
  · show s.reports = (s.calls ++ [c]).dropLast.flatMap verdict
    rw [List.dropLast_concat, hs.reports, State.judged, hstage]

theorem logged_step {tests : List Test} {s t : State} {a : Act} (hs : Logged tests s)
    (hordered : Ordered tests s) (hcause : CausedBy s.names s.world)
    (h : step targetCgroup opens s a = some t) : Logged tests t := by
  have hprobed : ∀ c ∈ s.calls, c.returned ≠ c.honest → c.test.syscall ∈ t.probes :=
    fun c hc hne => probes_step hcause.asks h (hs.probed c hc hne)
  cases steps_of_step h with
  | world hm hw => exact ⟨hs.caused, hprobed, hs.persists, hs.reports⟩
  | begins htodo hstage hm hw =>
    refine ⟨hs.caused, hprobed, hs.persists, ?_⟩
    rw [State.judged]
    exact hs.reports.trans (by rw [State.judged, hstage])
  | ends htodo hstage hm hw =>
    refine ⟨hs.caused, hprobed, hs.persists, ?_⟩
    rw [State.judged]
    exact hs.reports.trans (by rw [State.judged, hstage])
  | call htodo hstage hfree =>
    exact logged_call hs hordered hcause hstage (returnValue_target _ _ _)
  | judge htodo hstage hfree =>
    refine ⟨hs.caused, hprobed, hs.persists, ?_⟩
    have hcalls : s.calls.dropLast ++ s.calls.getLast?.toList = s.calls := by
      cases hlast : s.calls.getLast? with
      | none =>
        rw [List.getLast?_eq_none_iff.mp hlast]
        rfl
      | some c => exact List.dropLast_append_getLast? c hlast
    show s.reports ++ s.calls.getLast?.toList.flatMap verdict = s.calls.flatMap verdict
    rw [hs.reports, State.judged, hstage]
    dsimp only
    rw [← List.flatMap_append, hcalls]

structure Sound (tests : List Test) (s : State) : Prop where
  ordered : Ordered tests s
  cause : CausedBy s.names s.world
  log : Logged tests s

theorem sound_start (content : Bytes) (tests : List Test) : Sound tests (start content tests) where
  ordered := rfl
  cause :=
    { file := Or.inr ⟨rfl, rfl, rfl⟩
      data := nofun
      asks := Or.inl rfl
      calls := nofun
      probes := fun x hx => absurd hx (Finset.notMem_empty x) }
  log :=
    { caused := fun i c hc => by cases hc
      probed := nofun
      persists := List.Pairwise.nil
      reports := rfl }

theorem sound_step {tests : List Test} {s t : State} {a : Act} (hs : Sound tests s)
    (h : step targetCgroup opens s a = some t) : Sound tests t :=
  ⟨ordered_step hs.ordered h, campaign_causedBy_step hs.cause h,
    logged_step hs.log hs.ordered hs.cause h⟩

/-- Whatever the order of steps: the calls are those of the first tests, a call comes back
changed only as 4099 and only if its test or one before it has named it, once it has, all
later calls of it come back as 4099 although a window closes behind each, and the reports
are of the calls that came back as 4099. -/
theorem campaign_sound (content : Bytes) (tests : List Test) (as : List Act) (s : State)
    (hrun : run (step targetCgroup opens) (start content tests) as = some s) :
    s.calls.map Called.test <+: tests ∧ (∀ i c, s.calls[i]? = some c → Caused tests i c) ∧
      Persists s.calls ∧ s.reports = s.judged.flatMap verdict := by
  have hinv : Sound tests s :=
    run_invariant (step targetCgroup opens) (fun _ _ _ hI hst => sound_step hI hst)
      (sound_start content tests) hrun
  exact ⟨⟨s.waiting, hinv.ordered⟩, hinv.log.caused, hinv.log.persists, hinv.log.reports⟩

end

def capget : SyscallName := ⟨"capget".toList, no_space_of_all (by decide), by decide⟩
def capset : SyscallName := ⟨"capset".toList, no_space_of_all (by decide), by decide⟩

/- One test, the controller keeping up with it; the kernel returns `honest`. -/
def kept (name : SyscallName) (honest : BitVec 64) : List Act :=
  let told (data : Text) :=
    (Attacked.writeOut data ++ [Move.take, Move.handle, Move.tick]).map Act.file
  told name.command ++ [.call honest] ++ told doneCommand ++ [.judge]

/- The test of capset asks for capset and calls capget. -/
def capTests : List Test :=
  [⟨capset, capget.text⟩, ⟨capget, capget.text⟩, ⟨capset, capget.text⟩]

def capRun : List Act := kept capset 0 ++ kept capget 0 ++ kept capset 0

theorem campaign_sound_cap :
    ∃ s, run (step 27724 Attacked.openat) (start (encodeUtf8 ['0']) capTests) capRun = some s ∧
      s.calls.map Called.test <+: capTests ∧
      (∀ i c, s.calls[i]? = some c → Caused capTests i c) ∧ Persists s.calls ∧
      s.reports = s.judged.flatMap verdict ∧ s.reports = [capget.text, capset.text] := by
  have hreports : (run (step 27724 Attacked.openat) (start (encodeUtf8 ['0']) capTests) capRun).map
      (fun s => s.reports) = some [capget.text, capset.text] := by decide
  obtain ⟨s, hs, hr⟩ := Option.map_eq_some_iff.mp hreports
  obtain ⟨horder, hcaused, hpersists, hjudged⟩ := campaign_sound _ _ _ s hs
  exact ⟨s, hs, horder, hcaused, hpersists, hjudged, hr⟩

end Tbouncer.Mutation.Campaign
