import Tbouncer.Base.Watchers
import Tbouncer.Monitor.SwitchWatch
import Tbouncer.Mutation.Delivery

/-!
# syscall_monitor.py and mutation.py on one file

Both watch `/dev/shm/switch_file` and re-read it once for each event. Neither knows the
strings of the other: to the monitor every command of mutation.py is a name, and to
mutation.py "0" is nothing.
-/

namespace Tbouncer.Monitor.Together
open Base Switch Watch

inductive Tool where
  | monitor
  | mutation
  deriving DecidableEq

def Tool.Side : Tool → Type
  | .monitor => Vars
  | .mutation => Mutation.Script

def Tool.reader : ∀ tool : Tool, Reader Bytes tool.Side Event
  | .monitor => Monitor.reader
  | .mutation => Mutation.reader

def Tool.start : ∀ tool : Tool, tool.Side
  | .monitor => Vars.start
  | .mutation => Mutation.Script.start

abbrev State := Shared Bytes Event (Switch.WriteCall.Writer Text) Tool.Side

def step : State → SharedMove Tool (Switch.WriteCall.Act Text) → Option State :=
  sharedStep (Switch.WriteCall.writer encodeUtf8) Tool.reader

def start (content : Bytes) : State :=
  ⟨content, fun tool => ⟨content, false, [], [], tool.start, tool.start⟩, ⟨.idle, none⟩⟩

def State.flags (s : State) : Vars := (s.confs .monitor).reader
def State.script (s : State) : Mutation.Script := (s.confs .mutation).reader
/- mutation.py when the string in the file was stored. -/
def State.scriptAtStore (s : State) : Mutation.Script := (s.confs .mutation).atStore

abbrev AtRest (s : State) : Prop := Shared.AtRest Tool.reader Switch.WriteCall.Idle s

/-! ### What "0" is to mutation.py -/

theorem commandOf_off : Mutation.commandOf off = .foreign := by decide
theorem readText_off : readText (encodeUtf8 off) = some off := by decide

/- While "0" is in the file the window stays as it was. -/
def Untouched (c : Bytes) (r₀ r : Mutation.Script) : Prop :=
  c = encodeUtf8 off → Mutation.SameWindow r₀ r

theorem reader_settles_off :
    Settles Mutation.reader Untouched (fun _ _ _ => True) where
  stored _ _ _ _ _ := fun _ => ⟨rfl, rfl⟩
  acted c r₀ r hJ _ := by
    refine ⟨fun hc => ?_, trivial⟩
    have hact : (Mutation.reader.act c r).controller.vars = r.controller.vars := by
      show (r.onEvent c).controller.vars = r.controller.vars
      simp only [hc, Mutation.Script.onEvent, readText_off, Mutation.onModify,
        Mutation.loopBody_foreign commandOf_off]
    rw [Mutation.SameWindow, hact]
    exact hJ hc
  ticked _ _ _ hJ := hJ
  kept _ _ _ _ _ := trivial

/-! ### Both at rest -/

/- What the two make of the string behind which they rest. -/
structure Agreed (data : Text) (s : State) : Prop where
  monitoring : s.flags.isMonitoring = true ↔ strip data ≠ off
  switch : s.flags.switchState = 1 ↔ s.flags.isMonitoring = true
  off_keeps : data = off → Mutation.SameWindow s.scriptAtStore s.script
  done_closes : data = Mutation.doneCommand →
    s.script.controller.vars.attached = false ∧ s.flags.isMonitoring = true
  start_opens : ∀ x : Mutation.SyscallName, data = x.command →
    Mutation.Serves x s.scriptAtStore s.script ∧ s.flags.isMonitoring = true

theorem strip_command {x : Text} (hx : ∀ c ∈ x, isSpace c = false) :
    strip (Mutation.commandPrefix ++ x) ≠ off := by
  rw [strip_of_no_space _ (Mutation.command_no_space hx)]
  intro heq
  have hlength := congrArg List.length heq
  have hlong : Mutation.commandPrefix.length = 9 := by decide
  have hshort : off.length = 1 := rfl
  rw [List.length_append, hlong, hshort] at hlength
  omega

/-- Once the writer is idle and both have handled all their events: the monitor is on
unless the string is "0"; behind `mutation_done` no window is open and the monitor is on,
and behind "0" it is off and the window is what it was. So no string ends what both do: a
test that closes its window leaves the system calls of the cgroup being shown, and one
that stops the monitor leaves a window open that was open before. -/
theorem together_at_rest (content : Bytes) (ms : List (SharedMove Tool (Switch.WriteCall.Act Text)))
    (s : State) (hrun : run step (start content) ms = some s) (hrest : AtRest s) (data : Text)
    (hlast : s.writer.last = some data) : Agreed data s := by
  have hcoherent : (start content).Coherent := fun _ => rfl
  have hmonitor : run (WriteCall.step encodeUtf8) (WriteCall.start content)
      (ms.filterMap (SharedMove.seenBy .monitor)) = some (s.world .monitor) :=
    world_run hcoherent hrun .monitor
  have hmutation : run Mutation.step (Mutation.start content)
      (ms.filterMap (SharedMove.seenBy .mutation)) = some (s.world .mutation) :=
    world_run hcoherent hrun .mutation
  have hmonitorRest := hrest.world .monitor
  have hmutationRest := hrest.world .mutation
  have hflag : s.flags.isMonitoring = decide (strip data ≠ off) :=
    isMonitoring_of_flagged (Switch.WriteCall.settled_of_atRest Monitor.reader_settles
      isModify_modify agree_start hmonitor hmonitorRest hlast).2
  have hon : strip data ≠ off → s.flags.isMonitoring = true := fun hne => by
    rw [hflag, decide_eq_true hne]
  refine ⟨by rw [hflag, decide_eq_true_iff], ?_, fun hoff => ?_, fun hdone => ?_, fun x hx => ?_⟩
  · have hagree : Agree s.flags := WriteCall.agree_run hmonitor
    have hwait : s.flags.place = .wait := reader_ready hmonitorRest.ready
    simp only [Agree, hwait] at hagree
    rw [hagree]
    cases s.flags.isMonitoring <;> decide
  · have hannounced := Switch.WriteCall.announced_run reader_settles_off isModify_modify
      (fun _ => ⟨rfl, rfl⟩) hmutation
    have hcontent := hannounced.held hrest.writer data hlast
    rw [hoff] at hcontent
    exact hannounced.reader_ok hcontent
  · refine ⟨?_, hon ?_⟩
    · have hclosed := (Switch.WriteCall.settled_of_atRest Mutation.reader_settles_closed
        isModify_modify trivial hmutation hmutationRest hlast).2
      exact hclosed (by rw [hdone])
    · rw [hdone]
      exact strip_command (no_space_of_all (by decide))
  · refine ⟨?_, hon ?_⟩
    · have hpristine : Mutation.Pristine content Mutation.Script.start Mutation.Script.start :=
        fun _ _ => Or.inl ⟨rfl, rfl⟩
      have hserved := (Switch.WriteCall.settled_of_atRest Mutation.reader_settles isModify_modify
        hpristine hmutation hmutationRest hlast).2
      exact hserved x (by rw [hx])
    · rw [hx]
      exact strip_command x.word

def State.pending (s : State) : List Event :=
  ((s.confs .monitor).queue ++ (s.confs .monitor).batch) ++
    ((s.confs .mutation).queue ++ (s.confs .mutation).batch)

/- A mutation test, the two reading the file in turns. -/
def mutationTest : List (SharedMove Tool (Switch.WriteCall.Act Text)) :=
  [.write (.openTrunc Mutation.accept.command), .write .write, .write .writeEvent,
    .read .mutation .take, .read .mutation .handle,
    .write (.openTrunc Mutation.doneCommand), .write .write, .write .writeEvent,
    .read .monitor .take, .read .monitor .handle, .read .monitor .tick,
    .read .mutation .take, .read .mutation .handle]

theorem together_at_rest_accept :
    ∃ s, run step (start []) mutationTest = some s ∧ Agreed Mutation.doneCommand s := by
  have hview : (run step (start []) mutationTest).map (fun s => (s.writer, s.pending, s.flags,
      s.script.raised)) = some (⟨.idle, some Mutation.doneCommand⟩, [], ⟨true, 1, .wait⟩, false) := by
    decide
  obtain ⟨s, hs, hend⟩ := Option.map_eq_some_iff.mp hview
  simp only [Prod.mk.injEq, State.pending, List.append_eq_nil_iff] at hend
  obtain ⟨hwriter, ⟨⟨hmq, hmb⟩, hsq, hsb⟩, hflags, hraised⟩ := hend
  have hrest : AtRest s := by
    refine ⟨?_, fun tool => ?_, fun tool => ?_, fun tool => ?_⟩
    · rw [hwriter]
      rfl
    · cases tool
      · exact hmq
      · exact hsq
    · cases tool
      · exact hmb
      · exact hsb
    · cases tool
      · show Monitor.reader.ready s.flags = true
        rw [hflags]
        rfl
      · show (!s.script.raised) = true
        rw [hraised]
        rfl
  exact ⟨s, hs, together_at_rest [] mutationTest s hs hrest _ (by rw [hwriter])⟩

end Tbouncer.Monitor.Together
