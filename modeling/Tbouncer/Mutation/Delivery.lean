import Tbouncer.Mutation.Loop
import Tbouncer.Switch.WriteCall

/-!
# Commands between a test and mutation.py

The test writes `mutation_X` before a call and `mutation_done` after it
(`bind01_iago.c:64-68`), without waiting for the controller. A `mutation_done`
that is overwritten before it is read leaves the previous window open, and the
guard `not attached` (`mutation.py:65`) then ignores the next start.
-/

namespace Tbouncer.Mutation
open Base Switch Watch

/- The name of a syscall: one word, and not the word that closes a window. -/
structure SyscallName where
  text : Text
  word : ∀ c ∈ text, isSpace c = false
  not_done : text ≠ doneName

def SyscallName.command (x : SyscallName) : Text := commandPrefix ++ x.text
def doneCommand : Text := commandPrefix ++ doneName

theorem SyscallName.commandOf_command (x : SyscallName) : commandOf x.command = .start x.text :=
  commandOf_mutation x.text x.word x.not_done

theorem SyscallName.readText_command (x : SyscallName) :
    readText (encodeUtf8 x.command) = some x.command := by
  rw [SyscallName.command, readText_encodeUtf8,
    universalNewlines_of_no_space _ (command_no_space x.word)]

/- The process that runs the loop; `raised` once a read has failed. -/
structure Script where
  controller : Controller
  raised : Bool
  deriving DecidableEq

def Script.start : Script := ⟨Controller.start, false⟩

/- `mutation.py:57-73` for one MODIFY event. -/
def Script.onEvent (content : Bytes) (r : Script) : Script :=
  match readText content with
  | none => { r with raised := true }
  | some text => { r with controller := onModify r.controller text }

theorem onEvents_of_read (c : Controller) {contents : List Bytes} {texts : List Text}
    (h : contents.map readText = texts.map some) :
    contents.foldl (fun (r : Script) content => r.onEvent content) ⟨c, false⟩ =
      ⟨texts.foldl onModify c, false⟩ := by
  induction contents generalizing c texts with
  | nil =>
    rw [List.map_eq_nil_iff.mp h.symm]
    rfl
  | cons content contents ih =>
    obtain ⟨text, rest, rfl, htext, hrest⟩ := List.map_eq_cons_iff.mp h.symm
    have hevent : Script.onEvent content ⟨c, false⟩ = ⟨onModify c text, false⟩ := by
      simp only [Script.onEvent, ← htext]
    rw [List.foldl_cons, List.foldl_cons, hevent]
    exact ih _ hrest.symm

/-- On contents that can be read the process is the loop of before. -/
theorem script_of_read {contents : List Bytes} {texts : List Text}
    (h : contents.map readText = texts.map some) :
    contents.foldl (fun (r : Script) content => r.onEvent content) Script.start =
      ⟨process texts, false⟩ :=
  onEvents_of_read Controller.start h

def reader : Reader Bytes Script Event where
  relevant := isModify
  ready r := !r.raised
  act := Script.onEvent
  tick r := r

abbrev State := World Bytes Script Event (WriteCall.Writer Text)

def step : State → Move (WriteCall.Act Text) → Option State :=
  worldStep (WriteCall.writer encodeUtf8) reader

def start (content : Bytes) : State := WriteCall.start content Script.start

def State.loop (s : State) : LoopVars := s.conf.reader.controller.vars
/- The loop's variables when the string in the file was stored. -/
def State.loopAtStore (s : State) : LoopVars := s.conf.atStore.controller.vars

/-! ### What the controller makes of a command -/

def SameWindow (r₀ r : Script) : Prop :=
  r.controller.vars.attached = r₀.controller.vars.attached ∧
    r.controller.vars.savedName = r₀.controller.vars.savedName

/- A window is open: the one `r₀` had, if it had one, else that of `x`. -/
def Serves (x : SyscallName) (r₀ r : Script) : Prop :=
  r.controller.vars.attached = true ∧
    r.controller.vars.savedName =
      if r₀.controller.vars.attached then r₀.controller.vars.savedName else x.text

theorem onEvent_command (x : SyscallName) (r : Script) :
    (r.onEvent (encodeUtf8 x.command)).controller.vars =
      if r.controller.vars.attached then { r.controller.vars with syscallName := x.text }
      else ⟨true, x.text, x.text⟩ := by
  have hbody := (loopBody_start x.commandOf_command r.controller.vars).2
  simp only [Script.onEvent, x.readText_command, onModify, hbody]
  split <;> rfl

theorem serves_onEvent_of_same {x : SyscallName} {r₀ r : Script} (h : SameWindow r₀ r) :
    Serves x r₀ (r.onEvent (encodeUtf8 x.command)) := by
  obtain ⟨ha, hs⟩ := h
  rw [Serves, onEvent_command]
  cases h₀ : r₀.controller.vars.attached with
  | true => simp [ha, hs, h₀]
  | false => simp [ha, h₀]

theorem serves_onEvent_of_serves {x : SyscallName} {r₀ r : Script} (h : Serves x r₀ r) :
    Serves x r₀ (r.onEvent (encodeUtf8 x.command)) := by
  obtain ⟨ha, hs⟩ := h
  rw [Serves, onEvent_command, if_pos ha]
  exact ⟨ha, hs⟩

/- While a command is in the file the controller has not looked at it, or serves it. -/
def Pristine (c : Bytes) (r₀ r : Script) : Prop :=
  ∀ x : SyscallName, c = encodeUtf8 x.command → SameWindow r₀ r ∨ Serves x r₀ r

def Served (c : Bytes) (r₀ r : Script) : Prop :=
  ∀ x : SyscallName, c = encodeUtf8 x.command → Serves x r₀ r

theorem reader_settles : Settles reader Pristine Served where
  stored _ _ _ _ _ := fun _ _ => Or.inl ⟨rfl, rfl⟩
  acted c r₀ r hJ _ := by
    have hserved : Served c r₀ (reader.act c r) := by
      intro x hx
      have hact : reader.act c r = r.onEvent (encodeUtf8 x.command) := by rw [hx]; rfl
      rw [hact]
      rcases hJ x hx with h | h
      · exact serves_onEvent_of_same h
      · exact serves_onEvent_of_serves h
    exact ⟨fun x hx => Or.inr (hserved x hx), hserved⟩
  ticked _ _ _ hJ := hJ
  kept _ _ _ _ hP := hP

/- Every string a test writes can be read back. -/
theorem run_not_raised {content : Bytes} {ms : List (Move (WriteCall.Act Text))} {s : State}
    (hrun : run step (start content) ms = some s) : s.conf.reader.raised = false := by
  have hact : ∀ data (r : Script), r.raised = false →
      (r.onEvent (encodeUtf8 data)).raised = false := by
    intro data r hr
    simpa only [Script.onEvent, readText_encodeUtf8] using hr
  exact WriteCall.reader_run_of (R := reader) (G := fun _ => True)
    (I := fun r : Script => r.raised = false) (hact []) (fun data _ => hact data)
    (fun _ hr => hr) rfl (fun _ _ => trivial) hrun

/- The test sleeps and every queued event has been handled. -/
abbrev Settled (s : State) : Prop := AtRest reader WriteCall.Idle s

/-- At rest with `mutation_X` in the file a window is open: that of `X`, unless
`mutation_X` was stored while an earlier window was still open. -/
theorem command_delivered (content : Bytes) (ms : List (Move (WriteCall.Act Text))) (s : State)
    (hrun : run step (start content) ms = some s) (hrest : Settled s) (x : SyscallName)
    (hlast : s.writer.last = some x.command) :
    s.conf.content = encodeUtf8 x.command ∧ s.loop.attached = true ∧
      s.loop.savedName =
        if s.loopAtStore.attached then s.loopAtStore.savedName else x.text := by
  have h₀ : Pristine content Script.start Script.start := fun _ _ => Or.inl ⟨rfl, rfl⟩
  obtain ⟨hc, hP⟩ := WriteCall.settled_of_atRest reader_settles isModify_modify h₀ hrun hrest hlast
  exact ⟨hc, hP x rfl⟩

def accept : SyscallName := ⟨"accept".toList, no_space_of_all (by decide), by decide⟩
def bind : SyscallName := ⟨"bind".toList, no_space_of_all (by decide), by decide⟩

theorem command_delivered_accept :
    ∃ s, run step (start (encodeUtf8 ['0']))
        (WriteCall.writeOut accept.command ++ [.take, .handle]) = some s ∧
      s.conf.content = encodeUtf8 accept.command ∧ s.loop.attached = true ∧
        s.loop.savedName =
          if s.loopAtStore.attached then s.loopAtStore.savedName else accept.text := by
  have hview : (run step (start (encodeUtf8 ['0']))
      (WriteCall.writeOut accept.command ++ [.take, .handle])).map
      (fun s => (s.writer, s.conf.queue, s.conf.batch, s.conf.reader)) =
      some (⟨.idle, some accept.command⟩, [], [],
        ⟨⟨⟨true, accept.text, accept.text⟩, {accept.text}⟩, false⟩) := by decide
  obtain ⟨s, hs, hrest, hw, -⟩ := rest_of_view reader WriteCall.Idle hview rfl rfl
  exact ⟨s, hs, command_delivered _ _ s hs hrest accept (by rw [hw])⟩

/- A test writes a start, then its `mutation_done`, and so on. -/
def Alternates : List Text → Prop
  | [] => True
  | [c] => ∃ x : SyscallName, c = x.command
  | c :: d :: rest => (∃ x : SyscallName, c = x.command) ∧ d = doneCommand ∧ Alternates rest

def NoCommandLost (content : Bytes) (ms : List (Move (WriteCall.Act Text))) : Prop :=
  ∀ s, run step (start content) ms = some s → Settled s →
    ∀ x : SyscallName, s.writer.last = some x.command →
      s.loop.attached = true ∧ s.loop.savedName = x.text

/- `mutation_done` and `mutation_bind` are both written before the controller
reads the file again. -/
def overwrittenDone : List (Move (WriteCall.Act Text)) :=
  WriteCall.writeOut accept.command ++ [.take, .handle] ++ WriteCall.writeOut doneCommand ++
    WriteCall.writeOut bind.command ++ [.take, .handle]

/-- The window of accept is still open when bind is called. -/
theorem command_lost :
    ¬ ∀ content ms, Alternates (WriteCall.openedStrings ms) → NoCommandLost content ms := by
  intro h
  have halt : Alternates (WriteCall.openedStrings overwrittenDone) :=
    ⟨⟨accept, rfl⟩, rfl, bind, rfl⟩
  have hview : (run step (start (encodeUtf8 ['0'])) overwrittenDone).map
      (fun s => (s.writer, s.conf.queue, s.conf.batch, s.conf.reader)) =
      some (⟨.idle, some bind.command⟩, [], [],
        ⟨⟨⟨true, bind.text, accept.text⟩, {accept.text}⟩, false⟩) := by decide
  obtain ⟨s, hs, hrest, hw, hr⟩ := rest_of_view reader WriteCall.Idle hview rfl rfl
  have hbind := (h _ _ halt s hs hrest bind (by rw [hw])).2
  rw [State.loop, hr] at hbind
  exact absurd hbind (by decide)

/-! ### Closing -/

theorem commandOf_doneCommand : commandOf doneCommand = .done := by decide

theorem readText_doneCommand : readText (encodeUtf8 doneCommand) = some doneCommand := by
  have hword : ∀ c ∈ doneCommand, isSpace c = false :=
    command_no_space (no_space_of_all (by decide))
  rw [readText_encodeUtf8, universalNewlines_of_no_space _ hword]

theorem onEvent_done (r : Script) :
    (r.onEvent (encodeUtf8 doneCommand)).controller.vars.attached = false := by
  have hbody := loopBody_done commandOf_doneCommand r.controller.vars
  simp only [Script.onEvent, readText_doneCommand, onModify, hbody]

/- Nothing is asked of the reader before it has met the `mutation_done` in the file. -/
def Closed (c : Bytes) (_ r : Script) : Prop :=
  c = encodeUtf8 doneCommand → r.controller.vars.attached = false

theorem reader_settles_closed : Settles reader (fun _ _ _ => True) Closed where
  stored _ _ _ _ _ := trivial
  acted c _ r _ _ := by
    refine ⟨trivial, fun hc => ?_⟩
    show (r.onEvent c).controller.vars.attached = false
    rw [hc]
    exact onEvent_done r
  ticked _ _ _ _ := trivial
  kept _ _ _ _ hP := hP

/-- However the earlier commands were met, at rest behind a `mutation_done` no
window is open. -/
theorem done_closes (content : Bytes) (ms : List (Move (WriteCall.Act Text))) (s : State)
    (hrun : run step (start content) ms = some s) (hrest : Settled s)
    (hlast : s.writer.last = some doneCommand) : s.loop.attached = false := by
  have hP := (WriteCall.settled_of_atRest reader_settles_closed isModify_modify trivial hrun hrest
    hlast).2
  exact hP rfl

/- The start of bind is never seen: its event is merged with that of the
`mutation_done` behind it. -/
def mergedStart : List (Move (WriteCall.Act Text)) :=
  WriteCall.writeOut accept.command ++ [.take, .handle] ++ WriteCall.writeOut doneCommand ++
    WriteCall.writeOut bind.command ++ WriteCall.writeOut doneCommand ++ [.take, .handle]

theorem done_closes_merged :
    ∃ s, run step (start (encodeUtf8 ['0'])) mergedStart = some s ∧ s.loop.attached = false := by
  have hview : (run step (start (encodeUtf8 ['0'])) mergedStart).map
      (fun s => (s.writer, s.conf.queue, s.conf.batch, s.conf.reader)) =
      some (⟨.idle, some doneCommand⟩, [], [],
        ⟨⟨⟨false, doneName, accept.text⟩, {accept.text}⟩, false⟩) := by decide
  obtain ⟨s, hs, hrest, hw, -⟩ := rest_of_view reader WriteCall.Idle hview rfl rfl
  exact ⟨s, hs, done_closes _ _ s hs hrest (by rw [hw])⟩

end Tbouncer.Mutation
