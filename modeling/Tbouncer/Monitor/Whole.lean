import Tbouncer.Monitor.SwitchWatch
import Tbouncer.Monitor.Threads

/-!
# syscall_monitor.py as a whole

The writer of the switch file, the events it queues, the file-monitor thread that reads
the file for them, the tracepoint and the listener. The two threads and the tracepoint do
nothing here that they cannot do by themselves, on contents that are strings of the
writer; and while the file is left alone, what is shown is what it asks for.
-/

namespace Tbouncer.Monitor.Whole
open Base Bpf Switch Watch

/- The flags are those of the reader of the file. -/
structure State where
  file : WriteCall.State Text
  buffer : List Threads.Emission
  emitted : List Threads.Emission
  handled : List (Threads.Emission × Bool)
  printed : List Threads.Emission

inductive Act where
  | file (m : Move (WriteCall.Act Text))
  | sysCall (call : SysCall)
  | poll
  deriving DecidableEq

namespace State

def vars (s : State) : Vars := s.file.conf.reader

/- The state as the threads and the tracepoint see it. -/
def threads (s : State) : Threads.State := ⟨s.vars, s.buffer, s.emitted, s.handled, s.printed⟩

def record (s : State) (t : Threads.State) : State :=
  ⟨s.file, t.buffer, t.emitted, t.handled, t.printed⟩

end State

def start (content : Bytes) : State := ⟨WriteCall.start content, [], [], [], []⟩

def step (s : State) : Act → Option State
  | .file m => (WriteCall.step encodeUtf8 s.file m).map fun f => { s with file := f }
  | .sysCall call => (Threads.step s.threads (.sysCall call)).map s.record
  | .poll => (Threads.step s.threads .poll).map s.record

def submitted : Act → Option Data
  | .sysCall call => Threads.submitted (.sysCall call)
  | _ => none

/- What happens to the file. -/
def fileMoves (as : List Act) : List (Move (WriteCall.Act Text)) :=
  as.filterMap fun
    | .file m => some m
    | _ => none

/- The strings passed to the writer. -/
def opened (as : List Act) : List Text := Switch.WriteCall.openedStrings (fileMoves as)

theorem file_run {content : Bytes} {as : List Act} {s : State}
    (hrun : run step (start content) as = some s) :
    run (WriteCall.step encodeUtf8) (WriteCall.start content) (fileMoves as) = some s.file := by
  induction as using List.reverseRecOn generalizing s with
  | nil =>
    cases hrun
    rfl
  | append_singleton as a ih =>
    obtain ⟨r, hr, hst⟩ := (run_snoc_eq_some step).mp hrun
    rw [fileMoves, List.filterMap_append]
    cases a with
    | file m =>
      obtain ⟨f, hf, rfl⟩ := Option.map_eq_some_iff.mp hst
      exact (run_snoc_eq_some _).mpr ⟨r.file, ih hr, hf⟩
    | sysCall call =>
      obtain ⟨u, -, rfl⟩ := Option.map_eq_some_iff.mp hst
      exact (run_append_eq_some _).mpr ⟨r.file, ih hr, rfl⟩
    | poll =>
      obtain ⟨u, -, rfl⟩ := Option.map_eq_some_iff.mp hst
      exact (run_append_eq_some _).mpr ⟨r.file, ih hr, rfl⟩

/-! ### What can be in the file -/

/- An empty file stands between the truncation and the write. -/
def Written (as : List Act) (content : Bytes) : Prop :=
  ∃ data, content = encodeUtf8 data ∧ (data = [] ∨ data ∈ opened as)

theorem opened_snoc {as : List Act} {d : Text} (a : Act) (h : d ∈ opened as) :
    d ∈ opened (as ++ [a]) := by
  rw [opened, fileMoves, List.filterMap_append, Switch.WriteCall.openedStrings_append]
  exact List.mem_append_left _ h

theorem written_snoc {as : List Act} {content : Bytes} (a : Act) (h : Written as content) :
    Written (as ++ [a]) content := by
  obtain ⟨data, hc, hd⟩ := h
  exact ⟨data, hc, hd.imp_right (opened_snoc a)⟩

/- An event is only there for a content that has been written. -/
theorem written_of_batch {content : Bytes} {as : List Act} {s : State}
    (hrun : run step (start content) as = some s) (hb : s.file.conf.batch ≠ []) :
    Written as s.file.conf.content := by
  rcases (Switch.WriteCall.whole_run (file_run hrun)).content with
    (hempty | ⟨data, hd, hcontent⟩) | ⟨-, -, hn⟩
  · exact ⟨[], hempty, Or.inl rfl⟩
  · exact ⟨data, hcontent, Or.inr hd⟩
  · exact absurd hn hb

/-! ### What the threads do -/

/- What a step is to the threads and the tracepoint. -/
def State.threadActs (s : State) : Act → List Threads.Act
  | .file .handle =>
      match s.file.conf.batch with
      | [] => []
      | e :: _ => if isModify e then [.observe (some s.file.conf.content)] else []
  | .file .tick =>
      match s.vars.place with
      | .setSwitch _ => [.flip]
      | _ => []
  | .file _ => []
  | .sysCall call => [.sysCall call]
  | .poll => [.poll]

/- The steps of the tracepoint and the listener leave the flags alone. -/
theorem threads_record {s : State} {t : Threads.State} (h : t.vars = s.vars) :
    (s.record t).threads = t := by
  show (⟨s.vars, t.buffer, t.emitted, t.handled, t.printed⟩ : Threads.State) = t
  rw [← h]

theorem vars_of_call {u t : Threads.State} {call : SysCall}
    (h : Threads.step u (.sysCall call) = some t) : t.vars = u.vars := by
  obtain ⟨data, -, -, rfl⟩ | ⟨-, rfl⟩ | ⟨content, ha, -⟩ | ⟨ha, -⟩ | ⟨e, rest, ha, -⟩ :=
    Threads.step_cases h
  · rfl
  · rfl
  · cases ha
  · cases ha
  · cases ha

theorem vars_of_poll {u t : Threads.State} (h : Threads.step u .poll = some t) :
    t.vars = u.vars := by
  obtain ⟨data, -, ⟨call, ha⟩, -⟩ | ⟨-, rfl⟩ | ⟨content, ha, -⟩ | ⟨ha, -⟩ | ⟨e, rest, -, -, -, rfl⟩ :=
    Threads.step_cases h
  · cases ha
  · rfl
  · cases ha
  · cases ha
  · rfl

theorem threads_step {s t : State} {a : Act} (h : step s a = some t) :
    run Threads.step s.threads (s.threadActs a) = some t.threads := by
  cases a with
  | sysCall call =>
    obtain ⟨u, hu, rfl⟩ := Option.map_eq_some_iff.mp h
    rw [threads_record (vars_of_call hu)]
    show (Threads.step s.threads (.sysCall call)).bind _ = _
    rw [hu]
    rfl
  | poll =>
    obtain ⟨u, hu, rfl⟩ := Option.map_eq_some_iff.mp h
    rw [threads_record (vars_of_poll hu)]
    show (Threads.step s.threads .poll).bind _ = _
    rw [hu]
    rfl
  | file m =>
    obtain ⟨f, hf, rfl⟩ := Option.map_eq_some_iff.mp h
    cases m with
    | write a =>
      obtain ⟨x, c, hx, hc, rfl⟩ := worldStep_write_eq_some _ hf
      have hreader : c.reader = s.file.conf.reader := by
        cases hact : x.1 with
        | store b =>
          rw [hact] at hc
          cases hc
          rfl
        | notify e =>
          rw [hact] at hc
          cases hc
          rfl
      show some s.threads = some _
      rw [State.threads, State.threads, State.vars, State.vars, ← hreader]
    | take =>
      obtain ⟨c, hc, rfl⟩ := Option.map_eq_some_iff.mp hf
      obtain ⟨-, rfl⟩ := step_take_eq_some _ hc
      rfl
    | handle =>
      obtain ⟨c, hc, rfl⟩ := Option.map_eq_some_iff.mp hf
      obtain ⟨hready, e, rest, hbatch, rfl⟩ := step_handle_eq_some _ hc
      have hwait : s.threads.vars.place = .wait := reader_ready hready
      simp only [State.threadActs, hbatch]
      cases he : isModify e with
      | true =>
        show (Threads.step s.threads (.observe (some s.file.conf.content))).bind _ = _
        rw [Threads.step, if_pos hwait, Option.bind_some]
        have hrelevant : reader.relevant e = true := he
        simp only [State.threads, State.vars, hrelevant]
        rfl
      | false =>
        have hrelevant : reader.relevant e = false := he
        simp only [State.threads, State.vars, hrelevant]
        rfl
    | tick =>
      cases hf
      show run Threads.step s.threads (match s.vars.place with
        | .setSwitch _ => [.flip]
        | _ => []) = some { s.threads with vars := storeSwitch s.vars }
      cases hplace : s.vars.place with
      | setSwitch value =>
        have hplace' : s.threads.vars.place = .setSwitch value := hplace
        simp only [run_cons, run_nil, Threads.step, hplace', Option.bind_some]
        rfl
      | wait =>
        have hsame : storeSwitch s.vars = s.vars := by simp only [storeSwitch, hplace]
        rw [hsame]
        rfl
      | raised =>
        have hsame : storeSwitch s.vars = s.vars := by simp only [storeSwitch, hplace]
        rw [hsame]
        rfl

/- `acts` is what the threads and the tracepoint have done in the run of `as`. -/
structure Shadows (as : List Act) (s : State) (acts : List Threads.Act) : Prop where
  run : run Threads.step Threads.State.start acts = some s.threads
  submitted : acts.filterMap Threads.submitted = as.filterMap submitted
  observed : ∀ content, .observe content ∈ acts → ∃ c, content = some c ∧ Written as c

theorem submitted_threadActs (s : State) (a : Act) :
    (s.threadActs a).filterMap Threads.submitted = (submitted a).toList := by
  cases a with
  | sysCall call =>
    show List.filterMap Threads.submitted [.sysCall call] = (Threads.submitted (.sysCall call)).toList
    cases h : Threads.submitted (.sysCall call) <;> simp [h]
  | poll => rfl
  | file m =>
    cases m with
    | write a => rfl
    | take => rfl
    | handle =>
      simp only [State.threadActs]
      split
      · rfl
      · split <;> rfl
    | tick =>
      simp only [State.threadActs]
      split <;> rfl

theorem observed_threadActs {content : Bytes} {as : List Act} {s : State} {a : Act}
    (hrun : run step (start content) as = some s) {c : Option Bytes}
    (hc : .observe c ∈ s.threadActs a) : ∃ c', c = some c' ∧ Written as c' := by
  cases a with
  | sysCall call => simp [State.threadActs] at hc
  | poll => simp [State.threadActs] at hc
  | file m =>
    cases m with
    | write a => simp [State.threadActs] at hc
    | take => simp [State.threadActs] at hc
    | tick =>
      simp only [State.threadActs] at hc
      split at hc <;> simp at hc
    | handle =>
      simp only [State.threadActs] at hc
      split at hc
      next => cases hc
      next e rest hbatch =>
        split at hc
        next =>
          cases List.mem_singleton.mp hc
          exact ⟨_, rfl, written_of_batch hrun (by rw [hbatch]; exact List.cons_ne_nil e rest)⟩
        next => cases hc

/-- Whatever the interleaving of the writer, the inotify queue, the threads and the system
calls: the threads and the tracepoint go through a run of theirs, with the same submitted
events, in which each content is empty or a string of the writer. -/
theorem whole_refines (content : Bytes) (as : List Act) (s : State)
    (hrun : run step (start content) as = some s) : ∃ acts, Shadows as s acts := by
  induction as using List.reverseRecOn generalizing s with
  | nil =>
    cases hrun
    exact ⟨[], rfl, rfl, nofun⟩
  | append_singleton as a ih =>
    obtain ⟨r, hr, hst⟩ := (run_snoc_eq_some step).mp hrun
    obtain ⟨acts, hacts⟩ := ih r hr
    refine ⟨acts ++ r.threadActs a, ?_, ?_, ?_⟩
    · exact (run_append_eq_some _).mpr ⟨r.threads, hacts.run, threads_step hst⟩
    · rw [List.filterMap_append, hacts.submitted, submitted_threadActs, List.filterMap_append]
      cases h : submitted a <;> simp [h]
    · intro c hc
      have hold : ∃ c', c = some c' ∧ Written as c' := by
        rcases List.mem_append.mp hc with hc | hc
        · exact hacts.observed c hc
        · exact observed_threadActs hr hc
      obtain ⟨c', heq, hw⟩ := hold
      exact ⟨c', heq, written_snoc a hw⟩

def nameRun : List Act :=
  (Switch.WriteCall.writeOut "accept01".toList ++
    [Move.take, Move.handle, Move.tick]).map Act.file ++ [.sysCall Threads.sampleCall, .poll]

theorem whole_refines_sample :
    ∃ s, run step (start []) nameRun = some s ∧ ∃ acts, Shadows nameRun s acts := by
  have hsome : (run step (start []) nameRun).isSome = true := by decide
  obtain ⟨s, hs⟩ := Option.isSome_iff_exists.mp hsome
  exact ⟨s, hs, whole_refines _ _ s hs⟩

/-! ### While the file is left alone -/

/- The writer does nothing. -/
def Act.still : Act → Bool
  | .file (.write _) => false
  | _ => true

/- What has happened since `s`, the monitor being on or off all the time. -/
structure Since (s : State) (on : Bool) (as : List Act) (t : State) : Prop where
  file : t.file = s.file
  events : ∃ new, t.emitted = s.emitted ++ new ∧
    new.map Threads.Emission.data = as.filterMap submitted ∧
    (∀ e ∈ new, e.switchAt = if on then 1 else 0) ∧
    if on then t.printed ++ t.buffer = s.printed ++ (s.buffer ++ new) else t.printed = s.printed

/- At rest the reader's own steps do nothing. -/
theorem file_still {f f' : WriteCall.State Text} {m : Move (WriteCall.Act Text)}
    (hrest : AtRest reader Switch.WriteCall.Idle f) (hm : ∀ a, m ≠ .write a)
    (h : WriteCall.step encodeUtf8 f m = some f') : f' = f := by
  have hwait := reader_ready hrest.ready
  obtain ⟨⟨content, owed, queue, batch, vars, atStore⟩, w⟩ := f
  obtain rfl : queue = [] := hrest.queue
  obtain rfl : batch = [] := hrest.batch
  cases m with
  | write a => exact absurd rfl (hm a)
  | take =>
    obtain ⟨c, hc, rfl⟩ := Option.map_eq_some_iff.mp h
    obtain ⟨-, rfl⟩ := step_take_eq_some _ hc
    rfl
  | handle =>
    obtain ⟨c, hc, rfl⟩ := Option.map_eq_some_iff.mp h
    obtain ⟨-, e, rest, hbatch, -⟩ := step_handle_eq_some _ hc
    cases hbatch
  | tick =>
    cases h
    have hplace : vars.place = .wait := hwait
    have hsame : reader.tick vars = vars := by
      show storeSwitch vars = vars
      simp only [storeSwitch, hplace]
    rw [hsame]

theorem since_step {s t u : State} {on : Bool} {as : List Act} {a : Act}
    (hrest : AtRest reader Switch.WriteCall.Idle s.file) (hon : s.vars.isMonitoring = on)
    (hswitch : s.vars.switchState = if on then 1 else 0) (ha : a.still = true)
    (hs : Since s on as t) (h : step t a = some u) : Since s on (as ++ [a]) u := by
  obtain ⟨hfile, new, hemitted, hdata, hnew, hshown⟩ := hs
  have hvars : t.vars = s.vars := by rw [State.vars, State.vars, hfile]
  have hnone : submitted a = none → new.map Threads.Emission.data =
      (as ++ [a]).filterMap submitted := fun hn => by
    rw [List.filterMap_append, hdata, List.filterMap_cons_none hn]
    exact (List.append_nil _).symm
  cases a with
  | file m =>
    obtain ⟨f, hf, rfl⟩ := Option.map_eq_some_iff.mp h
    have hm : ∀ a, m ≠ .write a := fun a heq => by
      rw [heq] at ha
      cases ha
    rw [hfile] at hf
    exact ⟨file_still hrest hm hf, new, hemitted, hnone rfl, hnew, hshown⟩
  | sysCall call =>
    obtain ⟨v, hv, rfl⟩ := Option.map_eq_some_iff.mp h
    obtain ⟨data, hsub, -, rfl⟩ | ⟨hsub, rfl⟩ | ⟨content, heq, -⟩ | ⟨heq, -⟩ | ⟨e, rest, heq, -⟩ :=
      Threads.step_cases hv
    · have hadded : (Threads.emit t.threads data).emitted =
          s.emitted ++ (new ++ [⟨data, s.vars.switchState, t.emitted.length⟩]) := by
        show t.emitted ++ [⟨data, t.vars.switchState, t.emitted.length⟩] = _
        rw [hvars, ← List.append_assoc, ← hemitted]
      refine ⟨hfile, _, hadded, ?_, fun e he => ?_, ?_⟩
      · rw [List.map_append, hdata, List.filterMap_append]
        show _ = as.filterMap submitted ++ List.filterMap submitted [.sysCall call]
        rw [List.filterMap_cons_some (show submitted (.sysCall call) = some data from hsub)]
        rfl
      · rcases List.mem_append.mp he with hold | hlast
        · exact hnew e hold
        · rw [List.mem_singleton.mp hlast]
          exact hswitch
      · cases on with
        | false => exact hshown
        | true =>
          show t.printed ++ (t.buffer ++ [⟨data, t.vars.switchState, t.emitted.length⟩]) =
            s.printed ++ (s.buffer ++ (new ++ [⟨data, s.vars.switchState, t.emitted.length⟩]))
          rw [hvars, ← List.append_assoc, ← List.append_assoc s.buffer,
            ← List.append_assoc s.printed, ← hshown]
    · exact ⟨hfile, new, hemitted, hnone hsub, hnew, hshown⟩
    · cases heq
    · cases heq
    · cases heq
  | poll =>
    obtain ⟨v, hv, rfl⟩ := Option.map_eq_some_iff.mp h
    obtain ⟨data, -, ⟨call, heq⟩, -⟩ | ⟨hsub, rfl⟩ | ⟨content, heq, -⟩ | ⟨heq, -⟩ |
      ⟨e, rest, -, -, hbuffer, rfl⟩ := Threads.step_cases hv
    · cases heq
    · exact ⟨hfile, new, hemitted, hnone rfl, hnew, hshown⟩
    · cases heq
    · cases heq
    · refine ⟨hfile, new, hemitted, hnone rfl, hnew, ?_⟩
      have hflag : t.threads.vars.isMonitoring = on := by
        show t.vars.isMonitoring = on
        rw [hvars, hon]
      cases on with
      | false =>
        show (if t.threads.vars.isMonitoring then t.printed ++ [e] else t.printed) = s.printed
        rw [hflag, if_neg Bool.false_ne_true]
        exact hshown
      | true =>
        have hqueue : t.buffer = e :: rest := hbuffer
        show (if t.threads.vars.isMonitoring then t.printed ++ [e] else t.printed) ++ rest = _
        rw [hflag, if_pos rfl, List.append_assoc, List.singleton_append, ← hqueue]
        exact hshown

theorem since_run {s t : State} {on : Bool} {as : List Act}
    (hrest : AtRest reader Switch.WriteCall.Idle s.file) (hon : s.vars.isMonitoring = on)
    (hswitch : s.vars.switchState = if on then 1 else 0) (hstill : ∀ a ∈ as, a.still = true)
    (hrun : run step s as = some t) : Since s on as t := by
  induction as using List.reverseRecOn generalizing t with
  | nil =>
    cases hrun
    refine ⟨rfl, [], (List.append_nil _).symm, rfl, nofun, ?_⟩
    cases on with
    | false => rfl
    | true =>
      show s.printed ++ s.buffer = s.printed ++ (s.buffer ++ [])
      rw [List.append_nil]
  | append_singleton as a ih =>
    obtain ⟨r, hr, hst⟩ := (run_snoc_eq_some step).mp hrun
    have hs := ih (fun b hb => hstill b (List.mem_append_left _ hb)) hr
    exact since_step hrest hon hswitch (hstill a (by simp)) hs hst

/- At rest behind `data` both flags tell whether it asks for the calls to be shown. -/
theorem flags_at_rest {content : Bytes} {as : List Act} {s : State} {data : Text}
    (hrun : run step (start content) as = some s) (hrest : AtRest reader Switch.WriteCall.Idle s.file)
    (hlast : s.file.writer.last = some data) :
    s.vars.isMonitoring = decide (strip data ≠ off) ∧
      s.vars.switchState = if decide (strip data ≠ off) then 1 else 0 := by
  have hms := file_run hrun
  have hflag : s.vars.isMonitoring = decide (strip data ≠ off) :=
    isMonitoring_of_flagged (Switch.WriteCall.settled_of_atRest reader_settles isModify_modify
      agree_start hms hrest hlast).2
  have hagree : Agree s.file.conf.reader := WriteCall.agree_run hms
  have hswitch : s.vars.switchState = if s.vars.isMonitoring then 1 else 0 := by
    simp only [Agree, reader_ready hrest.ready] at hagree
    exact hagree
  rw [hflag] at hswitch
  exact ⟨hflag, hswitch⟩

/-- The writer is idle behind `data` and the file-monitor thread has handled every event.
As long as nothing is written, whatever else happens: the target calls of that time are
emitted in their order, under a switch that is 1 if `data`, stripped, is not "0", and 0 if
it is. In the first case what is printed and what is left in the buffer is what was in
the buffer and what has been emitted since, in order and once; in the second nothing is
printed. -/
theorem window_shown (content : Bytes) (as : List Act) (s : State)
    (hrun : run step (start content) as = some s) (hrest : AtRest reader Switch.WriteCall.Idle s.file)
    (data : Text) (hlast : s.file.writer.last = some data) (as' : List Act) (t : State)
    (hstill : ∀ a ∈ as', a.still = true) (hrun' : run step s as' = some t) :
    Since s (decide (strip data ≠ off)) as' t := by
  obtain ⟨hflag, hswitch⟩ := flags_at_rest hrun hrest hlast
  exact since_run hrest hflag hswitch hstill hrun'

/- accept01 is in the file; one call is made, and then shown. -/
theorem window_shown_sample :
    ∃ s t, run step (start []) ((Switch.WriteCall.writeOut "accept01".toList ++
        [Move.take, Move.handle, Move.tick]).map Act.file) = some s ∧
      run step s [.sysCall Threads.sampleCall, .poll] = some t ∧
      Since s (decide (strip "accept01".toList ≠ off)) [.sysCall Threads.sampleCall, .poll] t := by
  have hview : (run step (start []) ((Switch.WriteCall.writeOut "accept01".toList ++
      [Move.take, Move.handle, Move.tick]).map Act.file)).map
      (fun s => (s.file.writer, s.file.conf.queue, s.file.conf.batch, s.vars)) =
      some (⟨.idle, some "accept01".toList⟩, [], [], ⟨true, 1, .wait⟩) := by decide
  have hlater : ((run step (start []) ((Switch.WriteCall.writeOut "accept01".toList ++
      [Move.take, Move.handle, Move.tick]).map Act.file)).bind
      fun s => run step s [.sysCall Threads.sampleCall, .poll]).isSome = true := by decide
  obtain ⟨s, hs, hend⟩ := Option.map_eq_some_iff.mp hview
  simp only [Prod.mk.injEq] at hend
  obtain ⟨hwriter, hqueue, hbatch, hvars⟩ := hend
  rw [hs, Option.bind_some] at hlater
  obtain ⟨t, ht⟩ := Option.isSome_iff_exists.mp hlater
  have hrest : AtRest reader Switch.WriteCall.Idle s.file := by
    refine ⟨?_, hqueue, hbatch, ?_⟩
    · rw [hwriter]
      rfl
    · show reader.ready s.vars = true
      rw [hvars]
      rfl
  exact ⟨s, t, hs, ht,
    window_shown _ _ s hs hrest _ (by rw [hwriter]) _ t (by decide) ht⟩

end Tbouncer.Monitor.Whole
