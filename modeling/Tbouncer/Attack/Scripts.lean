import Mathlib.Logic.Function.Basic
import Tbouncer.Attack.Polling

/-!
# The five scripts beside any sequence of strings

All five `iago_attack.py` poll the one switch file, and nothing makes the programs that
write it take their command back before the next one is written. The strings have
different lengths, so whatever mixture a poll finds, it is the command of a script only
if the string being written is.
-/

namespace Tbouncer.Attack.Scripts
open Base Switch Watch SharedMemory

/- `todo` are the strings still to be written. -/
structure State where
  content : Bytes
  writer : Writer Text
  todo : List Text
  controllers : Poller → Option PollState

inductive Act where
  | write (a : SharedMemory.Act Text)
  | poll (c : Poller)

def start (old : Text) (todo : List Text) : State :=
  ⟨encodeUtf8 old, ⟨.idle, some old⟩, todo, fun _ => some PollState.start⟩

def step (s : State) : Act → Option State
  | .write (.ftruncate data) =>
      match s.todo with
      | next :: rest =>
          if data = next then
            (writer encodeUtf8 s.content s.writer (.ftruncate data)).map fun x =>
              { s with
                content := x.1.on s.content
                writer := x.2
                todo := rest }
          else none
      | [] => none
  | .write a =>
      (writer encodeUtf8 s.content s.writer a).map fun x =>
        { s with content := x.1.on s.content, writer := x.2 }
  | .poll c =>
      if c ∈ pollers then
        some { s with
          controllers := Function.update s.controllers c
            ((s.controllers c).bind (Polling.readAndPoll c s.content)) }
      else none

/- What can have been in the file before, and what is written. -/
def strings : List Text := off :: commands
def leftovers : List Text := [] :: strings

/- The string in the file, or the one that is being written. -/
def current (w : Writer Text) : Option Text :=
  match w.phase with
  | .idle => w.last
  | .truncated data => some data
  | .mapped data _ => some data

/- What a step can be. -/
inductive Steps (s : State) : Act → State → Prop
  | opens {data : Text} {rest : List Text} (htodo : s.todo = data :: rest)
      (hphase : s.writer.phase = .idle) :
      Steps s (.write (.ftruncate data)) { s with
        content := fit 0 (encodeUtf8 data).length s.content
        writer := ⟨.truncated data, s.writer.last⟩
        todo := rest }
  | event {data : Text} (hphase : s.writer.phase = .truncated data) :
      Steps s (.write .event) { s with writer := ⟨.mapped data ∅, s.writer.last⟩ }
  | stores {data : Text} {stored : Finset ℕ} {i : ℕ}
      (hphase : s.writer.phase = .mapped data stored) :
      Steps s (.write (.storeByte i)) { s with
        content := storeAt (encodeUtf8 data) s.content i
        writer := if ∀ j < (encodeUtf8 data).length, j ∈ insert i stored then ⟨.idle, some data⟩
          else ⟨.mapped data (insert i stored), s.writer.last⟩ }
  | poll {c : Poller} (hc : c ∈ pollers) :
      Steps s (.poll c) { s with
        controllers := Function.update s.controllers c
          ((s.controllers c).bind (Polling.readAndPoll c s.content)) }

theorem steps_of_step {s t : State} {a : Act} (h : step s a = some t) : Steps s a t := by
  cases a with
  | poll c =>
    simp only [step] at h
    split at h
    next hc =>
      cases h
      exact .poll hc
    next => cases h
  | write a =>
    have hwrite : ∀ x, writer encodeUtf8 s.content s.writer a = some x → _ :=
      fun x hx => writer_cases hx
    cases a with
    | ftruncate data =>
      simp only [step] at h
      split at h
      next next rest htodo =>
        split at h
        next hdata =>
          obtain ⟨x, hx, rfl⟩ := Option.map_eq_some_iff.mp h
          obtain ⟨d, hact, hphase, -, rfl⟩ | ⟨d, hact, -⟩ | ⟨i, d, st, hact, -⟩ := hwrite x hx
          · cases hact
            exact .opens (by rw [htodo, hdata]) hphase
          · cases hact
          · cases hact
        next => cases h
      next => cases h
    | event =>
      obtain ⟨x, hx, rfl⟩ := Option.map_eq_some_iff.mp h
      obtain ⟨d, hact, -⟩ | ⟨d, -, hphase, rfl⟩ | ⟨i, d, st, hact, -⟩ := hwrite x hx
      · cases hact
      · exact .event hphase
      · cases hact
    | storeByte i =>
      obtain ⟨x, hx, rfl⟩ := Option.map_eq_some_iff.mp h
      obtain ⟨d, hact, -⟩ | ⟨d, hact, -⟩ | ⟨i, d, st, hact, hphase, rfl⟩ := hwrite x hx
      · cases hact
      · cases hact
      · cases hact
        exact .stores hphase

/-! ### What can be in the file -/

def Over (old data : Text) : Prop := old ∈ leftovers ∧ data ∈ strings

def Holds (content : Bytes) (w : Writer Text) : Prop :=
  SharedMemory.Holds encodeUtf8 (· ∈ leftovers) Over content w

theorem leftovers_of_over (old data : Text) (h : Over old data) :
    old ∈ leftovers ∧ data ∈ leftovers :=
  ⟨h.1, List.mem_cons_of_mem _ h.2⟩

theorem publishes : Publishes encodeUtf8 (· ∈ leftovers) Over where
  ends old data h := (leftovers_of_over old data h).2
  nonempty _ _ h := Polling.published_ne_nil h.2

theorem holds_step {s t : State} {a : Act} (hs : Holds s.content s.writer)
    (htodo : ∀ data ∈ s.todo, data ∈ strings) (h : step s a = some t) :
    Holds t.content t.writer ∧ ∀ data ∈ t.todo, data ∈ strings := by
  have hwrite : ∀ {a : SharedMemory.Act Text} {x}, (∀ data, a = .ftruncate data → data ∈ strings) →
      writer encodeUtf8 s.content s.writer a = some x → Holds (x.1.on s.content) x.2 :=
    fun hnext hx => holds_writer publishes hs (fun _ _ _ hold ha => ⟨hold, hnext _ ha⟩) hx
  cases a with
  | poll c =>
    cases steps_of_step h with
    | poll hc => exact ⟨hs, htodo⟩
  | write a =>
    cases a with
    | ftruncate data =>
      simp only [step] at h
      split at h
      next next rest hrest =>
        split at h
        next hdata =>
          obtain ⟨x, hx, rfl⟩ := Option.map_eq_some_iff.mp h
          rw [hrest] at htodo
          refine ⟨hwrite (fun d hd => ?_) hx, fun d hd => htodo d (List.mem_cons_of_mem _ hd)⟩
          cases hd
          rw [hdata]
          exact htodo next (List.mem_cons_self ..)
        next => cases h
      next => cases h
    | event =>
      obtain ⟨x, hx, rfl⟩ := Option.map_eq_some_iff.mp h
      exact ⟨hwrite (fun d hd => by cases hd) hx, htodo⟩
    | storeByte i =>
      obtain ⟨x, hx, rfl⟩ := Option.map_eq_some_iff.mp h
      exact ⟨hwrite (fun d hd => by cases hd) hx, htodo⟩

theorem leftover_oneByte (data : Text) (h : data ∈ leftovers) :
    ∀ b ∈ encodeUtf8 data, OneByte b := by
  rcases List.mem_cons.mp h with rfl | hs
  · exact fun b hb => absurd hb (List.not_mem_nil)
  · exact Polling.published_oneByte data hs

theorem holds_oneByte {content : Bytes} {w : Writer Text} (h : Holds content w) :
    ∀ b ∈ content, OneByte b :=
  holds_all leftover_oneByte leftovers_of_over Polling.oneByte_nul h

/- A command is told from every other string by its length. -/
theorem eq_of_length {data command : Text} (hdata : data ∈ leftovers)
    (hcommand : command ∈ commands)
    (h : (encodeUtf8 data).length = (encodeUtf8 command).length) : data = command := by
  have hall : ∀ command ∈ commands, ∀ data ∈ leftovers,
      (encodeUtf8 data).length = (encodeUtf8 command).length → data = command := by decide +kernel
  exact hall command hcommand data hdata h

theorem current_of_content {content : Bytes} {w : Writer Text} {command : Text}
    (h : Holds content w) (hcommand : command ∈ commands) (hcontent : content = encodeUtf8 command) :
    current w = some command := by
  obtain ⟨phase, last⟩ := w
  cases phase with
  | idle =>
    obtain ⟨data, hlast, hdata, hc⟩ := h
    cases hlast
    exact congrArg some (eq_of_length hdata hcommand (by rw [← hc, hcontent]))
  | truncated data =>
    obtain ⟨old, hover, hpart⟩ := h
    exact congrArg some (eq_of_length (leftovers_of_over old data hover).2 hcommand
      (by rw [← hpart.1, hcontent]))
  | mapped data stored =>
    obtain ⟨old, hover, hpart, -⟩ := h
    exact congrArg some (eq_of_length (leftovers_of_over old data hover).2 hcommand
      (by rw [← hpart.1, hcontent]))

theorem content_of_idle {content : Bytes} {w : Writer Text} {data : Text} (h : Holds content w)
    (hw : w = ⟨.idle, some data⟩) : content = encodeUtf8 data := by
  rw [hw] at h
  obtain ⟨d, hd, -, hc⟩ := h
  cases hd
  exact hc

/-! ### The scripts -/

structure Reached (s : State) : Prop where
  holds : Holds s.content s.writer
  todo : ∀ data ∈ s.todo, data ∈ strings
  settled : ∀ c ∈ pollers, ∃ attached, s.controllers c = some (c.settled attached)

theorem poll_content {s : State} (hs : Reached s) {c : Poller} (hc : c ∈ pollers) :
    (s.controllers c).bind (Polling.readAndPoll c s.content) =
      some (c.settled (s.content = encodeUtf8 c.command)) := by
  obtain ⟨attached, hcontroller⟩ := hs.settled c hc
  obtain ⟨word, hword, hread, hstrip⟩ := readText_of_oneByte (holds_oneByte hs.holds)
  rw [hcontroller, Option.bind_some, Polling.readAndPoll, hread, Option.bind_some, hstrip,
    Poller.poll_settled (paired_of_mem hc)]
  simp only [hword, encodeUtf8_inj]

theorem reached_step {s t : State} {a : Act} (hs : Reached s) (h : step s a = some t) :
    Reached t := by
  obtain ⟨hholds, htodo⟩ := holds_step hs.holds hs.todo h
  refine ⟨hholds, htodo, fun c hc => ?_⟩
  cases steps_of_step h with
  | opens hnext hphase => exact hs.settled c hc
  | event hphase => exact hs.settled c hc
  | stores hphase => exact hs.settled c hc
  | @poll d hd =>
    by_cases heq : c = d
    · subst heq
      dsimp only
      rw [Function.update_self, poll_content hs hc]
      exact ⟨_, rfl⟩
    · dsimp only
      rw [Function.update_of_ne heq]
      exact hs.settled c hc

theorem reached_run {old : Text} {todo : List Text} (hold : old ∈ leftovers)
    (htodo : ∀ data ∈ todo, data ∈ strings) {as : List Act} {s : State}
    (hrun : run step (start old todo) as = some s) : Reached s := by
  refine run_invariant step (fun _ _ _ hI hst => reached_step hI hst) ?_ hrun
  exact ⟨⟨old, rfl, hold, rfl⟩, htodo, fun c _ => ⟨false, rfl⟩⟩

theorem poll_settles {s t : State} (hs : Reached s) {c : Poller}
    (hpoll : step s (.poll c) = some t) :
    c.command ∈ commands ∧
      t.controllers c = some (c.settled (s.content = encodeUtf8 c.command)) := by
  cases steps_of_step hpoll with
  | poll hc =>
    refine ⟨List.mem_map_of_mem hc, ?_⟩
    dsimp only
    rw [Function.update_self, poll_content hs hc]

/-- Whatever is written in whatever order, a poll leaves a script attached only if its
command is the string in the file or the one being written to it, and attached if its
command has been written completely. So no script attacks a program that has written the
command of another, and none of them ends with an exception. -/
theorem scripts_follow (old : Text) (todo : List Text) (hold : old ∈ leftovers)
    (htodo : ∀ data ∈ todo, data ∈ strings) (as : List Act) (s t : State)
    (hrun : run step (start old todo) as = some s) (c : Poller)
    (hpoll : step s (.poll c) = some t) :
    ∃ p, t.controllers c = some p ∧ p.installed = (if p.attached then c.probes else ∅) ∧
      (p.attached = true → current s.writer = some c.command) ∧
      (s.writer = ⟨.idle, some c.command⟩ → p.attached = true) := by
  have hs := reached_run hold htodo hrun
  obtain ⟨hcommand, hsettled⟩ := poll_settles hs hpoll
  refine ⟨c.settled (s.content = encodeUtf8 c.command), hsettled, rfl, fun ha => ?_, fun hw => ?_⟩
  · exact current_of_content hs.holds hcommand (of_decide_eq_true ha)
  · exact decide_eq_true (content_of_idle hs.holds hw)

def writes (data : Text) : List Act := (writeOut encodeUtf8 data).map .write

/- The command of read is written over that of readlink, and polled for at once. -/
theorem scripts_follow_read :
    ∃ s t, run step (start Poller.readlink.command [Poller.read.command])
        [.poll Poller.readlink, .write (.ftruncate Poller.read.command)] = some s ∧
      step s (.poll Poller.read) = some t ∧
      ∃ p, t.controllers Poller.read = some p ∧
        p.installed = (if p.attached then Poller.read.probes else ∅) ∧
        (p.attached = true → current s.writer = some Poller.read.command) ∧
        (s.writer = ⟨.idle, some Poller.read.command⟩ → p.attached = true) := by
  have hsome : (run step (start Poller.readlink.command [Poller.read.command])
      [.poll Poller.readlink, .write (.ftruncate Poller.read.command)]).isSome = true := by decide
  obtain ⟨s, hs⟩ := Option.isSome_iff_exists.mp hsome
  have hmem : Poller.read ∈ pollers := by decide
  have hpoll : (step s (.poll Poller.read)).isSome = true := by
    rw [step, if_pos hmem]
    rfl
  obtain ⟨t, ht⟩ := Option.isSome_iff_exists.mp hpoll
  exact ⟨s, t, hs, ht,
    scripts_follow _ _ (by decide) (by decide) _ s t hs Poller.read ht⟩

end Tbouncer.Attack.Scripts
