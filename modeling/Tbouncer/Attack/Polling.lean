import Tbouncer.Attack.Pollers
import Tbouncer.Switch.SharedMemory

/-!
# A polling controller beside the shared-memory writer

The test programs publish a command, later "0", later the next command, with the
version of write_coordination_file that stores byte after byte. A poll may read the
file at any moment. No mixture it can find is a command: a byte that has not been
stored yet is '0' or NUL, and a command has neither.
-/

namespace Tbouncer.Attack
open Base Switch Watch

def commands : List Text := pollers.map Poller.command

namespace Polling
open SharedMemory

/- `controller` is `none` once an exception has ended the script. -/
structure State where
  content : Bytes
  writer : Writer Text
  controller : Option PollState

inductive Act where
  | write (a : SharedMemory.Act Text)
  | poll
  deriving DecidableEq

/- Of two strings written one after the other, one is a command, the other "0". -/
def Alternate (prev data : Text) : Prop :=
  (prev = off ∧ data ∈ commands) ∨ (prev ∈ commands ∧ data = off)

instance (prev data : Text) : Decidable (Alternate prev data) :=
  inferInstanceAs (Decidable (_ ∨ _))

def allowed (w : Writer Text) : SharedMemory.Act Text → Bool
  | .ftruncate data => w.last.any fun prev => Alternate prev data
  | _ => true

/- `with open(switch_file, "r") as f: content = f.read().strip()`, then the branches. -/
def readAndPoll (c : Poller) (content : Bytes) (s : PollState) : Option PollState :=
  (readText content).bind fun text => c.poll s (strip text)

def step (c : Poller) (s : State) : Act → Option State
  | .write a =>
      if allowed s.writer a then
        (writer encodeUtf8 s.content s.writer a).map fun x =>
          { s with content := x.1.on s.content, writer := x.2 }
      else none
  | .poll => some { s with controller := s.controller.bind (readAndPoll c s.content) }

def start : State := ⟨encodeUtf8 off, ⟨.idle, some off⟩, some PollState.start⟩

/-! ### What can be in the file -/

def Published (data : Text) : Prop := data ∈ off :: commands

def Written (content : Bytes) (w : Writer Text) : Prop :=
  Holds encodeUtf8 Published Alternate content w

theorem published_of_alternate (prev data : Text) (h : Alternate prev data) :
    Published prev ∧ Published data := by
  rcases h with ⟨rfl, hd⟩ | ⟨hp, rfl⟩
  · exact ⟨List.mem_cons_self .., List.mem_cons_of_mem _ hd⟩
  · exact ⟨List.mem_cons_of_mem _ hp, List.mem_cons_self ..⟩

theorem published_ne_nil {data : Text} (h : Published data) : encodeUtf8 data ≠ [] := by
  have hall : ∀ data ∈ off :: commands, encodeUtf8 data ≠ [] := by decide
  exact hall data h

theorem published_oneByte (data : Text) (h : Published data) :
    ∀ b ∈ encodeUtf8 data, OneByte b := by
  have hall : ∀ data ∈ off :: commands, (data.all fun c =>
      !isSpace c && (String.utf8EncodeChar c).length == 1) = true := by decide
  exact oneByte_of_all (hall data h)

theorem oneByte_nul : OneByte 0 := ⟨Char.ofNat 0, by decide, by decide⟩

theorem publishes : Publishes encodeUtf8 Published Alternate where
  ends prev data h := (published_of_alternate prev data h).2
  nonempty prev data h := published_ne_nil (published_of_alternate prev data h).2

/- While a string is being stored the file holds no command. -/
theorem partly_ne_command {prev data command : Text} {stored : Finset ℕ} {content : Bytes}
    (ha : Alternate prev data)
    (h : Partly 0 (encodeUtf8 prev) (encodeUtf8 data) stored content) {i : ℕ}
    (hi : i < (encodeUtf8 data).length) (hout : i ∉ stored) (hcmd : command ∈ commands) :
    content ≠ encodeUtf8 command := by
  rcases ha with ⟨rfl, -⟩ | ⟨-, rfl⟩
  · -- the byte that is missing is '0' or NUL
    have hbytes : ∀ command ∈ commands, ∀ b ∈ encodeUtf8 command,
        b ∉ encodeUtf8 off ∧ b ≠ 0 := by decide +kernel
    exact partly_ne 0 h hi hout (hbytes command hcmd)
  · -- the file is one byte long
    intro heq
    have hlong : ∀ command ∈ commands,
        (encodeUtf8 command).length ≠ (encodeUtf8 off).length := by decide
    have hlen := h.1
    rw [heq] at hlen
    exact hlong command hcmd hlen

theorem written_oneByte {content : Bytes} {w : Writer Text} (h : Written content w) :
    ∀ b ∈ content, OneByte b :=
  holds_all published_oneByte published_of_alternate oneByte_nul h

/-- The file holds a command exactly when the call that writes it is complete. -/
theorem command_iff_complete {content : Bytes} {w : Writer Text} (h : Written content w)
    {command : Text} (hcmd : command ∈ commands) :
    content = encodeUtf8 command ↔ w = ⟨.idle, some command⟩ := by
  obtain ⟨phase, last⟩ := w
  cases phase with
  | idle =>
    obtain ⟨data, hlast, -, rfl⟩ := h
    cases hlast
    rw [encodeUtf8_inj]
    simp
  | truncated data =>
    obtain ⟨prev, ha, hpart⟩ := h
    have hpos := List.length_pos_iff.mpr (publishes.nonempty prev data ha)
    have hne := partly_ne_command ha hpart hpos (Finset.notMem_empty 0) hcmd
    simp [hne]
  | mapped data stored =>
    obtain ⟨prev, ha, hpart, i, hi, hout⟩ := h
    have hne := partly_ne_command ha hpart hi hout hcmd
    simp [hne]

theorem written_step {c : Poller} {s t : State} {a : SharedMemory.Act Text}
    (hs : Written s.content s.writer) (h : step c s (.write a) = some t) :
    Written t.content t.writer ∧ t.controller = s.controller := by
  simp only [step] at h
  split at h
  next hallowed =>
    obtain ⟨x, hx, rfl⟩ := Option.map_eq_some_iff.mp h
    refine ⟨holds_writer publishes hs (fun prev data hlast _ ha => ?_) hx, rfl⟩
    rw [ha] at hallowed
    simpa [allowed, hlast] using hallowed
  next => cases h

/-! ### What the controller makes of it -/

theorem readAndPoll_settled {c : Poller} (hc : c ∈ pollers) {content : Bytes} {w : Writer Text}
    (h : Written content w) (attached : Bool) :
    readAndPoll c content (c.settled attached) =
      some (c.settled (w = ⟨.idle, some c.command⟩)) := by
  obtain ⟨word, rfl, hread, hstrip⟩ := readText_of_oneByte (written_oneByte h)
  have hiff := command_iff_complete h (List.mem_map_of_mem hc)
  rw [encodeUtf8_inj] at hiff
  rw [readAndPoll, hread, Option.bind_some, hstrip, Poller.poll_settled (paired_of_mem hc)]
  simp only [hiff]

structure Reached (c : Poller) (s : State) : Prop where
  written : Written s.content s.writer
  settled : ∃ attached, s.controller = some (c.settled attached)

theorem reached_step {c : Poller} (hc : c ∈ pollers) {s t : State} {a : Act} (hs : Reached c s)
    (h : step c s a = some t) : Reached c t := by
  obtain ⟨hw, attached, hctl⟩ := hs
  cases a with
  | write a =>
    obtain ⟨hw', hctl'⟩ := written_step hw h
    exact ⟨hw', attached, by rw [hctl', hctl]⟩
  | poll =>
    cases h
    refine ⟨hw, ?_⟩
    rw [hctl, Option.bind_some, readAndPoll_settled hc hw]
    exact ⟨_, rfl⟩

theorem reached_start {c : Poller} : Reached c start where
  written := ⟨off, rfl, List.mem_cons_self .., rfl⟩
  settled := ⟨false, by simp [start, PollState.start, Poller.settled]⟩

/-- After a poll the script still runs, so none of its calls met a probe that was
installed already or one that was absent. It is attached exactly if the file held its
completely written command, and has its own probes installed then and none otherwise. -/
theorem poll_tracks (c : Poller) (hc : c ∈ pollers) (as : List Act) (s t : State)
    (hrun : run (step c) start as = some s) (hpoll : step c s .poll = some t) :
    ∃ p, t.controller = some p ∧
      (p.attached = true ↔ s.writer = ⟨.idle, some c.command⟩) ∧
      p.installed = if p.attached then c.probes else ∅ := by
  have hs : Reached c s :=
    run_invariant (step c) (fun _ _ _ hI hst => reached_step hc hI hst) reached_start hrun
  obtain ⟨hw, attached, hctl⟩ := hs
  cases hpoll
  rw [hctl, Option.bind_some, readAndPoll_settled hc hw]
  exact ⟨_, rfl, decide_eq_true_iff, rfl⟩

def writes (data : Text) : List Act := (writeOut encodeUtf8 data).map .write

theorem poll_tracks_read :
    ∃ s t, run (step Poller.read) start (writes Poller.read.command) = some s ∧
      step Poller.read s .poll = some t ∧
      ∃ p, t.controller = some p ∧
        (p.attached = true ↔ s.writer = ⟨.idle, some Poller.read.command⟩) ∧
        p.installed = if p.attached then Poller.read.probes else ∅ := by
  have hsome : (run (step Poller.read) start (writes Poller.read.command)).isSome = true := by
    decide
  obtain ⟨s, hs⟩ := Option.isSome_iff_exists.mp hsome
  exact ⟨s, _, hs, rfl, poll_tracks Poller.read (by decide) _ s _ hs rfl⟩

end Polling

end Tbouncer.Attack
