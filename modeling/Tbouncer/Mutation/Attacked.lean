import Tbouncer.Base.Watchers
import Tbouncer.Mutation.Probes

/-!
# A coordination write under attack

The tests are in the target cgroup, and they write their commands with system calls of
their own. A probe on the call behind open(2) hands them 4099 in place of the descriptor
of the switch file; the truncation has happened by then, and write(2) fails. No other
probe keeps a string from the file. A write that has its descriptor before the probe is in
place still ends.
-/

namespace Tbouncer.Mutation.Attacked
open Base Bpf Switch Watch

/- A descriptor the kernel returns is below the default RLIMIT_NOFILE. -/
abbrev Descriptor := Fin 1024

/- `lost`: the call has returned and its string has not been written. -/
inductive Phase where
  | idle
  | truncated (data : Text)
  | stored (data : Text)
  | lost
  deriving DecidableEq

structure Writer where
  phase : Phase
  last : Option Text
  deriving DecidableEq

inductive Act where
  | openTrunc (data : Text) (fd : Descriptor)
  | truncEvent
  | write
  | writeEvent
  deriving DecidableEq

def descriptor (fd : Descriptor) : BitVec 64 := BitVec.ofNat 64 fd

/- What write_coordination_file does with the value `open` has returned to it, `fd` being
the descriptor of the file: `if (fd < 0)` it returns, and write(2) on any descriptor but
`fd` is EBADF. -/
def afterOpen (returned : BitVec 64) (fd : Descriptor) (data : Text) : Phase :=
  if (returned.setWidth 32).toInt < 0 then .lost
  else if returned = descriptor fd then .truncated data
  else .lost

/- The string with which a write begins. -/
def opensWith : Move Act → Option Text
  | .write (.openTrunc data _) => some data
  | _ => none

section
/- `opens` is the system call the C library's open(2) makes: openat in glibc. -/
variable (targetCgroup : CgroupId) (opens : Text)

def writer (probes : Finset Text) (w : Writer) : Act → Option (Effect Bytes Event × Writer)
  | .openTrunc data fd =>
      let returned := returnValue targetCgroup probes targetCgroup opens (descriptor fd)
      match w.phase with
      | .idle | .lost => some (.store [], { w with phase := afterOpen returned fd data })
      | _ => none
  | .truncEvent =>
      match w.phase with
      | .truncated _ | .lost => some (.notify .modify, w)
      | _ => none
  | .write =>
      match w.phase with
      | .truncated data => some (.store (encodeUtf8 data), { w with phase := .stored data })
      | _ => none
  | .writeEvent =>
      match w.phase with
      | .stored data => some (.notify .modify, ⟨.idle, some data⟩)
      | _ => none

abbrev State := World Bytes Attaching Event Writer

def State.probes (s : State) : Finset Text := s.conf.reader.probes
def State.loop (s : State) : LoopVars := s.conf.reader.vars

def step (s : State) : Move Act → Option State :=
  worldStep (fun _ => writer targetCgroup opens s.probes) attachingReader s

def start (content : Bytes) : State :=
  ⟨⟨content, false, [], [], Attaching.start, Attaching.start⟩, ⟨.idle, none⟩⟩

variable {targetCgroup opens}

/-! ### What open(2) returns -/

theorem setWidth_descriptor (fd : Descriptor) :
    ¬ ((descriptor fd).setWidth 32).toInt < 0 := by
  have hfd := fd.isLt
  have hnat : ((descriptor fd).setWidth 32).toNat = fd.val := by
    rw [descriptor, BitVec.toNat_setWidth, BitVec.toNat_ofNat]
    omega
  rw [BitVec.toInt_eq_toNat_of_lt (by rw [hnat]; omega), hnat]
  omega

/- The call goes on with the file exactly if its open has no probe. -/
theorem afterOpen_returnValue (probes : Finset Text) (fd : Descriptor) (data : Text) :
    afterOpen (returnValue targetCgroup probes targetCgroup opens (descriptor fd)) fd data =
      if opens ∈ probes then .lost else .truncated data := by
  by_cases hmem : opens ∈ probes
  · have hfd := fd.isLt
    have hne : (4099 : BitVec 64) ≠ descriptor fd := by
      intro heq
      have hnat := congrArg BitVec.toNat heq
      rw [descriptor, BitVec.toNat_ofNat] at hnat
      have hsmall : (4099 : BitVec 64).toNat = 4099 := rfl
      omega
    have hself : compareCgroupId targetCgroup targetCgroup = true :=
      (compareCgroupId_iff _ _).mpr rfl
    have hvalue : returnValue targetCgroup probes targetCgroup opens (descriptor fd) = 4099 := by
      simp [returnValue, hmem, handleRetvalue, hself]
    rw [hvalue, afterOpen, if_neg hne, if_pos hmem, ite_self]
  · rw [returnValue_of_not_mem hmem, afterOpen, if_neg (setWidth_descriptor fd), if_pos rfl,
      if_neg hmem]

theorem writer_cases {probes : Finset Text} {w : Writer} {a : Act}
    {x : Effect Bytes Event × Writer} (h : writer targetCgroup opens probes w a = some x) :
    (∃ data fd, a = .openTrunc data fd ∧ (w.phase = .idle ∨ w.phase = .lost) ∧
      x = (.store [], ⟨if opens ∈ probes then .lost else .truncated data, w.last⟩)) ∨
    (a = .truncEvent ∧ ((∃ data, w.phase = .truncated data) ∨ w.phase = .lost) ∧
      x = (.notify .modify, w)) ∨
    (∃ data, a = .write ∧ w.phase = .truncated data ∧
      x = (.store (encodeUtf8 data), ⟨.stored data, w.last⟩)) ∨
    (∃ data, a = .writeEvent ∧ w.phase = .stored data ∧
      x = (.notify .modify, ⟨.idle, some data⟩)) := by
  obtain ⟨phase, last⟩ := w
  cases a with
  | openTrunc data fd =>
    simp only [writer, afterOpen_returnValue] at h
    cases phase with
    | idle => cases h; exact Or.inl ⟨data, fd, rfl, Or.inl rfl, rfl⟩
    | lost => cases h; exact Or.inl ⟨data, fd, rfl, Or.inr rfl, rfl⟩
    | truncated d => cases h
    | stored d => cases h
  | truncEvent =>
    cases phase with
    | truncated d => cases h; exact Or.inr (Or.inl ⟨rfl, Or.inl ⟨d, rfl⟩, rfl⟩)
    | lost => cases h; exact Or.inr (Or.inl ⟨rfl, Or.inr rfl, rfl⟩)
    | idle => cases h
    | stored d => cases h
  | write =>
    cases phase with
    | truncated d => cases h; exact Or.inr (Or.inr (Or.inl ⟨d, rfl, rfl, rfl⟩))
    | idle => cases h
    | lost => cases h
    | stored d => cases h
  | writeEvent =>
    cases phase with
    | stored d => cases h; exact Or.inr (Or.inr (Or.inr ⟨d, rfl, rfl, rfl⟩))
    | idle => cases h
    | lost => cases h
    | truncated d => cases h

/-! ### What a step changes -/

theorem step_write {s t : State} {a : Act} (h : step targetCgroup opens s (.write a) = some t) :
    ∃ x, writer targetCgroup opens s.probes s.writer a = some x ∧ t.writer = x.2 ∧
      Watch.step attachingReader s.conf x.1.act = some t.conf ∧
      t.conf.reader = s.conf.reader ∧ t.conf.content = x.1.on s.conf.content := by
  obtain ⟨⟨effect, w⟩, c, hx, hc, rfl⟩ := worldStep_write_eq_some _ h
  refine ⟨⟨effect, w⟩, hx, rfl, hc, ?_⟩
  cases effect with
  | store b =>
    cases hc
    exact ⟨rfl, rfl⟩
  | notify e =>
    cases hc
    exact ⟨rfl, rfl⟩

/- The only call still to be made is for the window that is open. -/
def Asks (r : Attaching) : Prop :=
  r.calls = [] ∨ (r.calls = [.attachKretprobe r.vars.savedName] ∧ r.vars.attached = true)

theorem asks_of_meets {content : Bytes} {r r' : Attaching} (hr : Asks r) (h : Meets content r r') :
    Asks r' := by
  cases h with
  | unreadable hread => exact hr
  | foreign hread hcommand => exact Or.inl rfl
  | done hread hcommand => exact Or.inl rfl
  | ignored hread hcommand hopen => exact Or.inl rfl
  | starts hread hcommand hclosed => exact Or.inr ⟨rfl, rfl⟩

theorem asks_step {s t : State} {m : Move Act} (hs : Asks s.conf.reader)
    (h : step targetCgroup opens s m = some t) : Asks t.conf.reader := by
  obtain ⟨a, rfl⟩ | hm := m.write_or
  · obtain ⟨x, -, -, -, hr, -⟩ := step_write h
    rw [hr]
    exact hs
  · rcases (controller_move _ hm h).reader with hr | hr | ⟨-, -, hr⟩
    · rw [hr]
      exact hs
    · rw [hr]
      exact Or.inl rfl
    · exact asks_of_meets hs hr

theorem mem_makeCalls {r : Attaching} (hr : Asks r) {x : Text} :
    x ∈ r.makeCalls.probes ↔ x ∈ r.probes ∨ r.calls = [.attachKretprobe x] := by
  show x ∈ r.calls.foldl applyCall r.probes ↔ _
  rcases hr with hr | ⟨hr, -⟩
  · rw [hr]
    simp
  · rw [hr, List.foldl_cons, List.foldl_nil, applyCall, Finset.mem_insert, or_comm]
    simp only [List.cons.injEq, BpfCall.attachKretprobe.injEq, and_true, eq_comm]

/- Only the calls that are made change the probes, and they touch nothing else. -/
theorem probes_cases {s t : State} {m : Move Act} (h : step targetCgroup opens s m = some t) :
    t.probes = s.probes ∨ (t.conf.reader = s.conf.reader.makeCalls ∧
      t.conf.content = s.conf.content ∧ t.writer = s.writer) := by
  obtain ⟨a, rfl⟩ | hm := m.write_or
  · obtain ⟨x, -, -, -, hr, -⟩ := step_write h
    exact Or.inl (by rw [State.probes, State.probes, hr])
  · have hmove := controller_move _ hm h
    rcases hmove.reader with hr | hr | ⟨-, -, hr⟩
    · exact Or.inl (by rw [State.probes, State.probes, hr])
    · exact Or.inr ⟨hr, hmove.content, hmove.writer⟩
    · exact Or.inl (probes_of_meets hr)

theorem probes_step {s t : State} {m : Move Act} (hs : Asks s.conf.reader)
    (h : step targetCgroup opens s m = some t) : s.probes ⊆ t.probes := by
  rcases probes_cases h with heq | ⟨hr, -⟩
  · rw [heq]
  · intro x hx
    rw [State.probes, hr]
    exact (mem_makeCalls hs).mpr (Or.inl hx)

theorem probes_run {s t : State} {ms : List (Move Act)} (hs : Asks s.conf.reader)
    (h : run (step targetCgroup opens) s ms = some t) : s.probes ⊆ t.probes :=
  (run_invariant (step targetCgroup opens) (I := fun u => Asks u.conf.reader ∧ s.probes ⊆ u.probes)
    (fun _ _ _ hI hst => ⟨asks_step hI.1 hst, hI.2.trans (probes_step hI.1 hst)⟩)
    ⟨hs, subset_rfl⟩ h).2

/-! ### Without a probe on open(2) -/

def Phase.plain : Phase → WriteCall.Phase Text
  | .idle => .idle
  | .truncated data => .truncated data
  | .stored data => .stored data
  | .lost => .idle

def Act.plain : Act → WriteCall.Act Text
  | .openTrunc data _ => .openTrunc data
  | .truncEvent => .truncEvent
  | .write => .write
  | .writeEvent => .writeEvent

def plainMove : Move Act → Move (WriteCall.Act Text)
  | .write a => .write a.plain
  | .take => .take
  | .handle => .handle
  | .tick => .tick

/- The same state of the system that no attack touches, the controller behind its calls. -/
def State.plain (s : State) : Mutation.State :=
  ⟨s.conf.through Attaching.settled, ⟨s.writer.phase.plain, s.writer.last⟩⟩

theorem plain_write {s t : State} {a : Act} (hopens : opens ∉ s.probes)
    (hphase : s.writer.phase ≠ .lost) (h : step targetCgroup opens s (.write a) = some t) :
    Mutation.step s.plain (plainMove (.write a)) = some t.plain ∧ t.writer.phase ≠ .lost := by
  obtain ⟨x, hx, ht, hc, -, -⟩ := step_write h
  -- it is enough that the plain writer has the effect of this one and goes to its phase
  have hplain : ∀ w, WriteCall.writer encodeUtf8 s.conf.content s.plain.writer a.plain =
      some (x.1, w) → w = t.plain.writer →
        Mutation.step s.plain (plainMove (.write a)) = some t.plain := by
    rintro w hw rfl
    show (WriteCall.writer encodeUtf8 s.conf.content s.plain.writer a.plain).bind _ = _
    rw [hw, Option.bind_some]
    have hconf : Watch.step reader s.plain.conf x.1.act = some t.plain.conf :=
      step_through attaching_simulates hc
    show (Watch.step reader s.plain.conf x.1.act).map _ = _
    rw [hconf]
    rfl
  obtain ⟨data, fd, rfl, hp, rfl⟩ | ⟨rfl, hp, rfl⟩ | ⟨data, rfl, hp, rfl⟩ | ⟨data, rfl, hp, rfl⟩ :=
    writer_cases hx
  · rcases hp with hp | hp
    · refine ⟨hplain ⟨.truncated data, s.writer.last⟩ ?_ ?_, ?_⟩
      · simp [WriteCall.writer, State.plain, Act.plain, Phase.plain, hp]
      · simp [State.plain, Phase.plain, ht, hopens]
      · simp [ht, hopens]
    · exact absurd hp hphase
  · rcases hp with ⟨data, hp⟩ | hp
    · refine ⟨hplain s.plain.writer ?_ ?_, ?_⟩
      · simp [WriteCall.writer, State.plain, Act.plain, Phase.plain, hp]
      · simp [State.plain, ht]
      · simp [ht, hp]
    · exact absurd hp hphase
  · refine ⟨hplain ⟨.stored data, s.writer.last⟩ ?_ ?_, ?_⟩
    · simp [WriteCall.writer, State.plain, Act.plain, Phase.plain, hp]
    · simp [State.plain, Phase.plain, ht]
    · simp [ht]
  · refine ⟨hplain ⟨.idle, some data⟩ ?_ ?_, ?_⟩
    · simp [WriteCall.writer, State.plain, Act.plain, Phase.plain, hp]
    · simp [State.plain, Phase.plain, ht]
    · simp [ht]

theorem plain_step {s t : State} {m : Move Act} (hopens : opens ∉ s.probes)
    (hphase : s.writer.phase ≠ .lost) (h : step targetCgroup opens s m = some t) :
    Mutation.step s.plain (plainMove m) = some t.plain ∧ t.writer.phase ≠ .lost := by
  have hread : ∀ {a : Watch.Act Bytes Event} {c : Conf Bytes Attaching Event},
      Watch.step attachingReader s.conf a = some c →
        Watch.step reader s.plain.conf a = some (c.through Attaching.settled) :=
    fun hc => step_through attaching_simulates hc
  cases m with
  | write a => exact plain_write hopens hphase h
  | take =>
    obtain ⟨c, hc, rfl⟩ := Option.map_eq_some_iff.mp h
    refine ⟨?_, hphase⟩
    show (Watch.step reader s.plain.conf .take).map _ = _
    rw [hread hc]
    rfl
  | handle =>
    obtain ⟨c, hc, rfl⟩ := Option.map_eq_some_iff.mp h
    refine ⟨?_, hphase⟩
    show (Watch.step reader s.plain.conf .handle).map _ = _
    rw [hread hc]
    rfl
  | tick =>
    cases h
    exact ⟨rfl, hphase⟩

/- The probes only grow, so one that is missing at the end has been missing throughout. -/
theorem plain_run {s t : State} {ms : List (Move Act)} (hs : Asks s.conf.reader)
    (hopens : opens ∉ t.probes) (hphase : s.writer.phase ≠ .lost)
    (h : run (step targetCgroup opens) s ms = some t) :
    run Mutation.step s.plain (ms.map plainMove) = some t.plain := by
  induction ms generalizing s with
  | nil =>
    cases h
    rfl
  | cons m ms ih =>
    obtain ⟨u, hu, hrest⟩ := (run_cons_eq_some _).mp h
    have hasks := asks_step hs hu
    have hmissing : opens ∉ s.probes := fun hmem =>
      hopens ((probes_step hs hu).trans (probes_run hasks hrest) hmem)
    obtain ⟨hstep, hnext⟩ := plain_step hmissing hphase hu
    rw [List.map_cons, run_cons, hstep, Option.bind_some]
    exact ih hasks hnext hrest

/-- Whatever else is attacked, a run in which the call behind open(2) has no probe is a
run of the system without attacks on its channel: same file, same events, same
controller. -/
theorem attacked_refines (content : Bytes) (ms : List (Move Act)) (s : State)
    (hrun : run (step targetCgroup opens) (start content) ms = some s) (hopens : opens ∉ s.probes) :
    run Mutation.step (Mutation.start content) (ms.map plainMove) = some s.plain :=
  plain_run (Or.inl rfl) hopens Phase.noConfusion hrun

end

def openat : Text := "openat".toList

/- One string written, the file being descriptor 3. -/
def writeOut (data : Text) : List (Move Act) :=
  [.write (.openTrunc data 3), .write .write, .write .writeEvent]

/- close is attacked, which does not matter to the `mutation_done` behind it. -/
def closeAttacked : List (Move Act) :=
  writeOut "mutation_close".toList ++ [.take, .handle, .tick] ++ writeOut doneCommand

theorem attacked_refines_close :
    ∃ s, run (step 27724 openat) (start (encodeUtf8 ['0'])) closeAttacked = some s ∧
      run Mutation.step (Mutation.start (encodeUtf8 ['0'])) (closeAttacked.map plainMove) =
        some s.plain := by
  have hprobes : (run (step 27724 openat) (start (encodeUtf8 ['0'])) closeAttacked).map
      (fun s => s.probes) = some {"close".toList} := by decide
  obtain ⟨s, hs, hmem⟩ := Option.map_eq_some_iff.mp hprobes
  refine ⟨s, hs, attacked_refines _ _ s hs ?_⟩
  rw [hmem]
  decide

section
variable {targetCgroup : CgroupId} {opens : Text}

/-! ### With a probe on open(2) -/

/- What is in the file, or will be when the write that is going on ends. -/
def State.coming (s : State) (content : Bytes) : Prop :=
  content = s.conf.content ∨
    ∃ data, s.writer.phase = .truncated data ∧ content = encodeUtf8 data

/- Behind the truncation the file is empty. -/
def Emptied (s : State) : Prop := ∀ data, s.writer.phase = .truncated data → s.conf.content = []

theorem emptied_step {s t : State} {m : Move Act} (hs : Emptied s)
    (h : step targetCgroup opens s m = some t) : Emptied t := by
  obtain ⟨a, rfl⟩ | hm := m.write_or
  · obtain ⟨x, hx, ht, -, -, hcontent⟩ := step_write h
    intro d hd
    rw [ht] at hd
    obtain ⟨data, fd, rfl, -, rfl⟩ | ⟨rfl, -, rfl⟩ | ⟨data, rfl, -, rfl⟩ | ⟨data, rfl, -, rfl⟩ :=
      writer_cases hx
    · exact hcontent
    · rw [hcontent]
      exact hs d hd
    · cases hd
    · cases hd
  · have hmove := controller_move _ hm h
    rw [Emptied, hmove.writer, hmove.content]
    exact hs

/- A write that goes on brings nothing new. -/
theorem coming_of_quiet {s t : State} {m : Move Act} (hquiet : opensWith m = none)
    (h : step targetCgroup opens s m = some t) {content : Bytes} (hc : t.coming content) :
    s.coming content := by
  obtain ⟨a, rfl⟩ | hm := m.write_or
  · obtain ⟨x, hx, ht, -, -, hcontent⟩ := step_write h
    rw [State.coming, ht, hcontent] at hc
    obtain ⟨data, fd, rfl, -, -⟩ | ⟨rfl, -, rfl⟩ | ⟨data, rfl, hp, rfl⟩ | ⟨data, rfl, -, rfl⟩ :=
      writer_cases hx
    · cases hquiet
    · exact hc
    · rcases hc with hc | ⟨d, hd, -⟩
      · exact Or.inr ⟨data, hp, hc⟩
      · cases hd
    · rcases hc with hc | ⟨d, hd, -⟩
      · exact Or.inl hc
      · cases hd
  · have hmove := controller_move _ hm h
    rw [State.coming, hmove.writer, hmove.content] at hc
    exact hc

/- Under the probe a write that begins only empties the file. -/
theorem coming_step {s t : State} {m : Move Act} (hprobed : opens ∈ s.probes)
    (h : step targetCgroup opens s m = some t) {content : Bytes} (hc : t.coming content) :
    content = [] ∨ s.coming content := by
  cases hm : opensWith m with
  | none => exact Or.inr (coming_of_quiet hm h hc)
  | some data =>
    unfold opensWith at hm
    split at hm
    next d fd =>
      obtain ⟨x, hx, ht, -, -, hcontent⟩ := step_write h
      obtain ⟨d, fd, -, -, rfl⟩ | ⟨heq, -⟩ | ⟨d, heq, -⟩ | ⟨d, heq, -⟩ := writer_cases hx
      · rw [State.coming, ht, hcontent, if_pos hprobed] at hc
        rcases hc with hc | ⟨d, hd, -⟩
        · exact Or.inl hc
        · cases hd
      · cases heq
      · cases heq
      · cases heq
    next => cases hm

/- The window of `opens` is the last: no start that is still to be met can be obeyed. -/
structure Sealed (opens : Text) (s : State) : Prop where
  probed : opens ∈ s.probes
  saved : s.loop.savedName = opens
  asked : s.conf.reader.calls = []
  emptied : Emptied s
  shut : s.loop.attached = false → ∀ content text x, s.coming content →
    readText content = some text → commandOf text ≠ .start x

/- What a content that opens no window makes of the loop. -/
theorem meets_no_start {content : Bytes} {r r' : Attaching} (hasked : r.calls = [])
    (hno : r.vars.attached = false → ∀ text x, readText content = some text →
      commandOf text ≠ .start x) (h : Meets content r r') :
    r'.vars.savedName = r.vars.savedName ∧ r'.calls = [] ∧
      (r'.vars.attached = r.vars.attached ∨ (r'.vars.attached = false ∧
        ∃ text, readText content = some text ∧ commandOf text = .done)) := by
  cases h with
  | unreadable hread => exact ⟨rfl, hasked, Or.inl rfl⟩
  | foreign hread hcommand => exact ⟨rfl, rfl, Or.inl rfl⟩
  | done hread hcommand => exact ⟨rfl, rfl, Or.inr ⟨rfl, _, hread, hcommand⟩⟩
  | ignored hread hcommand hopen => exact ⟨rfl, rfl, Or.inl hopen.symm⟩
  | starts hread hcommand hclosed => exact absurd hcommand (hno hclosed _ _ hread)

/- All a step from a sealed state can change is to close the window. -/
structure Keeps (s t : State) : Prop where
  probes : t.probes = s.probes
  saved : t.loop.savedName = s.loop.savedName
  asked : t.conf.reader.calls = []
  attached : t.loop.attached = s.loop.attached ∨ (t.loop.attached = false ∧
    t.conf.content = s.conf.content ∧ t.writer = s.writer ∧
    ∃ text, readText s.conf.content = some text ∧ commandOf text = .done)

theorem keeps_step {s t : State} {m : Move Act} (hs : Sealed opens s)
    (h : step targetCgroup opens s m = some t) : Keeps s t := by
  have hsame : t.conf.reader = s.conf.reader → Keeps s t := fun hr => by
    refine ⟨?_, ?_, hr ▸ hs.asked, Or.inl ?_⟩
    · rw [State.probes, State.probes, hr]
    · rw [State.loop, State.loop, hr]
    · rw [State.loop, State.loop, hr]
  obtain ⟨a, rfl⟩ | hm := m.write_or
  · obtain ⟨x, -, -, -, hr, -⟩ := step_write h
    exact hsame hr
  · have hmove := controller_move _ hm h
    rcases hmove.reader with hr | hr | ⟨-, hasked, hr⟩
    · exact hsame hr
    · have hnone : s.conf.reader.makeCalls = s.conf.reader := by
        rw [Attaching.makeCalls, hs.asked]
        show (⟨s.conf.reader.controller, [], s.conf.reader.raised⟩ : Attaching) = _
        rw [← hs.asked]
      exact hsame (hr.trans hnone)
    · obtain ⟨hsaved, hcalls, hattached⟩ := meets_no_start hasked
        (fun hclosed text x => hs.shut hclosed _ text x (Or.inl rfl)) hr
      exact ⟨probes_of_meets hr, hsaved, hcalls,
        hattached.imp_right fun ⟨hclosed, hdone⟩ => ⟨hclosed, hmove.content, hmove.writer, hdone⟩⟩

theorem sealed_step {s t : State} {m : Move Act} (hs : Sealed opens s)
    (h : step targetCgroup opens s m = some t) : Sealed opens t := by
  have hkeeps := keeps_step hs h
  refine ⟨hkeeps.probes ▸ hs.probed, hkeeps.saved.trans hs.saved, hkeeps.asked,
    emptied_step hs.emptied h, fun hclosed content text x hc hread => ?_⟩
  rcases hkeeps.attached with hattached | ⟨-, hcontent, hwriter, done, hread', hdone⟩
  · rcases coming_step hs.probed h hc with rfl | hold
    · rw [commandOf_of_nil hread]
      exact Command.noConfusion
    · exact hs.shut (hattached ▸ hclosed) content text x hold hread
  · -- the window has been closed by the string in the file, so no other is on its way
    rw [State.coming, hcontent, hwriter] at hc
    rcases hc with rfl | ⟨data, hp, -⟩
    · rw [hread] at hread'
      rw [Option.some.inj hread', hdone]
      exact Command.noConfusion
    · rw [hs.emptied data hp] at hread'
      rw [commandOf_of_nil hread'] at hdone
      cases hdone

/- Once there is a probe, the state is sealed. -/
structure Reached (opens : Text) (s : State) : Prop where
  asks : Asks s.conf.reader
  emptied : Emptied s
  sealed : opens ∈ s.probes → Sealed opens s

theorem reached_step {s t : State} {m : Move Act} (hs : Reached opens s)
    (h : step targetCgroup opens s m = some t) : Reached opens t := by
  refine ⟨asks_step hs.asks h, emptied_step hs.emptied h, fun hprobed => ?_⟩
  by_cases hold : opens ∈ s.probes
  · exact sealed_step (hs.sealed hold) h
  · rcases probes_cases h with heq | ⟨hr, -, -⟩
    · exact absurd (heq ▸ hprobed) hold
    · -- this step has attached the probe, and its window is open
      have hcalls : s.conf.reader.calls = [.attachKretprobe opens] := by
        rw [State.probes, hr] at hprobed
        exact ((mem_makeCalls hs.asks).mp hprobed).resolve_left hold
      obtain hnone | ⟨hasked, hopen⟩ := hs.asks
      · rw [hnone] at hcalls
        cases hcalls
      · have hsaved : s.loop.savedName = opens := by
          rw [hasked] at hcalls
          simpa [State.loop] using hcalls
        refine ⟨hprobed, ?_, by rw [hr]; rfl, emptied_step hs.emptied h, fun hclosed => ?_⟩
        · rw [State.loop, hr]
          exact hsaved
        · rw [State.loop, hr] at hclosed
          exact absurd (hopen.symm.trans hclosed) Bool.noConfusion

theorem reached_run {content : Bytes} {ms : List (Move Act)} {s : State}
    (hrun : run (step targetCgroup opens) (start content) ms = some s) : Reached opens s := by
  refine run_invariant (step targetCgroup opens) (fun _ _ _ hI hst => reached_step hI hst) ?_ hrun
  exact
    { asks := Or.inl rfl
      emptied := fun data hp => Phase.noConfusion hp
      sealed := fun hmem => absurd hmem (Finset.notMem_empty opens) }

/- What has become of the window of `opens` since `s`. -/
structure LastWindow (opens : Text) (s t : State) : Prop where
  probes : t.probes = s.probes
  saved : t.loop.savedName = opens
  content : t.conf.content = [] ∨ s.coming t.conf.content
  stays_open : s.loop.attached = true → t.loop.attached = true ∨
    ∃ content text, s.coming content ∧ readText content = some text ∧ commandOf text = .done
  stays_closed : s.loop.attached = false → t.loop.attached = false

/- What is on its way is what was on its way. -/
structure Since (opens : Text) (s t : State) : Prop where
  sealed : Sealed opens t
  last : LastWindow opens s t
  coming : ∀ content, t.coming content → content = [] ∨ s.coming content

theorem since_step {s t u : State} {m : Move Act} (hs : Since opens s t)
    (h : step targetCgroup opens t m = some u) : Since opens s u := by
  obtain ⟨hsealed, hlast, hcoming⟩ := hs
  have hkeeps := keeps_step hsealed h
  have hnext : ∀ content, u.coming content → content = [] ∨ s.coming content := fun content hc =>
    (coming_step hsealed.probed h hc).elim Or.inl (hcoming content)
  have hclosing : u.loop.attached = t.loop.attached ∨ (u.loop.attached = false ∧
      ∃ content text, s.coming content ∧ readText content = some text ∧
        commandOf text = .done) := by
    refine hkeeps.attached.imp_right fun ⟨hclosed, _, _, text, hread, hdone⟩ => ⟨hclosed, ?_⟩
    rcases hcoming t.conf.content (Or.inl rfl) with hnil | hold
    · rw [hnil] at hread
      rw [commandOf_of_nil hread] at hdone
      cases hdone
    · exact ⟨_, text, hold, hread, hdone⟩
  refine ⟨sealed_step hsealed h, ⟨hkeeps.probes.trans hlast.probes,
    hkeeps.saved.trans hlast.saved, hnext _ (Or.inl rfl), fun hopen => ?_, fun hclosed => ?_⟩,
    hnext⟩
  · rcases hclosing with heq | ⟨-, hdone⟩
    · rw [heq]
      exact hlast.stays_open hopen
    · exact Or.inr hdone
  · rcases hclosing with heq | ⟨hshut, -⟩
    · rw [heq]
      exact hlast.stays_closed hclosed
    · exact hshut

theorem since_run {content : Bytes} {ms ms' : List (Move Act)} {s t : State}
    (hrun : run (step targetCgroup opens) (start content) ms = some s) (hopens : opens ∈ s.probes)
    (hrun' : run (step targetCgroup opens) s ms' = some t) : Since opens s t := by
  have hsealed := (reached_run hrun).sealed hopens
  have hself : Since opens s s :=
    ⟨hsealed, ⟨rfl, hsealed.saved, Or.inr (Or.inl rfl), Or.inl, id⟩, fun _ => Or.inr⟩
  exact run_invariant (step targetCgroup opens) (fun _ _ _ hI hst => since_step hI hst) hself hrun'

/-- A window on the call behind open(2) is the last one. Once its probe is in place no other
is attached, and the only string that can still get to the file is that of a write which
has its descriptor already. Unless that string, or the one in the file, is a
`mutation_done`, the window is not closed, whatever the tests do and however long. -/
theorem open_probe_wedges (content : Bytes) (ms : List (Move Act)) (s : State)
    (hrun : run (step targetCgroup opens) (start content) ms = some s) (hopens : opens ∈ s.probes)
    (ms' : List (Move Act)) (t : State) (hrun' : run (step targetCgroup opens) s ms' = some t) :
    LastWindow opens s t :=
  (since_run hrun hopens hrun').last

end

/- A test of openat begins, and later ends. -/
def openatBegins : List (Move Act) :=
  writeOut "mutation_openat".toList ++ [.take, .handle, .tick]

def openatEnds : List (Move Act) :=
  [.write (.openTrunc doneCommand 3), .write .truncEvent, .take, .handle]

theorem open_probe_wedges_openat :
    ∃ s t, run (step 27724 openat) (start (encodeUtf8 ['0'])) openatBegins = some s ∧
      run (step 27724 openat) s openatEnds = some t ∧ LastWindow openat s t := by
  have hprobes : (run (step 27724 openat) (start (encodeUtf8 ['0'])) openatBegins).map
      (fun s => s.probes) = some {openat} := by decide
  have hlater : ((run (step 27724 openat) (start (encodeUtf8 ['0'])) openatBegins).bind
      fun s => run (step 27724 openat) s openatEnds).isSome = true := by decide
  obtain ⟨s, hs, hmem⟩ := Option.map_eq_some_iff.mp hprobes
  rw [hs, Option.bind_some] at hlater
  obtain ⟨t, ht⟩ := Option.isSome_iff_exists.mp hlater
  refine ⟨s, t, hs, ht, open_probe_wedges _ _ s hs ?_ _ t ht⟩
  rw [hmem]
  exact Finset.mem_singleton_self openat

/- A test that ends between the read and the attach has its descriptor in time. -/
example : (run (step 27724 openat) (start (encodeUtf8 ['0']))
    (writeOut "mutation_openat".toList ++ [.take, .handle, .write (.openTrunc doneCommand 3), .tick,
      .write .write, .write .writeEvent, .take, .handle])).map
    (fun s => (s.loop.attached, s.probes)) = some (false, {openat}) := by decide

section
variable {targetCgroup : CgroupId} {opens : Text}

/- The window is open, and all there is to be read is the content that has opened it. -/
structure Fresh (content : Bytes) (s : State) : Prop where
  attached : s.loop.attached = true
  only : ∀ c, s.coming c → c = content

theorem fresh_step {content : Bytes} {text x : Text} (hread : readText content = some text)
    (hcommand : commandOf text = .start x) {s t : State} {m : Move Act} (hs : Fresh content s)
    (hquiet : opensWith m = none) (h : step targetCgroup opens s m = some t) : Fresh content t := by
  refine ⟨?_, fun c hc => hs.only c (coming_of_quiet hquiet h hc)⟩
  obtain ⟨a, rfl⟩ | hm := m.write_or
  · obtain ⟨y, -, -, -, hr, -⟩ := step_write h
    rw [State.loop, hr]
    exact hs.attached
  · rcases (controller_move _ hm h).reader with hr | hr | ⟨-, hasked, hr⟩
    · rw [State.loop, hr]
      exact hs.attached
    · rw [State.loop, hr]
      exact hs.attached
    · have hopen : s.conf.reader.vars.attached = true := hs.attached
      have hno : s.conf.reader.vars.attached = false → ∀ text x,
          readText s.conf.content = some text → commandOf text ≠ .start x := fun hclosed =>
        absurd (hopen.symm.trans hclosed) Bool.noConfusion
      obtain ⟨-, -, hattached | ⟨-, done, hread', hdone⟩⟩ := meets_no_start hasked hno hr
      · exact hattached.trans hopen
      · rw [hs.only _ (Or.inl rfl), hread] at hread'
        rw [← Option.some.inj hread', hcommand] at hdone
        cases hdone

/- The read that asks for the probe has met the start command in the file. -/
theorem fresh_of_asked {content : Bytes} {ms : List (Move Act)} {q r : State}
    (hrun : run (step targetCgroup opens) (start content) ms = some q)
    (hread : step targetCgroup opens q .handle = some r)
    (hasks : r.conf.reader.calls = [.attachKretprobe opens]) :
    (∃ text, readText q.conf.content = some text ∧ commandOf text = .start opens) ∧
      Fresh q.conf.content r := by
  have hmove := controller_move (α := Act) _ (by rintro a ⟨⟩) hread
  obtain ⟨c, hc, -⟩ := Option.map_eq_some_iff.mp hread
  obtain ⟨hready, -⟩ := step_handle_eq_some _ hc
  rcases hmove.reader with hr | hr | ⟨-, hnone, hr⟩
  · rw [hr, (attachingReader_ready.mp hready).2] at hasks
    cases hasks
  · rw [hr] at hasks
    cases hasks
  · obtain ⟨text, htext, hcommand, hopen⟩ := start_of_calls hnone hr hasks
    refine ⟨⟨text, htext, hcommand⟩, hopen, fun c hc => ?_⟩
    rw [State.coming, hmove.writer, hmove.content] at hc
    rcases hc with hc | ⟨data, hp, -⟩
    · exact hc
    · rw [(reached_run hrun).emptied data hp] at htext
      rw [commandOf_of_nil htext] at hcommand
      cases hcommand

/-- If no write begins between the read that asks for the probe of open(2) and the attach,
its window is open for ever. -/
theorem open_window_stays (content : Bytes) (ms : List (Move Act)) (q r : State)
    (hrun : run (step targetCgroup opens) (start content) ms = some q)
    (hread : step targetCgroup opens q .handle = some r)
    (hasks : r.conf.reader.calls = [.attachKretprobe opens]) (ms' : List (Move Act)) (s : State)
    (hrun' : run (step targetCgroup opens) r ms' = some s)
    (hquiet : ∀ m ∈ ms', opensWith m = none) (hopens : opens ∈ s.probes)
    (ms'' : List (Move Act)) (t : State) (hrun'' : run (step targetCgroup opens) s ms'' = some t) :
    t.loop.attached = true ∧ t.loop.savedName = opens ∧ t.probes = s.probes := by
  obtain ⟨⟨text, htext, hcommand⟩, hfresh⟩ := fresh_of_asked hrun hread hasks
  have hkept : Fresh q.conf.content s :=
    run_guarded (step targetCgroup opens)
      (fun _ _ _ hI hm hst => fresh_step htext hcommand hI hm hst) hfresh
      (allSteps_of_mem _ hquiet r) hrun'
  have hreached :
      run (step targetCgroup opens) (start content) ((ms ++ [.handle]) ++ ms') = some s :=
    (run_append_eq_some _).mpr ⟨r, (run_snoc_eq_some _).mpr ⟨q, hrun, hread⟩, hrun'⟩
  have hlast := (since_run hreached hopens hrun'').last
  refine ⟨?_, hlast.saved, hlast.probes⟩
  rcases hlast.stays_open hkept.attached with hopen | ⟨c, done, hc, hread', hdone⟩
  · exact hopen
  · rw [hkept.only c hc, htext] at hread'
    rw [← Option.some.inj hread', hcommand] at hdone
    cases hdone

end

end Tbouncer.Mutation.Attacked
