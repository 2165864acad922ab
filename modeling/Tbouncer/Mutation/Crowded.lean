import Tbouncer.Mutation.Delivery
import Tbouncer.Switch.Crowd

/-!
# mutation.py beside several programs

Behind the fork of `fork_iago.c:32-33` parent and child write `mutation_done`, in any
order. Two of them do no harm to each other; one that is written over a longer command is
read as the start of another call.
-/

namespace Tbouncer.Mutation.Crowded
open Base Switch Watch WriteCall Crowd

variable {π : Type} [DecidableEq π]

abbrev State (π : Type) := World Bytes Script Event (Programs π)

def step : State π → Move (π × Act Text) → Option (State π) := worldStep crowd reader
def start (content : Bytes) : State π := Crowd.start content Script.start

def State.loop (s : State π) : LoopVars := s.conf.reader.controller.vars
def State.loopAtStore (s : State π) : LoopVars := s.conf.atStore.controller.vars

/- What a `mutation_done` leaves of something longer is a command that starts. -/
theorem command_of_cover {under : Bytes} (hlonger : doneCommand.length < under.length)
    (hbytes : ∀ b ∈ under, OneByte b) :
    ∃ x : SyscallName, cover (encodeUtf8 doneCommand) under = encodeUtf8 x.command := by
  have hlength : (encodeUtf8 doneCommand).length = doneCommand.length := by decide
  obtain ⟨rest, hrest, hspace⟩ :=
    word_of_oneByte fun b hb => hbytes b (List.mem_of_mem_drop (i := doneCommand.length) hb)
  have hne : rest ≠ [] := fun hnil => by
    rw [hnil] at hrest
    exact absurd (List.drop_eq_nil_iff.mp hrest) (Nat.not_le.mpr hlonger)
  have hword : ∀ c ∈ doneName ++ rest, isSpace c = false :=
    List.forall_mem_append.mpr ⟨no_space_of_all (by decide), hspace⟩
  have hnot : doneName ++ rest ≠ doneName := fun heq => hne (List.append_right_eq_self.mp heq)
  refine ⟨⟨doneName ++ rest, hword, hnot⟩, ?_⟩
  rw [cover, hlength, hrest, SyscallName.command, ← encodeUtf8_append, doneCommand,
    List.append_assoc]

/-- However many programs write: at rest behind a `mutation_done` no window is open if
nothing longer has been written between the last truncation and it. If something has, a
window that was open when the `mutation_done` was stored stays open. -/
theorem done_heard (content : Bytes) (ms : List (Move (π × Act Text))) (s : State π)
    (hrun : run step (start content) ms = some s) (hrest : AtRest reader Programs.Idle s)
    (hwords : ∀ data ∈ Crowd.opened ms, ∀ b ∈ encodeUtf8 data, OneByte b) (ls : List Text)
    (hlayers : s.writer.layers = some (ls ++ [doneCommand])) :
    ((∀ d ∈ ls, (encodeUtf8 d).length ≤ doneCommand.length) → s.loop.attached = false) ∧
      ((∃ d ∈ ls, doneCommand.length < (encodeUtf8 d).length) → s.loopAtStore.attached = true →
        s.loop.attached = true ∧ s.loop.savedName = s.loopAtStore.savedName) := by
  have h₀ : Pristine content Script.start Script.start := fun _ _ => Or.inl ⟨rfl, rfl⟩
  obtain ⟨-, hcontent, hserved⟩ :=
    crowd_settles reader_settles isModify_modify h₀ hrun hrest hlayers
  obtain ⟨-, -, hclosed⟩ :=
    crowd_settles reader_settles_closed isModify_modify trivial hrun hrest hlayers
  rw [List.map_append, List.map_singleton] at hcontent
  refine ⟨fun hls => ?_, ?_⟩
  · have hlength : (encodeUtf8 doneCommand).length = doneCommand.length := by decide
    refine hclosed ?_
    rw [hcontent, laid_snoc_eq_iff, List.forall_mem_map, hlength]
    exact hls
  · rintro ⟨d, hd, hlonger⟩ hopen
    have hunder : doneCommand.length < (laid (ls.map encodeUtf8)).length := by
      by_contra hle
      have hall := (laid_length_le_iff _ _).mp (Nat.not_lt.mp hle)
      exact absurd (hall _ (List.mem_map_of_mem hd)) (Nat.not_le.mpr hlonger)
    have hbytes : ∀ b ∈ laid (ls.map encodeUtf8), OneByte b := laid_bytes fun e he =>
      hwords e ((asked_run hrun).layers _ hlayers e (List.mem_append_left _ he))
    obtain ⟨x, hx⟩ := command_of_cover hunder hbytes
    obtain ⟨hattached, hsaved⟩ := hserved x (by rw [hcontent, laid_snoc, hx])
    exact ⟨hattached, hsaved.trans (if_pos hopen)⟩

/- `fork_iago.c:31-33`: the window of fork is open when parent and child close it. -/
def bothDone : List (Move (Bool × Act Text)) :=
  Crowd.writeOut true (commandPrefix ++ "fork".toList) ++ [.take, .handle] ++
    [.write (true, .openTrunc doneCommand), .write (false, .openTrunc doneCommand),
      .write (false, .write), .write (true, .write), .write (true, .writeEvent),
      .write (false, .writeEvent), .take, .handle]

theorem done_heard_fork :
    ∃ s, run step (start []) bothDone = some s ∧
      ((∀ d ∈ [doneCommand], (encodeUtf8 d).length ≤ doneCommand.length) →
        s.loop.attached = false) ∧
      ((∃ d ∈ [doneCommand], doneCommand.length < (encodeUtf8 d).length) →
        s.loopAtStore.attached = true →
          s.loop.attached = true ∧ s.loop.savedName = s.loopAtStore.savedName) := by
  have hprograms : (run step (start []) bothDone).map
      (fun s => (s.writer.phase true, s.writer.phase false, s.writer.layers)) =
      some (.idle, .idle, some [doneCommand, doneCommand]) := by decide
  have hreader : (run step (start []) bothDone).map
      (fun s => (s.conf.queue, s.conf.batch, s.conf.reader)) =
      some ([], [], ⟨⟨⟨false, doneName, "fork".toList⟩, {"fork".toList}⟩, false⟩) := by decide
  obtain ⟨s, hs, hrest, hlayers⟩ := rest_of_views reader hprograms hreader rfl
  have hwords : ∀ data ∈ Crowd.opened bothDone, ∀ b ∈ encodeUtf8 data, OneByte b :=
    List.forall_mem_cons.mpr ⟨oneByte_of_all (by decide), List.forall_mem_cons.mpr
      ⟨oneByte_of_all (by decide), List.forall_mem_singleton.mpr (oneByte_of_all (by decide))⟩⟩
  exact ⟨s, hs, done_heard _ _ s hs hrest hwords [doneCommand] hlayers⟩

end Tbouncer.Mutation.Crowded
