import Tbouncer.Base.Latch
import Tbouncer.Mutation.Interrupt

/-!
# What the loop of mutation.py remembers

As long as every attach call succeeds, the loop is a latch on the commands it meets
(`mutation.py:58-73`): a start offers its name and `mutation_done` releases. What the
variables hold and which calls have been made is then said block by block.
-/

namespace Tbouncer.Mutation
open Base

def Command.name? : Command → Option Text
  | .start syscall => some syscall
  | _ => none

def windows : Latch Command Text := ⟨Command.name?, fun command => command = .done⟩

/- Contents on which bpf accepts whatever call they lead to. -/
def accepted (texts : List Text) : List Met := texts.map fun text => ⟨text, true⟩

/- The session's variables are those of the latch. -/
structure Agrees (s : Session) (r : Latch.Run Text) : Prop where
  going : s.ended = false
  attached : s.vars.attached = r.held.isSome
  saved : ∀ x, r.held = some x → s.vars.savedName = x
  calls : s.calls = r.taken.map .attachKretprobe

theorem agrees_onModify {s : Session} {r : Latch.Run Text} (h : Agrees s r) (text : Text) :
    Agrees (s.onModify ⟨text, true⟩) (windows.meet r (commandOf text)) := by
  obtain ⟨held, taken⟩ := r
  cases hc : commandOf text with
  | foreign =>
    rw [onModify_quiet h.going (loopBody_foreign hc _)]
    cases held <;> exact ⟨rfl, h.attached, h.saved, h.calls⟩
  | done =>
    rw [onModify_quiet h.going (loopBody_done hc _)]
    refine ⟨rfl, rfl, ?_, h.calls⟩
    intro x hx
    cases hx
  | start x =>
    cases held with
    | none =>
      -- the first start of a block is attached
      have ha : s.vars.attached = false := h.attached
      rw [onModify_start_closed h.going hc ha]
      refine ⟨rfl, rfl, ?_, ?_⟩
      · intro y hy
        cases hy
        rfl
      · show s.calls ++ [.attachKretprobe x] = (taken ++ [x]).map .attachKretprobe
        rw [h.calls, List.map_append, List.map_singleton]
    | some y =>
      rw [onModify_start_open h.going hc h.attached]
      exact ⟨rfl, h.attached, h.saved, h.calls⟩

theorem agrees_session (texts : List Text) :
    Agrees (session (accepted texts)) (windows.run (texts.map commandOf)) := by
  induction texts using List.reverseRecOn with
  | nil =>
    refine ⟨rfl, rfl, ?_, rfl⟩
    intro x hx
    cases hx
  | append_singleton texts text ih =>
    rw [accepted, List.map_append, List.map_singleton, session, Session.after_snoc, ← session,
      List.map_append, List.map_singleton, windows.run_snoc]
    exact agrees_onModify ih text

theorem attached_iff (texts : List Text) :
    (session (accepted texts)).vars.attached = true ↔
      ∃ x before later, texts.map commandOf = before ++ .start x :: later ∧ .done ∉ later := by
  rw [(agrees_session texts).attached, windows.held_isSome]
  constructor
  · rintro ⟨command, hmem, hname⟩
    obtain ⟨-, before, later, hsplit, hlater⟩ := (windows.mem_lastBlock _ _).mp hmem
    cases command with
    | start x =>
      refine ⟨x, before, later, hsplit, fun hdone => ?_⟩
      have h := hlater .done hdone
      cases h
    | done => cases hname
    | foreign => cases hname
  · rintro ⟨x, before, later, hsplit, hlater⟩
    refine ⟨.start x, (windows.mem_lastBlock _ _).mpr ⟨rfl, before, later, hsplit, ?_⟩, rfl⟩
    intro command hmem
    apply decide_eq_false
    rintro rfl
    exact hlater hmem

/-- The loop's state after any sequence of contents: a window is open exactly when a start
comes after the last `mutation_done`, it is then that of the first such start, and the
attach calls are for the first start of each block that has one. -/
theorem session_blocks (texts : List Text) :
    ((session (accepted texts)).vars.attached = true ↔
      ∃ x before later, texts.map commandOf = before ++ .start x :: later ∧ .done ∉ later) ∧
    ((session (accepted texts)).vars.attached = true →
      windows.first (windows.lastBlock (texts.map commandOf)) =
        some (session (accepted texts)).vars.savedName) ∧
    (session (accepted texts)).calls =
      ((windows.blocks (texts.map commandOf)).filterMap windows.first).map .attachKretprobe ∧
    (session (accepted texts)).calls.length =
      (windows.blocks (texts.map commandOf)).countP
        (fun block => block.any fun command => command.name?.isSome) := by
  have hagrees := agrees_session texts
  refine ⟨attached_iff texts, ?_, ?_, ?_⟩
  · intro hopen
    have hsome := hagrees.attached.symm.trans hopen
    obtain ⟨x, hx⟩ := Option.isSome_iff_exists.mp hsome
    rw [← windows.run_held, hx, hagrees.saved x hx]
  · rw [hagrees.calls, windows.run_taken]
  · rw [hagrees.calls, List.length_map, windows.taken_length]
    rfl

end Tbouncer.Mutation
