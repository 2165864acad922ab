import Tbouncer.Mutation.Window
import Tbouncer.Mutation.Delivery

/-!
# The probe behind the flag

`attached` is set before bpf is asked for the probe (`mutation.py:68-69`), and the tests do
not wait, so calls and writes come in between. Seen from behind its calls the process is
the loop of before.
-/

namespace Tbouncer.Mutation
open Base Switch Watch

/- The process with the calls on bpf that its loop body has still to make. -/
structure Attaching where
  controller : Controller
  calls : List BpfCall
  raised : Bool
  deriving DecidableEq

def Attaching.start : Attaching := ⟨Controller.start, [], false⟩

def Attaching.vars (r : Attaching) : LoopVars := r.controller.vars
def Attaching.probes (r : Attaching) : Finset Text := r.controller.probes

/- `mutation.py:57-68` for one MODIFY event. -/
def Attaching.onEvent (content : Bytes) (r : Attaching) : Attaching :=
  match readText content with
  | none => { r with raised := true }
  | some text => ⟨⟨(loopBody text r.vars).1, r.probes⟩, (loopBody text r.vars).2, r.raised⟩

/- Line 69; nothing where the pass has no call to make. -/
def Attaching.makeCalls (r : Attaching) : Attaching :=
  ⟨⟨r.vars, r.calls.foldl applyCall r.probes⟩, [], r.raised⟩

/- It goes back to inotify with no call left. -/
def attachingReader : Reader Bytes Attaching Event where
  relevant := isModify
  ready r := !r.raised && r.calls.isEmpty
  act := Attaching.onEvent
  tick := Attaching.makeCalls

theorem attachingReader_ready {r : Attaching} :
    attachingReader.ready r = true ↔ r.raised = false ∧ r.calls = [] := by
  simp [attachingReader]

/- The process behind its calls. -/
def Attaching.settled (r : Attaching) : Script := ⟨r.makeCalls.controller, r.raised⟩

theorem settled_vars (r : Attaching) : r.settled.controller.vars = r.vars := rfl

theorem settled_probes {r : Attaching} (h : r.calls = []) :
    r.settled.controller.probes = r.probes := by
  show r.calls.foldl applyCall r.probes = r.probes
  rw [h]
  rfl

theorem attaching_simulates : Simulates Attaching.settled attachingReader reader where
  relevant := rfl
  ready r h := by
    show (!r.raised) = true
    rw [(attachingReader_ready.mp h).1]
    rfl
  act c r h := by
    obtain ⟨⟨vars, probes⟩, calls, raised⟩ := r
    obtain rfl : calls = [] := (attachingReader_ready.mp h).2
    show (Attaching.onEvent c _).settled = Script.onEvent c _
    unfold Attaching.onEvent Script.onEvent
    cases readText c <;> rfl
  tick _ := rfl

/-! ### What reading a content leaves -/

inductive Meets (content : Bytes) (r : Attaching) : Attaching → Prop
  | unreadable (hread : readText content = none) : Meets content r { r with raised := true }
  | foreign {text : Text} (hread : readText content = some text)
      (hcommand : commandOf text = .foreign) : Meets content r { r with calls := [] }
  | done {text : Text} (hread : readText content = some text) (hcommand : commandOf text = .done) :
      Meets content r
        ⟨⟨{ r.vars with syscallName := doneName, attached := false }, r.probes⟩, [], r.raised⟩
  | ignored {text x : Text} (hread : readText content = some text)
      (hcommand : commandOf text = .start x) (hopen : r.vars.attached = true) :
      Meets content r ⟨⟨⟨true, x, r.vars.savedName⟩, r.probes⟩, [], r.raised⟩
  | starts {text x : Text} (hread : readText content = some text)
      (hcommand : commandOf text = .start x) (hclosed : r.vars.attached = false) :
      Meets content r ⟨⟨⟨true, x, x⟩, r.probes⟩, [.attachKretprobe x], r.raised⟩

theorem meets_onEvent (content : Bytes) (r : Attaching) : Meets content r (r.onEvent content) := by
  unfold Attaching.onEvent
  cases hread : readText content with
  | none => exact .unreadable hread
  | some text =>
    dsimp only
    cases hcommand : commandOf text with
    | foreign =>
      rw [loopBody_foreign hcommand]
      exact .foreign hread hcommand
    | done =>
      rw [loopBody_done hcommand]
      exact .done hread hcommand
    | start x =>
      rw [(loopBody_start hcommand _).2]
      cases hopen : r.vars.attached with
      | true =>
        rw [if_pos rfl]
        exact .ignored hread hcommand hopen
      | false =>
        rw [if_neg Bool.false_ne_true]
        exact .starts hread hcommand hopen

theorem probes_of_meets {content : Bytes} {r r' : Attaching} (h : Meets content r r') :
    r'.probes = r.probes := by
  cases h <;> rfl

/- What bpf is asked for, the content has asked for. -/
theorem start_of_calls {content : Bytes} {r r' : Attaching} {x : Text} (hnone : r.calls = [])
    (h : Meets content r r') (hx : r'.calls = [.attachKretprobe x]) :
    ∃ text, readText content = some text ∧ commandOf text = .start x ∧ r'.vars.attached = true := by
  cases h with
  | unreadable hread =>
    rw [hnone] at hx
    cases hx
  | foreign hread hcommand => cases hx
  | done hread hcommand => cases hx
  | ignored hread hcommand hopen => cases hx
  | starts hread hcommand hclosed =>
    cases hx
    exact ⟨_, hread, hcommand, rfl⟩

/- An empty file holds no command. -/
theorem commandOf_of_nil {text : Text} (h : readText [] = some text) :
    commandOf text = .foreign := by
  have hread : readText [] = some [] := by decide
  rw [hread] at h
  obtain rfl := Option.some.inj h
  decide

/-! ### The controller's moves, beside any writer -/

section
variable {ω α : Type}

/- At most one content is looked at, only for an event, and not before the calls for the
one before have been made. -/
structure ControllerMove (s t : World Bytes Attaching Event ω) : Prop where
  writer : t.writer = s.writer
  content : t.conf.content = s.conf.content
  atStore : t.conf.atStore = s.conf.atStore
  reader : t.conf.reader = s.conf.reader ∨ t.conf.reader = s.conf.reader.makeCalls ∨
    (s.conf.batch ≠ [] ∧ s.conf.reader.calls = [] ∧
      Meets s.conf.content s.conf.reader t.conf.reader)
  quiet : s.conf.queue = [] → s.conf.batch = [] → t.conf.queue = [] ∧ t.conf.batch = []

theorem controller_move (W : Bytes → ω → α → Option (Effect Bytes Event × ω))
    {s t : World Bytes Attaching Event ω} {m : Move α} (hm : ∀ a, m ≠ .write a)
    (h : worldStep W attachingReader s m = some t) : ControllerMove s t := by
  have hreads := reads_of_move W hm h
  refine ⟨hreads.writer, hreads.content, hreads.atStore, ?_, hreads.quiet⟩
  refine hreads.reader.imp_right (Or.imp_right fun ⟨hne, hready, hr⟩ => ?_)
  refine ⟨hne, (attachingReader_ready.mp hready).2, ?_⟩
  rw [hr]
  exact meets_onEvent _ _

theorem ControllerMove.attached_of_nil {s t : World Bytes Attaching Event ω}
    (h : ControllerMove s t) (hnil : s.conf.content = []) :
    t.conf.reader.vars.attached = s.conf.reader.vars.attached := by
  rcases h.reader with hr | hr | ⟨-, -, hr⟩
  · rw [hr]
  · rw [hr]
    rfl
  · rw [hnil] at hr
    generalize t.conf.reader = r at hr ⊢
    cases hr with
    | unreadable hread => rfl
    | foreign hread hcommand => rfl
    | done hread hcommand => rw [commandOf_of_nil hread] at hcommand; cases hcommand
    | ignored hread hcommand hopen => rw [commandOf_of_nil hread] at hcommand; cases hcommand
    | starts hread hcommand hclosed => rw [commandOf_of_nil hread] at hcommand; cases hcommand

end

end Tbouncer.Mutation
