import Mathlib.Data.List.Induction
import Tbouncer.Mutation.Loop

/-!
# How mutation.py ends

Two exceptions end the loop. A KeyboardInterrupt is handled (`mutation.py:75-78`); what
`attach_kretprobe` raises on a name that is no syscall is not, and it comes after the
flag has been set (`mutation.py:68-69`).
-/

namespace Tbouncer.Mutation
open Base

/- One MODIFY event: the content read, and whether bpf accepts the call it leads to,
if any. -/
structure Met where
  text : Text
  accepted : Bool
  deriving DecidableEq

/- `calls` are those that have returned; `ended` once an exception has left the loop. -/
structure Session where
  vars : LoopVars
  calls : List BpfCall
  ended : Bool
  deriving DecidableEq

def Session.start : Session := ⟨LoopVars.start, [], false⟩

/- The variables are assigned before the call that may raise. -/
def Session.onModify (s : Session) (m : Met) : Session :=
  if s.ended then s
  else if (loopBody m.text s.vars).2 = [] ∨ m.accepted then
    ⟨(loopBody m.text s.vars).1, s.calls ++ (loopBody m.text s.vars).2, false⟩
  else ⟨(loopBody m.text s.vars).1, s.calls, true⟩

def Session.after (s : Session) (ms : List Met) : Session := ms.foldl Session.onModify s
def session (ms : List Met) : Session := Session.start.after ms

/- The handler of KeyboardInterrupt: the calls it makes on bpf. -/
def onInterrupt (v : LoopVars) : List BpfCall :=
  if v.attached then [.detachKretprobe v.syscallName] else []

theorem Session.after_snoc (s : Session) (ms : List Met) (m : Met) :
    s.after (ms ++ [m]) = (s.after ms).onModify m := by
  simp only [Session.after, List.foldl_append, List.foldl_cons, List.foldl_nil]

theorem onModify_of_ended {s : Session} (h : s.ended = true) (m : Met) : s.onModify m = s := by
  rw [Session.onModify, if_pos h]

/- A content that leads to no call. -/
theorem onModify_quiet {s : Session} {m : Met} {v : LoopVars} (h : s.ended = false)
    (hbody : loopBody m.text s.vars = (v, [])) : s.onModify m = ⟨v, s.calls, false⟩ := by
  simp [Session.onModify, h, hbody]

/- A start met while a window is open only overwrites the name. -/
theorem onModify_start_open {s : Session} {m : Met} {x : Text} (h : s.ended = false)
    (hm : commandOf m.text = .start x) (ha : s.vars.attached = true) :
    s.onModify m = ⟨{ s.vars with syscallName := x }, s.calls, false⟩ := by
  have hbody := (loopBody_start hm s.vars).2
  rw [if_pos ha] at hbody
  exact onModify_quiet h hbody

theorem onModify_start_closed {s : Session} {m : Met} {x : Text} (h : s.ended = false)
    (hm : commandOf m.text = .start x) (ha : s.vars.attached = false) :
    s.onModify m =
      if m.accepted then ⟨⟨true, x, x⟩, s.calls ++ [.attachKretprobe x], false⟩
      else ⟨⟨true, x, x⟩, s.calls, true⟩ := by
  have hbody := (loopBody_start hm s.vars).2
  rw [ha] at hbody
  simp only [Bool.false_eq_true, if_false] at hbody
  simp [Session.onModify, h, hbody]

/-- While bpf accepts every call the session is the loop of before: it has the loop's
variables, and its calls have made the loop's probes. -/
theorem session_of_accepted (ms : List Met) (h : ∀ m ∈ ms, m.accepted = true) :
    (session ms).ended = false ∧
      (⟨(session ms).vars, (session ms).calls.foldl applyCall ∅⟩ : Controller) =
        process (ms.map Met.text) := by
  induction ms using List.reverseRecOn with
  | nil => exact ⟨rfl, rfl⟩
  | append_singleton ms m ih =>
    obtain ⟨hended, hloop⟩ := ih fun n hn => h n (List.mem_append_left _ hn)
    have hm : m.accepted = true := h m (List.mem_append_right _ (List.mem_singleton_self m))
    have hstep : session (ms ++ [m]) = ⟨(loopBody m.text (session ms).vars).1,
        (session ms).calls ++ (loopBody m.text (session ms).vars).2, false⟩ := by
      rw [session, Session.after_snoc, ← session, Session.onModify, hended]
      simp [hm]
    have hprocess : process ((ms ++ [m]).map Met.text) =
        onModify (process (ms.map Met.text)) m.text := by
      rw [process, List.map_append, List.foldl_append]
      rfl
    refine ⟨by rw [hstep], ?_⟩
    rw [hstep, hprocess, ← hloop, onModify, List.foldl_append]

/-! ### A name that cannot be attached -/

/- All but `syscall_name`, which is assigned anew before it is used in the loop. -/
structure View where
  attached : Bool
  savedName : Text
  calls : List BpfCall
  ended : Bool
  deriving DecidableEq

def Session.view (s : Session) : View := ⟨s.vars.attached, s.vars.savedName, s.calls, s.ended⟩

theorem view_onModify {s t : Session} (h : s.view = t.view) (m : Met) :
    (s.onModify m).view = (t.onModify m).view := by
  obtain ⟨⟨a, n, saved⟩, calls, ended⟩ := s
  obtain ⟨⟨a', n', saved'⟩, calls', ended'⟩ := t
  simp only [Session.view, View.mk.injEq] at h
  obtain ⟨rfl, rfl, rfl, rfl⟩ := h
  cases ended with
  | true => rw [onModify_of_ended rfl, onModify_of_ended rfl]; rfl
  | false =>
    cases hc : commandOf m.text with
    | foreign =>
      rw [onModify_quiet rfl (loopBody_foreign hc _), onModify_quiet rfl (loopBody_foreign hc _)]
      rfl
    | done =>
      rw [onModify_quiet rfl (loopBody_done hc _), onModify_quiet rfl (loopBody_done hc _)]
    | start x =>
      cases a with
      | true => rw [onModify_start_open rfl hc rfl, onModify_start_open rfl hc rfl]
      | false => rw [onModify_start_closed rfl hc rfl, onModify_start_closed rfl hc rfl]

theorem view_after {s t : Session} (h : s.view = t.view) (ms : List Met) :
    (s.after ms).view = (t.after ms).view := by
  induction ms generalizing s t with
  | nil => exact h
  | cons m ms ih => exact ih (view_onModify h m)

/- After `text`, on which an attach call fails, the loop goes on, the flag and the
calls made are as before, and whatever is met later has the effect it would have
had without `text`. -/
def Survives (s : Session) (text : Text) : Prop :=
  (s.onModify ⟨text, false⟩).ended = false ∧
    (s.onModify ⟨text, false⟩).vars.attached = s.vars.attached ∧
    (s.onModify ⟨text, false⟩).calls = s.calls ∧
    ∀ later, ((s.onModify ⟨text, false⟩).after later).view = (s.after later).view

/-- The loop survives a start that cannot be attached exactly when it does not try to
attach it, a window being open already. -/
theorem survives_iff_open (s : Session) (text x : Text) (hs : s.ended = false)
    (hx : commandOf text = .start x) : Survives s text ↔ s.vars.attached = true := by
  constructor
  · intro h
    by_contra ha
    rw [Bool.not_eq_true] at ha
    have hend := h.1
    rw [onModify_start_closed (m := ⟨text, false⟩) hs hx ha] at hend
    cases hend
  · intro ha
    have hstep := onModify_start_open (m := ⟨text, false⟩) hs hx ha
    rw [Survives, hstep]
    refine ⟨rfl, rfl, rfl, view_after ?_⟩
    rw [Session.view, Session.view, hs]

def create : Text := "mutation_create".toList
def accept4 : Text := "mutation_accept4".toList

theorem survives_iff_open_create :
    Survives (session [⟨accept4, true⟩]) create ↔ (session [⟨accept4, true⟩]).vars.attached = true :=
  survives_iff_open _ create "create".toList (by decide) (by decide)

/-- `mutation_create` (`creat_iago.c:27`) ends the controller that meets it. -/
theorem create_not_survived :
    ¬ ∀ (s : Session) (text x : Text), s.ended = false → commandOf text = .start x →
      s.vars.attached = false → Survives s text := by
  intro h
  have hend := (h Session.start create "create".toList rfl (by decide) rfl).1
  exact absurd hend (by decide)

/-! ### An interrupt while a window is open -/

def startName (m : Met) : Option Text :=
  match commandOf m.text with
  | .start x => some x
  | _ => none

/- The names of the starts met, in order. -/
def startNames (ms : List Met) : List Text := ms.filterMap startName

theorem startNames_snoc (ms : List Met) (m : Met) :
    (startNames (ms ++ [m])).getLast? = (startName m).or (startNames ms).getLast? := by
  rw [startNames, List.filterMap_append]
  cases hm : startName m <;> simp [hm, startNames]

/- What the variables of an open window record. -/
structure Recorded (ms : List Met) (s : Session) : Prop where
  saved : s.calls.getLast? = some (.attachKretprobe s.vars.savedName)
  named : (startNames ms).getLast? = some s.vars.syscallName

theorem recorded_session (ms : List Met) (hrun : (session ms).ended = false)
    (hopen : (session ms).vars.attached = true) : Recorded ms (session ms) := by
  induction ms using List.reverseRecOn with
  | nil => cases hopen
  | append_singleton ms m ih =>
    rw [session, Session.after_snoc, ← session] at hrun hopen ⊢
    cases he : (session ms).ended with
    | true => simp [onModify_of_ended he, he] at hrun
    | false =>
      cases hc : commandOf m.text with
      | foreign =>
        rw [onModify_quiet he (loopBody_foreign hc _)] at hopen ⊢
        have h := ih he hopen
        refine ⟨h.saved, ?_⟩
        rw [startNames_snoc, startName, hc]
        exact h.named
      | done =>
        rw [onModify_quiet he (loopBody_done hc _)] at hopen
        cases hopen
      | start x =>
        have hname : (startNames (ms ++ [m])).getLast? = some x := by
          rw [startNames_snoc, startName, hc]
          rfl
        cases ha : (session ms).vars.attached with
        | true =>
          have h := ih he ha
          rw [onModify_start_open he hc ha]
          exact ⟨h.saved, hname⟩
        | false =>
          rw [onModify_start_closed he hc ha] at hrun ⊢
          split at hrun
          · rw [if_pos (by assumption)]
            exact ⟨List.getLast?_concat, hname⟩
          · cases hrun

/-- The handler detaches the kretprobe of the open window exactly when the last start
met, obeyed or not, names the syscall it is on. -/
theorem interrupt_detaches_iff (ms : List Met) (hrun : (session ms).ended = false)
    (hopen : (session ms).vars.attached = true) :
    ∃ x, (session ms).calls.getLast? = some (.attachKretprobe x) ∧
      (onInterrupt (session ms).vars = [.detachKretprobe x] ↔
        (startNames ms).getLast? = some x) := by
  obtain ⟨hsaved, hnamed⟩ := recorded_session ms hrun hopen
  refine ⟨(session ms).vars.savedName, hsaved, ?_⟩
  rw [onInterrupt, if_pos hopen, hnamed]
  constructor
  · intro h
    simp only [List.cons.injEq, BpfCall.detachKretprobe.injEq, and_true] at h
    rw [h]
  · intro h
    rw [Option.some.inj h]

theorem interrupt_detaches_iff_accept4 :
    ∃ x, (session [⟨accept4, true⟩]).calls.getLast? = some (.attachKretprobe x) ∧
      (onInterrupt (session [⟨accept4, true⟩]).vars = [.detachKretprobe x] ↔
        (startNames [⟨accept4, true⟩]).getLast? = some x) :=
  interrupt_detaches_iff [⟨accept4, true⟩] (by decide) (by decide)

/-- After `mutation_accept4` and `mutation_bind`, the `mutation_done` between them not
having been seen, the handler detaches bind. -/
theorem interrupt_detaches_other :
    ¬ ∀ ms, (session ms).ended = false → (session ms).vars.attached = true →
      ∃ x, (session ms).calls.getLast? = some (.attachKretprobe x) ∧
        onInterrupt (session ms).vars = [.detachKretprobe x] := by
  intro h
  obtain ⟨x, hx, hcalls⟩ :=
    h [⟨accept4, true⟩, ⟨"mutation_bind".toList, true⟩] (by decide) (by decide)
  have hname : x = "accept4".toList := by
    have hlast : (session [⟨accept4, true⟩, ⟨"mutation_bind".toList, true⟩]).calls.getLast? =
        some (.attachKretprobe "accept4".toList) := by decide
    rw [hlast] at hx
    cases hx
    rfl
  rw [hname] at hcalls
  exact absurd hcalls (by decide)

end Tbouncer.Mutation
