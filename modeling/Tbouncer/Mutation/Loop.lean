import Mathlib.Data.Finset.Card
import Tbouncer.Bpf.Helpers

/-!
# The loop of mutation.py

One pass of the loop body reads a command from the switch file and opens or
closes a window (`mutation.py:58-73`). `BpfCall` are the calls it makes on the
`bpf` object; `Controller` adds to the loop's variables the set of syscalls on
which `handle_retvalue` is installed as a kretprobe.
-/

namespace Tbouncer.Mutation
open Base Bpf

def commandPrefix : Text := "mutation_".toList
def doneName : Text := "done".toList

structure LoopVars where
  attached : Bool
  syscallName : Text
  savedName : Text
  deriving DecidableEq

/- Line 51: the values before the first event. -/
def LoopVars.start : LoopVars := ⟨false, "NULL".toList, []⟩

inductive BpfCall where
  | attachKretprobe (syscall : Text)
  | detachKretprobe (syscall : Text)
  deriving DecidableEq

/-- `mutation.py:58-73`, from the text `f.read()` returns. -/
def loopBody (text : Text) (v : LoopVars) : LoopVars × List BpfCall :=
  let content := strip text
  if startsWith content commandPrefix then
    let v := { v with syscallName := content.drop commandPrefix.length }
    if !v.attached && v.syscallName ≠ doneName then
      ({ v with savedName := v.syscallName, attached := true },
        [.attachKretprobe v.syscallName])
    else if v.attached && v.syscallName = doneName then
      -- prints "Detaching kretprobe..." and makes no call on bpf
      ({ v with attached := false }, [])
    else (v, [])
  else (v, [])

/- handle_retvalue: the value bpf_override_return leaves, if it is called. -/
def handleRetvalue (targetCgroup current : CgroupId) : Option (BitVec 64) :=
  if !compareCgroupId targetCgroup current then none else some 4099

structure Controller where
  vars : LoopVars
  probes : Finset Text
  deriving DecidableEq

def Controller.start : Controller := ⟨LoopVars.start, ∅⟩

/- Both calls succeed. -/
def applyCall (probes : Finset Text) : BpfCall → Finset Text
  | .attachKretprobe syscall => insert syscall probes
  | .detachKretprobe syscall => probes.erase syscall

/- One MODIFY event, the switch file holding `text`. -/
def onModify (c : Controller) (text : Text) : Controller :=
  ⟨(loopBody text c.vars).1, (loopBody text c.vars).2.foldl applyCall c.probes⟩

def process (texts : List Text) : Controller := texts.foldl onModify Controller.start

/- What a call of `syscall` by a process of cgroup `current` returns, `ret` being
the kernel's own value. -/
def returnValue (targetCgroup : CgroupId) (probes : Finset Text) (current : CgroupId)
    (syscall : Text) (ret : BitVec 64) : BitVec 64 :=
  if syscall ∈ probes then (handleRetvalue targetCgroup current).getD ret else ret

theorem returnValue_of_not_mem {probes : Finset Text} {syscall : Text} (h : syscall ∉ probes)
    (targetCgroup current : CgroupId) (ret : BitVec 64) :
    returnValue targetCgroup probes current syscall ret = ret := by
  rw [returnValue, if_neg h]

/-! ### Commands -/

inductive Command where
  | start (syscall : Text)
  | done
  | foreign
  deriving DecidableEq

/- The reading of a text that the loop body shares with the tests. -/
def commandOf (text : Text) : Command :=
  let content := strip text
  if startsWith content commandPrefix then
    if content.drop commandPrefix.length = doneName then .done
    else .start (content.drop commandPrefix.length)
  else .foreign

theorem loopBody_foreign {text : Text} (h : commandOf text = .foreign) (v : LoopVars) :
    loopBody text v = (v, []) := by
  have hp : startsWith (strip text) commandPrefix = false := by
    by_contra hn
    simp only [Bool.not_eq_false] at hn
    simp only [commandOf, hn, if_true] at h
    split at h <;> cases h
  simp only [loopBody, hp, Bool.false_eq_true, if_false]

theorem loopBody_done {text : Text} (h : commandOf text = .done) (v : LoopVars) :
    loopBody text v = ({ v with syscallName := doneName, attached := false }, []) := by
  simp only [commandOf] at h
  split at h
  next hp =>
    split at h
    next hn =>
      cases ha : v.attached <;> simp [loopBody, hp, hn, ha]
    next => cases h
  next => cases h

theorem loopBody_start {text x : Text} (h : commandOf text = .start x) (v : LoopVars) :
    x ≠ doneName ∧ loopBody text v =
      if v.attached then ({ v with syscallName := x }, [])
      else (⟨true, x, x⟩, [.attachKretprobe x]) := by
  simp only [commandOf] at h
  split at h
  next hp =>
    split at h
    next => cases h
    next hn =>
      cases h
      refine ⟨hn, ?_⟩
      cases ha : v.attached <;> simp [loopBody, hp, hn, ha]
  next => cases h

theorem command_no_space {x : Text} (hx : ∀ c ∈ x, isSpace c = false) :
    ∀ c ∈ commandPrefix ++ x, isSpace c = false := by
  intro c hc
  rcases List.mem_append.mp hc with h | h
  · exact no_space_of_all (by decide) c h
  · exact hx c h

theorem commandOf_mutation (x : Text) (hx : ∀ c ∈ x, isSpace c = false) (hd : x ≠ doneName) :
    commandOf (commandPrefix ++ x) = .start x := by
  have hs : strip (commandPrefix ++ x) = commandPrefix ++ x :=
    strip_of_no_space _ (command_no_space hx)
  have hp : startsWith (commandPrefix ++ x) commandPrefix = true := by
    simp [startsWith]
  simp only [commandOf, hs, hp, List.drop_left, if_true]
  rw [if_neg hd]

end Tbouncer.Mutation
