import Tbouncer.Bpf.Helpers
import Tbouncer.Switch.Events

/-!
# The parts of syscall_monitor.py

The tracepoint, the callback of the perf buffer and the body of the file-monitor
thread, each as a function of what it reads.
-/

namespace Tbouncer.Monitor
open Base Bpf Switch

/-! ### The tracepoint -/

/- What sys_enter sees of one system call. -/
structure SysCall where
  cgroup : CgroupId
  pidTgid : BitVec 64
  id : BitVec 64
  ktime : BitVec 64
  deriving DecidableEq

/- data_t; num_args, comm and args keep the zeros of `= {}`. -/
structure Data where
  pid : BitVec 64
  cgroupId : CgroupId
  syscallId : BitVec 64
  timestamp : BitVec 64
  deriving DecidableEq

/- BPF_ARRAY(switch_state, int, 1): the element `value` and no other. -/
def lookupSwitch (value : BitVec 32) (index : ℕ) : Option (BitVec 32) :=
  if index < 1 then some value else none

def targetCgroup : CgroupId := 27724

def dataOf (call : SysCall) : Data :=
  ⟨call.pidTgid >>> 32, call.cgroup, call.id, call.ktime⟩

/- TRACEPOINT_PROBE(raw_syscalls, sys_enter): the event it submits. The pointer
returned by the lookup is tested, the value it points to is not. -/
def sysEnter (switchState : BitVec 32) (call : SysCall) : Option Data :=
  match lookupSwitch switchState 0 with
  | none => none
  | some _ => if !compareCgroupId targetCgroup call.cgroup then none else some (dataOf call)

theorem sysEnter_eq (switchState : BitVec 32) (call : SysCall) :
    sysEnter switchState call =
      if compareCgroupId targetCgroup call.cgroup then some (dataOf call) else none := by
  simp only [sysEnter, lookupSwitch, Nat.zero_lt_one, if_true]
  cases compareCgroupId targetCgroup call.cgroup <;> rfl

/-! ### The file-monitor thread -/

/- Where the thread is: between two events, between its two stores, or ended by
an exception. -/
inductive Place where
  | wait
  | setSwitch (value : BitVec 32)
  | raised
  deriving DecidableEq

structure Vars where
  isMonitoring : Bool
  switchState : BitVec 32
  place : Place
  deriving DecidableEq

/- The main program sets switch_state[0] to 0 before it starts the threads. -/
def Vars.start : Vars := ⟨false, 0, .wait⟩

/- read_switch_file; `none` in for a file that is missing, `none` out for the
UnicodeDecodeError it does not catch. -/
def readSwitchFile : Option Bytes → Option Text
  | none => some off
  | some content => (readText content).map strip

/- `syscall_monitor.py:426-434` up to the store into is_monitoring. -/
def updateFlags (content : Option Bytes) (v : Vars) : Vars :=
  match readSwitchFile content with
  | none => { v with place := .raised }
  | some switchValue =>
      if switchValue ≠ off && !v.isMonitoring then
        { v with isMonitoring := true, place := .setSwitch 1 }
      else if switchValue = off && v.isMonitoring then
        { v with isMonitoring := false, place := .setSwitch 0 }
      else v

/- The store into switch_state[0] that follows. -/
def storeSwitch (v : Vars) : Vars :=
  match v.place with
  | .setSwitch value => { v with switchState := value, place := .wait }
  | _ => v

/- The two flags agree but between the two stores. -/
def Agree (v : Vars) : Prop :=
  match v.place with
  | .setSwitch value =>
      (value = if v.isMonitoring then 1 else 0) ∧ v.switchState = if v.isMonitoring then 0 else 1
  | _ => v.switchState = if v.isMonitoring then 1 else 0

theorem agree_start : Agree Vars.start := rfl

theorem agree_updateFlags (content : Option Bytes) {v : Vars} (hw : v.place = .wait)
    (h : Agree v) : Agree (updateFlags content v) := by
  have hs : v.switchState = if v.isMonitoring then 1 else 0 := by simpa only [Agree, hw] using h
  unfold updateFlags
  split
  · exact hs
  · cases hm : v.isMonitoring with
    | true =>
      rw [hm] at hs
      split
      · exact ⟨rfl, by simp_all⟩
      · split
        · exact ⟨rfl, hs⟩
        · exact h
    | false =>
      rw [hm] at hs
      split
      · exact ⟨rfl, hs⟩
      · split
        · exact ⟨rfl, by simp_all⟩
        · exact h

theorem agree_storeSwitch {v : Vars} (h : Agree v) : Agree (storeSwitch v) := by
  obtain ⟨mon, sw, place⟩ := v
  cases place with
  | wait => exact h
  | raised => exact h
  | setSwitch value => exact h.1

theorem updateFlags_isMonitoring {content : Option Bytes} {value : Text}
    (h : readSwitchFile content = some value) (v : Vars) :
    (updateFlags content v).isMonitoring = decide (value ≠ off) := by
  unfold updateFlags
  rw [h]
  by_cases hv : value = off
  · cases hm : v.isMonitoring <;> simp [hv, hm]
  · cases hm : v.isMonitoring <;> simp [hv, hm]

@[simp] theorem storeSwitch_isMonitoring (v : Vars) :
    (storeSwitch v).isMonitoring = v.isMonitoring := by
  unfold storeSwitch
  split <;> rfl

/- After a content that can be read the thread comes back to the next event. -/
theorem place_after_read {content : Option Bytes} {value : Text}
    (h : readSwitchFile content = some value) {v : Vars} (hw : v.place = .wait) :
    (storeSwitch (updateFlags content v)).place = .wait := by
  unfold updateFlags
  rw [h]
  dsimp only
  split
  · rfl
  · split
    · rfl
    · simp [storeSwitch, hw]

end Tbouncer.Monitor
