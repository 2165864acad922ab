import Tbouncer.Attack.Hooks
import Tbouncer.Base.ByteMemory
import Tbouncer.Mutation.Loop

/-!
# Processes outside the target cgroup

Any processes run, entering and leaving system calls in any order, with any of the
hooks attached at each entry and exit. The hooks share their maps between all
processes and act on the current one. What happens is the same in the run without
hooks: the values and the memory contents the kernel itself produces.
-/

namespace Tbouncer.Attack.Isolation
open Base Bpf Mutation

abbrev Pid := ℕ
abbrev Memory := Addr → UInt8

def writeUser (mem : Memory) (w : UserWrite) : Memory := ByteMemory.store mem w.dst w.src

/-! ### The hooks -/

/- The three handlers that call bpf_override_return differ in the value. -/
def overrideReturn (value : BitVec 64) (targetCgroup current : CgroupId) :
    Option (BitVec 64) :=
  if !compareCgroupId targetCgroup current then none else some value

def handleSysAccept : CgroupId → CgroupId → Option (BitVec 64) := overrideReturn (-8192)
def handleReadlink : CgroupId → CgroupId → Option (BitVec 64) := overrideReturn 100

theorem handleRetvalue_eq : handleRetvalue = overrideReturn 4099 := rfl

theorem overrideReturn_foreign {targetCgroup current : CgroupId} (h : current ≠ targetCgroup)
    (value : BitVec 64) : overrideReturn value targetCgroup current = none := by
  simp [overrideReturn, compareCgroupId_of_ne h]

/- The arguments of the system call, as the entry hooks find them. -/
structure Regs where
  arg1 : BitVec 64
  arg2 : BitVec 64
  arg3 : BitVec 64
  arg4 : BitVec 64
  deriving DecidableEq

/- One map for each program. -/
structure Maps where
  readAddr : BpfHash Addr
  statAddr : BpfHash Addr
  epollAddrs : BpfHash AddrsY

def Maps.empty : Maps := ⟨BpfHash.empty, BpfHash.empty, BpfHash.empty⟩

inductive EntryHook where
  | read
  | newfstatat
  | newfstat
  | epollWait
  deriving DecidableEq

def EntryHook.fire (targetCgroup current : CgroupId) (r : Regs) (m : Maps) : EntryHook → Maps
  | .read =>
      { m with
        readAddr := syscallRead targetCgroup current ⟨r.arg1.setWidth 32, r.arg2, r.arg3⟩ m.readAddr }
  | .newfstatat =>
      { m with
        statAddr := syscallNewfstatat targetCgroup current (r.arg1.setWidth 32) r.arg2 r.arg3
          (r.arg4.setWidth 32) m.statAddr }
  | .newfstat =>
      { m with
        statAddr := syscallNewfstat targetCgroup current (r.arg1.setWidth 32) r.arg2 m.statAddr }
  | .epollWait =>
      { m with
        epollAddrs := syscallTraceEntryEpollWait targetCgroup current
          ⟨r.arg1.setWidth 32, r.arg2⟩ m.epollAddrs }

inductive ExitHook where
  | retvalue
  | sysAccept
  | readlink
  | readRet
  | newfstatatRet
  | epollWaitExit
  deriving DecidableEq

def ExitHook.override (targetCgroup current : CgroupId) : ExitHook → Option (BitVec 64)
  | .retvalue => handleRetvalue targetCgroup current
  | .sysAccept => handleSysAccept targetCgroup current
  | .readlink => handleReadlink targetCgroup current
  | .readRet => none
  | .newfstatatRet => none
  | .epollWaitExit => none

def ExitHook.writes (targetCgroup current : CgroupId) (rc : BitVec 64) (m : Maps) :
    ExitHook → List UserWrite
  | .retvalue => []
  | .sysAccept => []
  | .readlink => []
  | .readRet => syscallReadRet targetCgroup current rc m.readAddr
  | .newfstatatRet => syscallNewfstatatRet targetCgroup current rc m.statAddr
  | .epollWaitExit => syscallTraceExitEpollWait targetCgroup current rc m.epollAddrs

/- A call on its way out: the value it is about to return and its process's memory. -/
structure Leaving where
  rc : BitVec 64
  memory : Memory

/- A hook sees the value as the hooks before it have left it. -/
def Leaving.fire (targetCgroup current : CgroupId) (m : Maps) (l : Leaving) (hook : ExitHook) :
    Leaving :=
  ⟨(hook.override targetCgroup current).getD l.rc,
    (hook.writes targetCgroup current l.rc m).foldl writeUser l.memory⟩

/- All hooks attached to one entry, or to one exit. -/
def enterHooks (targetCgroup current : CgroupId) (r : Regs) (m : Maps)
    (hooks : List EntryHook) : Maps :=
  hooks.foldl (EntryHook.fire targetCgroup current r) m

def exitHooks (targetCgroup current : CgroupId) (m : Maps) (l : Leaving)
    (hooks : List ExitHook) : Leaving :=
  hooks.foldl (Leaving.fire targetCgroup current m) l

section
variable {targetCgroup current : CgroupId} (h : current ≠ targetCgroup)
include h

theorem entry_foreign (r : Regs) (m : Maps) (hook : EntryHook) :
    hook.fire targetCgroup current r m = m := by
  cases hook with
  | read =>
    have hread := readHooks.entry_other targetCgroup current
      ⟨r.arg1.setWidth 32, r.arg2, r.arg3⟩ m.readAddr h
    exact congrArg (fun x => { m with readAddr := x }) hread
  | newfstatat =>
    have hstat := statHooks.entry_other targetCgroup current
      (.newfstatat (r.arg1.setWidth 32) r.arg2 r.arg3 (r.arg4.setWidth 32)) m.statAddr h
    exact congrArg (fun x => { m with statAddr := x }) hstat
  | newfstat =>
    have hstat := statHooks.entry_other targetCgroup current
      (.newfstat (r.arg1.setWidth 32) r.arg2) m.statAddr h
    exact congrArg (fun x => { m with statAddr := x }) hstat
  | epollWait =>
    have hepoll := epollHooks.entry_other targetCgroup current ⟨r.arg1.setWidth 32, r.arg2⟩
      m.epollAddrs h
    exact congrArg (fun x => { m with epollAddrs := x }) hepoll

theorem exit_foreign (m : Maps) (l : Leaving) (hook : ExitHook) :
    l.fire targetCgroup current m hook = l := by
  have hover : hook.override targetCgroup current = none := by
    cases hook with
    | retvalue => exact overrideReturn_foreign h 4099
    | sysAccept => exact overrideReturn_foreign h (-8192)
    | readlink => exact overrideReturn_foreign h 100
    | readRet => rfl
    | newfstatatRet => rfl
    | epollWaitExit => rfl
  have hwrites : hook.writes targetCgroup current l.rc m = [] := by
    cases hook with
    | retvalue => rfl
    | sysAccept => rfl
    | readlink => rfl
    | readRet => exact readHooks.exit_other targetCgroup current l.rc m.readAddr h
    | newfstatatRet => exact statHooks.exit_other targetCgroup current l.rc m.statAddr h
    | epollWaitExit => exact epollHooks.exit_other targetCgroup current l.rc m.epollAddrs h
  rw [Leaving.fire, hover, hwrites]
  rfl

theorem entries_foreign (r : Regs) (m : Maps) (hooks : List EntryHook) :
    enterHooks targetCgroup current r m hooks = m := by
  induction hooks with
  | nil => rfl
  | cons hook hooks ih => rw [enterHooks, List.foldl_cons, entry_foreign h, ← enterHooks, ih]

theorem exits_foreign (m : Maps) (l : Leaving) (hooks : List ExitHook) :
    exitHooks targetCgroup current m l hooks = l := by
  induction hooks with
  | nil => rfl
  | cons hook hooks ih => rw [exitHooks, List.foldl_cons, exit_foreign h, ← exitHooks, ih]

end

/-! ### Runs -/

/- `kernel` is what the call has done to its process's memory when it returns, `own` a
stretch of the program itself. -/
inductive Event where
  | enter (pid : Pid) (args : Regs) (hooks : List EntryHook)
  | exit (pid : Pid) (rc : BitVec 64) (kernel : Memory → Memory) (hooks : List ExitHook)
  | compute (pid : Pid) (own : Memory → Memory)

def Event.pid : Event → Pid
  | .enter pid _ _ => pid
  | .exit pid _ _ _ => pid
  | .compute pid _ => pid

/- The same without probes. -/
def Event.bare : Event → Event
  | .enter pid args _ => .enter pid args []
  | .exit pid rc kernel _ => .exit pid rc kernel []
  | .compute pid own => .compute pid own

/- `returned` are the values the calls of a process have returned. -/
structure World where
  maps : Maps
  memory : Pid → Memory
  returned : Pid → List (BitVec 64)

section
variable (targetCgroup : CgroupId) (cgroupOf : Pid → CgroupId)

def leaving (w : World) (pid : Pid) (rc : BitVec 64) (kernel : Memory → Memory)
    (hooks : List ExitHook) : Leaving :=
  exitHooks targetCgroup (cgroupOf pid) w.maps ⟨rc, kernel (w.memory pid)⟩ hooks

theorem leaving_nil (w : World) (pid : Pid) (rc : BitVec 64) (kernel : Memory → Memory) :
    leaving targetCgroup cgroupOf w pid rc kernel [] = ⟨rc, kernel (w.memory pid)⟩ := rfl

def step (w : World) : Event → World
  | .enter pid args hooks =>
      { w with maps := enterHooks targetCgroup (cgroupOf pid) args w.maps hooks }
  | .exit pid rc kernel hooks =>
      { w with
        memory := Function.update w.memory pid
          (leaving targetCgroup cgroupOf w pid rc kernel hooks).memory
        returned := Function.update w.returned pid
          (w.returned pid ++ [(leaving targetCgroup cgroupOf w pid rc kernel hooks).rc]) }
  | .compute pid own =>
      { w with memory := Function.update w.memory pid (own (w.memory pid)) }

def after (w : World) (tr : List Event) : World := tr.foldl (step targetCgroup cgroupOf) w

/- The kernel's own values of the calls of `pid`. -/
def kernelValue (pid : Pid) : Event → Option (BitVec 64)
  | .exit p rc _ _ => if p = pid then some rc else none
  | _ => none

/- What `pid` has and has been given is what it would have without probes, the values
being the kernel's own, and nothing it does changes a map. -/
structure Isolated (w : World) (tr : List Event) (pid : Pid) : Prop where
  memory : (after targetCgroup cgroupOf w tr).memory pid =
    (after targetCgroup cgroupOf w (tr.map Event.bare)).memory pid
  returned : (after targetCgroup cgroupOf w tr).returned pid =
    (after targetCgroup cgroupOf w (tr.map Event.bare)).returned pid
  own_values : (after targetCgroup cgroupOf w tr).returned pid =
    w.returned pid ++ tr.filterMap (kernelValue pid)
  no_entry : ∀ pre e, pre ++ [e] <+: tr → e.pid = pid →
    (after targetCgroup cgroupOf w (pre ++ [e])).maps = (after targetCgroup cgroupOf w pre).maps

/- An event of another process leaves memory and values alone. -/
theorem step_other (w : World) {pid : Pid} {e : Event} (he : pid ≠ e.pid) :
    (step targetCgroup cgroupOf w e).memory pid = w.memory pid ∧
      (step targetCgroup cgroupOf w e).returned pid = w.returned pid := by
  cases e with
  | enter p args hooks => exact ⟨rfl, rfl⟩
  | exit p rc kernel hooks =>
    have hne : pid ≠ p := he
    simp only [step, Function.update_of_ne hne, and_self]
  | compute p own =>
    have hne : pid ≠ p := he
    simp only [step, Function.update_of_ne hne, and_self]

variable {targetCgroup cgroupOf} {pid : Pid}

theorem bare_pid (e : Event) : e.bare.pid = e.pid := by
  cases e <;> rfl

/- What an event of a process outside the target does is what its bare event does. -/
theorem step_foreign (w : World) {e : Event} (he : cgroupOf e.pid ≠ targetCgroup) :
    step targetCgroup cgroupOf w e = step targetCgroup cgroupOf w e.bare := by
  cases e with
  | enter p args hooks =>
    have hp : cgroupOf p ≠ targetCgroup := he
    simp only [step, Event.bare, entries_foreign hp]
  | exit p rc kernel hooks =>
    have hp : cgroupOf p ≠ targetCgroup := he
    simp only [step, Event.bare, leaving, exits_foreign hp]
  | compute p own => rfl

theorem maps_bare (w : World) (e : Event) :
    (step targetCgroup cgroupOf w e.bare).maps = w.maps := by
  cases e <;> rfl

/- Two worlds that are the same for `pid`. -/
def Alike (pid : Pid) (v w : World) : Prop :=
  v.memory pid = w.memory pid ∧ v.returned pid = w.returned pid

theorem alike_bare {v w : World} (hvw : Alike pid v w) {e : Event} (he : e.pid = pid) :
    Alike pid (step targetCgroup cgroupOf v e.bare) (step targetCgroup cgroupOf w e.bare) := by
  obtain ⟨hm, hr⟩ := hvw
  cases e with
  | enter p args hooks => exact ⟨hm, hr⟩
  | exit p rc kernel hooks =>
    cases he
    simp only [Event.pid] at hm hr
    simp [Alike, step, Event.bare, Event.pid, leaving_nil, hm, hr]
  | compute p own =>
    cases he
    simp only [Event.pid] at hm hr
    simp [Alike, step, Event.bare, Event.pid, hm, hr]

theorem alike_step (h : cgroupOf pid ≠ targetCgroup) {v w : World} (hvw : Alike pid v w)
    (e : Event) :
    Alike pid (step targetCgroup cgroupOf v e) (step targetCgroup cgroupOf w e.bare) := by
  by_cases he : e.pid = pid
  · rw [← he] at h
    rw [step_foreign v h]
    exact alike_bare hvw he
  · have hb : pid ≠ e.bare.pid := by
      rw [bare_pid]
      exact Ne.symm he
    obtain ⟨hvm, hvr⟩ := step_other targetCgroup cgroupOf v (Ne.symm he)
    obtain ⟨hwm, hwr⟩ := step_other targetCgroup cgroupOf w hb
    exact ⟨by rw [hvm, hwm, hvw.1], by rw [hvr, hwr, hvw.2]⟩

theorem alike_after (h : cgroupOf pid ≠ targetCgroup) (w : World) (tr : List Event) :
    Alike pid (after targetCgroup cgroupOf w tr)
      (after targetCgroup cgroupOf w (tr.map Event.bare)) := by
  rw [after, after, List.foldl_map]
  exact List.foldl_rel ⟨rfl, rfl⟩ fun e _ _ _ hvw => alike_step h hvw e

/- A process outside the target is given the kernel's value. -/
theorem step_returned (h : cgroupOf pid ≠ targetCgroup) (w : World) (e : Event) :
    (step targetCgroup cgroupOf w e).returned pid =
      w.returned pid ++ (kernelValue pid e).toList := by
  by_cases he : e.pid = pid
  · rw [← he] at h
    rw [step_foreign w h]
    cases e with
    | enter p args hooks => simp [step, Event.bare, kernelValue]
    | exit p rc kernel hooks =>
      cases he
      simp [step, Event.bare, Event.pid, kernelValue, leaving_nil]
    | compute p own => simp [step, Event.bare, kernelValue]
  · have hnone : kernelValue pid e = none := by
      cases e with
      | enter p args hooks => rfl
      | exit p rc kernel hooks => exact if_neg he
      | compute p own => rfl
    rw [(step_other targetCgroup cgroupOf w (Ne.symm he)).2, hnone, Option.toList_none, List.append_nil]

theorem after_returned (h : cgroupOf pid ≠ targetCgroup) (w : World) (tr : List Event) :
    (after targetCgroup cgroupOf w tr).returned pid =
      w.returned pid ++ tr.filterMap (kernelValue pid) := by
  induction tr generalizing w with
  | nil => simp [after]
  | cons e tr ih =>
    rw [after, List.foldl_cons, ← after, ih, step_returned h, List.append_assoc]
    cases he : kernelValue pid e <;> simp [he]

/-- The hooks do nothing to a process outside the target cgroup, and take nothing
from it. -/
theorem foreign_isolated (w : World) (tr : List Event) (h : cgroupOf pid ≠ targetCgroup) :
    Isolated targetCgroup cgroupOf w tr pid := by
  obtain ⟨hmemory, hreturned⟩ := alike_after h w tr
  refine ⟨hmemory, hreturned, after_returned h w tr, ?_⟩
  intro pre e _ he
  rw [← he] at h
  have hlast : after targetCgroup cgroupOf w (pre ++ [e]) =
      step targetCgroup cgroupOf (after targetCgroup cgroupOf w pre) e := by
    simp only [after, List.foldl_append, List.foldl_cons, List.foldl_nil]
  rw [hlast, step_foreign _ h, maps_bare]

end

/- Process 1 is in the target cgroup, process 2 is not. -/
def twoProcesses : Pid → CgroupId := fun pid => if pid = 1 then 27724 else 300

def idleWorld : World := ⟨Maps.empty, fun _ _ => 0, fun _ => []⟩

/- While a read of process 1 is in progress, one of process 2 returns. -/
def overlappingReads : List Event :=
  [.enter 1 ⟨3, 0x7f0000001000, 64, 0⟩ [.read], .enter 2 ⟨3, 0x7f0000001000, 64, 0⟩ [.read],
    .exit 2 10 id [.readRet, .retvalue], .exit 1 10 id [.readRet, .retvalue]]

theorem foreign_isolated_reads :
    twoProcesses 2 ≠ 27724 ∧ Isolated 27724 twoProcesses idleWorld overlappingReads 2 :=
  ⟨by decide, foreign_isolated idleWorld overlappingReads (by decide)⟩

/- Process 1 is given another value and another first byte. -/
example : (after 27724 twoProcesses idleWorld overlappingReads).returned 1 = [4099] ∧
    (after 27724 twoProcesses idleWorld overlappingReads).memory 1 0x7f0000001000 = 11 := by
  decide

end Tbouncer.Attack.Isolation
