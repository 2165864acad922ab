import Mathlib.Data.Finset.Card
import Tbouncer.Base.PyText
import Tbouncer.Base.Runs

/-!
# The polling controllers

The five `iago_attack.py` read the switch file once a second, attach their probes when
it holds their command and detach them when it holds anything else. They differ in the
command and in the lists of probes; the handler of KeyboardInterrupt repeats the list
of the loop by hand.
-/

namespace Tbouncer.Attack
open Base

inductive ProbeKind where
  | kprobe
  | kretprobe
  deriving DecidableEq

/- `event` is the system call, before get_syscall_fnname or get_syscall_prefix. -/
structure Probe where
  kind : ProbeKind
  event : Text
  fn : Text
  deriving DecidableEq

/- The arguments of a detach call; without a function it is about the whole event. -/
structure Detach where
  kind : ProbeKind
  event : Text
  fn : Option Text
  deriving DecidableEq

def Detach.covers (d : Detach) (p : Probe) : Bool :=
  d.kind = p.kind && d.event = p.event && (d.fn.all fun fn => fn = p.fn)

structure Poller where
  command : Text
  attach : List Probe
  detach : List Detach
  onInterrupt : List Detach
  deriving DecidableEq

namespace Poller

def kprobe (event fn : String) : Probe := ⟨.kprobe, event.toList, fn.toList⟩
def kretprobe (event fn : String) : Probe := ⟨.kretprobe, event.toList, fn.toList⟩
def offKprobe (event fn : String) : Detach := ⟨.kprobe, event.toList, some fn.toList⟩
def offKretprobe (event fn : String) : Detach := ⟨.kretprobe, event.toList, some fn.toList⟩
def offEvent (event : String) : Detach := ⟨.kretprobe, event.toList, none⟩

/- `accept/iago_attack.py:53-76`. -/
def accept : Poller where
  command := "iago_attack_accept".toList
  attach := [kretprobe "accept" "handle_sys_accept", kretprobe "accept4" "handle_sys_accept"]
  detach := [offEvent "accept", offEvent "accept4"]
  onInterrupt := [offEvent "accept", offEvent "accept4"]

/- `read/iago_attack.py:86-110`. -/
def read : Poller where
  command := "iago_attack_read".toList
  attach := [kprobe "read" "syscall__read", kretprobe "read" "syscall__read_ret"]
  detach := [offKprobe "read" "syscall__read", offKretprobe "read" "syscall__read_ret"]
  onInterrupt := [offKprobe "read" "syscall__read", offKretprobe "read" "syscall__read_ret"]

/- `readlink/iago_attack.py:54-73`. -/
def readlink : Poller where
  command := "iago_attack_readlink".toList
  attach := [kretprobe "readlink" "handle_readlink"]
  detach := [offEvent "readlink"]
  onInterrupt := [offEvent "readlink"]

/- `fstat/iago_attack.py:111-139`. -/
def fstat : Poller where
  command := "iago_attack_fstat".toList
  attach :=
    [kprobe "newfstatat" "syscall__newfstatat", kprobe "newfstat" "syscall__newfstat",
      kretprobe "newfstatat" "syscall__newfstatat_ret",
      kretprobe "newfstat" "syscall__newfstatat_ret"]
  detach :=
    [offKprobe "newfstatat" "syscall__newfstatat", offKprobe "newfstat" "syscall__newfstat",
      offKretprobe "newfstatat" "syscall__newfstatat_ret",
      offKretprobe "newfstat" "syscall__newfstatat_ret"]
  onInterrupt :=
    [offKprobe "newfstatat" "syscall__newfstatat", offKprobe "newfstat" "syscall__fstat",
      offKretprobe "newfstatat" "syscall__newfstatat_ret",
      offKretprobe "newfstat" "syscall__newfstatat_ret"]

/- `epoll_wait/iago_attack.py:117-142`. -/
def epollWait : Poller where
  command := "iago_attack_epoll_wait".toList
  attach :=
    [kprobe "epoll_wait" "syscall__trace_entry_epoll_wait",
      kretprobe "epoll_wait" "syscall__trace_exit_epoll_wait"]
  detach :=
    [offKprobe "epoll_wait" "syscall__trace_entry_epoll_wait",
      offKretprobe "epoll_wait" "syscall__trace_exit_epoll_wait"]
  onInterrupt :=
    [offKprobe "epoll_wait" "syscall__trace_entry_epoll_wait",
      offKretprobe "epoll_wait" "syscall__trace_exit_epoll_wait"]

end Poller

def pollers : List Poller :=
  [Poller.accept, Poller.read, Poller.readlink, Poller.fstat, Poller.epollWait]

/-! ### One poll, step by step -/

/- The flag of the script and the probes that are installed. -/
structure PollState where
  attached : Bool
  installed : Finset Probe
  deriving DecidableEq

def PollState.start : PollState := ⟨false, ∅⟩

inductive Op where
  | attach (p : Probe)
  | detach (d : Detach)
  | assign (attached : Bool)
  deriving DecidableEq

/- A detach of what is not installed raises. An attach of what is installed has no
result either: that no controller comes to it is shown of every poll. -/
def opStep (s : PollState) : Op → Option PollState
  | .attach p =>
      if p ∈ s.installed then none else some { s with installed := insert p s.installed }
  | .detach d =>
      if ∃ p ∈ s.installed, d.covers p then
        some { s with installed := s.installed.filter fun p => !d.covers p }
      else none
  | .assign attached => some { s with attached := attached }

namespace Poller
variable (c : Poller)

def attachOps : List Op := c.attach.map .attach ++ [.assign true]
def detachOps : List Op := c.detach.map .detach ++ [.assign false]

/- What one pass of the loop does on reading `content`. -/
def ops (attached : Bool) (content : Text) : List Op :=
  if content = c.command && !attached then c.attachOps
  else if content ≠ c.command && attached then c.detachOps
  else []

def poll (s : PollState) (content : Text) : Option PollState :=
  run opStep s (c.ops s.attached content)

/- The probe set of the controller. -/
def probes : Finset Probe := c.attach.toFinset

/- Between two polls the flag says which probes are there. -/
def settled (attached : Bool) : PollState := ⟨attached, if attached then c.probes else ∅⟩

/- The two lists of the loop take each other back. -/
structure Paired : Prop where
  distinct : c.attach.Nodup
  detaches : run opStep ⟨true, c.probes⟩ (c.detach.map .detach) = some ⟨true, ∅⟩

end Poller

theorem paired_of_mem {c : Poller} (h : c ∈ pollers) : c.Paired := by
  have hall : ∀ c ∈ pollers, c.attach.Nodup ∧
      run opStep ⟨true, c.probes⟩ (c.detach.map .detach) = some ⟨true, ∅⟩ := by decide
  exact ⟨(hall c h).1, (hall c h).2⟩

theorem run_attach (ps : List Probe) (s : PollState) (hdistinct : ps.Nodup)
    (hnew : ∀ p ∈ ps, p ∉ s.installed) :
    run opStep s (ps.map .attach) = some { s with installed := s.installed ∪ ps.toFinset } := by
  induction ps generalizing s with
  | nil => simp
  | cons p ps ih =>
    obtain ⟨hp, hps⟩ := List.nodup_cons.mp hdistinct
    have hstep : opStep s (.attach p) = some { s with installed := insert p s.installed } :=
      if_neg (hnew p (List.mem_cons_self ..))
    have hrest : ∀ q ∈ ps, q ∉ insert p s.installed := by
      intro q hq hin
      rcases Finset.mem_insert.mp hin with rfl | hold
      · exact hp hq
      · exact hnew q (List.mem_cons_of_mem p hq) hold
    rw [List.map_cons, run_cons, hstep, Option.bind_some, ih _ hps hrest, List.toFinset_cons,
      Finset.insert_union, Finset.union_insert]

namespace Poller
variable {c : Poller}

theorem run_attachOps (hc : c.Paired) :
    run opStep (c.settled false) c.attachOps = some (c.settled true) := by
  have hnew : ∀ p ∈ c.attach, p ∉ (c.settled false).installed := by simp [settled]
  have hset := run_attach c.attach (c.settled false) hc.distinct hnew
  rw [attachOps, run_append_eq_some]
  refine ⟨_, hset, ?_⟩
  simp [opStep, settled, probes]

theorem run_detachOps (hc : c.Paired) :
    run opStep (c.settled true) c.detachOps = some (c.settled false) := by
  rw [detachOps, run_append_eq_some]
  exact ⟨_, hc.detaches, rfl⟩

/-- Whatever a poll reads, it succeeds and leaves the controller settled: attached
when it has read its command, and only then. -/
theorem poll_settled (hc : c.Paired) (attached : Bool) (content : Text) :
    c.poll (c.settled attached) content = some (c.settled (content = c.command)) := by
  by_cases hcontent : content = c.command
  · cases attached with
    | true => simp [poll, ops, settled, hcontent]
    | false =>
      have hrun := run_attachOps hc
      simpa [poll, ops, settled, hcontent] using hrun
  · cases attached with
    | true =>
      have hrun := run_detachOps hc
      simpa [poll, ops, settled, hcontent] using hrun
    | false => simp [poll, ops, settled, hcontent]

end Poller

end Tbouncer.Attack
