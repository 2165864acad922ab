import Tbouncer.Bpf.Helpers

/-!
# The hooks of the attack programs

Each program attaches a kprobe that stores where the caller's buffer is and a
kretprobe that writes to what has been stored (`read/iago_attack.py:31-73`,
`fstat/iago_attack.py:30-90`, `epoll_wait/iago_attack.py:48-104`). The map has one
key, the constant 0, for all calls of all processes.
-/

namespace Tbouncer.Attack
open Base Bpf

def key : BitVec 32 := 0

/- `(int)PT_REGS_RC(ctx)`. -/
def retOf (rc : BitVec 64) : Int := (rc.setWidth 32).toInt

/-! ### read -/

structure ReadArgs where
  fd : BitVec 32
  buf : Addr
  count : BitVec 64
  deriving DecidableEq

def syscallRead (targetCgroup current : CgroupId) (args : ReadArgs) (addrPoc : BpfHash Addr) :
    BpfHash Addr :=
  if !compareCgroupId targetCgroup current then addrPoc
  else addrPoc.update key args.buf

def syscallReadRet (targetCgroup current : CgroupId) (rc : BitVec 64) (addrPoc : BpfHash Addr) :
    List UserWrite :=
  if !compareCgroupId targetCgroup current then []
  else
    match addrPoc key with
    | none => []
    | some dst => if retOf rc < 0 then [] else [⟨dst, leBytes 4 11⟩]

/-! ### fstat and newfstatat -/

/- The two entry hooks differ in the place of the buffer among their arguments. -/
def recordStatbuf (targetCgroup current : CgroupId) (statbuf : Addr) (addrPoc : BpfHash Addr) :
    BpfHash Addr :=
  if !compareCgroupId targetCgroup current then addrPoc
  else addrPoc.update key statbuf

def syscallNewfstatat (targetCgroup current : CgroupId) (_dfd : BitVec 32)
    (_filename statbuf : Addr) (_flag : BitVec 32) (addrPoc : BpfHash Addr) : BpfHash Addr :=
  recordStatbuf targetCgroup current statbuf addrPoc

def syscallNewfstat (targetCgroup current : CgroupId) (_fd : BitVec 32) (statbuf : Addr)
    (addrPoc : BpfHash Addr) : BpfHash Addr :=
  recordStatbuf targetCgroup current statbuf addrPoc

inductive StatArgs where
  | newfstatat (dfd : BitVec 32) (filename statbuf : Addr) (flag : BitVec 32)
  | newfstat (fd : BitVec 32) (statbuf : Addr)
  deriving DecidableEq

def StatArgs.statbuf : StatArgs → Addr
  | .newfstatat _ _ statbuf _ => statbuf
  | .newfstat _ statbuf => statbuf

/- Which of the hooks is attached to which syscall. -/
def statEntry (targetCgroup current : CgroupId) : StatArgs → BpfHash Addr → BpfHash Addr
  | .newfstatat dfd filename statbuf flag =>
      syscallNewfstatat targetCgroup current dfd filename statbuf flag
  | .newfstat fd statbuf => syscallNewfstat targetCgroup current fd statbuf

theorem statEntry_eq (targetCgroup current : CgroupId) (args : StatArgs)
    (addrPoc : BpfHash Addr) :
    statEntry targetCgroup current args addrPoc =
      recordStatbuf targetCgroup current args.statbuf addrPoc := by
  cases args <;> rfl

/- The return hook of both: 48 is the offset of st_size. -/
def syscallNewfstatatRet (targetCgroup current : CgroupId) (rc : BitVec 64)
    (addrPoc : BpfHash Addr) : List UserWrite :=
  if !compareCgroupId targetCgroup current then []
  else
    match addrPoc key with
    | none => []
    | some dst => if retOf rc < 0 then [] else [⟨dst + 48, leBytes 4 2⟩]

/-! ### epoll_wait -/

structure EpollArgs where
  epfd : BitVec 32
  events : Addr
  deriving DecidableEq

/- The program's struct epoll_event is not packed: 16 bytes, data at offset 8. -/
def eventAt (events : Addr) (i : ℕ) : Addr := events + BitVec.ofNat 64 (16 * i)
def dataAt (events : Addr) (i : ℕ) : Addr := eventAt events i + 8

structure AddrsY where
  event0Fd : Addr
  event1Ptr : Addr
  event2 : Addr
  event2Fd : Addr
  deriving DecidableEq

def addrsOf (events : Addr) : AddrsY where
  event0Fd := dataAt events 0 - 4
  event1Ptr := dataAt events 1 - 8
  event2 := eventAt events 2 - 8
  event2Fd := dataAt events 2

def syscallTraceEntryEpollWait (targetCgroup current : CgroupId) (args : EpollArgs)
    (addrsPoc : BpfHash AddrsY) : BpfHash AddrsY :=
  if !compareCgroupId targetCgroup current then addrsPoc
  else addrsPoc.update key (addrsOf args.events)

/- -14 in an int. -/
def newFd : Bytes := leBytes 4 0xfffffff2

/- The return value is not looked at. -/
def syscallTraceExitEpollWait (targetCgroup current : CgroupId) (_rc : BitVec 64)
    (addrsPoc : BpfHash AddrsY) : List UserWrite :=
  if !compareCgroupId targetCgroup current then []
  else
    match addrsPoc key with
    | none => []
    | some dst =>
        [⟨dst.event0Fd, newFd⟩, ⟨dst.event1Ptr, leBytes 8 dst.event2.toNat⟩, ⟨dst.event2, newFd⟩]

/-! ### A pair of hooks on one slot -/

/- `recorded` are the addresses an entry leaves for the exit of its call, `fires` is
the exit's test of the return value, `buffer` the argument the addresses are those of. -/
structure Hooks (α ν : Type) where
  entry : CgroupId → CgroupId → α → BpfHash ν → BpfHash ν
  exit : CgroupId → CgroupId → BitVec 64 → BpfHash ν → List UserWrite
  record : α → ν
  buffer : α → Addr
  recorded : α → List Addr
  fires : BitVec 64 → Bool
  entry_target : ∀ target a m, entry target target a m = m.update key (record a)
  entry_other : ∀ target current a m, current ≠ target → entry target current a m = m
  exit_other : ∀ target current rc m, current ≠ target → exit target current rc m = []
  exit_empty : ∀ target rc m, m key = none → exit target target rc m = []
  exit_idle : ∀ target rc m, fires rc = false → exit target target rc m = []
  exit_target : ∀ target rc m a, m key = some (record a) → fires rc = true →
    (exit target target rc m).map UserWrite.dst = recorded a
  recorded_ne_nil : ∀ a, recorded a ≠ []
  separated : ∀ a b, (∀ x ∈ recorded a, x ∈ recorded b) ↔ buffer a = buffer b

def succeeded (rc : BitVec 64) : Bool := decide (0 ≤ retOf rc)

theorem compareCgroupId_of_ne {target current : CgroupId} (h : current ≠ target) :
    compareCgroupId target current = false := by
  rw [← Bool.not_eq_true, compareCgroupId_iff]
  exact fun he => h he.symm

theorem compareCgroupId_self (target : CgroupId) : compareCgroupId target target = true :=
  (compareCgroupId_iff target target).mpr rfl

def readHooks : Hooks ReadArgs Addr where
  entry := syscallRead
  exit := syscallReadRet
  record a := a.buf
  buffer a := a.buf
  recorded a := [a.buf]
  fires := succeeded
  entry_target target a m := by simp [syscallRead, compareCgroupId_self]
  entry_other target current a m h := by simp [syscallRead, compareCgroupId_of_ne h]
  exit_other target current rc m h := by simp [syscallReadRet, compareCgroupId_of_ne h]
  exit_empty target rc m h := by simp [syscallReadRet, compareCgroupId_self, h]
  exit_idle target rc m h := by
    have hneg : retOf rc < 0 := by
      rw [succeeded, decide_eq_false_iff_not] at h
      omega
    simp only [syscallReadRet, compareCgroupId_self, Bool.not_true, Bool.false_eq_true, if_false,
      if_pos hneg]
    split <;> rfl
  exit_target target rc m a hm h := by
    have hpos : ¬ retOf rc < 0 := by
      rw [succeeded, decide_eq_true_iff] at h
      omega
    simp [syscallReadRet, compareCgroupId_self, hm, hpos]
  recorded_ne_nil a := List.cons_ne_nil _ _
  separated a b := by simp

def statHooks : Hooks StatArgs Addr where
  entry := statEntry
  exit := syscallNewfstatatRet
  record a := a.statbuf
  buffer a := a.statbuf
  recorded a := [a.statbuf + 48]
  fires := succeeded
  entry_target target a m := by simp [statEntry_eq, recordStatbuf, compareCgroupId_self]
  entry_other target current a m h := by
    simp [statEntry_eq, recordStatbuf, compareCgroupId_of_ne h]
  exit_other target current rc m h := by simp [syscallNewfstatatRet, compareCgroupId_of_ne h]
  exit_empty target rc m h := by simp [syscallNewfstatatRet, compareCgroupId_self, h]
  exit_idle target rc m h := by
    have hneg : retOf rc < 0 := by
      rw [succeeded, decide_eq_false_iff_not] at h
      omega
    simp only [syscallNewfstatatRet, compareCgroupId_self, Bool.not_true, Bool.false_eq_true,
      if_false, if_pos hneg]
    split <;> rfl
  exit_target target rc m a hm h := by
    have hpos : ¬ retOf rc < 0 := by
      rw [succeeded, decide_eq_true_iff] at h
      omega
    simp [syscallNewfstatatRet, compareCgroupId_self, hm, hpos]
  recorded_ne_nil a := List.cons_ne_nil _ _
  separated a b := by simp

theorem addrsOf_eq (events : Addr) :
    addrsOf events = ⟨events + 4, events + 16, events + 24, events + 40⟩ := by
  simp only [addrsOf, dataAt, eventAt, AddrsY.mk.injEq]
  refine ⟨?_, ?_, ?_, ?_⟩ <;> bv_omega

def written (events : Addr) : List Addr :=
  [(addrsOf events).event0Fd, (addrsOf events).event1Ptr, (addrsOf events).event2]

/- The three places written for two buffers are the same only if the buffers are. -/
theorem written_separated (x y : Addr) : (∀ t ∈ written x, t ∈ written y) ↔ x = y := by
  constructor
  · intro h
    simp only [written, addrsOf_eq, List.mem_cons, List.not_mem_nil, or_false, forall_eq_or_imp,
      forall_eq] at h
    obtain ⟨hfirst, hsecond, -⟩ := h
    -- two offsets apart by 12 or 20 one way are not 12 or 8 apart the other way
    rcases hfirst with h1 | h1 | h1
    · exact (BitVec.add_left_inj 4).mp h1
    · rcases hsecond with h2 | h2 | h2 <;> grind
    · rcases hsecond with h2 | h2 | h2 <;> grind
  · rintro rfl
    exact fun _ ht => ht

def epollHooks : Hooks EpollArgs AddrsY where
  entry := syscallTraceEntryEpollWait
  exit := syscallTraceExitEpollWait
  record a := addrsOf a.events
  buffer a := a.events
  recorded a := written a.events
  fires _ := true
  entry_target target a m := by simp [syscallTraceEntryEpollWait, compareCgroupId_self]
  entry_other target current a m h := by
    simp [syscallTraceEntryEpollWait, compareCgroupId_of_ne h]
  exit_other target current rc m h := by
    simp [syscallTraceExitEpollWait, compareCgroupId_of_ne h]
  exit_empty target rc m h := by simp [syscallTraceExitEpollWait, compareCgroupId_self, h]
  exit_idle target rc m h := by cases h
  exit_target target rc m a hm _ := by
    simp [syscallTraceExitEpollWait, compareCgroupId_self, hm, written]
  recorded_ne_nil a := List.cons_ne_nil _ _
  separated a b := written_separated a.events b.events

end Tbouncer.Attack
