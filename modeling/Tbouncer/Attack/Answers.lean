import Mathlib.Algebra.Group.Int.Defs
import Tbouncer.Attack.Demos
import Tbouncer.Verdict.TamperedSize

/-!
# What a demo says of its call

Each demo makes one call and compares what it finds: an int that read has stored, the
length readlink has returned, the size fstat has stored, the first event of epoll_wait.
With the probes of its script installed it finds what the hooks have put there, and takes
the attack to have succeeded; without them an ordinary answer of the kernel says nothing.
-/

namespace Tbouncer.Attack.Demos
open Base Bpf Isolation ByteMemory Switch

/- libc gives -1 for the values the kernel keeps for errors. -/
def libcReturn (rc : BitVec 64) : ℤ := if -4096 < rc.toInt ∧ rc.toInt < 0 then -1 else rc.toInt

/- What readlink returns in the end, with handle_readlink on its way. -/
def readlinkReturn (targetCgroup current : CgroupId) (rc : BitVec 64) : BitVec 64 :=
  (handleReadlink targetCgroup current).getD rc

/- A demo with what its calls give: `rc` is the kernel's own return value, `mem` the memory
as the kernel leaves it. -/
inductive Demo where
  | read (pipeFd : Option ℤ) (args : ReadArgs) (rc : BitVec 64) (mem : Memory)
  | readlink (rc : BitVec 64)
  | fstat (fd : ℤ) (args : StatArgs) (rc : BitVec 64) (mem : Memory) (mapped : Option Addr)
      (file : Bytes)
  | epollWait (epfd : BitVec 32) (pipeRet ctlRet : Fin 3 → ℤ) (rc : BitVec 64) (mem : Memory)
      (ev : FdEvents)

namespace Demo

def script : Demo → Poller
  | read .. => Poller.read
  | readlink _ => Poller.readlink
  | fstat .. => Poller.fstat
  | epollWait .. => Poller.epollWait

/- It gets as far as its command. -/
def starts : Demo → Prop
  | read pipeFd _ _ _ => pipeFd ≠ none
  | readlink _ => True
  | fstat fd _ _ _ _ _ => 0 ≤ fd
  | epollWait epfd pipeRet ctlRet _ _ _ =>
      epfd.toInt ≠ -1 ∧ ∀ i, pipeRet i ≠ -1 ∧ ctlRet i ≠ -1

instance : ∀ demo : Demo, Decidable demo.starts
  | read .. => inferInstanceAs (Decidable (_ ≠ _))
  | readlink _ => .isTrue trivial
  | fstat .. => inferInstanceAs (Decidable (_ ≤ _))
  | epollWait .. => inferInstanceAs (Decidable (_ ∧ _))

section
variable (targetCgroup current : CgroupId) (addrPoc : BpfHash Addr) (addrsPoc : BpfHash AddrsY)

/- The memory the call leaves, the script's probes being installed or not. What the demo
of readlink says does not depend on its memory. -/
def memory (armed : Bool) : Demo → Memory
  | read _ args rc mem =>
      if armed then
        (syscallReadRet targetCgroup current rc
          (syscallRead targetCgroup current args addrPoc)).foldl writeUser mem
      else mem
  | readlink _ => fun _ => 0
  | fstat _ args rc mem _ _ =>
      if armed then
        (syscallNewfstatatRet targetCgroup current rc
          (statEntry targetCgroup current args addrPoc)).foldl writeUser mem
      else mem
  | epollWait epfd _ _ rc mem ev =>
      if armed then
        (syscallTraceExitEpollWait targetCgroup current rc
          (syscallTraceEntryEpollWait targetCgroup current ⟨epfd, ev.epollEvents⟩
            addrsPoc)).foldl writeUser mem
      else mem

/- The run that comes of it. timeout_fd is where read has stored, `st` where fstat has. -/
def after (armed : Bool) (demo : Demo) : DemoRun :=
  let mem := demo.memory targetCgroup current addrPoc addrsPoc armed
  match demo with
  | read pipeFd args rc _ => .read ⟨pipeFd, libcReturn rc, (loadInt mem args.buf).toInt⟩
  | readlink rc =>
      .readlink (libcReturn (if armed then readlinkReturn targetCgroup current rc else rc))
  | fstat fd args rc _ mapped file =>
      .fstat ⟨fd, libcReturn rc, Verdict.stSizeOf mem args.statbuf, mapped, file⟩
  | epollWait epfd pipeRet ctlRet rc _ ev =>
      .epollWait ⟨epfd.toInt, pipeRet, ctlRet, libcReturn rc, mem, ev⟩

theorem script_after (armed : Bool) (demo : Demo) :
    (demo.after targetCgroup current addrPoc addrsPoc armed).script = demo.script := by
  cases demo <;> rfl

theorem starts_after (armed : Bool) (demo : Demo) :
    (demo.after targetCgroup current addrPoc addrsPoc armed).starts ↔ demo.starts := by
  cases demo <;> exact Iff.rfl

/- The command, and what is written behind the call. -/
theorem strings_after (armed : Bool) {demo : Demo} (h : demo.starts) :
    ∃ rest, (demo.after targetCgroup current addrPoc addrsPoc armed).strings =
      demo.script.command :: rest ∧ rest ⊆ [off] := by
  rw [strings_eq, if_pos ((starts_after ..).mpr h), afterStart, script_after]
  split
  · exact ⟨[], rfl, List.nil_subset _⟩
  · exact ⟨[off], rfl, List.Subset.refl _⟩

end
end Demo

/-! ### Verdicts -/

def VictimOut.succeeds : VictimOut → Bool
  | .print format _ => format = "attack success\n" || format = "attack successed\n"
  | _ => false

def ReadlinkOut.succeeds : ReadlinkOut → Bool
  | .out o => VictimOut.succeeds o
  | _ => false

/- The demo prints that the attack has succeeded. -/
def DemoRun.Succeeds : DemoRun → Prop
  | read k => (mainRead k).any VictimOut.succeeds = true
  | readlink len => (mainReadlink len).any ReadlinkOut.succeeds = true
  | fstat k => Verdict.reported (Verdict.mainDemo k) = true
  | epollWait k => (mainEpollWait k).any VictimOut.succeeds = true

theorem read_succeeds_iff (k : ReadRun) :
    DemoRun.Succeeds (.read k) ↔ k.pipeFd ≠ none ∧ 0 ≤ k.ret ∧ k.timeoutFd = 11 := by
  obtain ⟨pipeFd, ret, timeoutFd⟩ := k
  unfold DemoRun.Succeeds mainRead
  cases pipeFd with
  | none => simp [VictimOut.succeeds]
  | some fd =>
    by_cases hret : ret < 0
    · simp [VictimOut.succeeds, hret, Int.not_le.mpr hret]
    · by_cases hfd : timeoutFd = 11 <;>
        simp [VictimOut.succeeds, hret, hfd, Int.not_lt.mp hret]

theorem readlink_succeeds_iff (len : ℤ) : DemoRun.Succeeds (.readlink len) ↔ 20 ≤ len := by
  unfold DemoRun.Succeeds mainReadlink
  by_cases hlen : 20 ≤ len
  · have hne : len ≠ -1 := by omega
    simp [ReadlinkOut.succeeds, VictimOut.succeeds, hlen, hne]
  · by_cases hfailed : len = -1 <;>
      simp [ReadlinkOut.succeeds, VictimOut.succeeds, hlen, hfailed]

theorem fstat_succeeds_iff (k : Verdict.DemoRun) :
    DemoRun.Succeeds (.fstat k) ↔ 0 ≤ k.fd ∧ 0 ≤ k.statRet ∧
      ∃ cache, k.mapped = some cache ∧ Verdict.reported (Verdict.checkCache k cache) = true :=
  Verdict.demo_reports_iff [] k

/- Behind the set-up, or not at all. -/
theorem setUpPipes_any (k : EpollRun) (is : List (Fin 3)) :
    (setUpPipes k is).any VictimOut.succeeds = true ↔
      (∀ i ∈ is, k.pipeRet i ≠ -1 ∧ k.ctlRet i ≠ -1) ∧
        (afterEpollWait k.mem k.ev k.n).any VictimOut.succeeds = true := by
  induction is with
  | nil => simp [setUpPipes, VictimOut.succeeds]
  | cons i is ih =>
    rw [setUpPipes]
    by_cases hp : k.pipeRet i = -1
    · simp [VictimOut.succeeds, hp]
    · by_cases hc : k.ctlRet i = -1
      · simp [VictimOut.succeeds, hp, hc]
      · rw [if_neg hp, if_neg hc, ih, List.forall_mem_cons, and_assoc]
        exact (and_iff_right ⟨hp, hc⟩).symm

theorem epollWait_succeeds_iff (k : EpollRun) :
    DemoRun.Succeeds (.epollWait k) ↔ DemoRun.starts (.epollWait k) ∧
      (afterEpollWait k.mem k.ev k.n).any VictimOut.succeeds = true := by
  show (mainEpollWait k).any VictimOut.succeeds = true ↔ _
  rw [mainEpollWait]
  by_cases hcreate : k.epfd = -1
  · simp [VictimOut.succeeds, DemoRun.starts, hcreate]
  · rw [if_neg hcreate, setUpPipes_any]
    simp [DemoRun.starts, hcreate]

/- A descriptor that is not negative is looked up without that message. -/
theorem eventLoop_silent {mem : Memory} {ev : FdEvents} (left : ℕ) (ndx : ℕ)
    (h : ∀ i, ndx ≤ i → i < ndx + left → 0 ≤ (eventFd mem ev i).toInt) :
    (eventLoop mem ev ndx left).any VictimOut.succeeds = false := by
  induction left generalizing ndx with
  | zero => rfl
  | succ left ih =>
    have hfd : ¬ (eventFd mem ev ndx).toInt < 0 := Int.not_lt.mpr (h ndx (Nat.le_refl _) (by omega))
    have hget : (fdeventGetHandler mem ev (eventFd mem ev ndx)).1.any VictimOut.succeeds = false := by
      unfold fdeventGetHandler
      split
      · rfl
      · split <;> rfl
    have hrest := ih (ndx + 1) fun i hi hlt => h i (by omega) (by omega)
    rw [eventLoop]
    simp only [List.any_cons, List.any_append, hget, VictimOut.succeeds]
    split
    · rfl
    · split
      · simpa [VictimOut.succeeds] using hrest
      · rfl

/-! ### With the probes and without -/

/- A value that is no error and fits an int. -/
def Fits (rc : BitVec 64) : Prop := 0 ≤ rc.toInt ∧ rc.toInt < 2 ^ 31

theorem retOf_of_fits {rc : BitVec 64} (h : Fits rc) : retOf rc = rc.toInt := by
  obtain ⟨hpos, hlt⟩ := h
  have hnat : (rc.toNat : ℤ) = rc.toInt := by
    rw [BitVec.toInt_eq_toNat_cond] at hpos ⊢
    have := rc.isLt
    split at hpos <;> split <;> omega
  have hlow : (rc.setWidth 32).toNat = rc.toNat := by
    rw [BitVec.toNat_setWidth]
    omega
  rw [retOf, BitVec.toInt_eq_toNat_cond, hlow, ← hnat]
  split <;> omega

theorem libcReturn_of_nonneg {rc : BitVec 64} (h : 0 ≤ rc.toInt) : libcReturn rc = rc.toInt :=
  if_neg fun he => absurd he.2 (Int.not_lt.mpr h)

namespace Demo

/- The call succeeds, and the demo looks where the hooks write: the file names few
libraries and is mapped above 4 GiB; fdarray follows the events on the heap. -/
def Vulnerable : Demo → Prop
  | read pipeFd _ rc _ => pipeFd ≠ none ∧ Fits rc
  | readlink _ => True
  | fstat fd _ rc _ mapped file =>
      0 ≤ fd ∧ Fits rc ∧ leVal (file.take 4) < 2 ^ 32 - 52 ∧
        ∃ base, mapped = some base ∧ 2 ^ 32 ≤ base.toNat ∧
          base.toNat + 4 + leVal (file.take 4) < 2 ^ 64
  | epollWait epfd pipeRet ctlRet rc _ ev =>
      (epfd.toInt ≠ -1 ∧ ∀ i, pipeRet i ≠ -1 ∧ ctlRet i ≠ -1) ∧ 1 ≤ rc.toInt ∧
        ev.fdarray = ev.epollEvents + 128 ∧ ev.epollEvents + 24 ≠ 0

/- What the kernel gives is not what an attack would: another int than 11 from the pipe, a
link that fits the buffer, the size of the file, descriptors. -/
def Innocent : Demo → Prop
  | read _ args _ mem => (loadInt mem args.buf).toInt ≠ 11
  | readlink rc => rc.toInt < 20
  | fstat fd args rc mem mapped file =>
      ∃ libs, Verdict.DemoRun.Honest libs
          ⟨fd, libcReturn rc, Verdict.stSizeOf mem args.statbuf, mapped, file⟩ ∧
        Verdict.namesLength libs ≤ 50
  | epollWait _ _ _ rc mem ev => ∀ ndx < rc.toInt.toNat, 0 ≤ (eventFd mem ev ndx).toInt

section
variable (targetCgroup current : CgroupId) (addrPoc : BpfHash Addr) (addrsPoc : BpfHash AddrsY)

/- Outside the target cgroup the probes change nothing. -/
theorem after_other (h : current ≠ targetCgroup) (armed : Bool) (demo : Demo) :
    demo.after targetCgroup current addrPoc addrsPoc armed =
      demo.after targetCgroup current addrPoc addrsPoc false := by
  cases armed with
  | false => rfl
  | true =>
    cases demo with
    | read pipeFd args rc mem =>
      have hnone := readHooks.exit_other targetCgroup current rc
        (syscallRead targetCgroup current args addrPoc) h
      simp only [after, memory, if_true, Bool.false_eq_true, if_false]
      rw [show syscallReadRet targetCgroup current rc _ = [] from hnone]
      rfl
    | readlink rc =>
      simp [after, readlinkReturn, handleReadlink, overrideReturn_foreign h]
    | fstat fd args rc mem mapped file =>
      have hnone := statHooks.exit_other targetCgroup current rc
        (statEntry targetCgroup current args addrPoc) h
      simp only [after, memory, if_true, Bool.false_eq_true, if_false]
      rw [show syscallNewfstatatRet targetCgroup current rc _ = [] from hnone]
      rfl
    | epollWait epfd pipeRet ctlRet rc mem ev =>
      have hnone := epollHooks.exit_other targetCgroup current rc
        (syscallTraceEntryEpollWait targetCgroup current ⟨epfd, ev.epollEvents⟩ addrsPoc) h
      simp only [after, memory, if_true, Bool.false_eq_true, if_false]
      rw [show syscallTraceExitEpollWait targetCgroup current rc _ = [] from hnone]
      rfl

/- Without probes an innocent answer is not taken for an attack. -/
theorem silent_of_unarmed {demo : Demo} (h : demo.Innocent) :
    ¬ (demo.after targetCgroup current addrPoc addrsPoc false).Succeeds := by
  cases demo with
  | read pipeFd args rc mem =>
    have hne : (loadInt mem args.buf).toInt ≠ 11 := h
    simp only [after, memory, Bool.false_eq_true, if_false]
    rw [read_succeeds_iff]
    exact fun hs => hne hs.2.2
  | readlink rc =>
    have hlt : rc.toInt < 20 := h
    simp only [after, Bool.false_eq_true, if_false]
    rw [readlink_succeeds_iff, libcReturn]
    split <;> omega
  | fstat fd args rc mem mapped file =>
    obtain ⟨libs, hhonest, hnames⟩ := h
    simp only [after, memory, Bool.false_eq_true, if_false]
    rw [fstat_succeeds_iff]
    rintro ⟨-, -, cache, -, hrep⟩
    have hbig := ((hhonest.reports_iff cache).mp hrep).1
    omega
  | epollWait epfd pipeRet ctlRet rc mem ev =>
    have hfds : ∀ ndx < rc.toInt.toNat, 0 ≤ (eventFd mem ev ndx).toInt := h
    simp only [after, memory, Bool.false_eq_true, if_false]
    rw [epollWait_succeeds_iff]
    rintro ⟨-, hany⟩
    dsimp only at hany
    rw [afterEpollWait] at hany
    split at hany
    · cases hany
    next hn =>
      have hpos : libcReturn rc = -1 ∨ libcReturn rc = rc.toInt := by
        unfold libcReturn
        split
        · exact Or.inl rfl
        · exact Or.inr rfl
      rcases hpos with hfail | hsame
      · exact hn hfail
      · rw [hsame] at hany
        have hsilent : (eventLoop mem ev 0 rc.toInt.toNat).any VictimOut.succeeds = false :=
          eventLoop_silent rc.toInt.toNat 0 fun i _ hi => hfds i (by omega)
        simp [VictimOut.succeeds, hsilent] at hany

/- With them the attack succeeds. -/
theorem succeeds_of_armed {demo : Demo} (h : demo.Vulnerable) :
    (demo.after targetCgroup targetCgroup addrPoc addrsPoc true).Succeeds := by
  cases demo with
  | read pipeFd args rc mem =>
    obtain ⟨hpipe, hfits⟩ := h
    have hret : ¬ retOf rc < 0 := by
      rw [retOf_of_fits hfits]
      exact Int.not_lt.mpr hfits.1
    have hwrites : syscallReadRet targetCgroup targetCgroup rc
        (syscallRead targetCgroup targetCgroup args addrPoc) = [⟨args.buf, leBytes 4 11⟩] := by
      simp [syscallReadRet, syscallRead, compareCgroupId_self, hret]
    simp only [after, memory, if_true]
    rw [read_succeeds_iff, hwrites]
    refine ⟨hpipe, by rw [libcReturn_of_nonneg hfits.1]; exact hfits.1, ?_⟩
    rw [List.foldl_cons, List.foldl_nil, writeUser, loadInt_store]
    rfl
  | readlink rc =>
    simp only [after, if_true]
    rw [readlink_succeeds_iff, readlinkReturn, handleReadlink, overrideReturn, compareCgroupId_self]
    show 20 ≤ libcReturn 100
    decide
  | fstat fd args rc mem mapped file =>
    obtain ⟨hfd, hfits, hn, base, hbase, hlow, hhigh⟩ := h
    have hret : 0 ≤ retOf rc := by
      rw [retOf_of_fits hfits]
      exact hfits.1
    have hslot : statEntry targetCgroup targetCgroup args addrPoc key = some args.statbuf := by
      rw [statEntry_eq, recordStatbuf, compareCgroupId_self, Bool.not_true,
        if_neg Bool.false_ne_true, BpfHash.update_same]
    have hsize : (Verdict.stSizeOf ((syscallNewfstatatRet targetCgroup targetCgroup rc
        (statEntry targetCgroup targetCgroup args addrPoc)).foldl writeUser mem)
        args.statbuf).setWidth 32 = 2 := Verdict.setWidth_tampered hslot hret mem
    simp only [after, memory, if_true]
    rw [fstat_succeeds_iff]
    refine ⟨hfd, by rw [libcReturn_of_nonneg hfits.1]; exact hfits.1, base, hbase, ?_⟩
    have hnlibs := Verdict.nlibsOf_toNat file (by omega)
    have hsmall : (Verdict.nlibsOf file).toNat < 2 ^ 32 - 2 := by omega
    have hdata := Verdict.cacheDataSize_overwritten base hsize hsmall
    have hptr : ∀ size, Verdict.verifyPtr (Verdict.cacheData base (Verdict.nlibsOf file)) size = true :=
      fun size => Verdict.verifyPtr_high size hlow (by omega)
    rw [Verdict.checkCache_reports_iff, ← Verdict.verifyPtr_iff]
    exact ⟨by dsimp only; omega, hptr _⟩
  | epollWait epfd pipeRet ctlRet rc mem ev =>
    obtain ⟨hstarts, hrc, hfdarray, hnode⟩ := h
    have hslot : syscallTraceEntryEpollWait targetCgroup targetCgroup ⟨epfd, ev.epollEvents⟩
        addrsPoc key = some (addrsOf ev.epollEvents) := by
      rw [syscallTraceEntryEpollWait, compareCgroupId_self, Bool.not_true,
        if_neg Bool.false_ne_true, BpfHash.update_same]
    simp only [after, memory, if_true]
    rw [epollWait_succeeds_iff, exit_poisons mem ev.epollEvents hslot]
    refine ⟨hstarts, ?_⟩
    dsimp only
    rw [libcReturn_of_nonneg (by omega), afterEpollWait_poisoned mem hfdarray hnode hrc]
    decide

end
end Demo

end Tbouncer.Attack.Demos
