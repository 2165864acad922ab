import Mathlib.Order.Fin.Basic
import Tbouncer.Attack.EpollVictim
import Tbouncer.Attack.Scripts
import Tbouncer.Verdict.Tests

/-!
# What the demos leave behind

A demo writes its command, makes the call it is about and writes "0". Where that call
fails, fstat_demo_iago.c (`60-65`) and epoll_wait_demo_iago.c (`126-129`) return before
they have written the "0"; read_iago_attack.c looks at the result behind it and
readlink_demo_iago.c goes on. The demos run one after the other, each with whatever its
calls answer, beside the five scripts.
-/

namespace Tbouncer.Attack.Demos
open Base Bpf Switch SharedMemory Isolation

/-! ### The demos -/

/- `read_iago_attack.c:66-108`: `pipeFd` is pipe_fds[0], none if pipe fails; `timeoutFd` is
what read has left in timeout_fd. -/
structure ReadRun where
  pipeFd : Option ℤ
  ret : ℤ
  timeoutFd : ℤ

def mainRead (k : ReadRun) : List VictimOut :=
  match k.pipeFd with
  | none => [.perror "failed to create the pipe", .exit 1]
  | some fd =>
    [.print "%d\n" [fd], .coordination "iago_attack_read", .coordination "0"] ++
    if k.ret < 0 then [.perror "read failed", .exit 1]
    else
      .print "读取到 timeout_fd: %d\n" [k.timeoutFd] ::
      ((if k.timeoutFd = 11 then [.print "attack success\n" []]
        else [.print "attack failed\n" []]) ++ [.exit 0])

/- `store` is `buf[len] = '\0'`, `printBuf` prints `buf` up to its first NUL. -/
inductive ReadlinkOut where
  | out (o : VictimOut)
  | store (index : ℤ)
  | printBuf (format : String)

/- `readlink_demo_iago.c:47-74`, `len` being what readlink has returned. -/
def mainReadlink (len : ℤ) : List ReadlinkOut :=
  [.out (.print "Symbolic link created: /proc/self -> /etc_passwd\n" []),
    .out (.coordination "iago_attack_readlink")] ++
  (if len = -1 then [.out (.perror "readlink")] else []) ++
  .out (.print "len = %d\n" [len]) ::
  if len ≥ 20 then
    [.out (.coordination "0"), .out (.print "attack successed\n" []), .out (.exit 0)]
  else
    [.store len, .printBuf "Symbolic link content: %s\n", .out (.coordination "0"), .out (.exit 0)]

/- `epfd`, `pipeRet` and `ctlRet` are what epoll_create1, pipe and epoll_ctl return, `n` what
epoll_wait returns, with the memory it leaves. -/
structure EpollRun where
  epfd : ℤ
  pipeRet : Fin 3 → ℤ
  ctlRet : Fin 3 → ℤ
  n : ℤ
  mem : Memory
  ev : FdEvents

/- The loop over the pipes, and what follows it. -/
def setUpPipes (k : EpollRun) : List (Fin 3) → List VictimOut
  | [] => .coordination "iago_attack_epoll_wait" :: afterEpollWait k.mem k.ev k.n
  | i :: rest =>
    if k.pipeRet i = -1 then [.perror "pipe failed", .exit 1]
    else if k.ctlRet i = -1 then [.perror "epoll_ctl failed", .exit 1]
    else setUpPipes k rest

/- `epoll_wait_demo_iago.c:82-159`. -/
def mainEpollWait (k : EpollRun) : List VictimOut :=
  if k.epfd = -1 then [.perror "epoll_create1 failed", .exit 1]
  else setUpPipes k (List.finRange 3)

inductive DemoRun where
  | read (k : ReadRun)
  | readlink (len : ℤ)
  | fstat (k : Verdict.DemoRun)
  | epollWait (k : EpollRun)

def VictimOut.coordinated : VictimOut → Option Text
  | .coordination data => some data.toList
  | _ => none

def ReadlinkOut.coordinated : ReadlinkOut → Option Text
  | .out o => VictimOut.coordinated o
  | _ => none

def statCoordinated : Verdict.Out → Option Text
  | .coordination data => some data.toList
  | _ => none

namespace DemoRun

/- The strings a run passes to write_coordination_file. -/
def strings : DemoRun → List Text
  | read k => (mainRead k).filterMap VictimOut.coordinated
  | readlink len => (mainReadlink len).filterMap ReadlinkOut.coordinated
  | fstat k => (Verdict.mainDemo k).filterMap statCoordinated
  | epollWait k => (mainEpollWait k).filterMap VictimOut.coordinated

def script : DemoRun → Poller
  | read _ => Poller.read
  | readlink _ => Poller.readlink
  | fstat _ => Poller.fstat
  | epollWait _ => Poller.epollWait

/- It gets as far as its command. -/
def starts : DemoRun → Prop
  | read k => k.pipeFd ≠ none
  | readlink _ => True
  | fstat k => 0 ≤ k.fd
  | epollWait k => k.epfd ≠ -1 ∧ ∀ i, k.pipeRet i ≠ -1 ∧ k.ctlRet i ≠ -1

/- The call it is about fails, and it ends there. -/
def givesUp : DemoRun → Prop
  | read _ => False
  | readlink _ => False
  | fstat k => k.statRet < 0
  | epollWait k => k.n = -1

instance : ∀ r : DemoRun, Decidable r.starts
  | read _ => inferInstanceAs (Decidable (_ ≠ _))
  | readlink _ => .isTrue trivial
  | fstat _ => inferInstanceAs (Decidable (_ ≤ _))
  | epollWait _ => inferInstanceAs (Decidable (_ ∧ _))

instance : ∀ r : DemoRun, Decidable r.givesUp
  | read _ => .isFalse id
  | readlink _ => .isFalse id
  | fstat _ => inferInstanceAs (Decidable (_ < _))
  | epollWait _ => inferInstanceAs (Decidable (_ = _))

end DemoRun

/-! ### The strings of a run -/

theorem eventLoop_coordinated (mem : Memory) (ev : FdEvents) (left : ℕ) (ndx : ℕ) :
    (eventLoop mem ev ndx left).filterMap VictimOut.coordinated = [] := by
  induction left generalizing ndx with
  | zero => rfl
  | succ left ih =>
    have hget : ∀ fd, (fdeventGetHandler mem ev fd).1.filterMap VictimOut.coordinated = [] := by
      intro fd
      unfold fdeventGetHandler
      split
      · rfl
      · split
        · rfl
        · split <;> rfl
    rw [eventLoop]
    simp only [List.filterMap_cons, VictimOut.coordinated, List.filterMap_append, hget,
      List.nil_append]
    split
    · rfl
    · split
      · simp only [List.filterMap_cons, VictimOut.coordinated, ih]
      · rfl

/- What a run writes that does not stop before its command. -/
def afterStart (r : DemoRun) : List Text :=
  if r.givesUp then [r.script.command] else [r.script.command, off]

theorem setUpPipes_coordinated (k : EpollRun) (is : List (Fin 3)) :
    (setUpPipes k is).filterMap VictimOut.coordinated =
      if ∀ i ∈ is, k.pipeRet i ≠ -1 ∧ k.ctlRet i ≠ -1 then afterStart (.epollWait k) else [] := by
  induction is with
  | nil =>
    rw [setUpPipes, if_pos (fun i hi => absurd hi List.not_mem_nil), afterEpollWait, afterStart]
    by_cases hn : k.n = -1
    · rw [if_pos hn, if_pos (show DemoRun.givesUp (.epollWait k) from hn)]
      rfl
    · rw [if_neg hn, if_neg (show ¬ DemoRun.givesUp (.epollWait k) from hn)]
      simp only [List.filterMap_cons, VictimOut.coordinated, eventLoop_coordinated]
      rfl
  | cons i is ih =>
    rw [setUpPipes]
    by_cases hp : k.pipeRet i = -1
    · rw [if_pos hp, if_neg (fun hall => (hall i (List.mem_cons_self ..)).1 hp)]
      rfl
    · rw [if_neg hp]
      by_cases hc : k.ctlRet i = -1
      · rw [if_pos hc, if_neg (fun hall => (hall i (List.mem_cons_self ..)).2 hc)]
        rfl
      · rw [if_neg hc, ih]
        simp only [List.forall_mem_cons, ne_eq, hp, hc, not_false_eq_true, and_self, true_and]

theorem strings_eq (r : DemoRun) : r.strings = if r.starts then afterStart r else [] := by
  cases r with
  | read k =>
    cases hfd : k.pipeFd with
    | none =>
      rw [if_neg (fun h => h hfd), DemoRun.strings, mainRead, hfd]
      rfl
    | some fd =>
      have hstarts : DemoRun.starts (.read k) := by
        rw [DemoRun.starts, hfd]
        exact Option.some_ne_none fd
      rw [if_pos hstarts, DemoRun.strings, mainRead, hfd]
      dsimp only
      split
      · rfl
      · split <;> rfl
  | readlink len =>
    rw [if_pos (show DemoRun.starts (.readlink len) from trivial), DemoRun.strings, mainReadlink]
    split <;> split <;> rfl
  | fstat k =>
    by_cases hfd : k.fd < 0
    · rw [if_neg (show ¬ DemoRun.starts (.fstat k) from not_le.mpr hfd), DemoRun.strings,
        Verdict.mainDemo, if_pos hfd]
      rfl
    · rw [if_pos (show DemoRun.starts (.fstat k) from not_lt.mp hfd), DemoRun.strings,
        Verdict.mainDemo, if_neg hfd, afterStart]
      by_cases hret : k.statRet < 0
      · rw [if_pos hret, if_pos (show DemoRun.givesUp (.fstat k) from hret)]
        rfl
      · rw [if_neg hret, if_neg (show ¬ DemoRun.givesUp (.fstat k) from hret)]
        cases k.mapped with
        | none => rfl
        | some cache =>
          have hcheck : (Verdict.checkCache k cache).filterMap statCoordinated = [] := by
            unfold Verdict.checkCache
            dsimp only
            split
            · rfl
            · split <;> rfl
          simp only [List.filterMap_cons, statCoordinated, List.filterMap_append, hcheck]
          rfl
  | epollWait k =>
    rw [DemoRun.strings, mainEpollWait]
    by_cases hcreate : k.epfd = -1
    · rw [if_pos hcreate, if_neg (fun h => h.1 hcreate)]
      rfl
    · rw [if_neg hcreate, setUpPipes_coordinated]
      refine if_congr ?_ rfl rfl
      simp [DemoRun.starts, hcreate]

/-! ### The last string -/

theorem afterStart_getLast? (r : DemoRun) :
    (afterStart r).getLast? = some (if r.givesUp then r.script.command else off) := by
  unfold afterStart
  split <;> rfl

/- The last run that has got as far as its command. -/
def lastStarted (runs : List DemoRun) : Option DemoRun :=
  (runs.filter fun r => r.starts).getLast?

theorem lastStarted_snoc (runs : List DemoRun) (r : DemoRun) :
    lastStarted (runs ++ [r]) = if r.starts then some r else lastStarted runs := by
  rw [lastStarted, List.filter_append]
  by_cases hr : r.starts
  · have hone : List.filter (fun r : DemoRun => r.starts) [r] = [r] := by simp [hr]
    rw [if_pos hr, hone, List.getLast?_concat]
  · have hnone : List.filter (fun r : DemoRun => r.starts) [r] = [] := by simp [hr]
    rw [if_neg hr, hnone, List.append_nil, lastStarted]

/- The string behind which the runs leave the file. -/
def lastString (runs : List DemoRun) : Text :=
  match lastStarted runs with
  | none => off
  | some r => if r.givesUp then r.script.command else off

theorem getLast?_strings (runs : List DemoRun) :
    (off :: runs.flatMap DemoRun.strings).getLast? = some (lastString runs) := by
  induction runs using List.reverseRecOn with
  | nil => rfl
  | append_singleton runs r ih =>
    rw [List.flatMap_append, List.flatMap_singleton, ← List.cons_append, List.getLast?_append, ih,
      strings_eq]
    unfold lastString
    rw [lastStarted_snoc]
    by_cases hr : r.starts
    · rw [if_pos hr, if_pos hr, afterStart_getLast?, Option.some_or]
    · rw [if_neg hr, if_neg hr]
      rfl

/- A demo has ended in a way that leaves its command in the file, and none after it has
written a string. -/
def LeftArmed (runs : List DemoRun) (c : Poller) : Prop :=
  ∃ r, lastStarted runs = some r ∧ r.script = c ∧ r.givesUp

theorem script_mem (r : DemoRun) : r.script ∈ pollers := by
  have hall : [Poller.read, Poller.readlink, Poller.fstat, Poller.epollWait] ⊆ pollers := by decide
  cases r <;> exact hall (by simp [DemoRun.script])

theorem command_inj {c d : Poller} (hc : c ∈ pollers) (hd : d ∈ pollers)
    (h : c.command = d.command) : c = d := by
  have hall : ∀ c ∈ pollers, ∀ d ∈ pollers, c.command = d.command → c = d := by decide
  exact hall c hc d hd h

theorem lastString_eq_command (runs : List DemoRun) {c : Poller} (hc : c ∈ pollers) :
    lastString runs = c.command ↔ LeftArmed runs c := by
  have hoff : off ≠ c.command := by
    have hall : ∀ c ∈ pollers, off ≠ c.command := by decide
    exact hall c hc
  unfold lastString LeftArmed
  cases lastStarted runs with
  | none => simp [hoff]
  | some r =>
    dsimp only
    by_cases hr : r.givesUp
    · rw [if_pos hr]
      constructor
      · exact fun h => ⟨r, rfl, command_inj (script_mem r) hc h, hr⟩
      · rintro ⟨q, hq, rfl, -⟩
        cases hq
        rfl
    · rw [if_neg hr]
      refine iff_of_false hoff ?_
      rintro ⟨q, hq, -, hgives⟩
      cases hq
      exact hr hgives

/-! ### Behind the last run -/

theorem strings_published (runs : List DemoRun) :
    ∀ data ∈ runs.flatMap DemoRun.strings, data ∈ Scripts.strings := by
  intro data hdata
  obtain ⟨r, -, hr⟩ := List.mem_flatMap.mp hdata
  have hcommand : r.script.command ∈ Scripts.strings :=
    List.mem_cons_of_mem _ (List.mem_map_of_mem (script_mem r))
  rw [strings_eq] at hr
  split at hr
  · unfold afterStart at hr
    split at hr
    · rw [List.mem_singleton.mp hr]
      exact hcommand
    · rcases List.mem_cons.mp hr with rfl | hoff
      · exact hcommand
      · rw [List.mem_singleton.mp hoff]
        exact List.mem_cons_self ..
  · cases hr

/- The strings are written in their order. -/
def InOrder (old : Text) (all : List Text) (s : Scripts.State) : Prop :=
  ∃ done, done ++ s.todo = all ∧ Scripts.current s.writer = (old :: done).getLast?

theorem inOrder_step {old : Text} {all : List Text} {s t : Scripts.State} {a : Scripts.Act}
    (hs : InOrder old all s) (h : Scripts.step s a = some t) : InOrder old all t := by
  obtain ⟨done, hall, hcurrent⟩ := hs
  cases Scripts.steps_of_step h with
  | @opens data rest htodo hphase =>
    refine ⟨done ++ [data], ?_, ?_⟩
    · rw [List.append_assoc, ← hall, htodo]
      rfl
    · rw [← List.cons_append, List.getLast?_concat]
      rfl
  | event hphase =>
    refine ⟨done, hall, ?_⟩
    rw [← hcurrent, Scripts.current, Scripts.current, hphase]
  | stores hphase =>
    refine ⟨done, hall, ?_⟩
    rw [← hcurrent, Scripts.current, Scripts.current, hphase]
    dsimp only
    split_ifs <;> rfl
  | poll hc => exact ⟨done, hall, hcurrent⟩

/-- Once the last demo has ended, a script that polls the file has its probes installed
exactly if the last demo that got as far as a command was its own and gave up behind it:
fstat_demo_iago.c after a failed fstat, epoll_wait_demo_iago.c after a failed epoll_wait,
and no other. Until another demo is run it attacks every program of the cgroup. -/
theorem demos_leave (runs : List DemoRun) (as : List Scripts.Act) (s t : Scripts.State)
    (hrun : run Scripts.step (Scripts.start off (runs.flatMap DemoRun.strings)) as = some s)
    (hdone : s.todo = []) (hidle : s.writer.phase = .idle) (c : Poller)
    (hpoll : Scripts.step s (.poll c) = some t) :
    ∃ p, t.controllers c = some p ∧ p.installed = (if p.attached then c.probes else ∅) ∧
      (p.attached = true ↔ LeftArmed runs c) := by
  have hoff : off ∈ Scripts.leftovers := by decide
  have hs := Scripts.reached_run hoff (strings_published runs) hrun
  obtain ⟨done, hall, hcurrent⟩ : InOrder off (runs.flatMap DemoRun.strings) s :=
    run_invariant Scripts.step (fun _ _ _ hI hst => inOrder_step hI hst) ⟨[], rfl, rfl⟩ hrun
  rw [hdone, List.append_nil] at hall
  rw [hall, getLast?_strings] at hcurrent
  obtain ⟨hcommand, hsettled⟩ := Scripts.poll_settles hs hpoll
  have hc : c ∈ pollers := by
    cases Scripts.steps_of_step hpoll with
    | poll hc => exact hc
  refine ⟨_, hsettled, rfl, ?_⟩
  rw [← lastString_eq_command runs hc]
  show decide (s.content = encodeUtf8 c.command) = true ↔ _
  rw [decide_eq_true_iff]
  have hlast : s.writer.last = some (lastString runs) := by
    rw [← hcurrent, Scripts.current, hidle]
  have hwriter : s.writer = ⟨.idle, some (lastString runs)⟩ := by
    rw [← hidle, ← hlast]
  rw [Scripts.content_of_idle hs.holds hwriter, encodeUtf8_inj]

/- fstat fails in its demo, and then the demo of read cannot make its pipe. -/
def failedRuns : List DemoRun :=
  [.readlink 4, .fstat ⟨3, -1, 0, none, []⟩, .read ⟨none, 0, 0⟩]

def failedActs : List Scripts.Act :=
  [Poller.readlink.command, off, Poller.fstat.command].flatMap Scripts.writes

theorem demos_leave_fstat :
    ∃ s t, run Scripts.step (Scripts.start off (failedRuns.flatMap DemoRun.strings)) failedActs =
        some s ∧
      Scripts.step s (.poll Poller.fstat) = some t ∧
      ∃ p, t.controllers Poller.fstat = some p ∧
        p.installed = (if p.attached then Poller.fstat.probes else ∅) ∧
        (p.attached = true ↔ LeftArmed failedRuns Poller.fstat) := by
  have hview : (run Scripts.step (Scripts.start off (failedRuns.flatMap DemoRun.strings))
      failedActs).map (fun s => (s.todo, s.writer.phase)) = some ([], .idle) := by decide
  obtain ⟨s, hs, hend⟩ := Option.map_eq_some_iff.mp hview
  obtain ⟨hdone, hidle⟩ := Prod.mk.inj hend
  have hmem : Poller.fstat ∈ pollers := by decide
  have hpoll : (Scripts.step s (.poll Poller.fstat)).isSome = true := by
    rw [Scripts.step, if_pos hmem]
    rfl
  obtain ⟨t, ht⟩ := Option.isSome_iff_exists.mp hpoll
  exact ⟨s, t, hs, ht, demos_leave failedRuns _ s t hs hdone hidle Poller.fstat ht⟩

end Tbouncer.Attack.Demos
