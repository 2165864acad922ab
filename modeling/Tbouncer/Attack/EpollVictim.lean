import Tbouncer.Attack.UserMemory

/-!
# The victim of the epoll_wait attack

epoll_wait_demo_iago.c from the return of epoll_wait on, as a function of its memory. In
the victim struct epoll_event is packed: 12 bytes, data at offset 4.
-/

namespace Tbouncer.Attack
open Base Bpf Isolation ByteMemory

/- The fields of fdevents that are read after epoll_wait. -/
structure FdEvents where
  epollEvents : Addr
  fdarray : Addr
  deriving DecidableEq

/- `call` is a call of a handler, with the int its context points to; `cleanup` is what
follows the label. -/
inductive VictimOut where
  | coordination (data : String)
  | print (format : String) (args : List Int)
  | err (format : String) (args : List Int)
  | perror (s : String)
  | call (handler : Addr) (context revents : BitVec 32)
  | exit (status : ℕ)
  | cleanup
  deriving DecidableEq

section
variable (mem : Memory) (ev : FdEvents)

/- &ev.epoll_events[ndx] and its data. -/
def packedAt (events : Addr) (ndx : ℕ) : Addr := events + BitVec.ofNat 64 (12 * ndx)
def packedDataAt (events : Addr) (ndx : ℕ) : Addr := packedAt events ndx + 4

def eventEvents (ndx : ℕ) : BitVec 32 := loadInt mem (packedAt ev.epollEvents ndx)
def eventFd (ndx : ℕ) : BitVec 32 := loadInt mem (packedDataAt ev.epollEvents ndx)

/- ev->fdarray[fd], a pointer to an fdnode: fd at offset 0, handler at offset 8. -/
def fdarrayAt (fd : BitVec 32) : Addr := loadLong mem (ev.fdarray + fd.signExtend 64 * 8)
def nodeFd (node : Addr) : BitVec 32 := loadInt mem node
def nodeHandler (node : Addr) : Addr := loadLong mem (node + 8)

/- What it prints and the handler it returns, none if it exits. -/
def fdeventGetHandler (fd : BitVec 32) : List VictimOut × Option Addr :=
  if fdarrayAt mem ev fd = 0 then
    ([.err "ERROR: FD %d not in fdarray\n" [fd.toInt], .exit 1], none)
  else if nodeFd mem (fdarrayAt mem ev fd) ≠ fd then
    ([.err "ERROR: FD mismatch in fdarray\n" [], .exit 1], none)
  else if fd.toInt < 0 then ([.print "attack successed\n" []], some 0)
  else ([], some (nodeHandler mem (fdarrayAt mem ev fd)))

/- The loop from event `ndx` on, `left` of them being left. A handler only prints
(`epoll_wait_demo_iago.c:61-63`), so the memory is the same after it. -/
def eventLoop (ndx : ℕ) : ℕ → List VictimOut
  | 0 => [.cleanup]
  | left + 1 =>
    let fd := eventFd mem ev ndx
    .print "Event on FD: %d\n" [fd.toInt] ::
    ((fdeventGetHandler mem ev fd).1 ++
      match (fdeventGetHandler mem ev fd).2 with
      | none => []
      | some handler =>
        if handler ≠ 0 then
          .call handler fd (eventEvents mem ev ndx) :: eventLoop (ndx + 1) left
        else [.cleanup])

/- `epoll_wait_demo_iago.c:124-153`, `n` being what epoll_wait has returned. -/
def afterEpollWait (n : Int) : List VictimOut :=
  if n = -1 then [.perror "epoll_wait failed", .exit 1]
  else .coordination "0" :: eventLoop mem ev 0 n.toNat

end

theorem packed_places (events : Addr) :
    packedDataAt events 0 = events + 4 ∧ packedDataAt events 1 = events + 16 ∧
      packedAt events 2 = events + 24 := by
  rw [packedDataAt, packedDataAt, packedAt, packedAt, packedAt]
  refine ⟨?_, ?_, ?_⟩ <;> grind

/- The offsets the entry hook corrects by hand make up for the struct it has, which is
not packed. -/
theorem addrsOf_packed (events : Addr) :
    (addrsOf events).event0Fd = packedDataAt events 0 ∧
      (addrsOf events).event1Ptr = packedDataAt events 1 ∧
      (addrsOf events).event2 = packedAt events 2 := by
  obtain ⟨hfd, hptr, hnode⟩ := packed_places events
  rw [addrsOf_eq, hfd, hptr, hnode]
  exact ⟨rfl, rfl, rfl⟩

/- The three writes for the buffer at `events`. -/
def poisoned (mem : Memory) (events : Addr) : Memory :=
  store (store (store mem (events + 4) newFd) (events + 16) (leBytes 8 (events + 24).toNat))
    (events + 24) newFd

section
variable (mem : Memory) (events : Addr)

theorem exit_poisons {target : CgroupId} {rc : BitVec 64} {addrsPoc : BpfHash AddrsY}
    (h : addrsPoc key = some (addrsOf events)) :
    (syscallTraceExitEpollWait target target rc addrsPoc).foldl writeUser mem =
      poisoned mem events := by
  simp only [syscallTraceExitEpollWait, compareCgroupId_self, Bool.not_true, Bool.false_eq_true,
    if_false, h, addrsOf_eq]
  rfl

/- No later write touches what an earlier one has put. -/
theorem poisoned_fd : loadInt (poisoned mem events) (events + 4) = -14 := by
  rw [poisoned, newFd, loadInt_field _ _ _ (by decide), loadInt_field _ _ _ (by decide),
    loadInt_store]
  rfl

theorem poisoned_ptr : loadLong (poisoned mem events) (events + 16) = events + 24 := by
  rw [poisoned, newFd, loadLong_field _ _ _ (by decide), loadLong_store]

theorem poisoned_node : loadInt (poisoned mem events) (events + 24) = -14 := by
  rw [poisoned, newFd, loadInt_store]
  rfl

end

/-! ### What the victim does with it -/

theorem fd_toInt : (-14 : BitVec 32).toInt = -14 := by decide

section
variable (mem : Memory) (ev : FdEvents)

theorem eventFd_poisoned : eventFd (poisoned mem ev.epollEvents) ev 0 = -14 := by
  rw [eventFd, (packed_places ev.epollEvents).1, poisoned_fd]

theorem nodeFd_poisoned : nodeFd (poisoned mem ev.epollEvents) (ev.epollEvents + 24) = -14 := by
  rw [nodeFd, poisoned_node]

variable {ev}
variable (hfdarray : ev.fdarray = ev.epollEvents + 128)
include hfdarray

/- 128 - 14 * 8 = 16: the entry is the data of the second event. -/
theorem fdarrayAt_poisoned :
    fdarrayAt (poisoned mem ev.epollEvents) ev (-14) = ev.epollEvents + 24 := by
  have hindex : (-14 : BitVec 32).signExtend 64 * 8 = -112 := by decide
  have hplace : ev.fdarray + (-14 : BitVec 32).signExtend 64 * 8 = ev.epollEvents + 16 := by
    rw [hfdarray, hindex]
    grind
  rw [fdarrayAt, hplace, poisoned_ptr]

variable (hnode : ev.epollEvents + 24 ≠ 0)
include hnode

theorem getHandler_poisoned :
    fdeventGetHandler (poisoned mem ev.epollEvents) ev (-14) =
      ([.print "attack successed\n" []], some 0) := by
  rw [fdeventGetHandler, fdarrayAt_poisoned mem hfdarray, if_neg hnode, nodeFd_poisoned,
    if_neg (fun h => h rfl), fd_toInt, if_pos (by omega)]

/- Whatever the other events are, the first one ends the loop. -/
theorem afterEpollWait_poisoned {n : Int} (hn : 1 ≤ n) :
    afterEpollWait (poisoned mem ev.epollEvents) ev n =
      [.coordination "0", .print "Event on FD: %d\n" [-14], .print "attack successed\n" [],
        .cleanup] := by
  obtain ⟨left, hleft⟩ : ∃ left, n.toNat = left + 1 := ⟨n.toNat - 1, by omega⟩
  rw [afterEpollWait, if_neg (by omega), hleft, eventLoop, eventFd_poisoned,
    getHandler_poisoned mem hfdarray hnode, fd_toInt]
  rfl

end

/-- The first fd the victim reads is -14, its entry in fdarray is the third event, which
holds -14 too, and the lookup leaves through the branch for a negative fd. -/
theorem epoll_attack_reaches_lookup (target : CgroupId) (args : EpollArgs)
    (before addrsPoc : BpfHash AddrsY) (rc : BitVec 64) (mem : Memory) (ev : FdEvents)
    (hevents : args.events = ev.epollEvents) (hfdarray : ev.fdarray = ev.epollEvents + 128)
    (hnode : ev.epollEvents + 24 ≠ 0)
    (hrecorded : addrsPoc key = syscallTraceEntryEpollWait target target args before key)
    (hn : 1 ≤ retOf rc) :
    let after := (syscallTraceExitEpollWait target target rc addrsPoc).foldl writeUser mem
    eventFd after ev 0 = -14 ∧ fdarrayAt after ev (-14) = ev.epollEvents + 24 ∧
      nodeFd after (ev.epollEvents + 24) = -14 ∧
      fdeventGetHandler after ev (-14) = ([.print "attack successed\n" []], some 0) ∧
      afterEpollWait after ev (retOf rc) =
        [.coordination "0", .print "Event on FD: %d\n" [-14], .print "attack successed\n" [],
          .cleanup] := by
  have hslot : addrsPoc key = some (addrsOf ev.epollEvents) := by
    rw [hrecorded, syscallTraceEntryEpollWait, compareCgroupId_self, Bool.not_true,
      if_neg Bool.false_ne_true, BpfHash.update_same, hevents]
  intro after
  have hafter : after = poisoned mem ev.epollEvents := exit_poisons mem ev.epollEvents hslot
  rw [hafter]
  exact ⟨eventFd_poisoned mem ev, fdarrayAt_poisoned mem hfdarray, nodeFd_poisoned mem ev,
    getHandler_poisoned mem hfdarray hnode, afterEpollWait_poisoned mem hfdarray hnode hn⟩

/- The victim's own layout, and three pipes that are ready. -/
theorem epoll_attack_reaches_lookup_demo :
    let ev : FdEvents := ⟨0x5555555592a0, 0x555555559320⟩
    let before := syscallTraceEntryEpollWait 27724 27724 ⟨3, 0x5555555592a0⟩ BpfHash.empty
    let after := (syscallTraceExitEpollWait 27724 27724 3 before).foldl writeUser fun _ => 0
    eventFd after ev 0 = -14 ∧ fdarrayAt after ev (-14) = 0x5555555592a0 + 24 ∧
      nodeFd after (0x5555555592a0 + 24) = -14 ∧
      fdeventGetHandler after ev (-14) = ([.print "attack successed\n" []], some 0) ∧
      afterEpollWait after ev 3 =
        [.coordination "0", .print "Event on FD: %d\n" [-14], .print "attack successed\n" [],
          .cleanup] :=
  epoll_attack_reaches_lookup 27724 ⟨3, 0x5555555592a0⟩ BpfHash.empty _ 3 (fun _ => 0)
    ⟨0x5555555592a0, 0x555555559320⟩ rfl (by decide) (by decide) rfl (by decide)

end Tbouncer.Attack
