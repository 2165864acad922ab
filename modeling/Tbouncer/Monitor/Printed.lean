import Tbouncer.Base.TextLines
import Tbouncer.Monitor.Whole

/-!
# The lines handle_event prints

`PID: ..., Comm: ..., Syscall_name: ..., Syscall: ...` (`syscall_monitor.py:443-444`). The
name is looked up in a table that ends with system call 334; the number is printed beside
it. The lines of a window tell which calls were made in it.
-/

namespace Tbouncer.Monitor.Printed
open Base Switch Watch

/- `syscall_names` (`syscall_monitor.py:66-402`); its values are bytes. -/
def syscallNames : List (ℕ × String) :=
  [(0, "read"), (1, "write"), (2, "open"), (3, "close"), (4, "stat"), (5, "fstat"),
    (6, "lstat"), (7, "poll"), (8, "lseek"), (9, "mmap"), (10, "mprotect"), (11, "munmap"),
    (12, "brk"), (13, "rt_sigaction"), (14, "rt_sigprocmask"), (15, "rt_sigreturn"),
    (16, "ioctl"), (17, "pread64"), (18, "pwrite64"), (19, "readv"), (20, "writev"),
    (21, "access"), (22, "pipe"), (23, "select"), (24, "sched_yield"), (25, "mremap"),
    (26, "msync"), (27, "mincore"), (28, "madvise"), (29, "shmget"), (30, "shmat"),
    (31, "shmctl"), (32, "dup"), (33, "dup2"), (34, "pause"), (35, "nanosleep"),
    (36, "getitimer"), (37, "alarm"), (38, "setitimer"), (39, "getpid"), (40, "sendfile"),
    (41, "socket"), (42, "connect"), (43, "accept"), (44, "sendto"), (45, "recvfrom"),
    (46, "sendmsg"), (47, "recvmsg"), (48, "shutdown"), (49, "bind"), (50, "listen"),
    (51, "getsockname"), (52, "getpeername"), (53, "socketpair"), (54, "setsockopt"),
    (55, "getsockopt"), (56, "clone"), (57, "fork"), (58, "vfork"), (59, "execve"), (60, "exit"),
    (61, "wait4"), (62, "kill"), (63, "uname"), (64, "semget"), (65, "semop"), (66, "semctl"),
    (67, "shmdt"), (68, "msgget"), (69, "msgsnd"), (70, "msgrcv"), (71, "msgctl"), (72, "fcntl"),
    (73, "flock"), (74, "fsync"), (75, "fdatasync"), (76, "truncate"), (77, "ftruncate"),
    (78, "getdents"), (79, "getcwd"), (80, "chdir"), (81, "fchdir"), (82, "rename"),
    (83, "mkdir"), (84, "rmdir"), (85, "creat"), (86, "link"), (87, "unlink"), (88, "symlink"),
    (89, "readlink"), (90, "chmod"), (91, "fchmod"), (92, "chown"), (93, "fchown"),
    (94, "lchown"), (95, "umask"), (96, "gettimeofday"), (97, "getrlimit"), (98, "getrusage"),
    (99, "sysinfo"), (100, "times"), (101, "ptrace"), (102, "getuid"), (103, "syslog"),
    (104, "getgid"), (105, "setuid"), (106, "setgid"), (107, "geteuid"), (108, "getegid"),
    (109, "setpgid"), (110, "getppid"), (111, "getpgrp"), (112, "setsid"), (113, "setreuid"),
    (114, "setregid"), (115, "getgroups"), (116, "setgroups"), (117, "setresuid"),
    (118, "getresuid"), (119, "setresgid"), (120, "getresgid"), (121, "getpgid"),
    (122, "setfsuid"), (123, "setfsgid"), (124, "getsid"), (125, "capget"), (126, "capset"),
    (127, "rt_sigpending"), (128, "rt_sigtimedwait"), (129, "rt_sigqueueinfo"),
    (130, "rt_sigsuspend"), (131, "sigaltstack"), (132, "utime"), (133, "mknod"),
    (134, "uselib"), (135, "personality"), (136, "ustat"), (137, "statfs"), (138, "fstatfs"),
    (139, "sysfs"), (140, "getpriority"), (141, "setpriority"), (142, "sched_setparam"),
    (143, "sched_getparam"), (144, "sched_setscheduler"), (145, "sched_getscheduler"),
    (146, "sched_get_priority_max"), (147, "sched_get_priority_min"),
    (148, "sched_rr_get_interval"), (149, "mlock"), (150, "munlock"), (151, "mlockall"),
    (152, "munlockall"), (153, "vhangup"), (154, "modify_ldt"), (155, "pivot_root"),
    (156, "_sysctl"), (157, "prctl"), (158, "arch_prctl"), (159, "adjtimex"), (160, "setrlimit"),
    (161, "chroot"), (162, "sync"), (163, "acct"), (164, "settimeofday"), (165, "mount"),
    (166, "umount2"), (167, "swapon"), (168, "swapoff"), (169, "reboot"), (170, "sethostname"),
    (171, "setdomainname"), (172, "iopl"), (173, "ioperm"), (174, "create_module"),
    (175, "init_module"), (176, "delete_module"), (177, "get_kernel_syms"),
    (178, "query_module"), (179, "quotactl"), (180, "nfsservctl"), (181, "getpmsg"),
    (182, "putpmsg"), (183, "afs_syscall"), (184, "tuxcall"), (185, "security"), (186, "gettid"),
    (187, "readahead"), (188, "setxattr"), (189, "lsetxattr"), (190, "fsetxattr"),
    (191, "getxattr"), (192, "lgetxattr"), (193, "fgetxattr"), (194, "listxattr"),
    (195, "llistxattr"), (196, "flistxattr"), (197, "removexattr"), (198, "lremovexattr"),
    (199, "fremovexattr"), (200, "tkill"), (201, "time"), (202, "futex"),
    (203, "sched_setaffinity"), (204, "sched_getaffinity"), (205, "set_thread_area"),
    (206, "io_setup"), (207, "io_destroy"), (208, "io_getevents"), (209, "io_submit"),
    (210, "io_cancel"), (211, "get_thread_area"), (212, "lookup_dcookie"), (213, "epoll_create"),
    (214, "epoll_ctl_old"), (215, "epoll_wait_old"), (216, "remap_file_pages"),
    (217, "getdents64"), (218, "set_tid_address"), (219, "restart_syscall"), (220, "semtimedop"),
    (221, "fadvise64"), (222, "timer_create"), (223, "timer_settime"), (224, "timer_gettime"),
    (225, "timer_getoverrun"), (226, "timer_delete"), (227, "clock_settime"),
    (228, "clock_gettime"), (229, "clock_getres"), (230, "clock_nanosleep"), (231, "exit_group"),
    (232, "epoll_wait"), (233, "epoll_ctl"), (234, "tgkill"), (235, "utimes"), (236, "vserver"),
    (237, "mbind"), (238, "set_mempolicy"), (239, "get_mempolicy"), (240, "mq_open"),
    (241, "mq_unlink"), (242, "mq_timedsend"), (243, "mq_timedreceive"), (244, "mq_notify"),
    (245, "mq_getsetattr"), (246, "kexec_load"), (247, "waitid"), (248, "add_key"),
    (249, "request_key"), (250, "keyctl"), (251, "ioprio_set"), (252, "ioprio_get"),
    (253, "inotify_init"), (254, "inotify_add_watch"), (255, "inotify_rm_watch"),
    (256, "migrate_pages"), (257, "openat"), (258, "mkdirat"), (259, "mknodat"),
    (260, "fchownat"), (261, "futimesat"), (262, "newfstatat"), (263, "unlinkat"),
    (264, "renameat"), (265, "linkat"), (266, "symlinkat"), (267, "readlinkat"),
    (268, "fchmodat"), (269, "faccessat"), (270, "pselect6"), (271, "ppoll"), (272, "unshare"),
    (273, "set_robust_list"), (274, "get_robust_list"), (275, "splice"), (276, "tee"),
    (277, "sync_file_range"), (278, "vmsplice"), (279, "move_pages"), (280, "utimensat"),
    (281, "epoll_pwait"), (282, "signalfd"), (283, "timerfd_create"), (284, "eventfd"),
    (285, "fallocate"), (286, "timerfd_settime"), (287, "timerfd_gettime"), (288, "accept4"),
    (289, "signalfd4"), (290, "eventfd2"), (291, "epoll_create1"), (292, "dup3"), (293, "pipe2"),
    (294, "inotify_init1"), (295, "preadv"), (296, "pwritev"), (297, "rt_tgsigqueueinfo"),
    (298, "perf_event_open"), (299, "recvmmsg"), (300, "fanotify_init"), (301, "fanotify_mark"),
    (302, "prlimit64"), (303, "name_to_handle_at"), (304, "open_by_handle_at"),
    (305, "clock_adjtime"), (306, "syncfs"), (307, "sendmmsg"), (308, "setns"), (309, "getcpu"),
    (310, "process_vm_readv"), (311, "process_vm_writev"), (312, "kcmp"), (313, "finit_module"),
    (314, "sched_setattr"), (315, "sched_getattr"), (316, "renameat2"), (317, "seccomp"),
    (318, "getrandom"), (319, "memfd_create"), (320, "kexec_file_load"), (321, "bpf"),
    (322, "execveat"), (323, "userfaultfd"), (324, "membarrier"), (325, "mlock2"),
    (326, "copy_file_range"), (327, "preadv2"), (328, "pwritev2"), (329, "pkey_mprotect"),
    (330, "pkey_alloc"), (331, "pkey_free"), (332, "statx"), (333, "io_pgetevents"),
    (334, "rseq")]

/- `syscall_names.get(event.syscall_id, "unknown")` in an f-string: bytes are shown as b'..'. -/
def syscallName (id : ℕ) : Text :=
  match syscallNames.lookup id with
  | some name => "b'".toList ++ (name.toList ++ "'".toList)
  | none => "unknown".toList

/- An int in an f-string. -/
def decimal (n : ℕ) : Text := Nat.toDigits 10 n

/- `syscall_monitor.py:444`. The tracepoint leaves event.comm zero, so that it decodes to the
empty string. -/
def line (d : Data) : Text :=
  "PID: ".toList ++ (decimal d.pid.toNat ++ (", Comm: , Syscall_name: ".toList ++
    (syscallName d.syscallId.toNat ++ (", Syscall: ".toList ++
      (decimal d.syscallId.toNat ++ "\n".toList)))))

example : line (dataOf Threads.sampleCall) =
    "PID: 2000, Comm: , Syscall_name: b'accept', Syscall: 43\n".toList := by decide +kernel

/- Every system call up to 334 has a name, and no other. -/
theorem lookup_eq_none_iff (id : ℕ) : syscallNames.lookup id = none ↔ 335 ≤ id := by
  have hkeys : syscallNames.map Prod.fst = List.range 335 := by decide +kernel
  have hmem : id ∈ syscallNames.map Prod.fst ↔ id < 335 := by rw [hkeys, List.mem_range]
  rw [List.lookup_eq_none_iff, ← Nat.not_lt, ← hmem, List.mem_map]
  constructor
  · rintro h ⟨entry, hentry, rfl⟩
    simpa using h entry hentry
  · intro h entry hentry
    rw [bne_iff_ne]
    exact fun heq => h ⟨entry, hentry, heq.symm⟩

/- No name has a line end in it, as its bytes show. -/
theorem newline_not_mem_syscallName (id : ℕ) : '\n' ∉ syscallName id := by
  have hbytes : (syscallNames.all fun entry => !entry.2.toByteArray.data.toList.contains 10) =
      true := by decide +kernel
  unfold syscallName
  split
  next name hname =>
    obtain ⟨before, after, htable, -⟩ := List.lookup_eq_some_iff.mp hname
    have hentry : (id, name) ∈ syscallNames := by
      rw [htable]
      exact List.mem_append_right _ (List.mem_cons_self ..)
    have hname : '\n' ∉ name.toList := fun hmem => by
      have henc : encodeUtf8 name.toList = name.toByteArray.data.toList := by
        rw [← String.utf8Encode_toList]
        exact List.toList_data_toByteArray.symm
      have hten : (10 : UInt8) ∈ encodeUtf8 name.toList :=
        List.mem_flatMap.mpr ⟨'\n', hmem, by decide⟩
      have hnone := List.all_eq_true.mp hbytes (id, name) hentry
      rw [henc] at hten
      simp [hten] at hnone
    rw [List.mem_append, List.mem_append, not_or, not_or]
    exact ⟨by decide, hname, by decide⟩
  next => decide

/-! ### A line can be read back -/

/- What `p` holds of in front of the first character it does not hold of. -/
theorem split_at {α : Type} {p : α → Bool} {u v s t : List α} {x y : α} (hu : ∀ a ∈ u, p a = true)
    (hv : ∀ a ∈ v, p a = true) (hx : p x = false) (hy : p y = false)
    (h : u ++ x :: s = v ++ y :: t) : u = v := by
  have hcut := congrArg (List.takeWhile p) h
  rw [List.takeWhile_append_of_pos hu, List.takeWhile_append_of_pos hv,
    List.takeWhile_cons_of_neg (Bool.eq_false_iff.mp hx),
    List.takeWhile_cons_of_neg (Bool.eq_false_iff.mp hy), List.append_nil, List.append_nil] at hcut
  exact hcut

theorem isDigit_decimal (n : ℕ) : ∀ c ∈ decimal n, c.isDigit = true := fun _ hc =>
  Nat.isDigit_of_mem_toDigits (by decide) (by decide) hc

theorem decimal_inj {n m : ℕ} (h : decimal n = decimal m) : n = m := by
  have hvalue := congrArg (fun digits => Nat.ofDigitChars 10 digits 0) h
  simpa [decimal] using hvalue

theorem newline_not_mem_decimal (n : ℕ) : '\n' ∉ decimal n := fun h => by
  have hdigit := isDigit_decimal n _ h
  revert hdigit
  decide

/- What stands in front of the number, and in front of the line end. -/
theorem line_number (d : Data) :
    ∃ s, line d = s ++ ' ' :: (decimal d.syscallId.toNat ++ ['\n']) := by
  refine ⟨"PID: ".toList ++ (decimal d.pid.toNat ++ (", Comm: , Syscall_name: ".toList ++
    (syscallName d.syscallId.toNat ++ ", Syscall:".toList))), ?_⟩
  simp only [line, List.append_assoc]
  rfl

theorem wholeLine_line (d : Data) : WholeLine (line d) := by
  refine ⟨"PID: ".toList ++ (decimal d.pid.toNat ++ (", Comm: , Syscall_name: ".toList ++
    (syscallName d.syscallId.toNat ++ (", Syscall: ".toList ++ decimal d.syscallId.toNat)))), ?_, ?_⟩
  · simp only [line, List.append_assoc]
    rfl
  · simp only [List.mem_append, not_or]
    exact ⟨by decide, newline_not_mem_decimal _, by decide, newline_not_mem_syscallName _,
      by decide, newline_not_mem_decimal _⟩

/- A line tells the process and the number of its call. -/
theorem line_inj {d e : Data} (h : line d = line e) : d.pid = e.pid ∧ d.syscallId = e.syscallId := by
  constructor
  · have hrest := List.append_cancel_left h
    have hpid := split_at (isDigit_decimal _) (isDigit_decimal _) (by decide) (by decide) hrest
    exact BitVec.eq_of_toNat_eq (decimal_inj hpid)
  · obtain ⟨s, hs⟩ := line_number d
    obtain ⟨t, ht⟩ := line_number e
    rw [hs, ht] at h
    -- from behind, the digits end at a blank
    have hback := congrArg List.reverse h
    simp only [List.reverse_append, List.reverse_cons, List.append_assoc, List.reverse_nil,
      List.nil_append, List.cons_append, List.cons.injEq, true_and] at hback
    have hdigits : ∀ n, ∀ c ∈ (decimal n).reverse, c.isDigit = true := fun n c hc =>
      isDigit_decimal n c (List.mem_reverse.mp hc)
    have hid := split_at (hdigits _) (hdigits _) (by decide) (by decide) hback
    exact BitVec.eq_of_toNat_eq (decimal_inj (List.reverse_injective hid))

/- What the text tells of a call. -/
def calls (ds : List Data) : List (BitVec 64 × BitVec 64) := ds.map fun d => (d.pid, d.syscallId)

theorem calls_of_lines {ds es : List Data} (h : ds.map line = es.map line) : calls ds = calls es := by
  induction ds generalizing es with
  | nil =>
    rw [List.map_nil, eq_comm, List.map_eq_nil_iff] at h
    rw [h]
  | cons d ds ih =>
    cases es with
    | nil => cases h
    | cons e es =>
      obtain ⟨hline, hrest⟩ := List.cons.inj h
      obtain ⟨hpid, hid⟩ := line_inj hline
      rw [calls, List.map_cons, hpid, hid, ← calls, ih hrest, calls, calls, List.map_cons]

/- Lines printed one after the other tell all their calls, in order. -/
theorem calls_of_text {ds es : List Data} (h : ds.flatMap line = es.flatMap line) :
    calls ds = calls es := by
  have hlines : ∀ l : List Data, readLines (l.flatMap line) = l.map line := fun l => by
    have hwhole : ∀ x ∈ l.map line, WholeLine x :=
      List.forall_mem_map.mpr fun d _ => wholeLine_line d
    have hread := readLines_flatten_append hwhole []
    rw [List.append_nil, readLines, List.append_nil] at hread
    exact hread
  exact calls_of_lines (by rw [← hlines, ← hlines, h])

/-! ### What a window prints -/

/- What handle_event has printed. -/
def printedText (s : Whole.State) : Text := s.printed.flatMap fun e => line e.data

/- A window: the writer rests behind `data`, a string that switches the monitor on, and
writes nothing until `t`; the perf buffer is empty at both ends. -/
structure Window (content : Bytes) (as : List Whole.Act) (data : Text) (s : Whole.State)
    (during : List Whole.Act) (t : Whole.State) : Prop where
  reached : run Whole.step (Whole.start content) as = some s
  rest : AtRest reader WriteCall.Idle s.file
  last : s.file.writer.last = some data
  on : strip data ≠ off
  before : s.buffer = []
  still : ∀ a ∈ during, a.still = true
  lasts : run Whole.step s during = some t
  after : t.buffer = []

theorem Window.text {content : Bytes} {as during : List Whole.Act} {data : Text}
    {s t : Whole.State} (h : Window content as data s during t) :
    printedText t = printedText s ++ (during.filterMap Whole.submitted).flatMap line := by
  obtain ⟨hflag, hswitch⟩ := Whole.flags_at_rest h.reached h.rest h.last
  rw [decide_eq_true h.on] at hflag hswitch
  obtain ⟨-, new, -, hdata, -, hshown⟩ := Whole.since_run h.rest hflag hswitch h.still h.lasts
  rw [if_pos rfl, h.before, h.after, List.append_nil, List.nil_append] at hshown
  have hnew : (new.flatMap fun e => line e.data) =
      (during.filterMap Whole.submitted).flatMap line := by
    rw [← hdata, List.flatMap_map]
  rw [printedText, printedText, hshown, List.flatMap_append, hnew]

/-- Two windows that print the same text, in whatever runs and under whatever names, had the
same calls: of the same processes and with the same numbers, in the same order. The text
holds no call of other cgroups and misses none of the target. -/
theorem windows_told_apart (content₁ content₂ : Bytes) (as₁ as₂ during₁ during₂ : List Whole.Act)
    (data₁ data₂ : Text) (s₁ s₂ t₁ t₂ : Whole.State)
    (h₁ : Window content₁ as₁ data₁ s₁ during₁ t₁) (h₂ : Window content₂ as₂ data₂ s₂ during₂ t₂)
    (text : Text) (htext₁ : printedText t₁ = printedText s₁ ++ text)
    (htext₂ : printedText t₂ = printedText s₂ ++ text) :
    text = (during₁.filterMap Whole.submitted).flatMap line ∧
      calls (during₁.filterMap Whole.submitted) = calls (during₂.filterMap Whole.submitted) := by
  have hlines₁ := List.append_cancel_left (htext₁.symm.trans h₁.text)
  have hlines₂ := List.append_cancel_left (htext₂.symm.trans h₂.text)
  exact ⟨hlines₁, calls_of_text (hlines₁.symm.trans hlines₂)⟩

theorem window_of_views {as during : List Whole.Act} {data : Text}
    (hrest : (run Whole.step (Whole.start []) as).map
      (fun s => (s.file.writer, s.file.conf.queue, s.file.conf.batch, s.vars)) =
      some (⟨.idle, some data⟩, [], [], ⟨true, 1, .wait⟩))
    (hbuffers : ((run Whole.step (Whole.start []) as).bind fun s =>
      (run Whole.step s during).map fun t => (s.buffer, t.buffer)) = some ([], []))
    (hon : strip data ≠ off) (hstill : ∀ a ∈ during, a.still = true) :
    ∃ s t, Window [] as data s during t := by
  obtain ⟨s, hs, hview⟩ := Option.map_eq_some_iff.mp hrest
  simp only [Prod.mk.injEq] at hview
  obtain ⟨hwriter, hqueue, hbatch, hvars⟩ := hview
  rw [hs, Option.bind_some] at hbuffers
  obtain ⟨t, ht, hempty⟩ := Option.map_eq_some_iff.mp hbuffers
  obtain ⟨hbefore, hafter⟩ := Prod.mk.inj hempty
  have hready : reader.ready s.vars = true := by
    rw [hvars]
    rfl
  refine ⟨s, t, hs, ⟨?_, hqueue, hbatch, hready⟩, by rw [hwriter], hon, hbefore, hstill, ht, hafter⟩
  rw [hwriter]
  rfl

def named (name : String) : List Whole.Act :=
  (WriteCall.writeOut name.toList ++ [Move.take, Move.handle, Move.tick]).map Whole.Act.file

/- The call of a process outside the target cgroup comes first in the second window. -/
def foreignCall : SysCall := ⟨1, 0x0000000500000005, 0, 900⟩

theorem windows_told_apart_accept :
    ∃ s₁ s₂ t₁ t₂ text, printedText t₁ = printedText s₁ ++ text ∧
      printedText t₂ = printedText s₂ ++ text ∧
      text = ([.sysCall Threads.sampleCall, .poll].filterMap Whole.submitted).flatMap line ∧
      calls ([.sysCall Threads.sampleCall, .poll].filterMap Whole.submitted) =
        calls ([.sysCall foreignCall, .sysCall Threads.sampleCall, .poll].filterMap
          Whole.submitted) := by
  obtain ⟨s₁, t₁, h₁⟩ : ∃ s t, Window [] (named "accept01") "accept01".toList s
      [.sysCall Threads.sampleCall, .poll] t :=
    window_of_views (by decide) (by decide) (by decide) (by decide)
  obtain ⟨s₂, t₂, h₂⟩ : ∃ s t, Window [] (named "accept02") "accept02".toList s
      [.sysCall foreignCall, .sysCall Threads.sampleCall, .poll] t :=
    window_of_views (by decide) (by decide) (by decide) (by decide)
  exact ⟨s₁, s₂, t₁, t₂, _, h₁.text, h₂.text, windows_told_apart _ _ _ _ _ _ _ _ s₁ s₂ t₁ t₂ h₁ h₂ _
    h₁.text h₂.text⟩

end Tbouncer.Monitor.Printed
