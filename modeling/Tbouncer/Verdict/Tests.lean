import Mathlib.Data.Int.Notation
import Tbouncer.Bpf.Helpers

/-!
# The tests that give a verdict

fork_iago.c, clone_iago.c, readlink04.c and fstat_demo_iago.c, as functions of what the
kernel answers: what each leaves in the result file, in the log of the test library and on
its output. The file the last one reads is made by fstat_create_file.py.
-/

namespace Tbouncer.Verdict
open Base Bpf

inductive Kind where
  | TPASS
  | TFAIL
  deriving DecidableEq

/- An argument of a format; `strstatus` is the text tst_strstatus has for a status. -/
inductive Arg where
  | int (v : ℤ)
  | strstatus (status : BitVec 32)
  deriving DecidableEq

/- The calls a test is observed by. The last four are those of the test library whose own
messages are not in this repository: a SAFE_ macro that ends the test, and the calls of
TST_EXP_PID_SILENT, TST_EXP_EQ_LI and SAFE_FILE_PRINTF. -/
inductive Out where
  | coordination (data : String)
  | result (data : String)
  | res (kind : Kind) (format : String) (args : List Arg)
  | print (format : String) (args : List Arg)
  | perror (s : String)
  | err (format : String)
  | exit (status : ℕ)
  | broken (call : String)
  | expPid (ret : ℤ) (call : String)
  | expEq (a b : ℤ)
  | filePrint (path : String) (v : ℤ)
  deriving DecidableEq

/- sys/wait.h. -/
def wifexited (status : BitVec 32) : Bool := status &&& 0x7f = 0
def wexitstatus (status : BitVec 32) : ℕ := ((status &&& 0xff00) >>> 8).toNat

/-! ### fork_iago.c -/

/- What the calls of verify_fork return: `self` is getpid in the child, `waited` what
waitpid answers with the status, `scanned` the number in FILENAME. -/
structure ForkRun where
  pid : ℤ
  self : ℤ
  waited : Option (ℤ × BitVec 32)
  scanned : Option ℤ
  deriving DecidableEq

def kidexit : ℕ := 42

/- `fork_iago.c:41-58`. -/
def awaitChild (k : ForkRun) (pid : ℤ) : List Out :=
  match k.waited with
  | none => [.broken "SAFE_WAITPID"]
  | some (termPid, kidStatus) =>
    if termPid = pid then
      if !wifexited kidStatus then [.res .TFAIL "child exited abnormally" []]
      else
        let ret := wexitstatus kidStatus
        (if ret ≠ kidexit then .res .TFAIL "incorrect child status returned %d" [.int ret]
          else .res .TPASS "correct child status returned %d" [.int ret]) ::
        match k.scanned with
        | none => [.broken "SAFE_FILE_SCANF"]
        | some childPid => [.expEq childPid pid]
    else [.res .TFAIL "waitpid() returns %d instead of expected pid %d" [.int termPid, .int pid]]

/- What a process does once SAFE_FORK has returned `pid` in it. -/
def afterFork (k : ForkRun) (pid : ℤ) : List Out :=
  .coordination "mutation_done" ::
  ((if pid = 4099 then [.result "fork\n"] else []) ++
    (if pid = 0 then [.filePrint "childpid" k.self, .exit kidexit] else awaitChild k pid))

/- Both processes: what the parent does, then what the child does. -/
def verifyFork (k : ForkRun) : List Out :=
  .coordination "mutation_fork" ::
  (if k.pid < 0 then [.broken "SAFE_FORK"] else afterFork k k.pid ++ afterFork k 0)

/-! ### clone_iago.c -/

/- `ret` is TST_RET. -/
structure CloneRun where
  ret : ℤ
  waited : Option (ℤ × BitVec 32)
  deriving DecidableEq

/- `clone_iago.c:38-49`. -/
def awaitClone (k : CloneRun) : List Out :=
  match k.waited with
  | none => [.broken "SAFE_WAIT"]
  | some (childPid, status) =>
    [if childPid = k.ret then .res .TPASS "clone returned %ld" [.int k.ret]
      else .res .TFAIL "clone returned %ld, wait returned %d" [.int k.ret, .int childPid],
     if wifexited status && wexitstatus status = 0 then .res .TPASS "Child exited with 0" []
      else .res .TFAIL "Child %s" [.strstatus status]]

def verifyClone (k : CloneRun) : List Out :=
  [.coordination "mutation_clone", .expPid k.ret "clone()", .coordination "mutation_done"] ++
  (if k.ret = 4099 then [.result "clone\n"] else []) ++ awaitClone k

/-! ### readlink04.c -/

def bufferSize : ℕ := 20

structure ReadlinkRun where
  symlinked : Bool
  ret : ℤ
  deriving DecidableEq

/- `run`; readlink is given BUFFER_SIZE - 1 bytes. -/
def runReadlink (k : ReadlinkRun) : List Out :=
  if !k.symlinked then [.broken "SAFE_SYMLINK"]
  else
    .coordination "iago_attack_readlink" ::
    ((if k.ret = 100 then [.res .TPASS "readlink() attack successfully" []]
      else if k.ret ≠ -1 then [.res .TPASS "readlink() attack successfully" []]
      else []) ++ [.coordination "0"])

/-! ### fstat_create_file.py and fstat_demo_iago.c -/

/- struct.pack("I", v), which raises on what is no uint32. -/
def pack (v : ℕ) : Option Bytes := if v < 2 ^ 32 then some (leBytes 4 v) else none

/- The bytes the file holds; none when the script raises. -/
def createTestFile (nlibs : ℕ) (libs : List Text) : Option Bytes :=
  (pack nlibs).map fun b => b ++ libs.flatMap fun lib => encodeUtf8 lib ++ [0]

/- `statRet` and `stSize` are what fstat returns and stores, `mapped` is where mmap has put
the file, none for MAP_FAILED. -/
structure DemoRun where
  fd : ℤ
  statRet : ℤ
  stSize : BitVec 64
  mapped : Option Addr
  file : Bytes
  deriving DecidableEq

/- cache->nlibs, the first four bytes of the mapping. -/
def nlibsOf (file : Bytes) : BitVec 32 := BitVec.ofNat 32 (leVal (file.take 4))

/- &cache->libs[cache->nlibs]. -/
def cacheData (cache : Addr) (nlibs : BitVec 32) : Addr := cache + 4 + nlibs.setWidth 64

def cacheDataSize (cache : Addr) (sizep : BitVec 64) (nlibs : BitVec 32) : BitVec 32 :=
  (cache + sizep - cacheData cache nlibs).setWidth 32

/- VERIFY_PTR. -/
def verifyPtr (ptr : Addr) (size : BitVec 32) : Bool := ptr > size.setWidth 64

/- `fstat_demo_iago.c:79-98`, once the file is mapped. -/
def checkCache (k : DemoRun) (cache : Addr) : List Out :=
  let data := cacheData cache (nlibsOf k.file)
  let size := cacheDataSize cache k.stSize (nlibsOf k.file)
  .print "cache_data_size: %u\n" [.int size.toNat] ::
  (if !verifyPtr data size then
    [.err "Pointer verification failed! Invalid access detected.\n", .exit 1]
  else if size > 50 then [.print "attack success\n" [], .exit 0]
  else [.print "Accessing cache_data: %p\n" [.int data.toNat], .exit 0])

def mainDemo (k : DemoRun) : List Out :=
  if k.fd < 0 then [.perror "open", .exit 1]
  else
    .coordination "iago_attack_fstat" ::
    if k.statRet < 0 then [.perror "fstat", .exit 1]
    else
      [.coordination "0", .print "File size reported by fstat: %zu\n" [.int k.stSize.toNat]] ++
      match k.mapped with
      | none => [.perror "mmap", .exit 1]
      | some cache => checkCache k cache

/-! ### Verdicts -/

/- A run of one of the tests; the demo's file is made from `libs`. -/
inductive TestRun where
  | fork (k : ForkRun)
  | clone (k : CloneRun)
  | readlink (k : ReadlinkRun)
  | fstat (libs : List Text) (k : DemoRun)

def TestRun.outs : TestRun → List Out
  | .fork k => verifyFork k
  | .clone k => verifyClone k
  | .readlink k => runReadlink k
  | .fstat _ k => mainDemo k

/- What tells that an attack has succeeded. -/
def Out.reports : Out → Bool
  | .result _ => true
  | .res kind format _ => kind = .TPASS && format = "readlink() attack successfully"
  | .print format _ => format = "attack success\n"
  | _ => false

attribute [simp] Out.reports

def reported (outs : List Out) : Bool := outs.any Out.reports

def TestRun.ReportsAttack (t : TestRun) : Prop := reported t.outs = true

@[simp] theorem reported_nil : reported [] = false := rfl

@[simp] theorem reported_cons (o : Out) (os : List Out) :
    reported (o :: os) = (o.reports || reported os) := List.any_cons

@[simp] theorem reported_append (os os' : List Out) :
    reported (os ++ os') = (reported os || reported os') := List.any_append

end Tbouncer.Verdict
