import Tbouncer.Attack.UserMemory
import Tbouncer.Verdict.CacheFile

/-!
# A tampered file size

The exit hook of fstat and newfstatat overwrites the low half of st_size. Its two victims,
fstat_demo_iago.c and fstat04.c, take the distance from the names to the end of the
mapping for the number of their bytes. A size of 2 ends before the names begin.
-/

namespace Tbouncer.Verdict
open Base Bpf Attack Isolation ByteMemory

/-! ### fstat04.c -/

/- strlen of a string in memory: its bytes before the first NUL. -/
def strlen (s : Bytes) : ℕ := (s.takeWhile (· ≠ 0)).length

def literal (s : Text) : Bytes := encodeUtf8 s ++ [0]

/- What setup writes, from `nlibs` and the array `libs` (`fstat04.c:33-40`). -/
def writeLibs (nlibs : ℕ) (libs : List Bytes) : Bytes :=
  leBytes 4 nlibs ++ (libs.take nlibs).flatMap fun lib => lib.take (strlen lib + 1)

def setup : Bytes :=
  writeLibs 3 [literal "lib1".toList, literal "lib2".toList, literal "lib3".toList]

theorem take_strlen_literal {lib : Text} (h : Char.ofNat 0 ∉ lib) :
    (literal lib).take (strlen (literal lib) + 1) = literal lib := by
  have hfree : ∀ b ∈ encodeUtf8 lib, decide (b ≠ 0) = true := by
    intro b hb
    apply decide_eq_true
    rintro rfl
    exact h ((zero_mem_encodeUtf8 lib).mp hb)
  have hlen : strlen (literal lib) = (encodeUtf8 lib).length := by
    rw [strlen, literal, List.takeWhile_append_of_pos hfree]
    simp
  rw [hlen, literal, List.take_of_length_le]
  simp

/- Both writers make the same file. -/
theorem writeLibs_eq_createTestFile {libs : List Text} (hfit : libs.length < 2 ^ 32)
    (hfree : ∀ lib ∈ libs, Char.ofNat 0 ∉ lib) :
    createTestFile libs.length libs = some (writeLibs libs.length (libs.map literal)) := by
  have hnames : (libs.map literal).flatMap (fun lib => lib.take (strlen lib + 1)) =
      terminate 0 (libs.map encodeUtf8) := by
    rw [terminate, List.flatMap_map, List.flatMap_map]
    apply List.flatMap_congr
    intro lib hlib
    exact take_strlen_literal (hfree lib hlib)
  refine createTestFile_eq_some_iff.mpr ⟨hfit, ?_⟩
  rw [writeLibs, List.take_of_length_le (by rw [List.length_map]), hnames]

/- The script's own example and setup. -/
example : createTestFile 3 exampleLibs = some setup := by decide

/- What the calls of run give: `stSize` is in the buffer after the call of fstat, whose
return value is not looked at, and `mapped` is where SAFE_MMAP has put the file. -/
structure Fstat04Run where
  opened : Bool
  stSize : BitVec 64
  mapped : Option Addr
  closed : Bool
  file : Bytes
  deriving DecidableEq

/- A TINFO message, or what other tests do as well. -/
inductive Logged where
  | info (format : String) (args : List Arg)
  | out (o : Out)
  deriving DecidableEq

/- `fstat04.c:58-76`, once the file is mapped and closed. -/
def checkMapped (k : Fstat04Run) (mappedData : Addr) : List Logged :=
  let data := cacheData mappedData (nlibsOf k.file)
  let size := cacheDataSize mappedData k.stSize (nlibsOf k.file)
  .info "Cache data size: %u" [.int size.toNat] ::
  (if !verifyPtr data size then
    [.out (.res .TFAIL "Pointer verification failed! Invalid access detected." [])]
  else
    [if size > 50 then .out (.res .TPASS "the attack successed" [])
      else .out (.res .TFAIL "attack failed" []),
     .out (.coordination "0")])

def runFstat04 (k : Fstat04Run) : List Logged :=
  if !k.opened then [.out (.broken "SAFE_OPEN")]
  else
    .out (.coordination "iago_attack_fstat") ::
    .info "File size: %zu" [.int k.stSize.toNat] ::
    match k.mapped with
    | none => [.out (.broken "SAFE_MMAP")]
    | some mappedData =>
      if !k.closed then [.out (.broken "SAFE_CLOSE")] else checkMapped k mappedData

/-! ### The size after the exit hook -/

/- st.st_size, at offset 48 of struct stat. -/
def stSizeOf (mem : Memory) (statbuf : Addr) : BitVec 64 := loadLong mem (statbuf + 48)

/- Only the low half is new. -/
theorem stSizeOf_tampered {target : CgroupId} {addrPoc : BpfHash Addr} {statbuf : Addr}
    {rc : BitVec 64} (hslot : addrPoc key = some statbuf) (hrc : 0 ≤ retOf rc) (mem : Memory) :
    (stSizeOf ((syscallNewfstatatRet target target rc addrPoc).foldl writeUser mem) statbuf).toNat =
      2 + 2 ^ 32 * ((stSizeOf mem statbuf).toNat / 2 ^ 32) := by
  have hwrites : syscallNewfstatatRet target target rc addrPoc = [⟨statbuf + 48, leBytes 4 2⟩] := by
    simp only [syscallNewfstatatRet, compareCgroupId_self, Bool.not_true, Bool.false_eq_true,
      if_false, hslot, if_neg (Int.not_lt.mpr hrc)]
  rw [hwrites, List.foldl_cons, List.foldl_nil, writeUser, stSizeOf, stSizeOf]
  exact loadLong_store_low mem (statbuf + 48) 2

theorem setWidth_tampered {target : CgroupId} {addrPoc : BpfHash Addr} {statbuf : Addr}
    {rc : BitVec 64} (hslot : addrPoc key = some statbuf) (hrc : 0 ≤ retOf rc) (mem : Memory) :
    (stSizeOf ((syscallNewfstatatRet target target rc addrPoc).foldl writeUser mem)
      statbuf).setWidth 32 = 2 := by
  have htwo : (2 : BitVec 32).toNat = 2 := rfl
  apply BitVec.eq_of_toNat_eq
  rw [BitVec.toNat_setWidth, stSizeOf_tampered hslot hrc mem, htwo]
  omega

/-! ### What the victims make of it -/

theorem nlibsOf_toNat (file : Bytes) (h : leVal (file.take 4) < 2 ^ 32) :
    (nlibsOf file).toNat = leVal (file.take 4) := by
  rw [nlibsOf, BitVec.toNat_ofNat, Nat.mod_eq_of_lt h]

/- A size has 32 bits, so a pointer above 4 GiB always passes. -/
theorem verifyPtr_high {base : Addr} {nlibs : BitVec 32} (size : BitVec 32)
    (hlow : 2 ^ 32 ≤ base.toNat) (hhigh : base.toNat + 4 + nlibs.toNat < 2 ^ 64) :
    verifyPtr (cacheData base nlibs) size = true := by
  have hdata : (cacheData base nlibs).toNat = base.toNat + 4 + nlibs.toNat := by
    have h := cacheData_toNat base nlibs.isLt
    rwa [BitVec.ofNat_toNat, BitVec.setWidth_eq, Nat.mod_eq_of_lt hhigh] at h
  have hlt := size.isLt
  rw [verifyPtr_iff, hdata]
  omega

section
variable {base : Addr} {size : BitVec 64} {file : Bytes}
variable (hptr : verifyPtr (cacheData base (nlibsOf file))
  (cacheDataSize base size (nlibsOf file)) = true)
variable (hbig : cacheDataSize base size (nlibsOf file) > 50)
include hptr hbig

theorem mainDemo_attack {fd statRet : ℤ} (hfd : 0 ≤ fd) (hstat : 0 ≤ statRet) :
    mainDemo ⟨fd, statRet, size, some base, file⟩ =
      [.coordination "iago_attack_fstat", .coordination "0",
        .print "File size reported by fstat: %zu\n" [.int size.toNat],
        .print "cache_data_size: %u\n" [.int (cacheDataSize base size (nlibsOf file)).toNat],
        .print "attack success\n" [], .exit 0] := by
  rw [mainDemo, if_neg (Int.not_lt.mpr hfd), if_neg (Int.not_lt.mpr hstat)]
  simp only [checkCache, hptr, Bool.not_true, Bool.false_eq_true, if_false, if_pos hbig,
    List.cons_append, List.nil_append]

theorem runFstat04_attack :
    runFstat04 ⟨true, size, some base, true, file⟩ =
      [.out (.coordination "iago_attack_fstat"), .info "File size: %zu" [.int size.toNat],
        .info "Cache data size: %u" [.int (cacheDataSize base size (nlibsOf file)).toNat],
        .out (.res .TPASS "the attack successed" []), .out (.coordination "0")] := by
  simp only [runFstat04, checkMapped, hptr, Bool.not_true, Bool.false_eq_true, if_false,
    if_pos hbig]

end

/-- Whatever size the kernel has stored, both victims find the attack. -/
theorem fstat_attack_detected (target : CgroupId) (addrPoc : BpfHash Addr) (statbuf : Addr)
    (rc : BitVec 64) (mem : Memory) (file : Bytes) (base : Addr)
    (hslot : addrPoc key = some statbuf) (hrc : 0 ≤ retOf rc)
    (hn : leVal (file.take 4) < 2 ^ 32 - 52) (hlow : 2 ^ 32 ≤ base.toNat)
    (hhigh : base.toNat + 4 + leVal (file.take 4) < 2 ^ 64) :
    let size := stSizeOf ((syscallNewfstatatRet target target rc addrPoc).foldl writeUser mem) statbuf
    (cacheDataSize base size (nlibsOf file)).toNat = 2 ^ 32 - 2 - leVal (file.take 4) ∧
      verifyPtr (cacheData base (nlibsOf file)) (cacheDataSize base size (nlibsOf file)) = true ∧
      (∀ fd : ℤ, 0 ≤ fd → mainDemo ⟨fd, retOf rc, size, some base, file⟩ =
        [.coordination "iago_attack_fstat", .coordination "0",
          .print "File size reported by fstat: %zu\n" [.int size.toNat],
          .print "cache_data_size: %u\n" [.int (2 ^ 32 - 2 - leVal (file.take 4) : ℕ)],
          .print "attack success\n" [], .exit 0]) ∧
      runFstat04 ⟨true, size, some base, true, file⟩ =
        [.out (.coordination "iago_attack_fstat"), .info "File size: %zu" [.int size.toNat],
          .info "Cache data size: %u" [.int (2 ^ 32 - 2 - leVal (file.take 4) : ℕ)],
          .out (.res .TPASS "the attack successed" []), .out (.coordination "0")] := by
  intro size
  have hlow32 : size.setWidth 32 = 2 := setWidth_tampered hslot hrc mem
  have hnlibs := nlibsOf_toNat file (by omega)
  have hsize : (cacheDataSize base size (nlibsOf file)).toNat =
      2 ^ 32 - 2 - leVal (file.take 4) := by
    rw [cacheDataSize_overwritten base hlow32 (by omega), hnlibs]
  have hptr : verifyPtr (cacheData base (nlibsOf file))
      (cacheDataSize base size (nlibsOf file)) = true := verifyPtr_high _ hlow (by omega)
  have hbig : cacheDataSize base size (nlibsOf file) > 50 := by
    have hfifty : (50 : BitVec 32).toNat = 50 := rfl
    rw [gt_iff_lt, BitVec.lt_def, hsize, hfifty]
    omega
  refine ⟨hsize, hptr, fun fd hfd => ?_, ?_⟩
  · rw [mainDemo_attack hptr hbig hfd hrc, hsize]
  · rw [runFstat04_attack hptr hbig, hsize]

/- The file of setup, and a size of eight bytes 0xff. -/
theorem fstat_attack_detected_setup :
    let addrPoc := BpfHash.empty.update key (0x7ffd00001000 : Addr)
    let mem := (syscallNewfstatatRet 27724 27724 0 addrPoc).foldl writeUser fun _ => 0xff
    (cacheDataSize 0x7f0000000000 (stSizeOf mem 0x7ffd00001000) (nlibsOf setup)).toNat =
      2 ^ 32 - 2 - 3 :=
  (fstat_attack_detected 27724 (BpfHash.empty.update key 0x7ffd00001000) 0x7ffd00001000 0
    (fun _ => 0xff) setup 0x7f0000000000 (BpfHash.update_same _ _ _) (by decide) (by decide)
    (by decide) (by decide)).1

end Tbouncer.Verdict
