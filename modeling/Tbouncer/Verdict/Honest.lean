import Mathlib.Tactic.SplitIfs
import Tbouncer.Verdict.Tests

/-!
# Verdicts on an honest kernel

No probe changes anything a kernel answers here. A test that tells an attack from a
sentinel or from a length still reports one whenever an honest answer has that value.
-/

namespace Tbouncer.Verdict
open Base Bpf

/-! ### When each test reports -/

theorem awaitChild_silent (k : ForkRun) (pid : ℤ) : reported (awaitChild k pid) = false := by
  unfold awaitChild
  split
  · rfl
  · split_ifs
    · rfl
    · dsimp only
      split_ifs <;> split <;> simp
    · rfl

theorem afterFork_reports (k : ForkRun) (pid : ℤ) :
    reported (afterFork k pid) = decide (pid = 4099) := by
  unfold afterFork
  by_cases h0 : pid = 0
  · simp [h0]
  · by_cases h : pid = 4099 <;> simp [awaitChild_silent, h0, h]

/- Only the parent can report: in the child fork returns 0. -/
theorem fork_reports_iff (k : ForkRun) : (TestRun.fork k).ReportsAttack ↔ k.pid = 4099 := by
  unfold TestRun.ReportsAttack TestRun.outs verifyFork
  by_cases h : k.pid < 0
  · have hne : k.pid ≠ 4099 := by omega
    simp [h, hne]
  · simp [afterFork_reports, h]

theorem awaitClone_silent (k : CloneRun) : reported (awaitClone k) = false := by
  unfold awaitClone
  split
  · rfl
  · split_ifs <;> simp

theorem clone_reports_iff (k : CloneRun) : (TestRun.clone k).ReportsAttack ↔ k.ret = 4099 := by
  unfold TestRun.ReportsAttack TestRun.outs verifyClone
  by_cases h : k.ret = 4099 <;> simp [awaitClone_silent, h]

/- Both branches on TST_RET report: every answer but -1 counts as an attack. -/
theorem readlink_reports_iff (k : ReadlinkRun) :
    (TestRun.readlink k).ReportsAttack ↔ k.symlinked = true ∧ k.ret ≠ -1 := by
  unfold TestRun.ReportsAttack TestRun.outs runReadlink
  cases hs : k.symlinked with
  | false => simp [hs]
  | true =>
    by_cases h : k.ret = -1
    · simp [hs, h]
    · by_cases h' : k.ret = 100 <;> simp [hs, h, h']

theorem verifyPtr_iff (ptr : Addr) (size : BitVec 32) :
    verifyPtr ptr size = true ↔ size.toNat < ptr.toNat := by
  simp only [verifyPtr, gt_iff_lt, decide_eq_true_eq, BitVec.lt_def, BitVec.toNat_setWidth]
  omega

/- The demo reports a size above 50 that lies below the pointer. -/
theorem checkCache_reports_iff (k : DemoRun) (cache : Addr) :
    reported (checkCache k cache) = true ↔
      50 < (cacheDataSize cache k.stSize (nlibsOf k.file)).toNat ∧
        (cacheDataSize cache k.stSize (nlibsOf k.file)).toNat <
          (cacheData cache (nlibsOf k.file)).toNat := by
  unfold checkCache
  rw [← verifyPtr_iff]
  generalize cacheDataSize cache k.stSize (nlibsOf k.file) = size
  generalize cacheData cache (nlibsOf k.file) = data
  cases hv : verifyPtr data size with
  | false => simp [hv]
  | true =>
    by_cases hl : 50 < size.toNat <;> simp [BitVec.lt_def, hv, hl]

theorem demo_reports_iff (libs : List Text) (k : DemoRun) :
    (TestRun.fstat libs k).ReportsAttack ↔ 0 ≤ k.fd ∧ 0 ≤ k.statRet ∧
      ∃ cache, k.mapped = some cache ∧ reported (checkCache k cache) = true := by
  unfold TestRun.ReportsAttack TestRun.outs mainDemo
  by_cases hfd : k.fd < 0
  · simp [hfd, Int.not_le.mpr hfd]
  · by_cases hst : k.statRet < 0
    · simp [hfd, hst, Int.not_le.mpr hst]
    · cases hm : k.mapped with
      | none => simp [hfd, hst, hm]
      | some cache => simp [hfd, hst, hm, Int.not_lt.mp hfd, Int.not_lt.mp hst]

/-! ### The file of the demo -/

/- The bytes of all names, without the NULs that end them. -/
def namesLength (libs : List Text) : ℕ := (libs.flatMap encodeUtf8).length

theorem names_length (libs : List Text) :
    (libs.flatMap fun lib => encodeUtf8 lib ++ [0]).length = libs.length + namesLength libs := by
  induction libs with
  | nil => rfl
  | cons lib libs ih =>
    simp only [List.flatMap_cons, List.length_append, List.length_cons, List.length_nil, ih,
      namesLength]
    omega

theorem createTestFile_some {nlibs : ℕ} {libs : List Text} {file : Bytes}
    (h : createTestFile nlibs libs = some file) :
    nlibs < 2 ^ 32 ∧ file = leBytes 4 nlibs ++ libs.flatMap fun lib => encodeUtf8 lib ++ [0] := by
  unfold createTestFile pack at h
  split_ifs at h with hlt
  · exact ⟨hlt, (Option.some.inj h).symm⟩
  · cases h

theorem file_length {libs : List Text} {file : Bytes}
    (h : createTestFile libs.length libs = some file) :
    file.length = 4 + libs.length + namesLength libs := by
  rw [(createTestFile_some h).2, List.length_append, leBytes_length, names_length]
  omega

theorem nlibsOf_file {nlibs : ℕ} {libs : List Text} {file : Bytes}
    (h : createTestFile nlibs libs = some file) : nlibsOf file = BitVec.ofNat 32 nlibs := by
  obtain ⟨hlt, rfl⟩ := createTestFile_some h
  have hfit : nlibs < 256 ^ 4 := hlt
  rw [nlibsOf, List.take_left' (leBytes_length 4 nlibs), leVal_leBytes, Nat.mod_eq_of_lt hfit]

theorem cacheData_toNat (cache : Addr) {nlibs : ℕ} (h : nlibs < 2 ^ 32) :
    (cacheData cache (BitVec.ofNat 32 nlibs)).toNat = (cache.toNat + 4 + nlibs) % 2 ^ 64 := by
  rw [cacheData, BitVec.toNat_add, BitVec.toNat_add, BitVec.toNat_setWidth, BitVec.toNat_ofNat,
    Nat.mod_eq_of_lt h, Nat.mod_add_mod, Nat.add_mod_mod]
  rfl

/- The mapping's address cancels. -/
theorem cacheDataSize_add (cache : Addr) (sizep : BitVec 64) (nlibs : BitVec 32) :
    cacheDataSize cache sizep nlibs + 4 + nlibs = sizep.setWidth 32 := by
  have hwide : cache + sizep - cacheData cache nlibs + 4 + nlibs.setWidth 64 = sizep := by
    unfold cacheData
    grind
  have hlow := congrArg (BitVec.setWidth 32) hwide
  rw [BitVec.setWidth_add _ _ (by decide), BitVec.setWidth_add _ _ (by decide),
    BitVec.setWidth_setWidth_of_le _ (by decide), BitVec.setWidth_eq] at hlow
  exact hlow

theorem cacheDataSize_file (cache : Addr) (nlibs names : ℕ) :
    cacheDataSize cache (BitVec.ofNat 64 (4 + nlibs + names)) (BitVec.ofNat 32 nlibs) =
      BitVec.ofNat 32 names := by
  have hadd := cacheDataSize_add cache (BitVec.ofNat 64 (4 + nlibs + names)) (BitVec.ofNat 32 nlibs)
  rw [BitVec.setWidth_ofNat_of_le (by decide)] at hadd
  have hsum : BitVec.ofNat 32 (4 + nlibs + names) =
      4 + BitVec.ofNat 32 nlibs + BitVec.ofNat 32 names := by
    rw [BitVec.ofNat_add, BitVec.ofNat_add]
    rfl
  rw [hsum] at hadd
  generalize cacheDataSize cache (BitVec.ofNat 64 (4 + nlibs + names)) (BitVec.ofNat 32 nlibs) = d
    at hadd ⊢
  generalize BitVec.ofNat 32 nlibs = n at hadd
  grind

/-! ### Honest runs -/

/- The file is the one create_test_file makes of names without NUL, and fstat gives its
size. -/
structure DemoRun.Honest (libs : List Text) (k : DemoRun) : Prop where
  created : createTestFile libs.length libs = some k.file
  nulFree : ∀ lib ∈ libs, Char.ofNat 0 ∉ lib
  size : k.stSize = BitVec.ofNat 64 k.file.length

/- A fork or a clone fails or gives a positive pid, readlink fails or fits the buffer. -/
def TestRun.Honest : TestRun → Prop
  | .fork k => k.pid = -1 ∨ 0 < k.pid
  | .clone k => k.ret = -1 ∨ 0 < k.ret
  | .readlink k => k.ret = -1 ∨ 0 ≤ k.ret ∧ k.ret ≤ bufferSize - 1
  | .fstat libs k => k.Honest libs

/- When an honest kernel's answers are no sentinel. -/
def TestRun.Clear : TestRun → Prop
  | .fork k => k.pid ≠ 4099
  | .clone k => k.ret ≠ 4099
  | .readlink k => k.symlinked = false ∨ k.ret = -1
  | .fstat libs k => ∀ cache, 0 ≤ k.fd → 0 ≤ k.statRet → k.mapped = some cache →
      namesLength libs % 2 ^ 32 ≤ 50 ∨
        (cache.toNat + 4 + libs.length) % 2 ^ 64 ≤ namesLength libs % 2 ^ 32

theorem DemoRun.Honest.size_toNat {libs : List Text} {k : DemoRun} (h : k.Honest libs)
    (cache : Addr) :
    (cacheDataSize cache k.stSize (nlibsOf k.file)).toNat = namesLength libs % 2 ^ 32 := by
  rw [nlibsOf_file h.created, h.size, file_length h.created, cacheDataSize_file,
    BitVec.toNat_ofNat]

theorem DemoRun.Honest.reports_iff {libs : List Text} {k : DemoRun} (h : k.Honest libs)
    (cache : Addr) :
    reported (checkCache k cache) = true ↔ 50 < namesLength libs % 2 ^ 32 ∧
      namesLength libs % 2 ^ 32 < (cache.toNat + 4 + libs.length) % 2 ^ 64 := by
  rw [checkCache_reports_iff, h.size_toNat, nlibsOf_file h.created,
    cacheData_toNat cache (createTestFile_some h.created).1]

theorem quiet_iff_clear (t : TestRun) (h : t.Honest) : ¬ t.ReportsAttack ↔ t.Clear := by
  cases t with
  | fork k => exact not_congr (fork_reports_iff k)
  | clone k => exact not_congr (clone_reports_iff k)
  | readlink k =>
    rw [readlink_reports_iff, TestRun.Clear, not_and_or, not_not, Bool.not_eq_true]
  | fstat libs k =>
    have hhonest : k.Honest libs := h
    rw [demo_reports_iff, TestRun.Clear]
    constructor
    · intro hquiet cache hfd hst hm
      by_contra hloud
      have hrep := (hhonest.reports_iff cache).mpr (by omega)
      exact hquiet ⟨hfd, hst, cache, hm, hrep⟩
    · rintro hclear ⟨hfd, hst, cache, hm, hrep⟩
      have hloud := (hhonest.reports_iff cache).mp hrep
      have hcase := hclear cache hfd hst hm
      omega

/- The file of the script's own example. -/
def exampleLibs : List Text := ["lib1".toList, "lib2".toList, "lib3".toList]

def exampleDemo : DemoRun where
  fd := 3
  statRet := 0
  stSize := 19
  mapped := some 0x7f0000000000
  file := leBytes 4 3 ++ exampleLibs.flatMap fun lib => encodeUtf8 lib ++ [0]

theorem quiet_iff_clear_example : ¬ (TestRun.fstat exampleLibs exampleDemo).ReportsAttack := by
  have hhonest : exampleDemo.Honest exampleLibs := by
    constructor
    · decide
    · decide
    · decide
  refine (quiet_iff_clear (.fstat exampleLibs exampleDemo) hhonest).mpr ?_
  intro cache _ _ _
  have hsum : namesLength exampleLibs = 12 := by decide
  omega

/- The names of four libraries a program may well be linked with. -/
def linkedLibs : List Text :=
  ["ld-linux-x86-64.so.2".toList, "libcrypto.so.3".toList, "libpthread.so.0".toList,
    "libstdc++.so.6".toList]

def linkedDemo : DemoRun where
  fd := 3
  statRet := 0
  stSize := 71
  mapped := some 0x7f0000000000
  file := leBytes 4 4 ++ linkedLibs.flatMap fun lib => encodeUtf8 lib ++ [0]

/- Each test has an honest run it reports. -/
theorem honest_reported :
    ((TestRun.readlink ⟨true, 11⟩).Honest ∧ (TestRun.readlink ⟨true, 11⟩).ReportsAttack) ∧
    ((TestRun.fork ⟨4099, 4099, some (4099, 0x2a00), some 4099⟩).Honest ∧
      (TestRun.fork ⟨4099, 4099, some (4099, 0x2a00), some 4099⟩).ReportsAttack) ∧
    ((TestRun.clone ⟨4099, some (4099, 0)⟩).Honest ∧
      (TestRun.clone ⟨4099, some (4099, 0)⟩).ReportsAttack) ∧
    (TestRun.fstat linkedLibs linkedDemo).Honest ∧
      (TestRun.fstat linkedLibs linkedDemo).ReportsAttack := by
  refine ⟨⟨Or.inr (by decide), ?_⟩, ⟨Or.inr (by decide), ?_⟩, ⟨Or.inr (by decide), ?_⟩, ?_, ?_⟩
  · exact (readlink_reports_iff _).mpr (by decide)
  · exact (fork_reports_iff _).mpr (by decide)
  · exact (clone_reports_iff _).mpr (by decide)
  · constructor <;> decide
  · rw [demo_reports_iff]
    refine ⟨by decide, by decide, _, rfl, ?_⟩
    rw [checkCache_reports_iff]
    decide

/-! ### Tampered runs -/

/- The probe on newfstat has stored 2 in the low half of st_size, and the mapping lies above
the low 4 GiB, as it does on a 64-bit kernel. -/
structure DemoRun.Overwritten (libs : List Text) (k : DemoRun) : Prop where
  created : createTestFile libs.length libs = some k.file
  few : libs.length + 52 < 2 ^ 32
  opened : 0 ≤ k.fd ∧ 0 ≤ k.statRet
  size : k.stSize.setWidth 32 = 2
  high : ∃ cache, k.mapped = some cache ∧ 2 ^ 32 ≤ cache.toNat ∧
    cache.toNat + 4 + libs.length < 2 ^ 64

/- The values the probes put in place of the kernel's. -/
def TestRun.Tampered : TestRun → Prop
  | .fork k => k.pid = 4099
  | .clone k => k.ret = 4099
  | .readlink k => k.symlinked = true ∧ k.ret = 100
  | .fstat libs k => k.Overwritten libs

/- 2 - 4 - nlibs wraps around. -/
theorem cacheDataSize_overwritten (cache : Addr) {sizep : BitVec 64} (h : sizep.setWidth 32 = 2)
    {nlibs : BitVec 32} (hlt : nlibs.toNat < 2 ^ 32 - 2) :
    (cacheDataSize cache sizep nlibs).toNat = 2 ^ 32 - 2 - nlibs.toNat := by
  have hadd := congrArg BitVec.toNat (cacheDataSize_add cache sizep nlibs)
  have hbound := (cacheDataSize cache sizep nlibs).isLt
  have hfour : (4 : BitVec 32).toNat = 4 := rfl
  have htwo : (2 : BitVec 32).toNat = 2 := rfl
  rw [h, BitVec.toNat_add, BitVec.toNat_add, hfour, htwo, Nat.mod_add_mod] at hadd
  omega

/- The other direction: an attack that changes the answer is always reported. -/
theorem tampered_reported (t : TestRun) (h : t.Tampered) : t.ReportsAttack := by
  cases t with
  | fork k => exact (fork_reports_iff k).mpr h
  | clone k => exact (clone_reports_iff k).mpr h
  | readlink k =>
    have hne : k.ret ≠ -1 := by rw [h.2]; decide
    exact (readlink_reports_iff k).mpr ⟨h.1, hne⟩
  | fstat libs k =>
    have hover : k.Overwritten libs := h
    obtain ⟨cache, hm, hlow, hhigh⟩ := hover.high
    have hlt := (createTestFile_some hover.created).1
    have hfew := hover.few
    have hlength : (BitVec.ofNat 32 libs.length).toNat = libs.length := by
      rw [BitVec.toNat_ofNat, Nat.mod_eq_of_lt hlt]
    have hsize := cacheDataSize_overwritten cache hover.size
      (show (BitVec.ofNat 32 libs.length).toNat < 2 ^ 32 - 2 by omega)
    refine (demo_reports_iff libs k).mpr ⟨hover.opened.1, hover.opened.2, cache, hm, ?_⟩
    rw [checkCache_reports_iff, nlibsOf_file hover.created, cacheData_toNat cache hlt]
    omega

end Tbouncer.Verdict
