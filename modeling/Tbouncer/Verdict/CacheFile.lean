import Tbouncer.Base.Terminated
import Tbouncer.Verdict.Honest

/-!
# The cache file

fstat_create_file.py and the setup of fstat04.c write the same file: a count and then the
names, each with the NUL that ends it. The names can be read back, whatever they are.
-/

namespace Tbouncer.Verdict
open Base Bpf

/- A reader of the format: the count in the first four bytes, then names up to each NUL. -/
def decodeCacheFile (file : Bytes) : Option (ℕ × List Text) :=
  if file.length < 4 then none
  else
    (unterminate 0 (file.drop 4)).bind fun names =>
      (names.mapM decodeUtf8).map fun libs => (leVal (file.take 4), libs)

theorem mapM_decodeUtf8_eq_some_iff {names : List Bytes} {libs : List Text} :
    names.mapM decodeUtf8 = some libs ↔ names = libs.map encodeUtf8 := by
  induction names generalizing libs with
  | nil => cases libs <;> simp
  | cons name names ih =>
    simp only [List.mapM_cons, Option.bind_eq_bind, Option.bind_eq_some_iff, decodeUtf8_eq_some_iff,
      ih, Option.pure_def, Option.some.injEq]
    constructor
    · rintro ⟨lib, rfl, libs', rfl, rfl⟩
      rfl
    · intro h
      cases libs with
      | nil => cases h
      | cons lib libs =>
        rw [List.map_cons, List.cons.injEq] at h
        exact ⟨lib, h.1, libs, h.2, rfl⟩

theorem createTestFile_eq_some_iff {nlibs : ℕ} {libs : List Text} {file : Bytes} :
    createTestFile nlibs libs = some file ↔
      nlibs < 2 ^ 32 ∧ leBytes 4 nlibs ++ terminate 0 (libs.map encodeUtf8) = file := by
  have hnames : terminate 0 (libs.map encodeUtf8) =
      libs.flatMap fun lib => encodeUtf8 lib ++ [0] := by
    rw [terminate, List.flatMap_map]
  rw [hnames, createTestFile, pack]
  split
  next h => simp only [Option.map_some, Option.some.injEq, h, true_and]
  next h => simp only [Option.map_none, h, false_and, reduceCtorEq]

theorem nulFree_iff (libs : List Text) :
    (∀ name ∈ libs.map encodeUtf8, 0 ∉ name) ↔ ∀ lib ∈ libs, Char.ofNat 0 ∉ lib := by
  simp [zero_mem_encodeUtf8]

theorem decodeCacheFile_written {file : Bytes} {nlibs : ℕ} {libs : List Text}
    (h : createTestFile nlibs libs = some file) (hfree : ∀ lib ∈ libs, Char.ofNat 0 ∉ lib) :
    decodeCacheFile file = some (nlibs, libs) := by
  obtain ⟨hlt, rfl⟩ := createTestFile_eq_some_iff.mp h
  have hfit : nlibs < 256 ^ 4 := hlt
  have hfour := leBytes_length 4 nlibs
  have hval : leVal (leBytes 4 nlibs) = nlibs := by
    rw [leVal_leBytes, Nat.mod_eq_of_lt hfit]
  have hlong : ¬ (leBytes 4 nlibs ++ terminate 0 (libs.map encodeUtf8)).length < 4 := by
    rw [List.length_append]
    omega
  rw [decodeCacheFile, if_neg hlong, List.drop_left' hfour, List.take_left' hfour, hval,
    unterminate_terminate 0 ((nulFree_iff libs).mpr hfree), Option.bind_some,
    mapM_decodeUtf8_eq_some_iff.mpr rfl, Option.map_some]

theorem written_of_decodeCacheFile {file : Bytes} {nlibs : ℕ} {libs : List Text}
    (h : decodeCacheFile file = some (nlibs, libs)) :
    createTestFile nlibs libs = some file ∧ ∀ lib ∈ libs, Char.ofNat 0 ∉ lib := by
  rw [decodeCacheFile] at h
  split at h
  next => cases h
  next hlong =>
    obtain ⟨names, hnames, h⟩ := Option.bind_eq_some_iff.mp h
    obtain ⟨ls, hls, h⟩ := Option.map_eq_some_iff.mp h
    cases h
    obtain ⟨hjoin, hfree⟩ := (unterminate_eq_some_iff 0).mp hnames
    rw [mapM_decodeUtf8_eq_some_iff.mp hls] at hjoin hfree
    have hfour : (file.take 4).length = 4 := by
      rw [List.length_take]
      omega
    have hlt := leVal_lt (file.take 4)
    have hcount := leBytes_leVal (file.take 4)
    rw [hfour] at hlt hcount
    refine ⟨createTestFile_eq_some_iff.mpr ⟨hlt, ?_⟩, (nulFree_iff libs).mp hfree⟩
    rw [hcount, hjoin, List.take_append_drop]

/-- The reader gets back what was written, and accepts nothing else. -/
theorem decodeCacheFile_eq_some_iff {file : Bytes} {nlibs : ℕ} {libs : List Text} :
    decodeCacheFile file = some (nlibs, libs) ↔
      createTestFile nlibs libs = some file ∧ ∀ lib ∈ libs, Char.ofNat 0 ∉ lib :=
  ⟨written_of_decodeCacheFile, fun h => decodeCacheFile_written h.1 h.2⟩

theorem createTestFile_isSome {nlibs : ℕ} (h : nlibs < 2 ^ 32) (libs : List Text) :
    ∃ file, createTestFile nlibs libs = some file :=
  ⟨_, createTestFile_eq_some_iff.mpr ⟨h, rfl⟩⟩

/-- The encoding is unambiguous. -/
theorem cacheFile_unambiguous (nlibs₁ nlibs₂ : ℕ) (libs₁ libs₂ : List Text)
    (hn₁ : nlibs₁ < 2 ^ 32) (hn₂ : nlibs₂ < 2 ^ 32)
    (hlibs₁ : ∀ lib ∈ libs₁, Char.ofNat 0 ∉ lib) (hlibs₂ : ∀ lib ∈ libs₂, Char.ofNat 0 ∉ lib) :
    (createTestFile nlibs₁ libs₁).bind decodeCacheFile = some (nlibs₁, libs₁) ∧
      (createTestFile nlibs₁ libs₁ = createTestFile nlibs₂ libs₂ →
        nlibs₁ = nlibs₂ ∧ libs₁ = libs₂) := by
  obtain ⟨file₁, h₁⟩ := createTestFile_isSome hn₁ libs₁
  obtain ⟨file₂, h₂⟩ := createTestFile_isSome hn₂ libs₂
  have hread₁ := decodeCacheFile_eq_some_iff.mpr ⟨h₁, hlibs₁⟩
  have hread₂ := decodeCacheFile_eq_some_iff.mpr ⟨h₂, hlibs₂⟩
  constructor
  · rw [h₁, Option.bind_some, hread₁]
  · intro hsame
    rw [h₁, h₂, Option.some.injEq] at hsame
    rw [hsame, hread₂, Option.some.injEq, Prod.mk.injEq] at hread₁
    exact ⟨hread₁.1.symm, hread₁.2.symm⟩

/- No name and one empty name. -/
theorem cacheFile_unambiguous_empty :
    (createTestFile 0 [[]]).bind decodeCacheFile = some (0, [[]]) ∧
      (createTestFile 0 [[]] = createTestFile 0 [] → 0 = 0 ∧ [[]] = ([] : List Text)) :=
  cacheFile_unambiguous 0 0 [[]] [] (by decide) (by decide) (by decide) (by decide)

end Tbouncer.Verdict
