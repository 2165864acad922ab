import Tbouncer.Base.TextLines
import Tbouncer.Instrument.Allman
import Tbouncer.Instrument.Grammar

/-!
# The tool on files

`modify_c_file` reads the lines of a file and overwrites it with more of them. It leaves
no mark that a file has been treated, so a second run treats it again.
-/

namespace Tbouncer.Instrument
open Base

section
variable (isalnum : Char → Bool) (script : Script)

/- What the file holds after modify_c_file(file_path); `none` is the UnicodeDecodeError
of readlines. -/
def modifyFile (filePath : Text) (content : Bytes) : Option Bytes :=
  (readText content).map fun text =>
    match modifyCFile isalnum script filePath (readLines text) with
    | none => content
    | some out => encodeUtf8 out.flatten

/- The same file treated `n` times. -/
def modifyTimes (filePath : Text) (content : Bytes) : ℕ → Option Bytes
  | 0 => some content
  | n + 1 => (modifyTimes filePath content n).bind (modifyFile isalnum script filePath)

/- A name without characters that mean something to the scan or to readlines. -/
def Quiet (base : Text) : Prop := ∀ c ∈ base, c ∉ [openBrace, closeBrace, '=', '\n', '\r']

instance : DecidablePred Quiet := fun base =>
  List.decidableBAll (fun c => c ∉ [openBrace, closeBrace, '=', '\n', '\r']) base

variable {isalnum script}

/-! ### A coordination line in the scanned file -/

theorem not_mem_around {front base back : Text} {c : Char} (hfront : c ∉ front) (hbase : c ∉ base)
    (hback : c ∉ back) : c ∉ front ++ base ++ back := by
  simp only [List.mem_append, hfront, hbase, hback, or_self, not_false_eq_true]

theorem not_mem_coordinationLine {base : Text} {c : Char} (hbase : c ∉ base)
    (hfront : c ∉ "    write_coordination_file(\"".toList) (hback : c ∉ "\");\n".toList) :
    c ∉ coordinationLine base :=
  not_mem_around hfront hbase hback

theorem Quiet.not_mem {base : Text} (h : Quiet base) {c : Char}
    (hc : c ∈ [openBrace, closeBrace, '=', '\n', '\r']) : c ∉ base :=
  fun hmem => h c hmem hc

theorem braceDelta_coordinationLine {base : Text} (h : Quiet base) :
    braceDelta (coordinationLine base) = 0 := by
  have hopen : openBrace ∉ coordinationLine base :=
    not_mem_coordinationLine (h.not_mem (by decide)) (by decide) (by decide)
  have hclose : closeBrace ∉ coordinationLine base :=
    not_mem_coordinationLine (h.not_mem (by decide)) (by decide) (by decide)
  rw [braceDelta, List.count_eq_zero.mpr hopen, List.count_eq_zero.mpr hclose]
  rfl

theorem isBlockOpen_coordinationLine {base : Text} (h : Quiet base) :
    isBlockOpen (coordinationLine base) = false := by
  by_contra hopen
  have hdelta := braceDelta_of_isBlockOpen (Bool.eq_true_of_not_eq_false hopen)
  rw [braceDelta_coordinationLine h] at hdelta
  cases hdelta

/- The assignment pattern needs a sign of equality. -/
theorem search_coordinationLine (isalnum : Char → Bool) {base : Text} (h : Quiet base) :
    Pattern.search assignment (Pattern.plus (word isalnum)) (coordinationLine base) = none := by
  have hsign : '=' ∉ coordinationLine base :=
    not_mem_coordinationLine (h.not_mem (by decide)) (by decide) (by decide)
  rw [search_assignment_none_iff]
  rintro ⟨before, m, name, rest, hline, ⟨field, a, b, -, -, -, rfl⟩, -⟩
  rw [hline] at hsign
  simp at hsign

theorem bodyLevel_cons_coordinationLine {base : Text} (h : Quiet base) (lines : List Text) :
    bodyLevel (coordinationLine base :: lines) = bodyLevel lines := by
  rw [bodyLevel, List.map_cons, List.sum_cons, braceDelta_coordinationLine h, zero_add, bodyLevel]

theorem quiet_zero : Quiet "0".toList := by decide

theorem bodyLevel_snoc_zero (lines later : List Text) :
    bodyLevel (lines ++ coordinationLine "0".toList :: later) = bodyLevel (lines ++ later) := by
  simp only [bodyLevel, List.map_append, List.sum_append, List.map_cons, List.sum_cons,
    braceDelta_coordinationLine quiet_zero, zero_add]

/-- What a run leaves is scanned like what it found. -/
theorem Parts.Allman.again {p : Parts} {name base : Text} (h : p.Allman isalnum script name)
    (hbase : Quiet base) : (p.again base).Allman isalnum script name where
  named := by
    have hcode := h.named
    have hfirst := search_coordinationLine isalnum hbase
    have hlast := search_coordinationLine isalnum quiet_zero
    simp only [testFunctionName, Parts.code, Parts.again, List.findSome?_append,
      List.findSome?_cons, List.findSome?_nil, List.cons_append, Option.or_none, hfirst,
      hlast] at hcode ⊢
    exact hcode
  above := h.above
  signature := h.signature
  opening := h.opening
  inside q hq := by
    cases q with
    | nil => decide
    | cons line q =>
      rw [Parts.again, List.cons_prefix_cons] at hq
      obtain ⟨rfl, hq⟩ := hq
      rw [bodyLevel_cons_coordinationLine hbase]
      rcases List.prefix_concat_iff.mp hq with rfl | hq
      · have hlevel := bodyLevel_snoc_zero p.body []
        rw [List.append_nil] at hlevel
        rw [hlevel]
        exact h.inside p.body (List.prefix_refl _)
      · exact h.inside q hq
  noBlock line hline := by
    rcases List.mem_cons.mp hline with rfl | hline
    · exact isBlockOpen_coordinationLine hbase
    · rcases List.mem_append.mp hline with hline | hline
      · exact h.noBlock line hline
      · rw [List.mem_singleton.mp hline]
        exact isBlockOpen_coordinationLine quiet_zero
  closing := h.closing
  balanced := by
    show bodyLevel (coordinationLine base :: (p.body ++ [coordinationLine "0".toList]) ++
      [p.closing]) = 0
    rw [List.cons_append, bodyLevel_cons_coordinationLine hbase, List.append_assoc,
      List.singleton_append, bodyLevel_snoc_zero]
    exact h.balanced
  below := h.below

/-! ### Run after run -/

/- The parts after `n` runs. -/
def Parts.times (base : Text) (n : ℕ) (p : Parts) : Parts :=
  { p with
    body := List.replicate n (coordinationLine base) ++ p.body ++
      List.replicate n (coordinationLine "0".toList) }

theorem Parts.times_zero (base : Text) (p : Parts) : p.times base 0 = p := by
  simp [Parts.times]

theorem Parts.again_times (base : Text) (n : ℕ) (p : Parts) :
    (p.times base n).again base = p.times base (n + 1) := by
  simp only [Parts.again, Parts.times, List.replicate_succ (n := n) (a := coordinationLine base),
    List.replicate_succ', List.cons_append, List.append_assoc]

theorem Parts.Allman.times {p : Parts} {name base : Text} (h : p.Allman isalnum script name)
    (hbase : Quiet base) (n : ℕ) : (p.times base n).Allman isalnum script name := by
  induction n with
  | zero =>
    rw [Parts.times_zero]
    exact h
  | succ n ih =>
    rw [← Parts.again_times]
    exact ih.again hbase

/- Written out and read in again, the parts are the same lines. -/
structure Parts.Readable (p : Parts) : Prop where
  lines : readLines p.code.flatten = p.code
  no_cr : '\r' ∉ p.code.flatten

theorem wholeLine_around {front base back : Text} (hfront : '\n' ∉ front) (hbase : '\n' ∉ base)
    (hback : '\n' ∉ back) : WholeLine (front ++ base ++ (back ++ ['\n'])) :=
  ⟨front ++ base ++ back, (List.append_assoc ..).symm, not_mem_around hfront hbase hback⟩

theorem wholeLine_coordinationLine {base : Text} (h : Quiet base) :
    WholeLine (coordinationLine base) := by
  have hend : "\");\n".toList = "\");".toList ++ ['\n'] := by decide
  have hline : WholeLine ("    write_coordination_file(\"".toList ++ base ++
      ("\");".toList ++ ['\n'])) :=
    wholeLine_around (by decide) (h.not_mem (by decide)) (by decide)
  rw [← hend] at hline
  exact hline

theorem Parts.Readable.again {p : Parts} {base : Text} (h : p.Readable) (hbase : Quiet base) :
    (p.again base).Readable where
  lines := by
    have hone : ∀ b, Quiet b → ∀ line ∈ [coordinationLine b], WholeLine line := by
      intro b hb line hline
      rw [List.mem_singleton.mp hline]
      exact wholeLine_coordinationLine hb
    have hcode : p.code = (p.pre ++ [p.signature, p.opening]) ++ (p.body ++ p.closing :: p.post) := by
      simp [Parts.code]
    have hfirst := h.lines
    conv at hfirst => rhs; rw [hcode]
    have hsecond := readLines_insert hfirst (by simp) (hone base hbase)
    have hsplit : p.pre ++ [p.signature, p.opening] ++ [coordinationLine base] ++
        (p.body ++ p.closing :: p.post) =
        (p.pre ++ [p.signature, p.opening] ++ [coordinationLine base] ++ p.body) ++
          p.closing :: p.post := by simp
    rw [hsplit] at hsecond
    have hthird := readLines_insert hsecond (by simp) (hone _ quiet_zero)
    have hagain : (p.again base).code =
        p.pre ++ [p.signature, p.opening] ++ [coordinationLine base] ++ p.body ++
          [coordinationLine "0".toList] ++ p.closing :: p.post := by
      simp [Parts.again, Parts.code]
    rw [hagain]
    exact hthird
  no_cr := by
    intro hmem
    obtain ⟨line, hline, hcr⟩ := List.mem_flatten.mp hmem
    have hcases : line ∈ p.code ∨ line = coordinationLine base ∨
        line = coordinationLine "0".toList := by
      simp only [Parts.again, Parts.code, List.mem_append, List.mem_cons, List.not_mem_nil,
        or_false] at hline ⊢
      tauto
    have hquiet : ∀ b, Quiet b → '\r' ∉ coordinationLine b := fun b hb =>
      not_mem_coordinationLine (hb.not_mem (by decide)) (by decide) (by decide)
    rcases hcases with hold | rfl | rfl
    · exact h.no_cr (List.mem_flatten.mpr ⟨line, hold, hcr⟩)
    · exact hquiet base hbase hcr
    · exact hquiet _ quiet_zero hcr

theorem Parts.Readable.times {p : Parts} {base : Text} (h : p.Readable) (hbase : Quiet base)
    (n : ℕ) : (p.times base n).Readable := by
  induction n with
  | zero =>
    rw [Parts.times_zero]
    exact h
  | succ n ih =>
    rw [← Parts.again_times]
    exact ih.again hbase

/- One run on a file with these lines. -/
theorem modifyFile_parts {p : Parts} {name : Text} (h : p.Allman isalnum script name)
    {filePath : Text} {content : Bytes} {text : Text} (hread : readText content = some text)
    (hlines : readLines text = p.code) :
    modifyFile isalnum script filePath content =
      some (encodeUtf8 (p.again (splitextRoot (basename filePath))).code.flatten) := by
  rw [modifyFile, hread, Option.map_some, hlines, h.modify filePath]

theorem modifyTimes_parts {p : Parts} {name : Text} (h : p.Allman isalnum script name)
    {filePath : Text} (hbase : Quiet (splitextRoot (basename filePath))) {content : Bytes}
    {text : Text} (hread : readText content = some text) (hlines : readLines text = p.code)
    (n : ℕ) :
    modifyTimes isalnum script filePath content (n + 1) =
      some (encodeUtf8 (p.times (splitextRoot (basename filePath)) (n + 1)).code.flatten) := by
  have hreadable : p.Readable := by
    have hflat := flatten_readLines text
    rw [hlines] at hflat
    refine ⟨by rw [hflat, hlines], ?_⟩
    rw [hflat]
    exact no_cr_of_readText hread
  induction n with
  | zero =>
    rw [modifyTimes, modifyTimes, Option.bind_some, modifyFile_parts h hread hlines,
      ← Parts.again_times, Parts.times_zero]
  | succ n ih =>
    have hthen := hreadable.times hbase (n + 1)
    rw [modifyTimes, ih, Option.bind_some,
      modifyFile_parts (h.times hbase (n + 1)) (readText_of_no_cr hthen.no_cr) hthen.lines,
      Parts.again_times]

/-- The tool is not idempotent: every further run adds one more pair of writes to a file
in the Allman layout, and changes nothing else. -/
theorem modify_repeatedly (filePath : Text) (content : Bytes) (text name : Text) (d c : ℕ)
    (hread : readText content = some text)
    (h : AllmanLayout isalnum script (readLines text) name d c)
    (hbase : Quiet (splitextRoot (basename filePath))) (n : ℕ) :
    modifyTimes isalnum script filePath content (n + 1) =
      some (encodeUtf8 ((readLines text).take (d + 2) ++
        List.replicate (n + 1) (coordinationLine (splitextRoot (basename filePath))) ++
          slice (readLines text) (d + 2) c ++
            List.replicate (n + 1) (coordinationLine "0".toList) ++
              (readLines text).drop c).flatten) := by
  obtain ⟨p, hcode, hp, htake, hbody, hdrop⟩ := h.cut
  rw [modifyTimes_parts hp hbase hread hcode.symm n, ← htake, ← hbody, ← hdrop]
  simp [Parts.times, Parts.code]

theorem modify_repeatedly_mmap18 :
    modifyTimes Char.isAlphanum .syscalls "./mmap/mmap18.c".toList (encodeUtf8 mmap18.flatten)
        (1 + 1) =
      some (encodeUtf8 ((readLines mmap18.flatten).take (0 + 2) ++
        List.replicate (1 + 1) (coordinationLine (splitextRoot (basename "./mmap/mmap18.c".toList))) ++
          slice (readLines mmap18.flatten) (0 + 2) 9 ++
            List.replicate (1 + 1) (coordinationLine "0".toList) ++
              (readLines mmap18.flatten).drop 9).flatten) := by
  have hlines : readLines mmap18.flatten = mmap18 := by decide +kernel
  have hread : readText (encodeUtf8 mmap18.flatten) = some mmap18.flatten :=
    readText_of_no_cr (by decide +kernel)
  have hlayout : AllmanLayout Char.isAlphanum .syscalls (readLines mmap18.flatten)
      "run_test".toList 0 9 := by
    rw [hlines]
    exact mmap18_layout
  have hbase : Quiet (splitextRoot (basename "./mmap/mmap18.c".toList)) := by decide
  exact modify_repeatedly "./mmap/mmap18.c".toList _ _ "run_test".toList 0 9 hread hlayout hbase 1

end

end Tbouncer.Instrument
