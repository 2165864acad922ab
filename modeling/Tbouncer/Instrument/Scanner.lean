import Mathlib.Tactic.Ring
import Tbouncer.Base.Pattern

/-!
# The instrumentation tool (`syscalls/modify.py`)

`modify_c_file` looks for the function assigned to `.test` or `.test_all` and adds
two coordination writes to it, scanning the file line by line. The copies of the
script under `syscalls` and `syscalls/accept` differ in the pattern of the
definition only.
-/

namespace Tbouncer.Instrument
open Base Pattern

inductive Script where
  | syscalls
  | accept

section
variable (isalnum : Char → Bool)

def space : Pattern := char isSpace
def word : Pattern := char fun c => isalnum c || c == '_'

/- `\.(test|test_all)\s*=\s*`, what precedes the captured `(\w+)`. -/
def assignment : Pattern :=
  seq (lit ".".toList) (seq (alt (lit "test".toList) (lit "test_all".toList))
    (seq (star space) (seq (lit "=".toList) (star space))))

/- Step 1: the first line with an assignment gives the name. -/
def testFunctionName (code : List Text) : Option Text :=
  code.findSome? (search assignment (plus (word isalnum)))

/- `(static\s+|inline\s+|static\s+inline\s+)?` in `syscalls/modify.py`, absent from
`syscalls/accept/modify.py`. -/
def storage : Script → Pattern
  | .syscalls =>
      opt (alt (seq (lit "static".toList) (plus space))
        (alt (seq (lit "inline".toList) (plus space))
          (seq (lit "static".toList) (seq (plus space) (seq (lit "inline".toList) (plus space))))))
  | .accept => empty

/- `\s*` storage `void\s+` name `\s*\(.*\)\s*`. -/
def definition (script : Script) (name : Text) : Pattern :=
  seq (star space) (seq (storage script) (seq (lit "void".toList) (seq (plus space)
    (seq (lit name) (seq (star space) (seq (lit "(".toList)
      (seq (star (char (· ≠ '\n'))) (seq (lit ")".toList) (star space)))))))))

def isDefinition (script : Script) (name line : Text) : Bool :=
  matchesAt (definition script name) line

def coordinationLine (data : Text) : Text :=
  "    write_coordination_file(\"".toList ++ data ++ "\");\n".toList

structure Scan where
  modifiedCode : List Text
  inFunction : Bool
  braceLevel : ℤ
  endAppend : Bool

def Scan.start : Scan := ⟨[], false, 0, false⟩

def openBrace : Char := '\x7b'
def closeBrace : Char := '\x7d'

def braceDelta (line : Text) : ℤ := (line.count openBrace : ℤ) - (line.count closeBrace : ℤ)

def isBlockOpen (line : Text) : Bool := strip line = [openBrace]

/- Step 2, one line (`modify.py:31-58`). -/
def scanLine (isDef : Text → Bool) (base : Text) (s : Scan) (line : Text) : Scan :=
  if !s.inFunction then
    if isDef line then
      { s with inFunction := true, modifiedCode := s.modifiedCode ++ [line] }
    else { s with modifiedCode := s.modifiedCode ++ [line] }
  else if isBlockOpen line then
    { s with
      braceLevel := s.braceLevel + 1
      modifiedCode := s.modifiedCode ++ [line] ++ [coordinationLine base] }
  else
    let level := s.braceLevel + braceDelta line
    if level = 0 then
      { modifiedCode :=
          (if !s.endAppend then s.modifiedCode ++ [coordinationLine "0".toList]
            else s.modifiedCode) ++ [line]
        endAppend := true
        braceLevel := level
        inFunction := false }
    else { s with braceLevel := level, modifiedCode := s.modifiedCode ++ [line] }

/-- The lines written back to `filePath`, or `none` where no test function is found
and the file is left alone. -/
def modifyCFile (script : Script) (filePath : Text) (code : List Text) : Option (List Text) :=
  (testFunctionName isalnum code).map fun name =>
    (code.foldl (scanLine (isDefinition script name) (splitextRoot (basename filePath)))
      Scan.start).modifiedCode

end

/-! ### The phases of a scan -/

section
variable {isDef : Text → Bool} {base : Text}

theorem scanLine_skip {s : Scan} {line : Text} (hs : s.inFunction = false)
    (hline : isDef line = false) :
    scanLine isDef base s line = { s with modifiedCode := s.modifiedCode ++ [line] } := by
  simp [scanLine, hs, hline]

theorem scanLine_enter {s : Scan} {line : Text} (hs : s.inFunction = false)
    (hline : isDef line = true) :
    scanLine isDef base s line =
      { s with inFunction := true, modifiedCode := s.modifiedCode ++ [line] } := by
  simp [scanLine, hs, hline]

theorem scanLine_open {s : Scan} {line : Text} (hs : s.inFunction = true)
    (hline : isBlockOpen line = true) :
    scanLine isDef base s line =
      { s with
        braceLevel := s.braceLevel + 1
        modifiedCode := s.modifiedCode ++ [line, coordinationLine base] } := by
  simp [scanLine, hs, hline]

theorem scanLine_inside {s : Scan} {line : Text} (hs : s.inFunction = true)
    (hline : isBlockOpen line = false) (hlevel : s.braceLevel + braceDelta line ≠ 0) :
    scanLine isDef base s line =
      { s with
        braceLevel := s.braceLevel + braceDelta line
        modifiedCode := s.modifiedCode ++ [line] } := by
  simp [scanLine, hs, hline, hlevel]

theorem scanLine_leave {s : Scan} {line : Text} (hs : s.inFunction = true)
    (hend : s.endAppend = false) (hline : isBlockOpen line = false)
    (hlevel : s.braceLevel + braceDelta line = 0) :
    scanLine isDef base s line =
      ⟨s.modifiedCode ++ [coordinationLine "0".toList, line], false, 0, true⟩ := by
  simp [scanLine, hs, hend, hline, hlevel]

theorem scan_skip (lines : List Text) (s : Scan) (hs : s.inFunction = false)
    (hlines : ∀ line ∈ lines, isDef line = false) :
    lines.foldl (scanLine isDef base) s = { s with modifiedCode := s.modifiedCode ++ lines } := by
  induction lines generalizing s with
  | nil => simp
  | cons line lines ih =>
    have hline := hlines line (List.mem_cons_self ..)
    have hrest := ih { s with modifiedCode := s.modifiedCode ++ [line] } hs
      fun l hl => hlines l (List.mem_cons_of_mem line hl)
    rw [List.foldl_cons, scanLine_skip hs hline, hrest]
    simp

/- An opening line of its own is followed by the base name. -/
def announced (base : Text) (line : Text) : List Text :=
  if isBlockOpen line then [line, coordinationLine base] else [line]

theorem braceDelta_of_isBlockOpen {line : Text} (h : isBlockOpen line = true) :
    braceDelta line = 1 := by
  have hs : strip line = [openBrace] := by simpa [isBlockOpen] using h
  have hf := (strip_eq_singleton_iff line openBrace (by decide)).mp hs
  have hcount : ∀ c, isSpace c = false → line.count c = [openBrace].count c := by
    intro c hc
    rw [← hf, List.count_filter (by simp [hc])]
  rw [braceDelta, hcount openBrace (by decide), hcount closeBrace (by decide)]
  decide

/-- The loop over a body: the level follows the running sum, and as long as it does
not come back to zero every line stays in place. -/
theorem scan_body (lines : List Text) (s : Scan) (hs : s.inFunction = true)
    (hlevel : ∀ p, p <+: lines → p ≠ [] → s.braceLevel + (p.map braceDelta).sum ≠ 0) :
    lines.foldl (scanLine isDef base) s =
      { s with
        braceLevel := s.braceLevel + (lines.map braceDelta).sum
        modifiedCode := s.modifiedCode ++ lines.flatMap (announced base) } := by
  induction lines generalizing s with
  | nil => simp
  | cons line lines ih =>
    have hfirst : s.braceLevel + braceDelta line ≠ 0 := by
      have := hlevel [line] ⟨lines, rfl⟩ (by simp)
      simpa using this
    have hrest : ∀ p, p <+: lines → p ≠ [] →
        s.braceLevel + braceDelta line + (p.map braceDelta).sum ≠ 0 := by
      intro p hp _
      have := hlevel (line :: p) (List.cons_prefix_cons.mpr ⟨rfl, hp⟩) (by simp)
      simpa [add_assoc] using this
    have hstep : scanLine isDef base s line =
        { s with
          braceLevel := s.braceLevel + braceDelta line
          modifiedCode := s.modifiedCode ++ announced base line } := by
      cases hopen : isBlockOpen line with
      | true => rw [scanLine_open hs hopen, braceDelta_of_isBlockOpen hopen, announced, hopen]; rfl
      | false => rw [scanLine_inside hs hopen hfirst, announced, hopen]; rfl
    rw [List.foldl_cons, hstep, ih { s with
      braceLevel := s.braceLevel + braceDelta line
      modifiedCode := s.modifiedCode ++ announced base line } hs hrest]
    simp [add_assoc]

end

end Tbouncer.Instrument
