import Tbouncer.Instrument.Scanner

/-!
# Where the tool inserts

The tool enters the function at every line that matches the pattern, be it a
definition, a prototype or a comment, and leaves it at the first line after which its
count of braces is zero. What it inserts depends on these visits alone: the base name
after each opening line of its own met on a visit, "0" where the first visit ends.
-/

namespace Tbouncer.Instrument
open Base

/- A line of the file, or an inserted line. -/
inductive Placed where
  | source (line : Text)
  | write (data : Text)
  deriving DecidableEq

def Placed.text : Placed → Text
  | .source line => line
  | .write data => coordinationLine data

def Placed.line? : Placed → Option Text
  | .source line => some line
  | .write _ => none

/- The inserted lines, each with the number of lines of the file above it. -/
def marks : ℕ → List Placed → List (ℕ × Text)
  | _, [] => []
  | i, .source _ :: ps => marks (i + 1) ps
  | i, .write data :: ps => (i, data) :: marks i ps

/-! ### The scan, line by line -/

/- A scan without the lines it has produced. -/
structure Mode where
  inFunction : Bool
  braceLevel : ℤ
  endAppend : Bool

def Mode.start : Mode := ⟨false, 0, false⟩
def Scan.mode (s : Scan) : Mode := ⟨s.inFunction, s.braceLevel, s.endAppend⟩

def zero : Text := ['0']

section
variable (isDef : Text → Bool) (base : Text)

def Mode.next (m : Mode) (line : Text) : Mode :=
  if !m.inFunction then { m with inFunction := isDef line }
  else if isBlockOpen line then { m with braceLevel := m.braceLevel + 1 }
  else if m.braceLevel + braceDelta line = 0 then ⟨false, 0, true⟩
  else { m with braceLevel := m.braceLevel + braceDelta line }

def Mode.emit (m : Mode) (line : Text) : List Placed :=
  if !m.inFunction then [.source line]
  else if isBlockOpen line then [.source line, .write base]
  else if m.braceLevel + braceDelta line = 0 && !m.endAppend then [.write zero, .source line]
  else [.source line]

def place : Mode → List Text → List Placed
  | _, [] => []
  | m, line :: lines => m.emit base line ++ place (m.next isDef line) lines

variable {isDef base}

theorem scanLine_mode (s : Scan) (line : Text) :
    (scanLine isDef base s line).mode = s.mode.next isDef line := by
  cases hin : s.inFunction with
  | false => cases hdef : isDef line <;> simp [scanLine, Mode.next, Scan.mode, hin, hdef]
  | true =>
    cases hopen : isBlockOpen line with
    | true => simp [scanLine, Mode.next, Scan.mode, hin, hopen]
    | false =>
      by_cases hlevel : s.braceLevel + braceDelta line = 0
      · simp [scanLine, Mode.next, Scan.mode, hin, hopen, hlevel]
      · simp [scanLine, Mode.next, Scan.mode, hin, hopen, hlevel]

theorem scanLine_emit (s : Scan) (line : Text) :
    (scanLine isDef base s line).modifiedCode =
      s.modifiedCode ++ (s.mode.emit base line).map Placed.text := by
  cases hin : s.inFunction with
  | false =>
    cases hdef : isDef line <;> simp [scanLine, Mode.emit, Scan.mode, Placed.text, hin, hdef]
  | true =>
    cases hopen : isBlockOpen line with
    | true => simp [scanLine, Mode.emit, Scan.mode, Placed.text, hin, hopen]
    | false =>
      by_cases hlevel : s.braceLevel + braceDelta line = 0
      · cases hend : s.endAppend <;>
          simp [scanLine, Mode.emit, Scan.mode, Placed.text, zero, hin, hopen, hlevel, hend]
      · simp [scanLine, Mode.emit, Scan.mode, Placed.text, hin, hopen, hlevel]

theorem scan_place (lines : List Text) (s : Scan) :
    (lines.foldl (scanLine isDef base) s).modifiedCode =
      s.modifiedCode ++ (place isDef base s.mode lines).map Placed.text := by
  induction lines generalizing s with
  | nil => simp [place]
  | cons line lines ih =>
    rw [List.foldl_cons, ih, scanLine_emit, scanLine_mode, place, List.map_append,
      List.append_assoc]

/- Without the inserted lines the file is as it was. -/
theorem place_sources (lines : List Text) (m : Mode) :
    (place isDef base m lines).filterMap Placed.line? = lines := by
  induction lines generalizing m with
  | nil => rfl
  | cons line lines ih =>
    have hemit : (m.emit base line).filterMap Placed.line? = [line] := by
      unfold Mode.emit
      split
      · rfl
      · split
        · rfl
        · split <;> rfl
    rw [place, List.filterMap_append, hemit, ih, List.singleton_append]

end

/-! ### Visits -/

/- From a matching line to the line where the tool leaves: `body` is what follows the
matching line, up to the closing line if there is one. -/
structure Visit where
  start : ℕ
  body : List Text
  closed : Bool

/- What is read up to the first line, other than an opening line of its own, at which
the sum of the brace counts is zero, and what comes behind that line. -/
def takeBody : ℤ → List Text → List Text × Option (List Text)
  | _, [] => ([], none)
  | level, line :: lines =>
      if !isBlockOpen line && level + braceDelta line = 0 then ([line], some lines)
      else
        (line :: (takeBody (level + braceDelta line) lines).1,
          (takeBody (level + braceDelta line) lines).2)

theorem takeBody_length (level : ℤ) (lines rest : List Text)
    (h : (takeBody level lines).2 = some rest) : rest.length < lines.length := by
  induction lines generalizing level with
  | nil => cases h
  | cons line lines ih =>
    rw [takeBody] at h
    split at h
    · cases h
      exact Nat.lt_succ_self _
    · exact Nat.lt_succ_of_lt (ih _ h)

def visits (isDef : Text → Bool) (i : ℕ) : List Text → List Visit
  | [] => []
  | line :: lines =>
      if isDef line then
        match h : (takeBody 0 lines).2 with
        | some rest =>
            ⟨i, (takeBody 0 lines).1, true⟩ ::
              visits isDef (i + 1 + (takeBody 0 lines).1.length) rest
        | none => [⟨i, (takeBody 0 lines).1, false⟩]
      else visits isDef (i + 1) lines
  termination_by lines => lines.length
  decreasing_by
    · exact Nat.lt_succ_of_lt (takeBody_length 0 lines rest h)
    · exact Nat.lt_succ_self _

theorem visits_closed {isDef : Text → Bool} {i : ℕ} {line : Text} {lines rest : List Text}
    (hdef : isDef line = true) (hbody : (takeBody 0 lines).2 = some rest) :
    visits isDef i (line :: lines) =
      ⟨i, (takeBody 0 lines).1, true⟩ ::
        visits isDef (i + 1 + (takeBody 0 lines).1.length) rest := by
  rw [visits, if_pos hdef]
  split
  next r hr =>
    rw [hbody] at hr
    cases hr
    rfl
  next hr =>
    rw [hbody] at hr
    cases hr

theorem visits_open {isDef : Text → Bool} {i : ℕ} {line : Text} {lines : List Text}
    (hdef : isDef line = true) (hbody : (takeBody 0 lines).2 = none) :
    visits isDef i (line :: lines) = [⟨i, (takeBody 0 lines).1, false⟩] := by
  rw [visits, if_pos hdef]
  split
  next r hr =>
    rw [hbody] at hr
    cases hr
  next => rfl

def openMarks (base : Text) : ℕ → List Text → List (ℕ × Text)
  | _, [] => []
  | i, line :: lines =>
      if isBlockOpen line then (i + 1, base) :: openMarks base (i + 1) lines
      else openMarks base (i + 1) lines

/- What is inserted on a visit, `ended` telling whether an earlier one has ended. -/
def Visit.marks (base : Text) (ended : Bool) (v : Visit) : List (ℕ × Text) :=
  openMarks base (v.start + 1) v.body ++
    if v.closed && !ended then [(v.start + v.body.length, zero)] else []

def visitMarks (base : Text) : Bool → List Visit → List (ℕ × Text)
  | _, [] => []
  | ended, v :: vs => v.marks base ended ++ visitMarks base (ended || v.closed) vs

section
variable {isDef : Text → Bool} {base : Text}

/- The line ends the visit. -/
def Leaves (level : ℤ) (line : Text) : Prop :=
  isBlockOpen line = false ∧ level + braceDelta line = 0

theorem takeBody_leaves {level : ℤ} {line : Text} (h : Leaves level line) (lines : List Text) :
    takeBody level (line :: lines) = ([line], some lines) := by
  simp [takeBody, h.1, h.2]

theorem takeBody_stays {level : ℤ} {line : Text} (h : ¬ Leaves level line) (lines : List Text) :
    takeBody level (line :: lines) =
      (line :: (takeBody (level + braceDelta line) lines).1,
        (takeBody (level + braceDelta line) lines).2) := by
  rw [takeBody, if_neg]
  simpa [Leaves] using h

theorem place_leaves {level : ℤ} {line : Text} (h : Leaves level line) (start : ℕ) (ended : Bool)
    (lines : List Text) :
    marks (start + 1) (place isDef base ⟨true, level, ended⟩ (line :: lines)) =
      (Visit.mk start [line] true).marks base ended ++
        marks (start + 2) (place isDef base ⟨false, 0, true⟩ lines) := by
  obtain ⟨hopen, hlevel⟩ := h
  cases ended with
  | true => simp [place, Mode.emit, Mode.next, marks, Visit.marks, openMarks, hopen, hlevel]
  | false => simp [place, Mode.emit, Mode.next, marks, Visit.marks, openMarks, hopen, hlevel]

theorem place_stays {level : ℤ} {line : Text} (h : ¬ Leaves level line) (start : ℕ)
    (ended : Bool) (lines : List Text) :
    marks (start + 1) (place isDef base ⟨true, level, ended⟩ (line :: lines)) =
      (if isBlockOpen line then [(start + 2, base)] else []) ++
        marks (start + 2) (place isDef base ⟨true, level + braceDelta line, ended⟩ lines) := by
  cases hopen : isBlockOpen line with
  | true =>
    have hdelta := braceDelta_of_isBlockOpen hopen
    simp [place, Mode.emit, Mode.next, marks, hopen, hdelta]
  | false =>
    have hlevel : level + braceDelta line ≠ 0 := fun hz => h ⟨hopen, hz⟩
    simp [place, Mode.emit, Mode.next, marks, hopen, hlevel]

/- One more line at the front of a visit. -/
theorem visit_marks_cons (start : ℕ) (line : Text) (body : List Text) (closed ended : Bool) :
    (Visit.mk start (line :: body) closed).marks base ended =
      (if isBlockOpen line then [(start + 2, base)] else []) ++
        (Visit.mk (start + 1) body closed).marks base ended := by
  have hend : start + (line :: body).length = start + 1 + body.length := by
    rw [List.length_cons]
    omega
  rw [Visit.marks, Visit.marks, openMarks]
  dsimp only
  rw [hend]
  split
  · rfl
  · rfl

/- On a visit, up to its end. -/
theorem marks_visit (lines : List Text) (start : ℕ) (level : ℤ) (ended : Bool) :
    marks (start + 1) (place isDef base ⟨true, level, ended⟩ lines) =
      match (takeBody level lines).2 with
      | some rest =>
          (Visit.mk start (takeBody level lines).1 true).marks base ended ++
            marks (start + 1 + (takeBody level lines).1.length)
              (place isDef base ⟨false, 0, true⟩ rest)
      | none => (Visit.mk start (takeBody level lines).1 false).marks base ended := by
  induction lines generalizing start level with
  | nil => rfl
  | cons line lines ih =>
    by_cases hleaves : Leaves level line
    · rw [takeBody_leaves hleaves, place_leaves hleaves]
      rfl
    · rw [takeBody_stays hleaves, place_stays hleaves, ih (start + 1)]
      dsimp only
      have hlen : start + 1 + (line :: (takeBody (level + braceDelta line) lines).1).length =
          start + 1 + 1 + (takeBody (level + braceDelta line) lines).1.length := by
        rw [List.length_cons]
        omega
      rw [hlen]
      cases (takeBody (level + braceDelta line) lines).2 with
      | some rest =>
        dsimp only
        rw [visit_marks_cons, List.append_assoc]
      | none =>
        dsimp only
        rw [visit_marks_cons]

theorem place_enter {line : Text} (hdef : isDef line = true) (i : ℕ) (ended : Bool)
    (lines : List Text) :
    marks i (place isDef base ⟨false, 0, ended⟩ (line :: lines)) =
      marks (i + 1) (place isDef base ⟨true, 0, ended⟩ lines) := by
  simp [place, Mode.emit, Mode.next, marks, hdef]

theorem place_skip {line : Text} (hdef : ¬ isDef line = true) (i : ℕ) (ended : Bool)
    (lines : List Text) :
    marks i (place isDef base ⟨false, 0, ended⟩ (line :: lines)) =
      marks (i + 1) (place isDef base ⟨false, 0, ended⟩ lines) := by
  simp [place, Mode.emit, Mode.next, marks, hdef]

/-- What the tool inserts, and where, is what its visits say. -/
theorem marks_place (i : ℕ) (lines : List Text) (ended : Bool) :
    marks i (place isDef base ⟨false, 0, ended⟩ lines) =
      visitMarks base ended (visits isDef i lines) := by
  induction i, lines using visits.induct isDef generalizing ended with
  | case1 i => simp [visits, visitMarks, place, marks]
  | case2 i line lines hdef rest hbody ih =>
    rw [place_enter hdef, marks_visit, hbody, visits_closed hdef hbody, visitMarks]
    dsimp only
    rw [ih true, Bool.or_true]
  | case3 i line lines hdef hbody =>
    rw [place_enter hdef, marks_visit, hbody, visits_open hdef hbody, visitMarks, visitMarks,
      List.append_nil]
  | case4 i line lines hdef ih =>
    rw [place_skip hdef, ih ended, visits, if_neg hdef]

/- A visit that does not close is the last. -/
theorem rest_of_not_closed (i : ℕ) (lines : List Text) {v : Visit} {vs : List Visit}
    (h : visits isDef i lines = v :: vs) (hv : v.closed = false) : vs = [] := by
  induction i, lines using visits.induct isDef with
  | case1 i =>
    rw [visits] at h
    cases h
  | case2 i line lines hdef rest hbody ih =>
    rw [visits_closed hdef hbody] at h
    cases h
    cases hv
  | case3 i line lines hdef hbody =>
    rw [visits_open hdef hbody] at h
    cases h
    rfl
  | case4 i line lines hdef ih =>
    rw [visits, if_neg hdef] at h
    exact ih h

/-! ### Pairs of writes -/

def Visit.opens (v : Visit) : ℕ := v.body.countP isBlockOpen

def openings (vs : List Visit) : ℕ := (vs.map Visit.opens).sum

/- The inserted lines are none, or one for the base name and then one for "0". -/
def Paired (base : Text) (writes : List Text) : Prop := writes = [] ∨ writes = [base, zero]

/- Nothing is met that leads to a line; or the first visit closes and meets the one
opening line of all visits; or, the base name being "0", two lines are inserted. -/
def Balanced (base : Text) : List Visit → Prop
  | [] => True
  | v :: vs =>
      (v.closed = false ∧ openings (v :: vs) = 0) ∨
      (v.closed = true ∧ v.opens = 1 ∧ openings vs = 0) ∨
      (base = zero ∧ openings (v :: vs) + (if v.closed then 1 else 0) = 2)

theorem openMarks_writes (i : ℕ) (lines : List Text) :
    (openMarks base i lines).map Prod.snd = List.replicate (lines.countP isBlockOpen) base := by
  induction lines generalizing i with
  | nil => rfl
  | cons line lines ih =>
    cases hopen : isBlockOpen line with
    | true => simp [openMarks, hopen, ih, List.replicate_succ]
    | false => simp [openMarks, hopen, ih]

/- Once "0" has been written only opening lines count. -/
theorem visitMarks_ended (vs : List Visit) :
    (visitMarks base true vs).map Prod.snd = List.replicate (openings vs) base := by
  induction vs with
  | nil => rfl
  | cons v vs ih =>
    have hsum : openings (v :: vs) = v.opens + openings vs := by simp [openings]
    rw [visitMarks, Bool.true_or, List.map_append, ih, hsum, List.replicate_add]
    simp [Visit.marks, openMarks_writes, Visit.opens]

theorem visitMarks_cons (v : Visit) (vs : List Visit) (hlast : v.closed = false → vs = []) :
    (visitMarks base false (v :: vs)).map Prod.snd =
      if v.closed then List.replicate v.opens base ++ zero :: List.replicate (openings vs) base
      else List.replicate v.opens base := by
  cases hv : v.closed with
  | true =>
    rw [visitMarks, hv, Bool.or_true, List.map_append, visitMarks_ended]
    simp [Visit.marks, openMarks_writes, Visit.opens, hv]
  | false =>
    rw [hlast hv]
    simp [visitMarks, Visit.marks, openMarks_writes, Visit.opens, hv]

theorem paired_replicate (n : ℕ) :
    Paired base (List.replicate n base) ↔ n = 0 ∨ (base = zero ∧ n = 2) := by
  match n with
  | 0 => simp [Paired]
  | 1 => simp [Paired]
  | 2 => simp [Paired, List.replicate_succ]
  | n + 3 => simp [Paired, List.replicate_succ]

theorem paired_closed (m n : ℕ) :
    Paired base (List.replicate m base ++ zero :: List.replicate n base) ↔
      (m = 1 ∧ n = 0) ∨ (base = zero ∧ m + n = 1) := by
  match m, n with
  | 0, 0 => simp [Paired]
  | 0, 1 =>
    have hswap : zero = base ∧ base = zero ↔ base = zero :=
      ⟨fun h => h.2, fun h => ⟨h.symm, h⟩⟩
    simpa [Paired] using hswap
  | 0, n + 2 => simp [Paired, List.replicate_succ]
  | 1, 0 => simp [Paired]
  | 1, n + 1 => simp [Paired, List.replicate_succ]
  | m + 2, n =>
    have hmany : ¬ m + 2 + n = 1 := by omega
    simp [Paired, List.replicate_succ, hmany]

theorem paired_iff_balanced (vs : List Visit)
    (hlast : ∀ v rest, vs = v :: rest → v.closed = false → rest = []) :
    Paired base ((visitMarks base false vs).map Prod.snd) ↔ Balanced base vs := by
  cases vs with
  | nil => simp [visitMarks, Paired, Balanced]
  | cons v vs =>
    have hsum : openings (v :: vs) = v.opens + openings vs := by simp [openings]
    rw [visitMarks_cons v vs (hlast v vs rfl)]
    cases hv : v.closed with
    | true =>
      simp only [if_true, paired_closed, Balanced, hv, hsum]
      grind
    | false =>
      have hnil := hlast v vs rfl hv
      simp only [hnil, Bool.false_eq_true, if_false, paired_replicate, Balanced, hv, openings]
      simp

end

section
variable (isalnum : Char → Bool) (script : Script)

/- The file as it is written back, inserted lines told apart. -/
def placedCode (filePath : Text) (code : List Text) (name : Text) : List Placed :=
  place (isDefinition script name) (splitextRoot (basename filePath)) Mode.start code

/- What the inserted lines write, from top to bottom. -/
def insertedWrites (filePath : Text) (code : List Text) (name : Text) : List Text :=
  (marks 0 (placedCode script filePath code name)).map Prod.snd

variable {isalnum}

theorem modifyCFile_placed (filePath : Text) (code : List Text) {name : Text}
    (hname : testFunctionName isalnum code = some name) :
    modifyCFile isalnum script filePath code =
        some ((placedCode script filePath code name).map Placed.text) ∧
      (placedCode script filePath code name).filterMap Placed.line? = code := by
  refine ⟨?_, place_sources code Mode.start⟩
  rw [modifyCFile, hname, Option.map_some, scan_place]
  rfl

/-- The inserted lines are paired exactly for the balanced files. -/
theorem writes_paired_iff (filePath : Text) (code : List Text) (name : Text)
    (hname : testFunctionName isalnum code = some name) :
    (modifyCFile isalnum script filePath code =
        some ((placedCode script filePath code name).map Placed.text) ∧
      (placedCode script filePath code name).filterMap Placed.line? = code) ∧
      (Paired (splitextRoot (basename filePath)) (insertedWrites script filePath code name) ↔
        Balanced (splitextRoot (basename filePath))
          (visits (isDefinition script name) 0 code)) := by
  refine ⟨modifyCFile_placed script filePath code hname, ?_⟩
  have hmarks : marks 0 (placedCode script filePath code name) =
      visitMarks (splitextRoot (basename filePath)) false
        (visits (isDefinition script name) 0 code) := marks_place 0 code false
  rw [insertedWrites, hmarks]
  exact paired_iff_balanced _ fun v rest h hv => rest_of_not_closed 0 code h hv

end

/- mbind/mbind01.c before instrumentation: a prototype of its test function, the
line that names it and the function. -/
def mbind01 : List Text :=
  ["static void test_none(unsigned int i, char *p);\n".toList,
    "static void test_invalid_nodemask(unsigned int i, char *p);\n".toList,
    "\n".toList,
    "static struct test_case tcase[] = \x7b\n".toList,
    "\t\x7b .test = test_none \x7d,\n".toList,
    "\x7d;\n".toList,
    "\n".toList,
    "static void test_none(unsigned int i, char *p)\n".toList,
    "\x7b\n".toList,
    "\tTEST(mbind(p, MEM_LENGTH, tcase[i].policy, NULL, 0, tcase[i].flags));\n".toList,
    "\x7d\n".toList]

theorem mbind01_named : testFunctionName Char.isAlphanum mbind01 = some "test_none".toList := by
  decide +kernel

theorem mbind01_writes :
    insertedWrites .syscalls "./mbind/mbind01.c".toList mbind01 "test_none".toList =
      [zero, "mbind01".toList] := by
  decide +kernel

theorem writes_paired_iff_mbind01 :
    (modifyCFile Char.isAlphanum .syscalls "./mbind/mbind01.c".toList mbind01 =
        some ((placedCode .syscalls "./mbind/mbind01.c".toList mbind01
          "test_none".toList).map Placed.text) ∧
      (placedCode .syscalls "./mbind/mbind01.c".toList mbind01
        "test_none".toList).filterMap Placed.line? = mbind01) ∧
      (Paired (splitextRoot (basename "./mbind/mbind01.c".toList))
          (insertedWrites .syscalls "./mbind/mbind01.c".toList mbind01 "test_none".toList) ↔
        Balanced (splitextRoot (basename "./mbind/mbind01.c".toList))
          (visits (isDefinition .syscalls "test_none".toList) 0 mbind01)) :=
  writes_paired_iff .syscalls "./mbind/mbind01.c".toList mbind01 "test_none".toList mbind01_named

/-- The prototype takes the "0" (`mbind01.c:36`), the function the base name. -/
theorem writes_not_paired :
    ¬ ∀ (filePath : Text) (code : List Text) (name : Text),
      testFunctionName Char.isAlphanum code = some name →
        Paired (splitextRoot (basename filePath)) (insertedWrites .syscalls filePath code name) := by
  intro h
  have hpair := h "./mbind/mbind01.c".toList mbind01 "test_none".toList mbind01_named
  have hbase : splitextRoot (basename "./mbind/mbind01.c".toList) = "mbind01".toList := by decide
  rw [mbind01_writes, hbase] at hpair
  rcases hpair with hnil | hpair
  · cases hnil
  · exact absurd hpair (by decide)

end Tbouncer.Instrument
