import Tbouncer.Base.LineTrace
import Tbouncer.Instrument.Allman
import Tbouncer.Instrument.Visits

/-!
# The paths out of an instrumented test

The tool writes "0" in front of the line where the first of its visits ends, which for a
function without earlier matches and with its braces in place is the closing brace. A
path that falls out of the body passes it; a path that leaves by a `return` does not.
-/

namespace Tbouncer.Instrument
open Base LineFlow

/- A line of a test function, with the strings it may itself write to the
coordination file and where control goes from it. -/
abbrev BodyLine := Line Text Text

structure TestFile where
  pre : List Text
  signature : Text
  opening : Text
  body : List BodyLine
  closing : Text
  post : List Text

def TestFile.parts (t : TestFile) : Parts :=
  ⟨t.pre, t.signature, t.opening, t.body.map Line.text, t.closing, t.post⟩

def TestFile.code (t : TestFile) : List Text := t.parts.code

/- The test function is in the Allman layout, whatever else is in the file. -/
structure TestFile.Allman (isalnum : Char → Bool) (script : Script) (t : TestFile)
    (name : Text) : Prop where
  layout : t.parts.Layout isalnum script name
  closing : strip t.closing = [closeBrace]
  jumps : WellJumped t.body

/- What is written in front of line `i`, from top to bottom. -/
def gap (ms : List (ℕ × Text)) (i : ℕ) : List Text := (ms.filter fun m => m.1 = i).map Prod.snd

theorem gap_append (ms ms' : List (ℕ × Text)) (i : ℕ) :
    gap (ms ++ ms') i = gap ms i ++ gap ms' i := by
  rw [gap, List.filter_append, List.map_append]
  rfl

theorem gap_eq_nil {ms : List (ℕ × Text)} {i : ℕ} (h : ∀ m ∈ ms, m.1 ≠ i) : gap ms i = [] := by
  rw [gap, List.filter_eq_nil_iff.mpr fun m hm => by simpa using h m hm]
  rfl

theorem le_of_mem_marks (ps : List Placed) (i : ℕ) : ∀ m ∈ marks i ps, i ≤ m.1 := by
  induction ps generalizing i with
  | nil => exact List.forall_mem_nil _
  | cons p ps ih =>
    cases p with
    | source line => exact fun m hm => Nat.le_of_succ_le (ih (i + 1) m hm)
    | write data => exact List.forall_mem_cons.mpr ⟨Nat.le_refl i, ih i⟩

/- The lines of the file with the inserted ones in front of them. -/
theorem placed_interleave (ps : List Placed) (i : ℕ) :
    ps.map Placed.text =
      interleave (fun k => (gap (marks i ps) k).map coordinationLine) i
        (ps.filterMap Placed.line?) := by
  induction ps generalizing i with
  | nil => rfl
  | cons p ps ih =>
    cases p with
    | source line =>
      have hnone : gap (marks (i + 1) ps) i = [] := gap_eq_nil fun m hm => by
        have hle := le_of_mem_marks ps (i + 1) m hm
        omega
      have hsources : (Placed.source line :: ps).filterMap Placed.line? =
          line :: ps.filterMap Placed.line? := rfl
      rw [List.map_cons, ih (i + 1), marks, hsources, interleave, hnone]
      rfl
    | write data =>
      have hfirst : gap ((i, data) :: marks i ps) i = data :: gap (marks i ps) i := by simp [gap]
      have hrest : ∀ k, i < k → gap ((i, data) :: marks i ps) k = gap (marks i ps) k := by
        intro k hk
        have hne : i ≠ k := Nat.ne_of_lt hk
        simp [gap, hne]
      rw [List.map_cons, ih i, marks, List.filterMap_cons_none rfl]
      refine (interleave_cons ?_ (fun k hk => ?_) _).symm
      · rw [hfirst]
        rfl
      · rw [hrest k hk]

section
variable (isDef : Text → Bool) (base : Text)

/- What the tool writes in front of line `i` of the file. -/
def writtenAt (code : List Text) (i : ℕ) : List Text :=
  gap (visitMarks base false (visits isDef 0 code)) i

/- A line that the tool adds, with what it writes. -/
def announce (data : Text) : Text × Text := (coordinationLine data, data)

/- What is added to the function: line `k` of its body is line `pre.length + 2 + k` of
the file. -/
def TestFile.insertion (t : TestFile) : Insertion Text Text where
  before k := (writtenAt isDef base t.code (t.pre.length + 2 + k)).map announce

/- The body of the function as it is written back, and the file around it. -/
def TestFile.treated (t : TestFile) : List BodyLine := (t.insertion isDef base).insert t.body

def TestFile.treatedAbove (t : TestFile) : List Text :=
  interleave (fun i => (writtenAt isDef base t.code i).map coordinationLine) 0
    (t.pre ++ [t.signature])

def TestFile.treatedBelow (t : TestFile) : List Text :=
  interleave (fun i => (writtenAt isDef base t.code i).map coordinationLine)
    (t.pre.length + 2 + t.body.length + 1) t.post

variable {isDef base}

theorem treated_text (t : TestFile) :
    (t.treated isDef base).map Line.text =
      interleave (fun i => (writtenAt isDef base t.code i).map coordinationLine)
        (t.pre.length + 2) (t.body.map Line.text) := by
  have hemit : ∀ k, (((t.insertion isDef base).before k).map Insertion.emit).map Line.text =
      (writtenAt isDef base t.code (t.pre.length + 2 + k)).map coordinationLine := by
    intro k
    simp [TestFile.insertion, announce, Insertion.emit]
  have hmoved : (t.body.map (t.insertion isDef base).moved).map Line.text =
      t.body.map Line.text := by
    rw [List.map_map]
    rfl
  rw [TestFile.treated, Insertion.insert, interleave_map, funext hemit, hmoved]
  exact interleave_shift
    (fun i => (writtenAt isDef base t.code i).map coordinationLine) (t.pre.length + 2) 0 _

end

section
variable {isalnum : Char → Bool} {script : Script}

theorem modifyCFile_interleave (filePath : Text) (code : List Text) {name : Text}
    (hname : testFunctionName isalnum code = some name) :
    modifyCFile isalnum script filePath code =
      some (interleave (fun i => (writtenAt (isDefinition script name)
        (splitextRoot (basename filePath)) code i).map coordinationLine) 0 code) := by
  obtain ⟨hplaced, hsources⟩ := modifyCFile_placed script filePath code hname
  have hmarks : marks 0 (placedCode script filePath code name) =
      visitMarks (splitextRoot (basename filePath)) false
        (visits (isDefinition script name) 0 code) := marks_place 0 code false
  rw [hplaced, placed_interleave _ 0, hsources, hmarks]
  rfl

/-- What is written back, cut at the test function. -/
theorem modify_test_file (t : TestFile) {name : Text}
    (hname : testFunctionName isalnum t.code = some name) (filePath : Text) :
    modifyCFile isalnum script filePath t.code =
      some (t.treatedAbove (isDefinition script name) (splitextRoot (basename filePath)) ++
        t.opening ::
          ((t.treated (isDefinition script name) (splitextRoot (basename filePath))).map
            Line.text ++
          t.closing ::
            t.treatedBelow (isDefinition script name) (splitextRoot (basename filePath)))) := by
  have hsplit : ∀ f : ℕ → List Text, interleave f 0 t.code =
      interleave f 0 (t.pre ++ [t.signature]) ++ t.opening ::
        (interleave f (t.pre.length + 2) (t.body.map Line.text) ++ t.closing ::
          interleave f (t.pre.length + 2 + t.body.length + 1) t.post) := by
    intro f
    have hcode : t.code = (t.pre ++ [t.signature]) ++
        t.opening :: (t.body.map Line.text ++ t.closing :: t.post) := by
      simp [TestFile.code, Parts.code, TestFile.parts]
    have hopen : 0 + (t.pre ++ [t.signature]).length + 1 = t.pre.length + 2 := by
      rw [List.length_append, List.length_singleton]
      omega
    rw [hcode, interleave_append f 0 (t.pre ++ [t.signature]), hopen,
      interleave_append f (t.pre.length + 2), List.length_map]
  rw [modifyCFile_interleave filePath t.code hname, hsplit, treated_text]
  rfl

end

/-! ### Paths -/

/- On every way to a `return` the last write is "0", and so it is on every way to the
closing brace unless "0" is what is inserted there last. -/
structure ClosesWith (ins : Insertion Text Text) (body : List BodyLine) : Prop where
  returns : ∀ ws, Path (ins.annotate body) 0 ws .left →
    (ins.notes 0 ++ ws).getLast? = some zero
  falls : (ins.notes body.length).getLast? = some zero ∨
    ∀ ws, Path (ins.annotate body) 0 ws .closed → (ins.notes 0 ++ ws).getLast? = some zero

section
variable {ins : Insertion Text Text} {body : List BodyLine}

end

def Plain (body : List BodyLine) : Prop := ∀ l ∈ body, ∀ w d, (w, d) ∈ l.outcomes → w = []

section
variable {ins : Insertion Text Text} {body : List BodyLine}

theorem Plain.writes {Q : Text → Prop} (h : Plain body) :
    ∀ l ∈ body, ∀ o ∈ l.outcomes, ∀ x ∈ o.1, Q x := by
  intro l hl o ho x hx
  rw [h l hl o.1 o.2 ho] at hx
  cases hx

/- Every path of the body is one with the notes, and the other way round. -/
theorem exists_annotate_iff (ins : Insertion Text Text) {i : ℕ} {e : Exit} :
    (∃ ws, Path (ins.annotate body) i ws e) ↔ ∃ ws, Path body i ws e := by
  have hsilent : ins.Silent fun _ => (none : Option Unit) := fun _ _ _ => rfl
  constructor
  · rintro ⟨ws, hpath⟩
    obtain ⟨ws', hold, -⟩ := Insertion.path_of_annotate hsilent hpath
    exact ⟨ws', hold⟩
  · rintro ⟨ws, hpath⟩
    obtain ⟨ws', hann, -⟩ := Insertion.annotate_of_path hsilent hpath
    exact ⟨ws', hann⟩

/- No path by a `return` ends with "0" if none is inserted in front of a line. -/
theorem returns_plain_iff (hplain : Plain body)
    (hzero : ∀ k < body.length, zero ∉ ins.notes k) :
    (∀ ws, Path (ins.annotate body) 0 ws .left → (ins.notes 0 ++ ws).getLast? = some zero) ↔
      ¬ ∃ ws, Path body 0 ws .left := by
  rw [← exists_annotate_iff ins]
  constructor
  · rintro h ⟨ws, hpath⟩
    obtain ⟨hpos, hws⟩ := Insertion.notes_of_left (Q := (· ≠ zero)) hplain.writes
      (fun k hk x hx heq => hzero k hk (heq ▸ hx)) hpath
    rcases List.mem_append.mp (List.mem_of_getLast? (h ws hpath)) with hmem | hmem
    · exact hzero 0 hpos hmem
    · exact hws zero hmem rfl
  · exact fun h ws hpath => absurd ⟨ws, hpath⟩ h

/-- For one whose function gets no "0", as an earlier match has used it up, the
condition is that the function is never left. -/
theorem closesWith_never_iff (hplain : Plain body)
    (hzero : ∀ k ≤ body.length, zero ∉ ins.notes k) (hjumps : WellJumped body) :
    ClosesWith ins body ↔ ¬ ∃ ws e, Path body 0 ws e := by
  have hinside : ∀ k < body.length, zero ∉ ins.notes k := fun k hk => hzero k (Nat.le_of_lt hk)
  have hreturns := returns_plain_iff hplain hinside
  constructor
  · rintro h ⟨ws, e, hpath⟩
    cases e with
    | left => exact hreturns.mp h.returns ⟨ws, hpath⟩
    | closed =>
      obtain ⟨vs, hann⟩ := (exists_annotate_iff ins).mpr ⟨ws, hpath⟩
      have hnone : zero ∉ ins.notes 0 ++ vs := by
        intro hmem
        rcases List.mem_append.mp hmem with hmem | hmem
        · exact hzero 0 (Nat.zero_le _) hmem
        · rcases Insertion.closed_ends (Q := (· ≠ zero)) hjumps hplain.writes
            (fun k hk x hx heq => hzero k (Nat.le_of_lt hk) (heq ▸ hx)) hann with
            ⟨-, rfl⟩ | ⟨-, ws', rfl, hws⟩
          · cases hmem
          · rcases List.mem_append.mp hmem with hmem | hmem
            · exact hws zero hmem rfl
            · exact hzero _ (Nat.le_refl _) hmem
      rcases h.falls with hlast | hclosed
      · exact hzero _ (Nat.le_refl _) (List.mem_of_getLast? hlast)
      · exact hnone (List.mem_of_getLast? (hclosed vs hann))
  · intro h
    exact ⟨hreturns.mpr fun ⟨ws, hpath⟩ => h ⟨ws, .left, hpath⟩, Or.inr fun ws hann =>
      absurd ((exists_annotate_iff ins).mp ⟨ws, hann⟩) fun ⟨vs, hpath⟩ => h ⟨vs, .closed, hpath⟩⟩

/- The prototype in mbind01 has used up the "0" of its function (lines 8 to 11). -/
example : ∀ k ≤ 1, zero ∉ writtenAt (isDefinition .syscalls "test_none".toList)
    "mbind01".toList mbind01 (7 + 2 + k) := by decide +kernel

end

/-! ### Functions found by their braces -/

section
variable (base : Text) (body : List Text)

/- The base name is written at the start and behind every opening line of its own. -/
def openingWrites : ℕ → List Text
  | 0 => [base]
  | k + 1 => if (body[k]?).any isBlockOpen then [base] else []

/- What is written in front of line `k` of a body of which the visit begins with the
signature and ends at the closing brace. -/
def regularWrites (k : ℕ) : List Text :=
  openingWrites base body k ++ if k = body.length then [zero] else []

/- The lines modify_c_file adds to such a body, with what each of them writes. -/
def instrumentation : Insertion Text Text where
  before k := (regularWrites base body k).map announce

end

def TestFile.instrumented (t : TestFile) (base : Text) : List BodyLine :=
  (instrumentation base (t.body.map Line.text)).insert t.body

section
variable {isDef : Text → Bool} {base : Text}

theorem lt_of_mem_openMarks (lines : List Text) (i : ℕ) :
    ∀ m ∈ openMarks base i lines, i < m.1 := by
  induction lines generalizing i with
  | nil => exact List.forall_mem_nil _
  | cons line lines ih =>
    have hrest : ∀ m ∈ openMarks base (i + 1) lines, i < m.1 := fun m hm =>
      Nat.lt_of_succ_lt (ih (i + 1) m hm)
    cases hopen : isBlockOpen line with
    | true =>
      rw [openMarks, if_pos hopen]
      exact List.forall_mem_cons.mpr ⟨Nat.lt_succ_self i, hrest⟩
    | false =>
      rw [openMarks, hopen]
      exact hrest

theorem gap_openMarks (lines : List Text) (i k : ℕ) :
    gap (openMarks base i lines) (i + 1 + k) =
      if (lines[k]?).any isBlockOpen then [base] else [] := by
  induction lines generalizing i k with
  | nil => rfl
  | cons line lines ih =>
    have hsplit : openMarks base i (line :: lines) =
        (if isBlockOpen line then [(i + 1, base)] else []) ++ openMarks base (i + 1) lines := by
      rw [openMarks]
      split <;> rfl
    rw [hsplit, gap_append]
    cases k with
    | zero =>
      have hrest : gap (openMarks base (i + 1) lines) (i + 1 + 0) = [] := gap_eq_nil fun m hm => by
        have hlt := lt_of_mem_openMarks lines (i + 1) m hm
        omega
      rw [hrest, List.append_nil]
      cases hopen : isBlockOpen line <;> simp [gap, hopen]
    | succ k =>
      have hfirst :
          gap (if isBlockOpen line then [(i + 1, base)] else []) (i + 1 + (k + 1)) = [] := by
        refine gap_eq_nil fun m hm => ?_
        split at hm
        · rw [List.mem_singleton.mp hm]
          omega
        · cases hm
      have hplace : i + 1 + (k + 1) = i + 1 + 1 + k := by omega
      rw [hfirst, hplace, ih (i + 1) k]
      rfl

theorem visits_skip (pre rest : List Text) (i : ℕ) (h : ∀ line ∈ pre, isDef line = false) :
    visits isDef i (pre ++ rest) = visits isDef (i + pre.length) rest := by
  induction pre generalizing i with
  | nil => rfl
  | cons line pre ih =>
    obtain ⟨hline, hpre⟩ := List.forall_mem_cons.mp h
    have hnext : i + 1 + pre.length = i + (line :: pre).length := by
      rw [List.length_cons]
      omega
    rw [List.cons_append, visits, if_neg (by simp [hline]), ih (i + 1) hpre, hnext]

/- A visit that ends at `closing` reads the lines in front of it. -/
theorem takeBody_to (lines post : List Text) (closing : Text) (level : ℤ)
    (hstays : ∀ q, q <+: lines → q ≠ [] → level + (q.map braceDelta).sum ≠ 0)
    (hleaves : Leaves (level + (lines.map braceDelta).sum) closing) :
    takeBody level (lines ++ closing :: post) = (lines ++ [closing], some post) := by
  induction lines generalizing level with
  | nil =>
    rw [List.map_nil, List.sum_nil, add_zero] at hleaves
    exact takeBody_leaves hleaves post
  | cons line lines ih =>
    have hfirst : ¬ Leaves level line := by
      rintro ⟨-, hzero⟩
      refine hstays [line] ⟨lines, rfl⟩ (by simp) ?_
      simpa using hzero
    have hrest : ∀ q, q <+: lines → q ≠ [] →
        level + braceDelta line + (q.map braceDelta).sum ≠ 0 := by
      intro q hq _
      have hlevel := hstays (line :: q) (List.cons_prefix_cons.mpr ⟨rfl, hq⟩) (by simp)
      simpa [add_assoc] using hlevel
    have hend : Leaves (level + braceDelta line + (lines.map braceDelta).sum) closing := by
      simpa [add_assoc] using hleaves
    rw [List.cons_append, takeBody_stays hfirst, ih _ hrest hend]
    rfl

end

section
variable {isalnum : Char → Bool} {script : Script} {p : Parts} {name : Text}

theorem Parts.Counted.takeBody (h : p.Counted isalnum script name) :
    takeBody 0 (p.opening :: (p.body ++ p.closing :: p.post)) =
      (p.opening :: (p.body ++ [p.closing]), some p.post) := by
  have hdelta := braceDelta_of_isBlockOpen h.opening
  refine takeBody_to (p.opening :: p.body) p.post p.closing 0 (fun q hq hne => ?_) ⟨h.closing, ?_⟩
  · cases q with
    | nil => exact absurd rfl hne
    | cons line q =>
      obtain ⟨rfl, hbody⟩ := List.cons_prefix_cons.mp hq
      have hlevel := h.inside q hbody
      simpa [bodyLevel, hdelta] using hlevel
  · have hzero := h.balanced
    simp only [bodyLevel, List.map_append, List.sum_append, List.map_cons, List.map_nil,
      List.sum_cons, List.sum_nil] at hzero
    simp only [List.map_cons, List.sum_cons, hdelta]
    omega

/- The marks of the file: those of the function, and some below it. -/
theorem Parts.Counted.marks (h : p.Counted isalnum script name) (base : Text) :
    ∃ later : List (ℕ × Text), (∀ m ∈ later, p.pre.length + p.body.length + 3 ≤ m.1) ∧
      visitMarks base false (visits (isDefinition script name) 0 p.code) =
        openMarks base (p.pre.length + 1) (p.opening :: (p.body ++ [p.closing])) ++
          [(p.pre.length + p.body.length + 2, zero)] ++ later := by
  have hbody : (Instrument.takeBody 0 (p.opening :: (p.body ++ p.closing :: p.post))).2 =
      some p.post := by rw [h.takeBody]
  have hlen : (p.opening :: (p.body ++ [p.closing])).length = p.body.length + 2 := by simp
  refine ⟨visitMarks base true (visits (isDefinition script name)
    (p.pre.length + 1 + (p.body.length + 2)) p.post), fun m hm => ?_, ?_⟩
  · rw [← marks_place] at hm
    have hle := le_of_mem_marks _ _ m hm
    omega
  · rw [Parts.code, visits_skip p.pre _ 0 h.above, Nat.zero_add,
      visits_closed h.signature hbody, h.takeBody, visitMarks, Visit.marks]
    dsimp only
    rw [hlen]
    rfl

theorem Parts.Counted.writtenAt (h : p.Counted isalnum script name) (base : Text) {k : ℕ}
    (hk : k ≤ p.body.length) :
    writtenAt (isDefinition script name) base p.code (p.pre.length + 2 + k) =
      regularWrites base p.body k := by
  obtain ⟨later, hlater, hmarks⟩ := h.marks base
  have hnone : gap later (p.pre.length + 2 + k) = [] := gap_eq_nil fun m hm => by
    have hle := hlater m hm
    omega
  have hplace : p.pre.length + 2 + k = p.pre.length + 1 + 1 + k := by omega
  have hzero : gap [(p.pre.length + p.body.length + 2, zero)] (p.pre.length + 2 + k) =
      if k = p.body.length then [zero] else [] := by
    by_cases heq : k = p.body.length
    · have hsame : p.pre.length + p.body.length + 2 = p.pre.length + 2 + p.body.length := by omega
      rw [heq, hsame]
      simp [gap]
    · have hne : p.pre.length + p.body.length + 2 ≠ p.pre.length + 2 + k := by omega
      simp [gap, heq, hne]
  have hopen : gap (openMarks base (p.pre.length + 1) (p.opening :: (p.body ++ [p.closing])))
      (p.pre.length + 2 + k) = openingWrites base p.body k := by
    rw [hplace, gap_openMarks]
    cases k with
    | zero => simp [openingWrites, h.opening]
    | succ k => rw [List.getElem?_cons_succ, List.getElem?_append_left hk, openingWrites]
  rw [Instrument.writtenAt, hmarks, gap_append, gap_append, hnone, List.append_nil, hzero, hopen]
  rfl

theorem Parts.Counted.written_above (h : p.Counted isalnum script name) (base : Text) {i : ℕ}
    (hi : i ≤ p.pre.length + 1) :
    Instrument.writtenAt (isDefinition script name) base p.code i = [] := by
  obtain ⟨later, hlater, hmarks⟩ := h.marks base
  rw [Instrument.writtenAt, hmarks]
  refine gap_eq_nil fun m hm => ?_
  rcases List.mem_append.mp hm with hm | hm
  · rcases List.mem_append.mp hm with hm | hm
    · have hlt := lt_of_mem_openMarks _ _ m hm
      omega
    · rw [List.mem_singleton.mp hm]
      dsimp only
      omega
  · have hle := hlater m hm
    omega

end

section
variable {isalnum : Char → Bool} {script : Script} {t : TestFile} {name : Text}

/-- A function found by its braces gets the base name at its start and behind every
opening line of its own, and "0" in front of its closing brace. -/
theorem treated_counted (h : t.parts.Counted isalnum script name) (hjumps : WellJumped t.body)
    (base : Text) : t.treated (isDefinition script name) base = t.instrumented base := by
  refine Insertion.insert_congr _ hjumps fun k hk => ?_
  have hlen : k ≤ t.parts.body.length := by simpa [TestFile.parts] using hk
  exact congrArg (List.map announce) (h.writtenAt base hlen)

theorem treatedAbove_counted (h : t.parts.Counted isalnum script name) (base : Text) :
    t.treatedAbove (isDefinition script name) base = t.pre ++ [t.signature] := by
  refine interleave_of_nil fun i _ hi => ?_
  have hpre : i ≤ t.parts.pre.length + 1 := by simpa [TestFile.parts] using hi
  have hnone : writtenAt (isDefinition script name) base t.code i = [] := h.written_above base hpre
  rw [hnone]
  rfl

end

def straight (text : Text) : BodyLine := ⟨text, [([], .next)]⟩
def branch (text : Text) (d : Dest) : BodyLine := ⟨text, [([], .next), ([], d)]⟩
def returning (text : Text) : BodyLine := ⟨text, [([], .leave)]⟩

/- fstat/fstat03.c:61-84 and 98-99, before instrumentation. -/
def fstat03 : TestFile where
  pre := []
  signature := "static void run(unsigned int tc_num)\n".toList
  opening := "\x7b\n".toList
  body :=
    [straight "\tpid_t pid;\n".toList,
      straight "\tint status;\n".toList,
      straight "\n".toList,
      straight "\tpid = SAFE_FORK();\n".toList,
      branch "\tif (pid == 0) \x7b\n".toList (.jump 7),
      straight "\t\tcheck_fstat(tc_num);\n".toList,
      returning "\t\treturn;\n".toList,
      straight "\t\x7d\n".toList,
      straight "\tSAFE_WAITPID(pid, &status, 0);\n".toList,
      straight "\n".toList,
      branch "\tif (tcases[tc_num].exp_err == EFAULT && WTERMSIG(status) == SIGSEGV) \x7b\n".toList
        (.jump 13),
      straight "\t\ttst_res(TPASS, \"fstat() failed as expected with SIGSEGV\");\n".toList,
      returning "\t\treturn;\n".toList,
      straight "\t\x7d\n".toList,
      straight "\n".toList,
      branch "\tif (WIFEXITED(status) && WEXITSTATUS(status) == 0)\n".toList (.resume 17),
      returning "\t\treturn;\n".toList,
      straight "\n".toList,
      straight "\ttst_res(TFAIL, \"child %s\", tst_strstatus(status));\n".toList]
  closing := "\x7d\n".toList
  post := ["static struct tst_test test = \x7b\n".toList, "\t.test = run,\n".toList]

theorem fstat03_counted : fstat03.parts.Counted Char.isAlphanum .syscalls "run".toList where
  named := by decide
  signature := by decide
  opening := by decide
  above := by decide
  inside := bodyLevel_of_take (by decide)
  closing := by decide
  balanced := by decide

theorem fstat03_allman : fstat03.Allman Char.isAlphanum .syscalls "run".toList where
  layout := fstat03_counted.toLayout
  closing := by decide
  jumps := by decide

end Tbouncer.Instrument
