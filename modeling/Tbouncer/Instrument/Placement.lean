import Tbouncer.Base.CLex
import Tbouncer.Instrument.Visits

/-!
# The inserted lines and the braces of C

The tool goes by characters, one line at a time; a compiler goes by tokens. An inserted
line is inside the test function when it comes behind the line of the opening brace of
the definition and not behind the line of its closing brace.
-/

namespace Tbouncer.Instrument
open Base CLex

/- The lines of their own with an opening brace, the first line being `i`. -/
def openLines : ℕ → List Text → List ℕ
  | _, [] => []
  | i, line :: lines =>
      if isBlockOpen line then i :: openLines (i + 1) lines else openLines (i + 1) lines

def Visit.openLines (v : Visit) : List ℕ := Instrument.openLines (v.start + 1) v.body

/- The last line of the visit. -/
def Visit.last (v : Visit) : ℕ := v.start + v.body.length

theorem openMarks_gaps (base : Text) (i : ℕ) (lines : List Text) :
    (openMarks base i lines).map Prod.fst = (openLines i lines).map (· + 1) := by
  induction lines generalizing i with
  | nil => rfl
  | cons line lines ih =>
    cases hopen : isBlockOpen line with
    | true => simp [openMarks, openLines, hopen, ih]
    | false => simp [openMarks, openLines, hopen, ih]

theorem le_of_mem_openLines {i k : ℕ} {lines : List Text} (h : k ∈ openLines i lines) :
    i ≤ k := by
  induction lines generalizing i with
  | nil => cases h
  | cons line lines ih =>
    rw [openLines] at h
    split at h
    · rcases List.mem_cons.mp h with rfl | hrest
      · exact Nat.le_refl _
      · exact Nat.le_of_succ_le (ih hrest)
    · exact Nat.le_of_succ_le (ih h)

/- The line that ends a visit is not one of them. -/
theorem openLines_takeBody {level : ℤ} {lines rest : List Text}
    (h : (takeBody level lines).2 = some rest) {i k : ℕ}
    (hk : k ∈ openLines i (takeBody level lines).1) :
    k + 1 < i + (takeBody level lines).1.length := by
  induction lines generalizing level i with
  | nil => cases h
  | cons line lines ih =>
    by_cases hleaves : Leaves level line
    · rw [takeBody_leaves hleaves] at hk
      simp [openLines, hleaves.1] at hk
    · rw [takeBody_stays hleaves] at h hk ⊢
      have hpos : (takeBody (level + braceDelta line) lines).1 ≠ [] := by
        intro hnil
        cases lines with
        | nil => cases h
        | cons l ls =>
          by_cases hl : Leaves (level + braceDelta line) l
          · rw [takeBody_leaves hl] at hnil
            cases hnil
          · rw [takeBody_stays hl] at hnil
            cases hnil
      have hlen := List.length_pos_iff.mpr hpos
      simp only [List.length_cons]
      rw [openLines] at hk
      split at hk
      · rcases List.mem_cons.mp hk with rfl | hrest
        · omega
        · have := ih h hrest
          omega
      · have := ih h hk
        omega

section
variable {isDef : Text → Bool}

theorem le_start_of_mem_visits (i : ℕ) (lines : List Text) :
    ∀ v ∈ visits isDef i lines, i ≤ v.start := by
  induction i, lines using visits.induct isDef with
  | case1 i =>
    rw [visits]
    intro v hv
    cases hv
  | case2 i line lines hdef rest hbody ih =>
    rw [visits_closed hdef hbody]
    intro v hv
    rcases List.mem_cons.mp hv with rfl | hrest
    · exact Nat.le_refl _
    · have := ih v hrest
      omega
  | case3 i line lines hdef hbody =>
    rw [visits_open hdef hbody]
    intro v hv
    rw [List.mem_singleton.mp hv]
  | case4 i line lines hdef ih =>
    rw [visits, if_neg hdef]
    intro v hv
    exact Nat.le_of_succ_le (ih v hv)

/- The order of things when the first visit closes. -/
theorem order_of_closed (i : ℕ) (lines : List Text) {v : Visit} {vs : List Visit}
    (h : visits isDef i lines = v :: vs) (hv : v.closed = true) :
    (∀ k ∈ v.openLines, k < v.last) ∧ ∀ w ∈ vs, v.last < w.start := by
  induction i, lines using visits.induct isDef with
  | case1 i =>
    rw [visits] at h
    cases h
  | case2 i line lines hdef rest hbody ih =>
    rw [visits_closed hdef hbody] at h
    cases h
    refine ⟨fun k hk => ?_, fun w hw => ?_⟩
    · have hlt : k + 1 < i + 1 + (takeBody 0 lines).1.length := openLines_takeBody hbody hk
      simp only [Visit.last]
      omega
    · have := le_start_of_mem_visits _ rest w hw
      simp only [Visit.last]
      omega
  | case3 i line lines hdef hbody =>
    rw [visits_open hdef hbody] at h
    cases h
    cases hv
  | case4 i line lines hdef ih =>
    rw [visits, if_neg hdef] at h
    exact ih h

/-! ### Inside the braces -/

/- A line with `g` lines of the file above it lies between the braces of the definition
of `name`. -/
def InsideDefinition (name : Text) (code : List Text) (g : ℕ) : Prop :=
  ∃ a b, definitionSpan name code = some (a, b) ∧ a < g ∧ g ≤ b

/- The opening brace being on line `a`, the closing one on line `b`: no opening line of
its own comes before line `a` on the first visit. If that visit closes, it does so
behind line `a` and not behind line `b`, and no later visit meets an opening line of
its own from line `b` on; if not, what it meets of them comes before line `b`. -/
def LandsInside (a b : ℕ) : List Visit → Prop
  | [] => True
  | v :: vs =>
      (∀ i ∈ v.openLines, a ≤ i) ∧
      if v.closed then v.last ∈ Set.Ioc a b ∧ ∀ w ∈ vs, ∀ i ∈ w.openLines, i < b
      else ∀ i ∈ v.openLines, i < b

variable {base : Text}

theorem visit_gaps (v : Visit) (ended : Bool) :
    (v.marks base ended).map Prod.fst =
      v.openLines.map (· + 1) ++ if v.closed && !ended then [v.last] else [] := by
  rw [Visit.marks, List.map_append, openMarks_gaps, Visit.openLines]
  split
  · rfl
  · rfl

theorem gaps_ended (vs : List Visit) (g : ℕ) :
    g ∈ (visitMarks base true vs).map Prod.fst ↔ ∃ w ∈ vs, ∃ i ∈ w.openLines, g = i + 1 := by
  induction vs with
  | nil => simp [visitMarks]
  | cons v vs ih =>
    rw [visitMarks, Bool.true_or, List.map_append, List.mem_append, ih, visit_gaps]
    simp [eq_comm]

theorem gaps_cons (v : Visit) (vs : List Visit) (hlast : v.closed = false → vs = []) (g : ℕ) :
    g ∈ (visitMarks base false (v :: vs)).map Prod.fst ↔
      (∃ i ∈ v.openLines, g = i + 1) ∨
        (v.closed = true ∧ (g = v.last ∨ ∃ w ∈ vs, ∃ i ∈ w.openLines, g = i + 1)) := by
  rw [visitMarks, List.map_append, List.mem_append, visit_gaps]
  cases hv : v.closed with
  | true =>
    rw [Bool.or_true, gaps_ended]
    simp only [List.mem_append, List.mem_map, Bool.not_false, Bool.and_true, if_true,
      List.mem_singleton, true_and, or_assoc]
    simp only [eq_comm]
  | false =>
    rw [hlast hv]
    simp [visitMarks, eq_comm]

theorem gaps_inside_iff (a b i : ℕ) (lines : List Text) :
    (∀ g ∈ (visitMarks base false (visits isDef i lines)).map Prod.fst, a < g ∧ g ≤ b) ↔
      LandsInside a b (visits isDef i lines) := by
  cases hvs : visits isDef i lines with
  | nil => simp [visitMarks, LandsInside]
  | cons v vs =>
    have hlast : v.closed = false → vs = [] := rest_of_not_closed i lines hvs
    simp only [gaps_cons v vs hlast, LandsInside]
    cases hv : v.closed with
    | false =>
      simp only [Bool.false_eq_true, false_and, or_false, if_false]
      constructor
      · intro h
        refine ⟨fun k hk => ?_, fun k hk => ?_⟩
        · have := h (k + 1) ⟨k, hk, rfl⟩
          omega
        · have := h (k + 1) ⟨k, hk, rfl⟩
          omega
      · rintro ⟨hfirst, hend⟩ g ⟨k, hk, rfl⟩
        have := hfirst k hk
        have := hend k hk
        omega
    | true =>
      obtain ⟨hbefore, hafter⟩ := order_of_closed i lines hvs hv
      simp only [true_and, if_true, Set.mem_Ioc]
      constructor
      · intro h
        refine ⟨fun k hk => ?_, h _ (Or.inr (Or.inl rfl)), fun w hw k hk => ?_⟩
        · have := h (k + 1) (Or.inl ⟨k, hk, rfl⟩)
          omega
        · have := h (k + 1) (Or.inr (Or.inr ⟨w, hw, k, hk, rfl⟩))
          omega
      · rintro ⟨hfirst, hleave, hlater⟩ g (⟨k, hk, rfl⟩ | rfl | ⟨w, hw, k, hk, rfl⟩)
        · have := hfirst k hk
          have := hbefore k hk
          omega
        · exact hleave
        · have := hafter w hw
          have hstart : w.start + 1 ≤ k := le_of_mem_openLines hk
          have := hlater w hw k hk
          omega

end

section
variable {isalnum : Char → Bool} (script : Script)

/- For each inserted line, from top to bottom, the number of lines of the file above it. -/
def insertedGaps (filePath : Text) (code : List Text) (name : Text) : List ℕ :=
  (marks 0 (placedCode script filePath code name)).map Prod.fst

/-- All inserted lines are inside the test function exactly when its visits land
inside. -/
theorem inserted_inside_iff (filePath : Text) (code : List Text) (name : Text) (a b : ℕ)
    (hname : testFunctionName isalnum code = some name)
    (hspan : definitionSpan name code = some (a, b)) :
    (modifyCFile isalnum script filePath code =
        some ((placedCode script filePath code name).map Placed.text) ∧
      (placedCode script filePath code name).filterMap Placed.line? = code) ∧
      ((∀ g ∈ insertedGaps script filePath code name, InsideDefinition name code g) ↔
        LandsInside a b (visits (isDefinition script name) 0 code)) := by
  refine ⟨modifyCFile_placed script filePath code hname, ?_⟩
  have hinside : ∀ g, InsideDefinition name code g ↔ a < g ∧ g ≤ b := by
    intro g
    simp [InsideDefinition, hspan]
  have hmarks : marks 0 (placedCode script filePath code name) =
      visitMarks (splitextRoot (basename filePath)) false
        (visits (isDefinition script name) 0 code) := marks_place 0 code false
  simp only [hinside]
  rw [insertedGaps, hmarks]
  exact gaps_inside_iff a b 0 code

end

theorem mbind01_span : definitionSpan "test_none".toList mbind01 = some (8, 10) := by
  decide +kernel

theorem inserted_inside_iff_mbind01 :
    (modifyCFile Char.isAlphanum .syscalls "./mbind/mbind01.c".toList mbind01 =
        some ((placedCode .syscalls "./mbind/mbind01.c".toList mbind01
          "test_none".toList).map Placed.text) ∧
      (placedCode .syscalls "./mbind/mbind01.c".toList mbind01
        "test_none".toList).filterMap Placed.line? = mbind01) ∧
      ((∀ g ∈ insertedGaps .syscalls "./mbind/mbind01.c".toList mbind01 "test_none".toList,
          InsideDefinition "test_none".toList mbind01 g) ↔
        LandsInside 8 10 (visits (isDefinition .syscalls "test_none".toList) 0 mbind01)) :=
  inserted_inside_iff .syscalls "./mbind/mbind01.c".toList mbind01 "test_none".toList 8 10
    mbind01_named mbind01_span

/-- In mbind01.c one line goes between two prototypes, at file scope. -/
theorem inserted_outside :
    ¬ ∀ (filePath : Text) (code : List Text) (name : Text) (a b : ℕ),
      testFunctionName Char.isAlphanum code = some name →
        definitionSpan name code = some (a, b) →
          ∀ g ∈ insertedGaps .syscalls filePath code name, InsideDefinition name code g := by
  intro h
  have hgaps : 1 ∈ insertedGaps .syscalls "./mbind/mbind01.c".toList mbind01
      "test_none".toList := by decide
  obtain ⟨a, b, hab, hlt, -⟩ := h _ _ _ 8 10 mbind01_named mbind01_span 1 hgaps
  rw [mbind01_span] at hab
  cases hab
  omega

end Tbouncer.Instrument
