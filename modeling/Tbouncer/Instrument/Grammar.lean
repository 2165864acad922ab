import Tbouncer.Base.PatternLang
import Tbouncer.Instrument.Scanner

/-!
# What the tool takes for the test function

The two regular expressions of modify_c_file as grammars of a line: the assignment that
names the test function, and the line that starts its definition.
-/

namespace Tbouncer.Instrument
open Base Pattern

/- `.test = ` or `.test_all = `, with any white space around the sign. -/
def Assigns (m : Text) : Prop :=
  ∃ field a b, (field = "test".toList ∨ field = "test_all".toList) ∧
    (∀ c ∈ a, isSpace c = true) ∧ (∀ c ∈ b, isSpace c = true) ∧
    m = '.' :: (field ++ (a ++ '=' :: b))

theorem matches_spaces_iff {u : Text} : Matches (star space) u ↔ ∀ c ∈ u, isSpace c = true :=
  matches_star_char_iff

theorem matches_assignment_iff {m : Text} : Matches assignment m ↔ Assigns m := by
  simp only [assignment, matches_seq_iff, matches_alt_iff, matches_lit_iff, matches_spaces_iff]
  constructor
  · rintro ⟨_, _, rfl, rfl, field, _, rfl, hfield, a, _, rfl, ha, _, b, rfl, rfl, hb⟩
    exact ⟨field, a, b, hfield, ha, hb, rfl⟩
  · rintro ⟨field, a, b, hfield, ha, hb, rfl⟩
    exact ⟨".".toList, _, rfl, rfl, field, _, rfl, hfield, a, _, rfl, ha, "=".toList, b, rfl, rfl,
      hb⟩

section
variable (isalnum : Char → Bool)

def isWord (c : Char) : Bool := isalnum c || c == '_'

/- A word: not empty, of word characters. -/
def IsName (name : Text) : Prop := name ≠ [] ∧ ∀ c ∈ name, isWord isalnum c = true

/- `line` is cut at an assignment to `name`, none of the word being left out. -/
structure NamedAt (line name before : Text) : Prop where
  cut : ∃ m rest, line = before ++ (m ++ (name ++ rest)) ∧ Assigns m ∧
    ∀ c, rest.head? = some c → isWord isalnum c = false
  word : IsName isalnum name

/- Somewhere in `line` an assignment is followed by a word. -/
def Names (line : Text) : Prop :=
  ∃ before m name rest, line = before ++ (m ++ (name ++ rest)) ∧ Assigns m ∧ IsName isalnum name

variable {isalnum}

theorem matches_word_iff {name : Text} :
    Matches (plus (word isalnum)) name ↔ IsName isalnum name :=
  matches_plus_char_iff

theorem search_assignment_none_iff {line : Text} :
    search assignment (plus (word isalnum)) line = none ↔ ¬ Names isalnum line := by
  simp only [search_eq_none_iff, Occurs, Names, matches_assignment_iff, matches_word_iff]

/- Step 1 of the tool finds a name exactly when some line has one. -/
theorem testFunctionName_none_iff {code : List Text} :
    testFunctionName isalnum code = none ↔ ∀ line ∈ code, ¬ Names isalnum line := by
  rw [testFunctionName, List.findSome?_eq_none_iff]
  simp only [search_assignment_none_iff]

theorem search_assignment_some {line name : Text}
    (h : search assignment (plus (word isalnum)) line = some name) :
    ∃ before, NamedAt isalnum line name before ∧
      ∀ before' m' name' rest', line = before' ++ (m' ++ (name' ++ rest')) → Assigns m' →
        IsName isalnum name' → before.length ≤ before'.length := by
  obtain ⟨before, m, rest, hline, hm, hname, hrest, hleft⟩ := search_word h
  refine ⟨before, ⟨⟨m, rest, hline, matches_assignment_iff.mp hm, hrest⟩, matches_word_iff.mp hname⟩,
    fun before' m' name' rest' hline' hm' hname' => ?_⟩
  exact hleft before' m' name' rest' hline' (matches_assignment_iff.mpr hm')
    (matches_word_iff.mpr hname')

/-- The name comes from the first line that assigns one, there from the leftmost
assignment, and is the whole word behind it; no name is found only where no line
assigns one. -/
theorem test_function_name (code : List Text) :
    (testFunctionName isalnum code = none ↔ ∀ line ∈ code, ¬ Names isalnum line) ∧
    ∀ name, testFunctionName isalnum code = some name →
      ∃ earlier line later before, code = earlier ++ line :: later ∧
        (∀ l ∈ earlier, ¬ Names isalnum l) ∧ NamedAt isalnum line name before ∧
        ∀ before' m' name' rest', line = before' ++ (m' ++ (name' ++ rest')) → Assigns m' →
          IsName isalnum name' → before.length ≤ before'.length := by
  refine ⟨testFunctionName_none_iff, fun name hname => ?_⟩
  obtain ⟨earlier, line, later, hcode, hline, hnone⟩ := List.findSome?_eq_some_iff.mp hname
  obtain ⟨before, hat, hleft⟩ := search_assignment_some hline
  exact ⟨earlier, line, later, before, hcode,
    fun l hl => search_assignment_none_iff.mp (hnone l hl), hat, hleft⟩

end

/-! ### The definition -/

/- What may stand before `void`: nothing in the copy under `syscalls/accept`. -/
def StorageClass (script : Script) (u : Text) : Prop :=
  u = [] ∨ script = .syscalls ∧
    ∃ a, a ≠ [] ∧ (∀ c ∈ a, isSpace c = true) ∧
      (u = "static".toList ++ a ∨ u = "inline".toList ++ a ∨
        ∃ b, b ≠ [] ∧ (∀ c ∈ b, isSpace c = true) ∧
          u = "static".toList ++ (b ++ ("inline".toList ++ a)))

theorem matches_plus_space_iff {u : Text} :
    Matches (plus space) u ↔ u ≠ [] ∧ ∀ c ∈ u, isSpace c = true :=
  matches_plus_char_iff

theorem matches_storage_iff {script : Script} {u : Text} :
    Matches (storage script) u ↔ StorageClass script u := by
  cases script with
  | accept => simp [storage, StorageClass, matches_empty_iff]
  | syscalls =>
    simp only [storage, opt, matches_alt_iff, matches_seq_iff, matches_lit_iff, matches_empty_iff,
      matches_plus_space_iff, StorageClass, true_and]
    constructor
    · rintro ((⟨_, a, rfl, rfl, hne, ha⟩ | ⟨_, a, rfl, rfl, hne, ha⟩ |
        ⟨_, _, rfl, rfl, b, _, rfl, ⟨hbne, hb⟩, _, a, rfl, rfl, hne, ha⟩) | rfl)
      · exact Or.inr ⟨a, hne, ha, Or.inl rfl⟩
      · exact Or.inr ⟨a, hne, ha, Or.inr (Or.inl rfl)⟩
      · exact Or.inr ⟨a, hne, ha, Or.inr (Or.inr ⟨b, hbne, hb, rfl⟩)⟩
      · exact Or.inl rfl
    · rintro (rfl | ⟨a, hne, ha, rfl | rfl | ⟨b, hbne, hb, rfl⟩⟩)
      · exact Or.inr rfl
      · exact Or.inl (Or.inl ⟨_, a, rfl, rfl, hne, ha⟩)
      · exact Or.inl (Or.inr (Or.inl ⟨_, a, rfl, rfl, hne, ha⟩))
      · exact Or.inl (Or.inr (Or.inr
          ⟨_, _, rfl, rfl, b, _, rfl, ⟨hbne, hb⟩, _, a, rfl, rfl, hne, ha⟩))

/-- A line starts the definition of `name` if it reads `void name (` with white space
where the expression allows it, and a closing parenthesis somewhere behind. -/
theorem definition_line_iff (script : Script) (name line : Text) :
    isDefinition script name line = true ↔
      ∃ a u b c params rest,
        (∀ x ∈ a, isSpace x = true) ∧ StorageClass script u ∧
        (b ≠ [] ∧ ∀ x ∈ b, isSpace x = true) ∧ (∀ x ∈ c, isSpace x = true) ∧ '\n' ∉ params ∧
        line = a ++ (u ++ ("void".toList ++ (b ++ (name ++ (c ++ '(' :: (params ++ ')' :: rest)))))) := by
  rw [isDefinition, matchesAt_iff]
  simp only [definition, matches_seq_iff, matches_lit_iff, matches_spaces_iff,
    matches_plus_space_iff, matches_storage_iff, matches_star_char_iff]
  constructor
  · rintro ⟨_, rest, rfl, a, _, rfl, ha, u, _, rfl, hu, _, _, rfl, rfl, b, _, rfl, hb, _, _, rfl,
      rfl, c, _, rfl, hc, _, _, rfl, rfl, params, _, rfl, hparams, _, d, rfl, rfl, hd⟩
    refine ⟨a, u, b, c, params, d ++ rest, ha, hu, hb, hc, ?_, by simp⟩
    intro hmem
    simpa using hparams _ hmem
  · rintro ⟨a, u, b, c, params, rest, ha, hu, hb, hc, hparams, rfl⟩
    refine ⟨a ++ (u ++ ("void".toList ++ (b ++ (name ++ (c ++ ("(".toList ++
      (params ++ (")".toList ++ []))))))))  , rest, by simp, a, _, rfl, ha, u, _, rfl, hu, _, _, rfl,
      rfl, b, _, rfl, hb, _, _, rfl, rfl, c, _, rfl, hc, _, _, rfl, rfl, params, _, rfl, ?_, _, [],
      rfl, rfl, List.forall_mem_nil _⟩
    intro x hx
    simpa using fun h : x = '\n' => hparams (h ▸ hx)

end Tbouncer.Instrument
