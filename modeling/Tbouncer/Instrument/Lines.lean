import Tbouncer.Instrument.Visits

/-!
# No line of the file is lost

Every branch of the loop appends the current line by itself, with or without an inserted
line. The file is overwritten in place, so the output has to hold every line once and in
its order.
-/

namespace Tbouncer.Instrument
open Base

/- `placed` is the output: the lines of the file, and between them lines of the two kinds
the tool generates. -/
structure Interleaved (base : Text) (code out : List Text) (placed : List Placed) : Prop where
  text : placed.map Placed.text = out
  sources : placed.filterMap Placed.line? = code
  generated : ∀ data, .write data ∈ placed → data = base ∨ data = zero

section
variable {isDef : Text → Bool} {base : Text}

theorem generated_emit {m : Mode} {line data : Text} (h : .write data ∈ m.emit base line) :
    data = base ∨ data = zero := by
  unfold Mode.emit at h
  split_ifs at h
  · simp at h
  · left
    simpa using h
  · right
    simpa using h
  · simp at h

theorem generated_place {m : Mode} {lines : List Text} {data : Text}
    (h : .write data ∈ place isDef base m lines) : data = base ∨ data = zero := by
  induction lines generalizing m with
  | nil => cases h
  | cons line lines ih =>
    rw [place] at h
    rcases List.mem_append.mp h with h | h
    · exact generated_emit h
    · exact ih h

/- How many lines with "0" may still be inserted. -/
def Mode.zeros (m : Mode) : ℕ := if m.endAppend then 0 else 1

/- A line that inserts one uses it up, and none gives it back. -/
theorem zeros_emit (hbase : base ≠ zero) (m : Mode) (line : Text) :
    (m.emit base line).count (.write zero) + (m.next isDef line).zeros ≤ m.zeros := by
  obtain ⟨inFunction, level, ended⟩ := m
  have hwrite : Placed.write base ≠ .write zero := fun h => hbase (Placed.write.inj h)
  cases inFunction with
  | false => simp [Mode.emit, Mode.next, Mode.zeros]
  | true =>
    cases hopen : isBlockOpen line with
    | true => simp [Mode.emit, Mode.next, Mode.zeros, hopen, hwrite]
    | false =>
      by_cases hlevel : level + braceDelta line = 0
      · cases ended <;> simp [Mode.emit, Mode.next, Mode.zeros, hopen, hlevel]
      · simp [Mode.emit, Mode.next, Mode.zeros, hopen, hlevel]

theorem zeros_place (hbase : base ≠ zero) (m : Mode) (lines : List Text) :
    (place isDef base m lines).count (.write zero) ≤ m.zeros := by
  induction lines generalizing m with
  | nil => exact Nat.zero_le _
  | cons line lines ih =>
    have hstep : (m.emit base line).count (.write zero) + (m.next isDef line).zeros ≤ m.zeros :=
      zeros_emit hbase m line
    have hrest := ih (m.next isDef line)
    rw [place, List.count_append]
    omega

/- Outside of every visit nothing is inserted. -/
theorem place_outside {m : Mode} (hm : m.inFunction = false) {lines : List Text}
    (h : ∀ line ∈ lines, isDef line = false) :
    place isDef base m lines = lines.map .source := by
  induction lines generalizing m with
  | nil => rfl
  | cons line lines ih =>
    have hline := h line (List.mem_cons_self ..)
    have hnext : (m.next isDef line).inFunction = false := by
      simp [Mode.next, hm, hline]
    have hemit : m.emit base line = [.source line] := by
      simp [Mode.emit, hm]
    rw [place, hemit, ih hnext fun l hl => h l (List.mem_cons_of_mem line hl)]
    rfl

end

/-- The output is the lines of the file in their order, each once, with generated lines
between them. Unless the file is called 0, at most one of these has "0"; and a file
without a line that matches is left as it is. -/
theorem modifyCFile_interleaves (isalnum : Char → Bool) (script : Script) (filePath : Text)
    (code : List Text) :
    (testFunctionName isalnum code = none → modifyCFile isalnum script filePath code = none) ∧
    ∀ name, testFunctionName isalnum code = some name →
      ∃ out placed, modifyCFile isalnum script filePath code = some out ∧
        Interleaved (splitextRoot (basename filePath)) code out placed ∧
        (splitextRoot (basename filePath) ≠ zero → placed.count (.write zero) ≤ 1) ∧
        ((∀ line ∈ code, isDefinition script name line = false) → out = code) := by
  constructor
  · intro hnone
    rw [modifyCFile, hnone, Option.map_none]
  · intro name hname
    obtain ⟨hout, hsources⟩ := modifyCFile_placed script filePath code hname
    refine ⟨_, placedCode script filePath code name, hout, ⟨rfl, hsources, ?_⟩, ?_, ?_⟩
    · exact fun data hdata => generated_place hdata
    · exact fun hbase => zeros_place hbase Mode.start code
    · intro hnodef
      rw [placedCode, place_outside rfl hnodef, List.map_map]
      exact List.map_id code

theorem modifyCFile_interleaves_mbind01 :
    ∃ out placed, modifyCFile Char.isAlphanum .syscalls "./mbind/mbind01.c".toList mbind01 =
        some out ∧
      Interleaved (splitextRoot (basename "./mbind/mbind01.c".toList)) mbind01 out placed ∧
      placed.count (.write zero) ≤ 1 := by
  obtain ⟨out, placed, hout, hplaced, hcount, -⟩ :=
    (modifyCFile_interleaves Char.isAlphanum .syscalls "./mbind/mbind01.c".toList mbind01).2
      "test_none".toList mbind01_named
  exact ⟨out, placed, hout, hplaced, hcount (by decide)⟩

/- With the two kinds of lines one, the inserted lines are those the output is longer by. -/
theorem length_of_zeros {placed : List Placed} (h : ∀ data, .write data ∈ placed → data = zero) :
    placed.length = (placed.filterMap Placed.line?).length + placed.count (.write zero) := by
  induction placed with
  | nil => rfl
  | cons p placed ih =>
    have hrest := ih fun data hdata => h data (List.mem_cons_of_mem p hdata)
    cases p with
    | source line =>
      have hne : Placed.source line ≠ .write zero := Placed.noConfusion
      simp only [List.length_cons, List.filterMap_cons, Placed.line?, List.count_cons_of_ne hne]
      omega
    | write data =>
      rw [h data (List.mem_cons_self ..)]
      simp only [List.length_cons, List.filterMap_cons, Placed.line?, List.count_cons_self]
      omega

/- A file called 0.c. -/
def zeroFile : List Text :=
  ["static void run(void)\n".toList,
    "\x7b\n".toList,
    "\x7d\n".toList,
    "static struct tst_test test = \x7b .test_all = run \x7d;\n".toList]

/-- In a file called 0.c the line with its name is one more with "0". -/
theorem zeros_repeated :
    ¬ ∀ (filePath : Text) (code : List Text) (name : Text),
      testFunctionName Char.isAlphanum code = some name →
        ∃ out placed, modifyCFile Char.isAlphanum .syscalls filePath code = some out ∧
          Interleaved (splitextRoot (basename filePath)) code out placed ∧
          placed.count (.write zero) ≤ 1 := by
  intro h
  have hname : testFunctionName Char.isAlphanum zeroFile = some "run".toList := by decide +kernel
  have hlength : (modifyCFile Char.isAlphanum .syscalls "./0.c".toList zeroFile).map List.length =
      some 6 := by decide +kernel
  have hbase : splitextRoot (basename "./0.c".toList) = zero := by decide
  obtain ⟨out, placed, hout, hplaced, hcount⟩ := h "./0.c".toList zeroFile "run".toList hname
  rw [hout, Option.map_some, Option.some.injEq, ← hplaced.text, List.length_map] at hlength
  have hlines := length_of_zeros fun data hdata => by
    rcases hplaced.generated data hdata with hd | hd
    · rw [hd, hbase]
    · exact hd
  have hfour : zeroFile.length = 4 := rfl
  rw [hplaced.sources] at hlines
  omega

end Tbouncer.Instrument
