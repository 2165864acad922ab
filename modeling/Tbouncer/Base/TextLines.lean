import Tbouncer.Base.PyText

/-!
# Lines of a text

`f.readlines()` cuts what text mode has read after every `\n`; `f.writelines` joins.
Joining what has been cut gives the text back. Cutting what has been joined gives back
the lines as long as each of them ends where it should.
-/

namespace Tbouncer.Base

/-- `f.readlines()`, the line ends having been made `\n`. -/
def readLines : Text → List Text
  | [] => []
  | c :: s =>
      if c = '\n' then [c] :: readLines s
      else
        match readLines s with
        | [] => [[c]]
        | line :: lines => (c :: line) :: lines

/- A whole line: its only line end is its last character. -/
def WholeLine (line : Text) : Prop := ∃ s, line = s ++ ['\n'] ∧ '\n' ∉ s

theorem flatten_readLines (s : Text) : (readLines s).flatten = s := by
  induction s with
  | nil => rfl
  | cons c s ih =>
    rw [readLines]
    split
    · rw [List.flatten_cons, ih]
      rfl
    · split
      next hnil =>
        rw [hnil] at ih
        rw [← ih]
        rfl
      next line lines hlines =>
        rw [hlines] at ih
        rw [← ih]
        rfl

theorem readLines_whole {line : Text} (h : WholeLine line) (s : Text) :
    readLines (line ++ s) = line :: readLines s := by
  obtain ⟨t, rfl, ht⟩ := h
  induction t with
  | nil => rfl
  | cons c t ih =>
    have hc : c ≠ '\n' := fun hc => ht (hc ▸ List.mem_cons_self ..)
    have hrest := ih fun hmem => ht (List.mem_cons_of_mem c hmem)
    rw [List.cons_append, List.cons_append, readLines, if_neg hc, hrest]

/-- Whole lines are read one by one. -/
theorem readLines_flatten_append {lines : List Text} (h : ∀ line ∈ lines, WholeLine line)
    (s : Text) : readLines (lines.flatten ++ s) = lines ++ readLines s := by
  induction lines with
  | nil => rfl
  | cons line lines ih =>
    obtain ⟨hline, hlines⟩ := List.forall_mem_cons.mp h
    rw [List.flatten_cons, List.append_assoc, readLines_whole hline, ih hlines, List.cons_append]

/- Every line that another one follows is whole. -/
theorem whole_of_readLines {s : Text} {earlier later : List Text}
    (h : readLines s = earlier ++ later) (hlater : later ≠ []) :
    ∀ line ∈ earlier, WholeLine line := by
  induction s generalizing earlier with
  | nil =>
    obtain ⟨rfl, -⟩ := List.append_eq_nil_iff.mp h.symm
    exact List.forall_mem_nil _
  | cons c s ih =>
    cases earlier with
    | nil => exact List.forall_mem_nil _
    | cons first earlier =>
      rw [readLines, List.cons_append] at h
      split at h
      next hc =>
        obtain ⟨rfl, hrest⟩ := List.cons.inj h
        exact List.forall_mem_cons.mpr ⟨⟨[], by rw [hc]; rfl, List.not_mem_nil⟩, ih hrest⟩
      next hc =>
        split at h
        next hnil =>
          obtain ⟨-, hrest⟩ := List.cons.inj h
          exact absurd (List.append_eq_nil_iff.mp hrest.symm).2 hlater
        next line lines hlines =>
          obtain ⟨rfl, rfl⟩ := List.cons.inj h
          have hall : ∀ l ∈ line :: earlier, WholeLine l := ih hlines
          obtain ⟨⟨t, ht, hnot⟩, hearlier⟩ := List.forall_mem_cons.mp hall
          refine List.forall_mem_cons.mpr ⟨⟨c :: t, by rw [ht]; rfl, ?_⟩, hearlier⟩
          intro hmem
          rcases List.mem_cons.mp hmem with heq | hmem
          · exact hc heq.symm
          · exact hnot hmem

/- What follows whole lines can be cut from them. -/
theorem readLines_later {s : Text} {earlier later : List Text}
    (h : readLines s = earlier ++ later) (hlater : later ≠ []) :
    readLines later.flatten = later := by
  have hwhole := whole_of_readLines h hlater
  have hflat := flatten_readLines s
  rw [h, List.flatten_append] at hflat
  have hread := readLines_flatten_append hwhole later.flatten
  rw [hflat, h] at hread
  exact (List.append_cancel_left hread).symm

/-- Whole lines added before a line of the text are read back at their place. -/
theorem readLines_insert {s : Text} {earlier later more : List Text}
    (h : readLines s = earlier ++ later) (hlater : later ≠ [])
    (hmore : ∀ line ∈ more, WholeLine line) :
    readLines (earlier ++ more ++ later).flatten = earlier ++ more ++ later := by
  have hall : ∀ line ∈ earlier ++ more, WholeLine line := by
    intro line hline
    rcases List.mem_append.mp hline with hline | hline
    · exact whole_of_readLines h hlater line hline
    · exact hmore line hline
  rw [List.flatten_append, readLines_flatten_append hall, readLines_later h hlater]

/-! ### Text without carriage returns -/

theorem universalNewlines_of_no_cr {s : Text} (h : '\r' ∉ s) : universalNewlines s = s := by
  fun_induction universalNewlines s with
  | case1 => rfl
  | case2 s ih => exact absurd (List.mem_cons_self ..) h
  | case3 s _ ih => exact absurd (List.mem_cons_self ..) h
  | case4 c s _ _ ih => rw [ih fun hmem => h (List.mem_cons_of_mem c hmem)]

theorem no_cr_universalNewlines (s : Text) : '\r' ∉ universalNewlines s := by
  fun_induction universalNewlines s with
  | case1 => exact List.not_mem_nil
  | case2 s ih => simp [ih]
  | case3 s _ ih => simp [ih]
  | case4 c s _ hcr ih =>
    intro hmem
    rcases List.mem_cons.mp hmem with heq | hmem
    · exact hcr heq.symm
    · exact ih hmem

theorem no_cr_of_readText {b : Bytes} {s : Text} (h : readText b = some s) : '\r' ∉ s := by
  obtain ⟨t, -, rfl⟩ := Option.map_eq_some_iff.mp h
  exact no_cr_universalNewlines t

/- Text without carriage returns is read as it has been written. -/
theorem readText_of_no_cr {s : Text} (h : '\r' ∉ s) : readText (encodeUtf8 s) = some s := by
  rw [readText_encodeUtf8, universalNewlines_of_no_cr h]

end Tbouncer.Base
