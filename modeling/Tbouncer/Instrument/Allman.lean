import Tbouncer.Instrument.Scanner

/-!
# Instrumentation of the Allman layout

A test function whose signature is one line, whose opening brace is the next line
and whose braces, counted as characters, first come back to zero on line `c`.
-/

namespace Tbouncer.Instrument
open Base

def slice (code : List Text) (a b : ℕ) : List Text := (code.drop a).take (b - a)

/- 1 for the opening line, plus the running sum of the lines after it. -/
def bodyLevel (lines : List Text) : ℤ := 1 + (lines.map braceDelta).sum

theorem bodyLevel_of_take {lines : List Text}
    (h : ∀ k < lines.length + 1, bodyLevel (lines.take k) ≠ 0) :
    ∀ q, q <+: lines → bodyLevel q ≠ 0 := by
  intro q hq
  rw [List.prefix_iff_eq_take.mp hq]
  exact h q.length (Nat.lt_succ_of_le hq.length_le)

section
variable {isDef : Text → Bool} {base : Text}

/- From the signature to the closing line: the function is left, and what follows
is scanned outside it. -/
theorem scan_function (pre body post : List Text) (sig opening closing : Text)
    (hpre : ∀ line ∈ pre, isDef line = false) (hsig : isDef sig = true)
    (hopen : isBlockOpen opening = true)
    (hbody : ∀ p, p <+: body → bodyLevel p ≠ 0)
    (hclose : isBlockOpen closing = false) (hzero : bodyLevel (body ++ [closing]) = 0) :
    (pre ++ sig :: opening :: (body ++ closing :: post)).foldl (scanLine isDef base) Scan.start =
      post.foldl (scanLine isDef base)
        ⟨pre ++ [sig, opening, coordinationLine base] ++ body.flatMap (announced base) ++
          [coordinationLine "0".toList, closing], false, 0, true⟩ := by
  have hdelta : braceDelta opening = 1 := braceDelta_of_isBlockOpen hopen
  have henter : (pre ++ [sig]).foldl (scanLine isDef base) Scan.start =
      ⟨pre ++ [sig], true, 0, false⟩ := by
    rw [List.foldl_append, scan_skip pre Scan.start rfl hpre, List.foldl_cons,
      scanLine_enter rfl hsig]
    simp [Scan.start]
  have hlevel : ∀ p, p <+: opening :: body → p ≠ [] → (0 : ℤ) + (p.map braceDelta).sum ≠ 0 := by
    intro p hp hne
    cases p with
    | nil => exact absurd rfl hne
    | cons x p =>
      obtain ⟨rfl, hp'⟩ := List.cons_prefix_cons.mp hp
      have := hbody p hp'
      simpa [bodyLevel, hdelta] using this
  have hleave : (0 : ℤ) + ((opening :: body).map braceDelta).sum + braceDelta closing = 0 := by
    have := hzero
    simp only [bodyLevel, List.map_append, List.sum_append, List.map_cons, List.map_nil,
      List.sum_cons, List.sum_nil] at this
    simp only [List.map_cons, List.sum_cons, hdelta]
    omega
  have hcode : pre ++ sig :: opening :: (body ++ closing :: post) =
      (pre ++ [sig]) ++ (opening :: body) ++ closing :: post := by simp
  rw [hcode, List.foldl_append, List.foldl_append, henter,
    scan_body (opening :: body) ⟨pre ++ [sig], true, 0, false⟩ rfl hlevel, List.foldl_cons,
    scanLine_leave rfl rfl hclose hleave]
  simp [announced, hopen]

end

/- A file cut at its test function. -/
structure Parts where
  pre : List Text
  signature : Text
  opening : Text
  body : List Text
  closing : Text
  post : List Text

def Parts.code (p : Parts) : List Text :=
  p.pre ++ p.signature :: p.opening :: (p.body ++ p.closing :: p.post)

/- The parts after a run: one line more at either end of the body. -/
def Parts.again (base : Text) (p : Parts) : Parts :=
  { p with body := coordinationLine base :: (p.body ++ [coordinationLine "0".toList]) }

section
variable (isalnum : Char → Bool) (script : Script)

/- The name is found, and the function has its signature on one line and its opening
brace on the next. -/
structure Parts.Layout (p : Parts) (name : Text) : Prop where
  named : testFunctionName isalnum p.code = some name
  signature : isDefinition script name p.signature = true
  opening : isBlockOpen p.opening = true

/- No line above matches as well, and the braces, counted as characters, first come back
to zero on the closing line. -/
structure Parts.Counted (p : Parts) (name : Text) : Prop extends p.Layout isalnum script name where
  above : ∀ line ∈ p.pre, isDefinition script name line = false
  inside : ∀ q, q <+: p.body → bodyLevel q ≠ 0
  closing : isBlockOpen p.closing = false
  balanced : bodyLevel (p.body ++ [p.closing]) = 0

/- No line of the body is an opening line of its own, and no line below matches. -/
structure Parts.Allman (p : Parts) (name : Text) : Prop extends p.Counted isalnum script name where
  noBlock : ∀ line ∈ p.body, isBlockOpen line = false
  below : ∀ line ∈ p.post, isDefinition script name line = false

variable {isalnum script}

/- No line of such a body gets a write behind it. -/
theorem Parts.Allman.body_plain {p : Parts} {name : Text} (h : p.Allman isalnum script name)
    (base : Text) : p.body.flatMap (announced base) = p.body := by
  have hid : ∀ line ∈ p.body, announced base line = [line] := by
    intro line hl
    rw [announced, h.noBlock line hl]
    rfl
  rw [List.flatMap_congr hid, List.flatMap_singleton']

theorem Parts.Allman.modify {p : Parts} {name : Text} (h : p.Allman isalnum script name)
    (filePath : Text) :
    modifyCFile isalnum script filePath p.code =
      some (p.again (splitextRoot (basename filePath))).code := by
  rw [modifyCFile, h.named, Option.map_some, Parts.code,
    scan_function _ _ _ _ _ _ h.above h.signature h.opening h.inside h.closing h.balanced,
    scan_skip _ _ rfl h.below, h.body_plain]
  simp [Parts.again, Parts.code]

end

section
variable (isalnum : Char → Bool) (script : Script)

structure AllmanLayout (code : List Text) (name : Text) (d c : ℕ) : Prop where
  named : testFunctionName isalnum code = some name
  after : d + 1 < c
  within : c < code.length
  signature : isDefinition script name code[d] = true
  unique : ∀ i, (h : i < code.length) → i < d + 2 ∨ c < i →
    isDefinition script name code[i] = true → i = d
  opening : isBlockOpen code[d + 1] = true
  inside : ∀ j, j < c → d + 2 ≤ j → bodyLevel (slice code (d + 2) (j + 1)) ≠ 0
  closing : bodyLevel (slice code (d + 2) (c + 1)) = 0
  noBlock : ∀ line ∈ slice code (d + 2) (c + 1), isBlockOpen line = false

variable {isalnum script}

theorem slice_snoc {code : List Text} {a b : ℕ} (hab : a ≤ b) (hb : b < code.length) :
    slice code a (b + 1) = slice code a b ++ [code[b]] := by
  have hlen : b - a < (code.drop a).length := by
    rw [List.length_drop]
    omega
  have hsub : b + 1 - a = b - a + 1 := by omega
  have hget : (code.drop a)[b - a] = code[b] := by
    rw [List.getElem_drop]
    congr 1
    omega
  rw [slice, slice, hsub, List.take_succ_eq_append_getElem hlen, hget]

theorem split_at_function {code : List Text} {d c : ℕ} (hdc : d + 1 < c) (hc : c < code.length) :
    code = code.take d ++ code[d] :: code[d + 1] ::
      (slice code (d + 2) c ++ code[c] :: code.drop (c + 1)) := by
  have h1 : code.drop d = code[d] :: code.drop (d + 1) := List.drop_eq_getElem_cons _
  have h2 : code.drop (d + 1) = code[d + 1] :: code.drop (d + 2) :=
    List.drop_eq_getElem_cons _
  have h3 : code.drop c = code[c] :: code.drop (c + 1) := List.drop_eq_getElem_cons _
  have h4 : code.drop (d + 2) = slice code (d + 2) c ++ code.drop c := by
    have hd : (code.drop (d + 2)).drop (c - (d + 2)) = code.drop c := by
      rw [List.drop_drop]
      congr 1
      omega
    rw [slice, ← hd, List.take_append_drop]
  rw [← h3, ← h4, ← h2, ← h1, List.take_append_drop]

theorem prefix_slice {code p : List Text} {a b : ℕ} (hab : a ≤ b) (hb : b ≤ code.length)
    (hp : p <+: slice code a b) : p = slice code a (a + p.length) ∧ a + p.length ≤ b := by
  have hlen := hp.length_le
  rw [slice, List.length_take, List.length_drop] at hlen
  have heq := List.prefix_iff_eq_take.mp hp
  refine ⟨?_, by omega⟩
  rw [slice, List.take_take] at heq
  rw [slice, heq]
  congr 1
  rw [List.length_take, List.length_drop]
  omega

section
variable {code : List Text} {name : Text} {d c : ℕ}

theorem AllmanLayout.not_definition (h : AllmanLayout isalnum script code name d c) {i : ℕ}
    (hi : i < code.length) (hout : i < d + 2 ∨ c < i) (hne : i ≠ d) :
    isDefinition script name code[i] = false := by
  by_contra hn
  exact hne (h.unique i hi hout (by simpa using hn))

theorem AllmanLayout.above (h : AllmanLayout isalnum script code name d c) :
    ∀ line ∈ code.take d, isDefinition script name line = false := by
  intro line hl
  obtain ⟨i, hi, rfl⟩ := List.mem_iff_getElem.mp hl
  rw [List.length_take] at hi
  rw [List.getElem_take]
  exact h.not_definition (by omega) (Or.inl (by omega)) (by omega)

theorem AllmanLayout.below (h : AllmanLayout isalnum script code name d c) :
    ∀ line ∈ code.drop (c + 1), isDefinition script name line = false := by
  have hdc := h.after
  intro line hl
  obtain ⟨i, hi, rfl⟩ := List.mem_iff_getElem.mp hl
  rw [List.length_drop] at hi
  rw [List.getElem_drop]
  exact h.not_definition (by omega) (Or.inr (by omega)) (by omega)

theorem AllmanLayout.slice_closing (h : AllmanLayout isalnum script code name d c)
    (hc : c < code.length) : slice code (d + 2) (c + 1) = slice code (d + 2) c ++ [code[c]] := by
  have hdc := h.after
  exact slice_snoc (by omega) hc

/- The brace sum does not come back to zero before the closing line. -/
theorem AllmanLayout.body_level (h : AllmanLayout isalnum script code name d c) :
    ∀ p, p <+: slice code (d + 2) c → bodyLevel p ≠ 0 := by
  have hdc := h.after
  have hc := h.within
  intro p hp
  obtain ⟨heq, hle⟩ := prefix_slice (by omega) (by omega) hp
  cases hl : p.length with
  | zero =>
    rw [List.eq_nil_of_length_eq_zero hl]
    decide
  | succ k =>
    rw [heq, hl]
    exact h.inside (d + 2 + k) (by omega) (by omega)

/- The file cut at its function. -/
theorem AllmanLayout.cut (h : AllmanLayout isalnum script code name d c) :
    ∃ p : Parts, p.code = code ∧ p.Allman isalnum script name ∧
      p.pre ++ [p.signature, p.opening] = code.take (d + 2) ∧ p.body = slice code (d + 2) c ∧
      p.closing :: p.post = code.drop c := by
  have hdc := h.after
  have hc := h.within
  have hcode := split_at_function hdc hc
  have hno := h.noBlock
  have hzero := h.closing
  rw [h.slice_closing hc] at hno hzero
  have htake : code.take (d + 2) = code.take d ++ [code[d], code[d + 1]] := by
    rw [List.take_succ_eq_append_getElem (by omega), List.take_succ_eq_append_getElem (by omega),
      List.append_assoc]
    rfl
  refine ⟨⟨code.take d, code[d], code[d + 1], slice code (d + 2) c, code[c], code.drop (c + 1)⟩,
    hcode.symm, ?_, htake.symm, rfl, (List.drop_eq_getElem_cons hc).symm⟩
  exact
    { named := by rw [Parts.code, ← hcode]; exact h.named
      above := h.above
      signature := h.signature
      opening := h.opening
      inside := h.body_level
      noBlock := fun line hline => hno line (List.mem_append_left _ hline)
      closing := hno _ (by simp)
      balanced := hzero
      below := h.below }

end

/-- What the tool writes back for a file in the Allman layout: the base name after
the opening line, "0" before the closing line, nothing else. -/
theorem modify_allman_exact (filePath : Text) (code : List Text) (name : Text) (d c : ℕ)
    (h : AllmanLayout isalnum script code name d c) :
    modifyCFile isalnum script filePath code =
      some (code.take (d + 2) ++ [coordinationLine (splitextRoot (basename filePath))] ++
        slice code (d + 2) c ++ [coordinationLine "0".toList] ++ code.drop c) := by
  obtain ⟨p, hcode, hp, htake, hbody, hdrop⟩ := h.cut
  have hmodify := hp.modify filePath
  rw [hcode] at hmodify
  rw [hmodify, ← htake, ← hbody, ← hdrop]
  simp [Parts.again, Parts.code]

end

/- mmap/mmap18.c from its test function on, before instrumentation. -/
def mmap18 : List Text :=
  ["static void run_test(void)\n".toList,
    "\x7b\n".toList,
    "\tsize_t pthread_stack = LTP_ALIGN(PTHREAD_STACK_MIN, getpagesize());\n".toList,
    "\tsize_t stack_size = 8 * pthread_stack;\n".toList,
    "\n".toList,
    "\tgrow_stack_success(stack_size, pthread_stack);\n".toList,
    "\tgrow_stack_success(stack_size, stack_size/2);\n".toList,
    "\tgrow_stack_fail(stack_size, pthread_stack);\n".toList,
    "\tgrow_stack_fail(stack_size, stack_size/2);\n".toList,
    "\x7d\n".toList,
    "\n".toList,
    "static struct tst_test test = \x7b\n".toList,
    "\t.setup = setup,\n".toList,
    "\t.test_all = run_test,\n".toList,
    "\t.forks_child = 1,\n".toList,
    "\x7d;\n".toList]

theorem mmap18_layout :
    AllmanLayout Char.isAlphanum .syscalls mmap18 "run_test".toList 0 9 where
  named := by decide
  after := by decide
  within := by decide
  signature := by decide
  unique := by decide
  opening := by decide
  inside := by decide
  closing := by decide
  noBlock := by decide

/- The repository holds this file as instrumented (mmap18.c:201-219). -/
theorem modify_allman_exact_mmap18 :
    AllmanLayout Char.isAlphanum .syscalls mmap18 "run_test".toList 0 9 ∧
      modifyCFile Char.isAlphanum .syscalls "./mmap/mmap18.c".toList mmap18 =
        some (mmap18.take 2 ++ ["    write_coordination_file(\"mmap18\");\n".toList] ++
          slice mmap18 2 9 ++ ["    write_coordination_file(\"0\");\n".toList] ++
            mmap18.drop 9) :=
  ⟨mmap18_layout,
    modify_allman_exact "./mmap/mmap18.c".toList mmap18 "run_test".toList 0 9 mmap18_layout⟩

end Tbouncer.Instrument
