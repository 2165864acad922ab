import Mathlib.Data.List.Basic
import Mathlib.Data.Nat.Init

/-!
# Control flow between the lines of a function body

A body is a list of lines. Executing a line may produce notes, and then control goes on
to another line, comes to the closing brace (position `prog.length`), or leaves the
function. What a line may do is part of the line, so a statement about all bodies covers
all conditions, loops, switches and gotos. Statements may be inserted in front of any
line and in front of the closing brace, each on a line of its own.
-/

namespace Tbouncer.Base.LineFlow

/- `jump k` leads to line `k` itself, as to a label or the head of a loop; `resume k` to
what stands in front of line `k`, as from the end of the statement above it. -/
inductive Dest where
  | next
  | jump (k : ℕ)
  | resume (k : ℕ)
  | leave
  deriving DecidableEq

/- Where control goes from line `i`. -/
def Dest.target (i : ℕ) : Dest → Option ℕ
  | .next => some (i + 1)
  | .jump k => some k
  | .resume k => some k
  | .leave => none

structure Line (τ ω : Type) where
  text : τ
  outcomes : List (List ω × Dest)

inductive Exit where
  | left
  | closed
  deriving DecidableEq

variable {α τ ω : Type}

/- `Path prog i notes e`: from line `i` the function can be left by `e`, producing
`notes` on the way. -/
inductive Path (prog : List (Line τ ω)) : ℕ → List ω → Exit → Prop where
  | closed : Path prog prog.length [] .closed
  | left {i l w} : prog[i]? = some l → (w, Dest.leave) ∈ l.outcomes → Path prog i w .left
  | go {i l w d k ws e} : prog[i]? = some l → (w, d) ∈ l.outcomes → d.target i = some k →
      Path prog k ws e → Path prog i (w ++ ws) e

def Dest.within (n : ℕ) : Dest → Prop
  | .jump k => k < n
  | .resume k => k ≤ n
  | _ => True

instance (n : ℕ) : (d : Dest) → Decidable (d.within n)
  | .jump k => inferInstanceAs (Decidable (k < n))
  | .resume k => inferInstanceAs (Decidable (k ≤ n))
  | .next => inferInstanceAs (Decidable True)
  | .leave => inferInstanceAs (Decidable True)

/- Every jump leads to a line of the body, and every statement ends in front of one or
in front of the closing brace. -/
def WellJumped (prog : List (Line τ ω)) : Prop :=
  ∀ l ∈ prog, ∀ o ∈ l.outcomes, o.2.within prog.length

instance (prog : List (Line τ ω)) : Decidable (WellJumped prog) :=
  inferInstanceAs (Decidable (∀ l ∈ prog, ∀ o ∈ l.outcomes, o.2.within prog.length))

/- Control stays within the body. -/
theorem target_le {prog : List (Line τ ω)} (hprog : WellJumped prog) {i k : ℕ} {l : Line τ ω}
    {w : List ω} {d : Dest} (hl : prog[i]? = some l) (ho : (w, d) ∈ l.outcomes)
    (hd : d.target i = some k) : k ≤ prog.length := by
  have hwithin := hprog l (List.mem_of_getElem? hl) (w, d) ho
  have hi : i < prog.length := (List.getElem?_eq_some_iff.mp hl).1
  cases d with
  | next =>
    cases hd
    exact hi
  | jump j =>
    cases hd
    exact Nat.le_of_lt hwithin
  | resume j =>
    cases hd
    exact hwithin
  | leave => cases hd

/-! ### Lists with something in front of each member -/

/- `f i` in front of member `i`, counting from `k`, and the last of them at the end. -/
def interleave (f : ℕ → List α) : ℕ → List α → List α
  | k, [] => f k
  | k, x :: xs => f k ++ x :: interleave f (k + 1) xs

theorem interleave_append (f : ℕ → List α) (k : ℕ) (xs ys : List α) (y : α) :
    interleave f k (xs ++ y :: ys) =
      interleave f k xs ++ y :: interleave f (k + xs.length + 1) ys := by
  induction xs generalizing k with
  | nil => rfl
  | cons x xs ih =>
    have hk : k + 1 + xs.length + 1 = k + (x :: xs).length + 1 := by
      rw [List.length_cons]
      omega
    rw [List.cons_append, interleave, ih, hk, interleave, List.append_assoc, List.cons_append]

theorem interleave_map {β : Type} (g : α → β) (f : ℕ → List α) (k : ℕ) (xs : List α) :
    (interleave f k xs).map g = interleave (fun i => (f i).map g) k (xs.map g) := by
  induction xs generalizing k with
  | nil => rfl
  | cons x xs ih =>
    rw [interleave, List.map_append, List.map_cons, ih, List.map_cons, interleave]

theorem interleave_congr {f g : ℕ → List α} {k : ℕ} {xs : List α}
    (h : ∀ i, k ≤ i → i ≤ k + xs.length → f i = g i) : interleave f k xs = interleave g k xs := by
  induction xs generalizing k with
  | nil => exact h k (Nat.le_refl k) (Nat.le_add_right k _)
  | cons x xs ih =>
    have hrest : interleave f (k + 1) xs = interleave g (k + 1) xs := by
      refine ih fun i hi hle => h i (by omega) ?_
      rw [List.length_cons]
      omega
    rw [interleave, interleave, h k (Nat.le_refl k) (Nat.le_add_right k _), hrest]

theorem interleave_of_nil {f : ℕ → List α} {k : ℕ} {xs : List α}
    (h : ∀ i, k ≤ i → i ≤ k + xs.length → f i = []) : interleave f k xs = xs := by
  induction xs generalizing k with
  | nil => exact h k (Nat.le_refl k) (Nat.le_add_right k _)
  | cons x xs ih =>
    have hrest : interleave f (k + 1) xs = xs := by
      refine ih fun i hi hle => h i (by omega) ?_
      rw [List.length_cons]
      omega
    rw [interleave, h k (Nat.le_refl k) (Nat.le_add_right k _), hrest, List.nil_append]

/- One member more in front of the first. -/
theorem interleave_cons {f g : ℕ → List α} {k : ℕ} {a : α} (hfirst : f k = a :: g k)
    (hrest : ∀ i, k < i → f i = g i) (xs : List α) :
    interleave f k xs = a :: interleave g k xs := by
  cases xs with
  | nil => exact hfirst
  | cons x xs =>
    have htail : interleave f (k + 1) xs = interleave g (k + 1) xs :=
      interleave_congr fun i hi _ => hrest i hi
    rw [interleave, interleave, hfirst, htail, List.cons_append]

theorem interleave_shift (f : ℕ → List α) (d k : ℕ) (xs : List α) :
    interleave (fun i => f (d + i)) k xs = interleave f (d + k) xs := by
  induction xs generalizing k with
  | nil => rfl
  | cons x xs ih =>
    rw [interleave, interleave, ih]
    rfl

/-! ### Inserting lines -/

/- What is inserted in front of line `k`, and in front of the closing brace for
`k = prog.length`: lines, each with the note it produces. -/
structure Insertion (τ ω : Type) where
  before : ℕ → List (τ × ω)

namespace Insertion

variable (ins : Insertion τ ω)

def emit (x : τ × ω) : Line τ ω := ⟨x.1, [([x.2], .next)]⟩

/- The new position of what is inserted in front of line `k`. -/
def start : ℕ → ℕ
  | 0 => 0
  | k + 1 => start k + (ins.before k).length + 1

/- The new position of line `k`, of the closing brace for `k = prog.length`. -/
def position (k : ℕ) : ℕ := ins.start k + (ins.before k).length

def redirect : Dest → Dest
  | .next => .next
  | .jump k => .jump (ins.position k)
  | .resume k => .resume (ins.start k)
  | .leave => .leave

def moved (l : Line τ ω) : Line τ ω :=
  ⟨l.text, l.outcomes.map fun o => (o.1, ins.redirect o.2)⟩

def insert (prog : List (Line τ ω)) : List (Line τ ω) :=
  interleave (fun k => (ins.before k).map emit) 0 (prog.map ins.moved)

/- The notes of what stands in front of line `k`. -/
def notes (k : ℕ) : List ω := (ins.before k).map Prod.snd

/- The notes passed on the way from line `i`. -/
def passed (i : ℕ) : Dest → List ω
  | .next => ins.notes (i + 1)
  | .resume k => ins.notes k
  | .jump _ | .leave => []

/- The body as it was, a line producing itself the notes passed behind it. -/
def annotateLine (i : ℕ) (l : Line τ ω) : Line τ ω :=
  ⟨l.text, l.outcomes.map fun o => (o.1 ++ ins.passed i o.2, o.2)⟩

def annotate (prog : List (Line τ ω)) : List (Line τ ω) := prog.mapIdx ins.annotateLine

/-! ### Where the lines end up -/

@[simp] theorem notes_length (k : ℕ) : (ins.notes k).length = (ins.before k).length :=
  List.length_map ..

theorem start_mono {i k : ℕ} (h : i ≤ k) : ins.start i ≤ ins.start k := by
  induction h with
  | refl => exact Nat.le_refl _
  | step _ ih =>
    rw [start]
    omega

theorem position_lt {i k : ℕ} (h : i < k) : ins.position i < ins.position k := by
  have hle := ins.start_mono h
  rw [start] at hle
  rw [position, position]
  omega

theorem drop_insert {prog : List (Line τ ω)} {i : ℕ} (hi : i ≤ prog.length) :
    (ins.insert prog).drop (ins.start i) =
      interleave (fun k => (ins.before k).map emit) i ((prog.drop i).map ins.moved) := by
  induction i with
  | zero => rfl
  | succ i ih =>
    have hsplit : prog.drop i = prog[i] :: prog.drop (i + 1) := List.drop_eq_getElem_cons hi
    have hlen : ((ins.before i).map emit).length = (ins.before i).length := List.length_map ..
    rw [start, Nat.add_assoc, ← List.drop_drop, ih (Nat.le_of_succ_le hi), hsplit, List.map_cons,
      interleave, ← hlen, List.drop_length_add_append]
    rfl

/- An inserted line, the `j`-th in front of line `i`. -/
theorem insert_emit {prog : List (Line τ ω)} {i j : ℕ} {x : τ × ω} (hi : i ≤ prog.length)
    (hx : (ins.before i)[j]? = some x) :
    (ins.insert prog)[ins.start i + j]? = some (emit x) := by
  have hemit : ((ins.before i).map emit)[j]? = some (emit x) := by
    rw [List.getElem?_map, hx]
    rfl
  have hj : j < ((ins.before i).map emit).length := (List.getElem?_eq_some_iff.mp hemit).1
  rw [← List.getElem?_drop, ins.drop_insert hi]
  cases prog.drop i with
  | nil => exact hemit
  | cons l ls => rw [List.map_cons, interleave, List.getElem?_append_left hj, hemit]

theorem insert_moved {prog : List (Line τ ω)} {i : ℕ} {l : Line τ ω} (hl : prog[i]? = some l) :
    (ins.insert prog)[ins.position i]? = some (ins.moved l) := by
  obtain ⟨hi, rfl⟩ := List.getElem?_eq_some_iff.mp hl
  have hlen : ((ins.before i).map emit).length = (ins.before i).length := List.length_map ..
  rw [position, ← List.getElem?_drop, ins.drop_insert (Nat.le_of_lt hi),
    List.drop_eq_getElem_cons hi, List.map_cons, interleave, ← hlen,
    List.getElem?_append_right (Nat.le_refl _), Nat.sub_self, List.getElem?_cons_zero]

theorem insert_length (prog : List (Line τ ω)) :
    (ins.insert prog).length = ins.position prog.length := by
  have hdrop := congrArg List.length (ins.drop_insert (Nat.le_refl prog.length))
  have hlt : ∀ i < prog.length, ins.position i < (ins.insert prog).length := fun i hi =>
    (List.getElem?_eq_some_iff.mp (ins.insert_moved (List.getElem?_eq_getElem hi))).1
  have hle : ins.start prog.length ≤ (ins.insert prog).length := by
    cases hn : prog.length with
    | zero => exact Nat.zero_le _
    | succ n => exact hlt n (by omega)
  rw [List.drop_length, List.length_drop, List.map_nil, interleave, List.length_map] at hdrop
  rw [position]
  omega

theorem start_congr {ins' : Insertion τ ω} {n : ℕ}
    (h : ∀ k ≤ n, ins.before k = ins'.before k) {k : ℕ} (hk : k ≤ n) :
    ins.start k = ins'.start k := by
  induction k with
  | zero => rfl
  | succ k ih => rw [start, start, ih (Nat.le_of_succ_le hk), h k (Nat.le_of_succ_le hk)]

/- Only what stands in front of a line of the body or of the closing brace counts. -/
theorem insert_congr {ins' : Insertion τ ω} {prog : List (Line τ ω)} (hprog : WellJumped prog)
    (h : ∀ k ≤ prog.length, ins.before k = ins'.before k) :
    ins.insert prog = ins'.insert prog := by
  have hredirect : ∀ d : Dest, d.within prog.length → ins.redirect d = ins'.redirect d := by
    intro d hd
    cases d with
    | next => rfl
    | leave => rfl
    | jump k =>
      have hk : k ≤ prog.length := Nat.le_of_lt hd
      simp only [redirect, position, ins.start_congr h hk, h k hk]
    | resume k => simp only [redirect, ins.start_congr h hd]
  have hmoved : prog.map ins.moved = prog.map ins'.moved := by
    refine List.map_congr_left fun l hl => ?_
    simp only [moved, Line.mk.injEq, true_and]
    exact List.map_congr_left fun o ho => by rw [hredirect o.2 (hprog l hl o ho)]
  rw [insert, insert, hmoved]
  refine interleave_congr fun k _ hk => ?_
  rw [List.length_map, Nat.zero_add] at hk
  rw [h k hk]

/- What stands at a position: an inserted line, or the line behind them. -/
theorem line_of_insert {prog : List (Line τ ω)} {i j : ℕ} {l : Line τ ω} (hi : i ≤ prog.length)
    (hj : j ≤ (ins.before i).length) (hl : (ins.insert prog)[ins.start i + j]? = some l) :
    (∃ x, (ins.before i)[j]? = some x ∧ l = emit x) ∨
      (j = (ins.before i).length ∧ ∃ l', prog[i]? = some l' ∧ l = ins.moved l') := by
  rcases Nat.lt_or_eq_of_le hj with hlt | rfl
  · have hx := List.getElem?_eq_getElem hlt
    rw [ins.insert_emit hi hx] at hl
    exact Or.inl ⟨_, hx, (Option.some.inj hl).symm⟩
  · have hlt := (List.getElem?_eq_some_iff.mp hl).1
    rw [ins.insert_length] at hlt
    rcases Nat.lt_or_eq_of_le hi with hlt' | rfl
    · have hline := List.getElem?_eq_getElem hlt'
      have hmoved := ins.insert_moved hline
      rw [position, hl] at hmoved
      exact Or.inr ⟨rfl, _, hline, Option.some.inj hmoved⟩
    · exact absurd hlt (Nat.lt_irrefl _)

/- The closing brace has one position. -/
theorem end_unique {prog : List (Line τ ω)} {i j : ℕ} (hi : i ≤ prog.length)
    (hj : j ≤ (ins.before i).length) (h : ins.start i + j = ins.position prog.length) :
    i = prog.length ∧ j = (ins.before i).length := by
  rcases Nat.lt_or_eq_of_le hi with hlt | rfl
  · have hpos := ins.position_lt hlt
    rw [position] at hpos
    omega
  · rw [position] at h
    exact ⟨rfl, by omega⟩

/-! ### Where control goes -/

theorem mem_emit {x : τ × ω} {w : List ω} {d : Dest} :
    (w, d) ∈ (emit x).outcomes ↔ w = [x.2] ∧ d = .next := by
  simp [emit]

theorem mem_moved {l : Line τ ω} {w : List ω} {d : Dest} :
    (w, d) ∈ (ins.moved l).outcomes ↔ ∃ d', (w, d') ∈ l.outcomes ∧ ins.redirect d' = d := by
  simp only [moved, List.mem_map, Prod.mk.injEq, Prod.exists]
  constructor
  · rintro ⟨w', d', hmem, rfl, rfl⟩
    exact ⟨d', hmem, rfl⟩
  · rintro ⟨d', hmem, rfl⟩
    exact ⟨w, d', hmem, rfl, rfl⟩

/- From a moved line control gets to some place in front of the line it went to, and
passes the notes that are left there. -/
theorem redirect_target {i k : ℕ} {d : Dest} (h : d.target i = some k) :
    ∃ j, j ≤ (ins.before k).length ∧
      (ins.redirect d).target (ins.position i) = some (ins.start k + j) ∧
        (ins.notes k).drop j = ins.passed i d := by
  cases d with
  | next =>
    cases h
    exact ⟨0, Nat.zero_le _, rfl, rfl⟩
  | jump j =>
    cases h
    refine ⟨_, Nat.le_refl _, rfl, ?_⟩
    rw [← ins.notes_length, List.drop_length]
    rfl
  | resume j =>
    cases h
    exact ⟨0, Nat.zero_le _, rfl, rfl⟩
  | leave => cases h

theorem target_of_redirect {i p q : ℕ} {d : Dest} (h : (ins.redirect d).target p = some q) :
    ∃ k, d.target i = some k := by
  cases d with
  | next => exact ⟨_, rfl⟩
  | jump k => exact ⟨k, rfl⟩
  | resume k => exact ⟨k, rfl⟩
  | leave => cases h

theorem leave_of_redirect {d : Dest} (h : ins.redirect d = .leave) : d = .leave := by
  cases d with
  | leave => rfl
  | next => cases h
  | jump k => cases h
  | resume k => cases h

theorem annotate_getElem {prog : List (Line τ ω)} {i : ℕ} {l : Line τ ω} :
    (ins.annotate prog)[i]? = some l ↔ ∃ l', prog[i]? = some l' ∧ ins.annotateLine i l' = l := by
  rw [annotate, List.getElem?_mapIdx, Option.map_eq_some_iff]

theorem annotate_length (prog : List (Line τ ω)) : (ins.annotate prog).length = prog.length :=
  List.length_mapIdx

theorem mem_annotateLine {i : ℕ} {l : Line τ ω} {w : List ω} {d : Dest} :
    (w, d) ∈ (ins.annotateLine i l).outcomes ↔
      ∃ w', (w', d) ∈ l.outcomes ∧ w' ++ ins.passed i d = w := by
  simp only [annotateLine, List.mem_map, Prod.mk.injEq, Prod.exists]
  constructor
  · rintro ⟨w', d', hmem, rfl, rfl⟩
    exact ⟨w', hmem, rfl⟩
  · rintro ⟨w', hmem, rfl⟩
    exact ⟨w', d, hmem, rfl, rfl⟩

theorem annotate_outcome {prog : List (Line τ ω)} {i : ℕ} {l : Line τ ω} {w : List ω} {d : Dest}
    (hl : prog[i]? = some l) (ho : (w, d) ∈ l.outcomes) :
    ∃ l', (ins.annotate prog)[i]? = some l' ∧ (w ++ ins.passed i d, d) ∈ l'.outcomes :=
  ⟨_, ins.annotate_getElem.mpr ⟨l, hl, rfl⟩, ins.mem_annotateLine.mpr ⟨w, ho, rfl⟩⟩

end Insertion

/-! ### Paths through the body with the lines inserted -/

namespace Insertion

variable {ins : Insertion τ ω} {prog : List (Line τ ω)}

/- From any place in front of line `i` the rest of what is inserted there is passed. -/
theorem path_through {i j : ℕ} {ws : List ω} {e : Exit} (hi : i ≤ prog.length)
    (hj : j ≤ (ins.before i).length) (h : Path (ins.insert prog) (ins.position i) ws e) :
    Path (ins.insert prog) (ins.start i + j) ((ins.notes i).drop j ++ ws) e := by
  induction hj using Nat.decreasingInduction with
  | self =>
    rw [List.drop_of_length_le (Nat.le_of_eq (ins.notes_length i))]
    exact h
  | of_succ j hlt ih =>
    have hx := List.getElem?_eq_getElem hlt
    have hdrop : (ins.notes i).drop j = [(ins.before i)[j].2] ++ (ins.notes i).drop (j + 1) := by
      rw [List.drop_eq_getElem_cons (by rw [ins.notes_length]; exact hlt)]
      simp [notes]
    rw [hdrop, List.append_assoc]
    exact Path.go (ins.insert_emit hi hx) (mem_emit.mpr ⟨rfl, rfl⟩) rfl ih

theorem path_insert_of_annotate (hprog : WellJumped prog) {i : ℕ} {ws : List ω} {e : Exit}
    (h : Path (ins.annotate prog) i ws e) : Path (ins.insert prog) (ins.position i) ws e := by
  induction h with
  | closed =>
    rw [ins.annotate_length, ← ins.insert_length]
    exact Path.closed
  | left hl ho =>
    obtain ⟨l, hl', rfl⟩ := ins.annotate_getElem.mp hl
    obtain ⟨w, hw, rfl⟩ := ins.mem_annotateLine.mp ho
    rw [passed, List.append_nil]
    exact Path.left (ins.insert_moved hl') (ins.mem_moved.mpr ⟨_, hw, rfl⟩)
  | go hl ho hd _ ih =>
    obtain ⟨l, hl', rfl⟩ := ins.annotate_getElem.mp hl
    obtain ⟨w, hw, rfl⟩ := ins.mem_annotateLine.mp ho
    obtain ⟨j, hj, htarget, hpassed⟩ := ins.redirect_target hd
    rw [List.append_assoc, ← hpassed]
    exact Path.go (ins.insert_moved hl') (ins.mem_moved.mpr ⟨_, hw, rfl⟩) htarget
      (path_through (target_le hprog hl' hw hd) hj ih)

/- From a place in front of line `i` a path passes the notes left there and goes on as
one of the old body. -/
theorem annotate_of_path_insert (hprog : WellJumped prog) {p : ℕ} {ws : List ω} {e : Exit}
    (h : Path (ins.insert prog) p ws e) :
    ∀ i j, i ≤ prog.length → j ≤ (ins.before i).length → p = ins.start i + j →
      ∃ ws', Path (ins.annotate prog) i ws' e ∧ ws = (ins.notes i).drop j ++ ws' := by
  induction h with
  | closed =>
    intro i j hi hj hp
    rw [ins.insert_length] at hp
    obtain ⟨rfl, rfl⟩ := ins.end_unique hi hj hp.symm
    have hclosed : Path (ins.annotate prog) (ins.annotate prog).length [] .closed := Path.closed
    rw [ins.annotate_length] at hclosed
    refine ⟨[], hclosed, ?_⟩
    rw [← ins.notes_length, List.drop_length]
    rfl
  | left hl ho =>
    rintro i j hi hj rfl
    rcases ins.line_of_insert hi hj hl with ⟨x, -, rfl⟩ | ⟨rfl, l, hl', rfl⟩
    · cases (mem_emit.mp ho).2
    · obtain ⟨d, hd, hr⟩ := ins.mem_moved.mp ho
      obtain rfl := ins.leave_of_redirect hr
      obtain ⟨l', hl'', ho'⟩ := ins.annotate_outcome hl' hd
      rw [passed, List.append_nil] at ho'
      refine ⟨_, Path.left hl'' ho', ?_⟩
      rw [← ins.notes_length, List.drop_length]
      rfl
  | go hl ho hd _ ih =>
    rintro i j hi hj rfl
    rcases ins.line_of_insert hi hj hl with ⟨x, hx, rfl⟩ | ⟨rfl, l, hl', rfl⟩
    · obtain ⟨rfl, rfl⟩ := mem_emit.mp ho
      cases hd
      obtain ⟨hlt, rfl⟩ := List.getElem?_eq_some_iff.mp hx
      obtain ⟨ws', hpath, rfl⟩ := ih i (j + 1) hi hlt rfl
      refine ⟨ws', hpath, ?_⟩
      rw [List.drop_eq_getElem_cons (i := j) (by rw [ins.notes_length]; exact hlt)]
      simp [notes]
    · obtain ⟨d, ho', rfl⟩ := ins.mem_moved.mp ho
      obtain ⟨k, hk⟩ := ins.target_of_redirect (i := i) hd
      obtain ⟨j, hj', htarget, hpassed⟩ := ins.redirect_target hk
      have hle := target_le hprog hl' ho' hk
      rw [position, hd] at htarget
      obtain ⟨ws', hpath, rfl⟩ := ih k j hle hj' (Option.some.inj htarget)
      obtain ⟨l', hl'', ho''⟩ := ins.annotate_outcome hl' ho'
      refine ⟨_, Path.go hl'' ho'' hk hpath, ?_⟩
      rw [← ins.notes_length i, List.drop_length, List.nil_append, hpassed, List.append_assoc]

/-- The paths through the new body are those through the old one, with the notes of the
inserted lines they pass. -/
theorem path_insert_iff (hprog : WellJumped prog) {ws : List ω} {e : Exit} :
    Path (ins.insert prog) 0 ws e ↔
      ∃ ws', Path (ins.annotate prog) 0 ws' e ∧ ws = ins.notes 0 ++ ws' := by
  constructor
  · intro h
    exact annotate_of_path_insert hprog h 0 0 (Nat.zero_le _) (Nat.zero_le _) rfl
  · rintro ⟨ws', hpath, rfl⟩
    exact path_through (Nat.zero_le _) (Nat.zero_le _) (path_insert_of_annotate hprog hpath)

/- No jump leads to the closing brace itself. -/
theorem passed_end (hprog : WellJumped prog) {i : ℕ} {l : Line τ ω} {w : List ω} {d : Dest}
    (hl : prog[i]? = some l) (ho : (w, d) ∈ l.outcomes) (hd : d.target i = some prog.length) :
    ins.passed i d = ins.notes prog.length := by
  cases d with
  | next => exact congrArg ins.notes (Option.some.inj hd)
  | resume k => exact congrArg ins.notes (Option.some.inj hd)
  | leave => cases hd
  | jump k =>
    have hwithin : k < prog.length := hprog l (List.mem_of_getElem? hl) (w, .jump k) ho
    exact absurd (Option.some.inj hd) (Nat.ne_of_lt hwithin)

theorem mem_passed {i k : ℕ} {d : Dest} {x : ω} (h : x ∈ ins.passed i d)
    (hd : d.target i = some k) : x ∈ ins.notes k := by
  cases d with
  | next =>
    cases hd
    exact h
  | resume j =>
    cases hd
    exact h
  | jump j => cases h
  | leave => cases h

section
variable {Q : ω → Prop}

/- The notes of a path that does not come to the closing brace. -/
theorem notes_of_left (hown : ∀ l ∈ prog, ∀ o ∈ l.outcomes, ∀ x ∈ o.1, Q x)
    (hnotes : ∀ k < prog.length, ∀ x ∈ ins.notes k, Q x) {i : ℕ} {ws : List ω}
    (h : Path (ins.annotate prog) i ws .left) : i < prog.length ∧ ∀ x ∈ ws, Q x := by
  generalize he : Exit.left = e at h
  induction h with
  | closed => cases he
  | left hl ho =>
    obtain ⟨l, hl', rfl⟩ := ins.annotate_getElem.mp hl
    obtain ⟨w, hw, rfl⟩ := ins.mem_annotateLine.mp ho
    rw [passed, List.append_nil]
    exact ⟨(List.getElem?_eq_some_iff.mp hl').1, hown l (List.mem_of_getElem? hl') _ hw⟩
  | go hl ho hd _ ih =>
    obtain ⟨l, hl', rfl⟩ := ins.annotate_getElem.mp hl
    obtain ⟨w, hw, rfl⟩ := ins.mem_annotateLine.mp ho
    obtain ⟨hk, hrest⟩ := ih he
    refine ⟨(List.getElem?_eq_some_iff.mp hl').1, fun x hx => ?_⟩
    rcases List.mem_append.mp hx with hx | hx
    · rcases List.mem_append.mp hx with hx | hx
      · exact hown l (List.mem_of_getElem? hl') _ hw x hx
      · exact hnotes _ hk x (mem_passed hx hd)
    · exact hrest x hx

/- A path to the closing brace ends with what stands in front of it. -/
theorem closed_ends (hprog : WellJumped prog)
    (hown : ∀ l ∈ prog, ∀ o ∈ l.outcomes, ∀ x ∈ o.1, Q x)
    (hnotes : ∀ k < prog.length, ∀ x ∈ ins.notes k, Q x) {i : ℕ} {ws : List ω}
    (h : Path (ins.annotate prog) i ws .closed) :
    (i = prog.length ∧ ws = []) ∨
      (i < prog.length ∧ ∃ ws', ws = ws' ++ ins.notes prog.length ∧ ∀ x ∈ ws', Q x) := by
  generalize he : Exit.closed = e at h
  induction h with
  | closed => exact Or.inl ⟨ins.annotate_length prog, rfl⟩
  | left hl ho => cases he
  | go hl ho hd _ ih =>
    obtain ⟨l, hl', rfl⟩ := ins.annotate_getElem.mp hl
    obtain ⟨w, hw, rfl⟩ := ins.mem_annotateLine.mp ho
    have hi := (List.getElem?_eq_some_iff.mp hl').1
    have hline := hown l (List.mem_of_getElem? hl') _ hw
    rcases ih he with ⟨rfl, rfl⟩ | ⟨hk, ws', rfl, hrest⟩
    · rw [passed_end hprog hl' hw hd, List.append_nil]
      exact Or.inr ⟨hi, w, rfl, hline⟩
    · refine Or.inr ⟨hi, _, (List.append_assoc ..).symm, fun x hx => ?_⟩
      rcases List.mem_append.mp hx with hx | hx
      · rcases List.mem_append.mp hx with hx | hx
        · exact hline x hx
        · exact hnotes _ hk x (mem_passed hx hd)
      · exact hrest x hx

end

end Insertion
end Tbouncer.Base.LineFlow
