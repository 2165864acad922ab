import Tbouncer.Base.LineFlow

/-!
# What inserted lines leave of a body's behaviour

Inserted lines are fallen through. When their notes cannot be observed, the body with
the lines inserted is left in the same ways, shows the same observations up to every
point, and runs on forever exactly if the old body may.
-/

namespace Tbouncer.Base.LineFlow

variable {τ ω β : Type}

/- Executing line `i` produces `w` and leads to position `j`. -/
inductive Step (prog : List (Line τ ω)) (i : ℕ) (w : List ω) (j : ℕ) : Prop where
  | go {l d} : prog[i]? = some l → (w, d) ∈ l.outcomes → d.target i = some j → Step prog i w j

/- Control gets from one position to another, producing `ws` on the way. -/
inductive Reach (prog : List (Line τ ω)) : ℕ → List ω → ℕ → Prop where
  | here {i} : Reach prog i [] i
  | step {i w j ws k} : Step prog i w j → Reach prog j ws k → Reach prog i (w ++ ws) k

/- From `i` some run never leaves: there is a set of positions with a step back into it. -/
def Diverges (prog : List (Line τ ω)) (i : ℕ) : Prop :=
  ∃ S : ℕ → Prop, S i ∧ ∀ j, S j → ∃ w k, Step prog j w k ∧ S k

theorem Reach.trans {prog : List (Line τ ω)} {i j k : ℕ} {ws vs : List ω}
    (h : Reach prog i ws j) (h' : Reach prog j vs k) : Reach prog i (ws ++ vs) k := by
  induction h with
  | here => exact h'
  | step hstep _ ih =>
    rw [List.append_assoc]
    exact Reach.step hstep (ih h')

theorem step_emit {p : List (Line τ ω)} {i j : ℕ} {x : τ × ω} {w : List ω}
    (h : p[i]? = some (Insertion.emit x)) (hstep : Step p i w j) : w = [x.2] ∧ j = i + 1 := by
  obtain ⟨hl, ho, hd⟩ := hstep
  rw [h] at hl
  cases hl
  obtain ⟨rfl, rfl⟩ := Insertion.mem_emit.mp ho
  cases hd
  exact ⟨rfl, rfl⟩

theorem step_of_emit {p : List (Line τ ω)} {i : ℕ} {x : τ × ω}
    (h : p[i]? = some (Insertion.emit x)) : Step p i [x.2] (i + 1) :=
  Step.go h (Insertion.mem_emit.mpr ⟨rfl, rfl⟩) rfl

variable {ν : Type}

/- A line with its notes taken for notes of another kind, or dropped. -/
def Line.view (f : ω → Option ν) (l : Line τ ω) : Line τ ν :=
  ⟨l.text, l.outcomes.map fun o => (o.1.filterMap f, o.2)⟩

theorem wellJumped_view {f : ω → Option ν} {prog : List (Line τ ω)} :
    WellJumped (prog.map (Line.view f)) ↔ WellJumped prog := by
  simp only [WellJumped, List.mem_map, forall_exists_index, and_imp, forall_apply_eq_imp_iff₂,
    Line.view, List.length_map]

namespace Insertion

/- The same lines, each with its note written another way. -/
def written (g : ν → ω) (ins : Insertion τ ν) : Insertion τ ω where
  before k := (ins.before k).map fun x => (x.1, g x.2)

section
variable {f : ω → Option ν} {g : ν → ω} (ins : Insertion τ ν)

theorem start_written (k : ℕ) : (ins.written g).start k = ins.start k := by
  induction k with
  | zero => rfl
  | succ k ih => rw [start, start, ih, written, List.length_map]

theorem redirect_written (d : Dest) : (ins.written g).redirect d = ins.redirect d := by
  cases d with
  | jump k =>
    have hlen : ((ins.written g).before k).length = (ins.before k).length := List.length_map ..
    simp only [redirect, position, ins.start_written, hlen]
  | resume k => simp only [redirect, ins.start_written]
  | next => rfl
  | leave => rfl

/-- Lines can be inserted before or after the notes are taken for others. -/
theorem insert_view (hfg : ∀ n, f (g n) = some n) (prog : List (Line τ ω)) :
    ((ins.written g).insert prog).map (Line.view f) = ins.insert (prog.map (Line.view f)) := by
  have hemit : ∀ k, (((ins.written g).before k).map emit).map (Line.view f) =
      (ins.before k).map emit := by
    intro k
    simp only [written, List.map_map]
    refine List.map_congr_left fun x _ => ?_
    simp [emit, Line.view, hfg]
  have hmoved : ∀ l, ((ins.written g).moved l).view f = ins.moved (l.view f) := by
    intro l
    simp [moved, Line.view, ins.redirect_written]
  rw [insert, interleave_map, funext hemit, List.map_map, insert, List.map_map]
  congr 1
  exact List.map_congr_left fun l _ => hmoved l

end
end Insertion

/-! ### Notes that cannot be observed -/

namespace Insertion

/- No inserted line produces an observation. -/
def Silent (ins : Insertion τ ω) (own : ω → Option β) : Prop :=
  ∀ k, ∀ x ∈ ins.before k, own x.2 = none

variable {ins : Insertion τ ω} {own : ω → Option β} {prog : List (Line τ ω)}

theorem Silent.notes (h : ins.Silent own) (k : ℕ) : (ins.notes k).filterMap own = [] := by
  rw [List.filterMap_eq_nil_iff]
  intro n hn
  obtain ⟨x, hx, rfl⟩ := List.mem_map.mp hn
  exact h k x hx

theorem Silent.passed (h : ins.Silent own) (i : ℕ) (d : Dest) :
    (ins.passed i d).filterMap own = [] := by
  cases d with
  | next => exact h.notes _
  | resume k => exact h.notes k
  | jump k => rfl
  | leave => rfl

theorem path_of_annotate (h : ins.Silent own) {i : ℕ} {ws : List ω} {e : Exit}
    (hpath : Path (ins.annotate prog) i ws e) :
    ∃ ws', Path prog i ws' e ∧ ws'.filterMap own = ws.filterMap own := by
  induction hpath with
  | closed =>
    rw [ins.annotate_length]
    exact ⟨[], Path.closed, rfl⟩
  | left hl ho =>
    obtain ⟨l, hl', rfl⟩ := ins.annotate_getElem.mp hl
    obtain ⟨w, hw, rfl⟩ := ins.mem_annotateLine.mp ho
    refine ⟨w, Path.left hl' hw, ?_⟩
    rw [List.filterMap_append, h.passed, List.append_nil]
  | go hl ho hd _ ih =>
    obtain ⟨l, hl', rfl⟩ := ins.annotate_getElem.mp hl
    obtain ⟨w, hw, rfl⟩ := ins.mem_annotateLine.mp ho
    obtain ⟨ws', hpath, hown⟩ := ih
    refine ⟨w ++ ws', Path.go hl' hw hd hpath, ?_⟩
    rw [List.filterMap_append, List.filterMap_append, List.filterMap_append, h.passed,
      List.append_nil, hown]

theorem annotate_of_path (h : ins.Silent own) {i : ℕ} {ws : List ω} {e : Exit}
    (hpath : Path prog i ws e) :
    ∃ ws', Path (ins.annotate prog) i ws' e ∧ ws'.filterMap own = ws.filterMap own := by
  induction hpath with
  | closed =>
    have hclosed : Path (ins.annotate prog) (ins.annotate prog).length [] .closed := Path.closed
    rw [ins.annotate_length] at hclosed
    exact ⟨[], hclosed, rfl⟩
  | left hl ho =>
    obtain ⟨l', hl', ho'⟩ := ins.annotate_outcome hl ho
    refine ⟨_, Path.left hl' ho', ?_⟩
    rw [List.filterMap_append, h.passed, List.append_nil]
  | go hl ho hd _ ih =>
    obtain ⟨l', hl', ho'⟩ := ins.annotate_outcome hl ho
    obtain ⟨ws', hpath, hown⟩ := ih
    refine ⟨_, Path.go hl' ho' hd hpath, ?_⟩
    rw [List.filterMap_append, List.filterMap_append, List.filterMap_append, h.passed,
      List.append_nil, hown]

/-- The complete runs of the two bodies: the same exits with the same observations. -/
theorem path_insert_observed (h : ins.Silent own) (hprog : WellJumped prog) (e : Exit)
    (bs : List β) :
    (∃ ws, Path (ins.insert prog) 0 ws e ∧ ws.filterMap own = bs) ↔
      ∃ ws, Path prog 0 ws e ∧ ws.filterMap own = bs := by
  have hall : ∀ ws, (ins.notes 0 ++ ws).filterMap own = ws.filterMap own := by
    intro ws
    rw [List.filterMap_append, h.notes, List.nil_append]
  constructor
  · rintro ⟨ws, hpath, rfl⟩
    obtain ⟨vs, hann, rfl⟩ := (path_insert_iff hprog).mp hpath
    obtain ⟨ws', hpath', hown⟩ := path_of_annotate h hann
    exact ⟨ws', hpath', by rw [hown, hall]⟩
  · rintro ⟨ws, hpath, rfl⟩
    obtain ⟨vs, hann, hown⟩ := annotate_of_path h hpath
    exact ⟨_, (path_insert_iff hprog).mpr ⟨vs, hann, rfl⟩, by rw [hall, hown]⟩

/-! ### Step by step -/

/- Control at `p` of the new body, in front of line `i` or at it, stands for control at
`i` of the old one. -/
structure Origin (ins : Insertion τ ω) (prog : List (Line τ ω)) (p i : ℕ) : Prop where
  within : i ≤ prog.length
  place : ∃ j, j ≤ (ins.before i).length ∧ p = ins.start i + j

theorem origin_front : Origin ins prog 0 0 := ⟨Nat.zero_le _, 0, Nat.zero_le _, rfl⟩

/- A step of the new body passes an inserted line, or is one of the old body. -/
theorem step_origin (hs : ins.Silent own) (hprog : WellJumped prog) {p i q : ℕ} {w : List ω}
    (hp : Origin ins prog p i) (h : Step (ins.insert prog) p w q) :
    (w.filterMap own = [] ∧ q = p + 1 ∧ Origin ins prog q i) ∨
      ∃ k, Step prog i w k ∧ Origin ins prog q k := by
  obtain ⟨hi, j, hj, rfl⟩ := hp
  obtain ⟨hl, ho, hd⟩ := h
  rcases ins.line_of_insert hi hj hl with ⟨x, hx, rfl⟩ | ⟨rfl, l, hl', rfl⟩
  · obtain ⟨rfl, rfl⟩ := mem_emit.mp ho
    cases hd
    have hlt := (List.getElem?_eq_some_iff.mp hx).1
    exact Or.inl ⟨List.filterMap_cons_none (hs i x (List.mem_of_getElem? hx)), rfl, hi, j + 1, hlt,
      rfl⟩
  · obtain ⟨d, ho', rfl⟩ := ins.mem_moved.mp ho
    obtain ⟨k, hk⟩ := ins.target_of_redirect (i := i) hd
    obtain ⟨j, hj', htarget, -⟩ := ins.redirect_target hk
    rw [position, hd] at htarget
    exact Or.inr ⟨k, Step.go hl' ho' hk, target_le hprog hl' ho' hk, j, hj',
      Option.some.inj htarget⟩

theorem reach_of_insert (hs : ins.Silent own) (hprog : WellJumped prog) {p i q : ℕ}
    {ws : List ω} (hp : Origin ins prog p i) (h : Reach (ins.insert prog) p ws q) :
    ∃ ws' j, Reach prog i ws' j ∧ ws'.filterMap own = ws.filterMap own ∧ Origin ins prog q j := by
  induction h generalizing i with
  | here => exact ⟨[], i, Reach.here, rfl, hp⟩
  | step hstep _ ih =>
    rcases step_origin hs hprog hp hstep with ⟨hnil, -, hq⟩ | ⟨j, hold, hq⟩
    · obtain ⟨ws', k, hreach, hown, hk⟩ := ih hq
      exact ⟨ws', k, hreach, by rw [hown, List.filterMap_append, hnil, List.nil_append], hk⟩
    · obtain ⟨ws', k, hreach, hown, hk⟩ := ih hq
      refine ⟨_, k, Reach.step hold hreach, ?_, hk⟩
      rw [List.filterMap_append, List.filterMap_append, hown]

/- Control gets through what is inserted in front of a line. -/
theorem reach_through {i j : ℕ} (hi : i ≤ prog.length) (hj : j ≤ (ins.before i).length) :
    Reach (ins.insert prog) (ins.start i + j) ((ins.notes i).drop j) (ins.position i) := by
  induction hj using Nat.decreasingInduction with
  | self =>
    rw [List.drop_of_length_le (Nat.le_of_eq (ins.notes_length i))]
    exact Reach.here
  | of_succ j hlt ih =>
    have hstep := step_of_emit (ins.insert_emit hi (List.getElem?_eq_getElem hlt))
    have hdrop : (ins.notes i).drop j = [(ins.before i)[j].2] ++ (ins.notes i).drop (j + 1) := by
      rw [List.drop_eq_getElem_cons (by rw [ins.notes_length]; exact hlt)]
      simp [notes]
    rw [hdrop]
    exact Reach.step hstep ih

/- A step of the old body is one of the line it was moved to. -/
theorem moved_of_step (ins : Insertion τ ω) (hprog : WellJumped prog) {i k : ℕ} {w : List ω}
    (h : Step prog i w k) :
    ∃ j, j ≤ (ins.before k).length ∧ k ≤ prog.length ∧
      Step (ins.insert prog) (ins.position i) w (ins.start k + j) := by
  obtain ⟨hl, ho, hd⟩ := h
  obtain ⟨j, hj, htarget, -⟩ := ins.redirect_target hd
  exact ⟨j, hj, target_le hprog hl ho hd,
    Step.go (ins.insert_moved hl) (ins.mem_moved.mpr ⟨_, ho, rfl⟩) htarget⟩

theorem insert_of_reach (hs : ins.Silent own) (hprog : WellJumped prog) {i j : ℕ} {ws : List ω}
    (h : Reach prog i ws j) :
    ∃ ws', Reach (ins.insert prog) (ins.position i) ws' (ins.position j) ∧
      ws'.filterMap own = ws.filterMap own := by
  induction h with
  | here => exact ⟨[], Reach.here, rfl⟩
  | @step i w k ws j hstep _ ih =>
    obtain ⟨n, hn, hk, hmoved⟩ := moved_of_step ins hprog hstep
    obtain ⟨ws', hrest, hws⟩ := ih
    have hsilent : ((ins.notes k).drop n).filterMap own = [] := by
      rw [List.filterMap_eq_nil_iff]
      intro x hx
      exact List.filterMap_eq_nil_iff.mp (hs.notes k) x (List.mem_of_mem_drop hx)
    refine ⟨_, Reach.step hmoved ((reach_through hk hn).trans hrest), ?_⟩
    rw [List.filterMap_append, List.filterMap_append, hsilent, List.nil_append,
      List.filterMap_append, hws]

/-- The observations up to any point of a run, whether or not the run ever ends. -/
theorem reach_insert_observed (hs : ins.Silent own) (hprog : WellJumped prog) (bs : List β) :
    (∃ ws p, Reach (ins.insert prog) 0 ws p ∧ ws.filterMap own = bs) ↔
      ∃ ws i, Reach prog 0 ws i ∧ ws.filterMap own = bs := by
  constructor
  · rintro ⟨ws, p, hreach, rfl⟩
    obtain ⟨ws', i, hold, hown, -⟩ := reach_of_insert hs hprog origin_front hreach
    exact ⟨ws', i, hold, hown⟩
  · rintro ⟨ws, i, hreach, rfl⟩
    obtain ⟨ws', hnew, hown⟩ := insert_of_reach hs hprog hreach
    have hfront : Reach (ins.insert prog) 0 (ins.notes 0) (ins.position 0) :=
      reach_through (Nat.zero_le _) (Nat.zero_le _)
    refine ⟨_, _, hfront.trans hnew, ?_⟩
    rw [List.filterMap_append, hs.notes, List.nil_append, hown]

/-! ### Runs without an end -/

/- An endless run passes what is inserted and takes a step of the old body. -/
theorem old_step_of_endless (hs : ins.Silent own) (hprog : WellJumped prog) {S : ℕ → Prop}
    (hS : ∀ p, S p → ∃ w q, Step (ins.insert prog) p w q ∧ S q) {p i : ℕ} (hp : S p)
    (horigin : Origin ins prog p i) :
    ∃ w k q, Step prog i w k ∧ S q ∧ Origin ins prog q k := by
  obtain ⟨hi, j, hj, rfl⟩ := horigin
  -- what is left of the inserted lines in front of line `i` gets shorter
  induction hj using Nat.decreasingInduction with
  | self =>
    obtain ⟨w, q, hstep, hq⟩ := hS _ hp
    rcases step_origin hs hprog ⟨hi, _, Nat.le_refl _, rfl⟩ hstep with
      ⟨-, rfl, -, n, hn, heq⟩ | ⟨k, hold, horigin⟩
    · omega
    · exact ⟨w, k, q, hold, hq, horigin⟩
  | of_succ j hlt ih =>
    obtain ⟨w, q, hstep, hq⟩ := hS _ hp
    have hx := List.getElem?_eq_getElem hlt
    obtain ⟨-, rfl⟩ := step_emit (ins.insert_emit hi hx) hstep
    exact ih hq

theorem diverges_of_insert (hs : ins.Silent own) (hprog : WellJumped prog)
    (h : Diverges (ins.insert prog) 0) : Diverges prog 0 := by
  obtain ⟨S, h0, hS⟩ := h
  refine ⟨fun i => ∃ p, S p ∧ Origin ins prog p i, ⟨0, h0, origin_front⟩, ?_⟩
  rintro i ⟨p, hp, horigin⟩
  obtain ⟨w, k, q, hold, hq, hk⟩ := old_step_of_endless hs hprog hS hp horigin
  exact ⟨w, k, hold, q, hq, hk⟩

theorem insert_diverges (hprog : WellJumped prog) (h : Diverges prog 0) :
    Diverges (ins.insert prog) 0 := by
  obtain ⟨S, h0, hS⟩ := h
  refine ⟨fun p => ∃ i, S i ∧ Origin ins prog p i, ⟨0, h0, origin_front⟩, ?_⟩
  rintro p ⟨i, hsi, hi, j, hj, rfl⟩
  rcases Nat.lt_or_eq_of_le hj with hlt | rfl
  · have hstep := step_of_emit (ins.insert_emit hi (List.getElem?_eq_getElem hlt))
    exact ⟨_, _, hstep, i, hsi, hi, j + 1, hlt, rfl⟩
  · obtain ⟨w, k, hstep, hk⟩ := hS i hsi
    obtain ⟨n, hn, hle, hmoved⟩ := moved_of_step ins hprog hstep
    exact ⟨w, _, hmoved, k, hk, hle, n, hn, rfl⟩

theorem diverges_insert_iff (hs : ins.Silent own) (hprog : WellJumped prog) :
    Diverges (ins.insert prog) 0 ↔ Diverges prog 0 :=
  ⟨diverges_of_insert hs hprog, insert_diverges hprog⟩

end Insertion
end Tbouncer.Base.LineFlow
