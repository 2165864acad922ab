import Tbouncer.Base.Runs

/-!
# A register watched through coalescing notifications

One writer stores values in a register and queues notifications; one reader
takes the queued notifications in batches and, for each of them, re-reads the
register and acts on what it finds. Equal notifications coalesce (`enqueue`), so
the reader may skip values and see one value several times. If every store is
followed by a notification before the writer rests, then once everything queued
has been handled the reader's last action was on the value the register holds.
-/

namespace Tbouncer.Base.Watch

section Queue
variable {ε : Type} [DecidableEq ε]

/-- An event equal to the last unread one is merged with it. -/
def enqueue (q : List ε) (e : ε) : List ε := if q.getLast? = some e then q else q ++ [e]

theorem mem_enqueue (q : List ε) (e : ε) : e ∈ enqueue q e := by
  unfold enqueue
  split
  next h => exact List.mem_of_getLast? h
  next => simp

theorem mem_enqueue_of_mem {q : List ε} {x : ε} (e : ε) (h : x ∈ q) : x ∈ enqueue q e := by
  unfold enqueue
  split
  · exact h
  · exact List.mem_append_left [e] h

end Queue

/-- What a reader is: which events it reacts to, when it is between two events,
what it does on reading a value, and what it still does on its own afterwards. -/
structure Reader (γ ρ ε : Type) where
  relevant : ε → Bool
  ready : ρ → Bool
  act : γ → ρ → ρ
  tick : ρ → ρ

/- `owed` records that the value in place has not been announced yet;
`atStore` is the reader as it was when the value in place was stored. -/
structure Conf (γ ρ ε : Type) where
  content : γ
  owed : Bool
  queue : List ε
  batch : List ε
  reader : ρ
  atStore : ρ

inductive Act (γ ε : Type) where
  | store (c : γ)
  | notify (e : ε)
  | take
  | handle
  | tick
  deriving DecidableEq

variable {γ ρ ε : Type} [DecidableEq ε] (R : Reader γ ρ ε)

def step (s : Conf γ ρ ε) : Act γ ε → Option (Conf γ ρ ε)
  | .store c => some { s with content := c, owed := true, atStore := s.reader }
  | .notify e =>
      some { s with queue := enqueue s.queue e, owed := s.owed && !R.relevant e }
  | .take =>
      if R.ready s.reader ∧ s.batch = [] then some { s with batch := s.queue, queue := [] }
      else none
  | .handle =>
      if R.ready s.reader then
        match s.batch with
        | [] => none
        | e :: rest =>
            some { s with
              batch := rest
              reader := if R.relevant e then R.act s.content s.reader else s.reader }
      else none
  | .tick => some { s with reader := R.tick s.reader }

theorem step_take_eq_some {s t : Conf γ ρ ε} (h : step R s .take = some t) :
    s.batch = [] ∧ t = { s with batch := s.queue, queue := [] } := by
  simp only [step] at h
  split at h
  next hb => exact ⟨hb.2, (Option.some.inj h).symm⟩
  next => cases h

theorem step_handle_eq_some {s t : Conf γ ρ ε} (h : step R s .handle = some t) :
    R.ready s.reader = true ∧ ∃ e rest, s.batch = e :: rest ∧
      t = { s with
        batch := rest
        reader := if R.relevant e then R.act s.content s.reader else s.reader } := by
  simp only [step] at h
  split at h
  next hr =>
    split at h
    next => cases h
    next e rest hb => exact ⟨hr, e, rest, hb, (Option.some.inj h).symm⟩
  next => cases h

def Pending (s : Conf γ ρ ε) : Prop := ∃ e ∈ s.batch ++ s.queue, R.relevant e = true

/-- Nothing is queued, nothing is being handled, nothing is still to be announced. -/
def Quiescent (s : Conf γ ρ ε) : Prop :=
  s.queue = [] ∧ s.batch = [] ∧ R.ready s.reader = true ∧ s.owed = false

/- `J c r₀ r` holds of a reader `r` while the value is `c`, stored when the reader
was `r₀`; `P c r₀ r` holds once the reader has acted on `c`. -/
structure Settles (J P : γ → ρ → ρ → Prop) : Prop where
  stored : ∀ c c' r₀ r, J c r₀ r → J c' r r
  acted : ∀ c r₀ r, J c r₀ r → R.ready r = true → J c r₀ (R.act c r) ∧ P c r₀ (R.act c r)
  ticked : ∀ c r₀ r, J c r₀ r → J c r₀ (R.tick r)
  kept : ∀ c r₀ r, J c r₀ r → P c r₀ r → P c r₀ (R.tick r)

def ReaderOk (J : γ → ρ → ρ → Prop) (s : Conf γ ρ ε) : Prop := J s.content s.atStore s.reader

/-- The reader has acted on the value in place, or will be told to. -/
def Fresh (J P : γ → ρ → ρ → Prop) (s : Conf γ ρ ε) : Prop :=
  ReaderOk J s ∧
    (s.owed = true ∨ Pending R s ∨ P s.content s.atStore s.reader)

variable {R} {J P : γ → ρ → ρ → Prop}

theorem reader_ok_step (hset : Settles R J P) {s t : Conf γ ρ ε} {a : Act γ ε}
    (hJ : ReaderOk J s) (h : step R s a = some t) : ReaderOk J t := by
  cases a with
  | store c =>
    cases h
    exact hset.stored _ c _ _ hJ
  | notify e =>
    cases h
    exact hJ
  | take =>
    obtain ⟨-, rfl⟩ := step_take_eq_some R h
    exact hJ
  | handle =>
    obtain ⟨hr, e, rest, -, rfl⟩ := step_handle_eq_some R h
    dsimp only [ReaderOk]
    split
    · exact (hset.acted _ _ _ hJ hr).1
    · exact hJ
  | tick =>
    cases h
    exact hset.ticked _ _ _ hJ

/-- A store makes the configuration fresh whatever it was before. -/
theorem fresh_of_store (hset : Settles R J P) {s t : Conf γ ρ ε} {c : γ}
    (hJ : ReaderOk J s) (h : step R s (.store c) = some t) : Fresh R J P t := by
  have hJt := reader_ok_step hset hJ h
  cases h
  exact ⟨hJt, Or.inl rfl⟩

theorem fresh_step (hset : Settles R J P) {s t : Conf γ ρ ε} {a : Act γ ε}
    (hs : Fresh R J P s) (h : step R s a = some t) : Fresh R J P t := by
  have hJ := reader_ok_step hset hs.1 h
  refine ⟨hJ, ?_⟩
  obtain ⟨hJs, hcase⟩ := hs
  cases a with
  | store c =>
    cases h
    exact Or.inl rfl
  | notify e =>
    cases h
    cases he : R.relevant e with
    | true =>
      refine Or.inr (Or.inl ⟨e, ?_, he⟩)
      exact List.mem_append_right _ (mem_enqueue s.queue e)
    | false =>
      rcases hcase with ho | ⟨x, hx, hrel⟩ | hP
      · exact Or.inl (by simp [ho])
      · refine Or.inr (Or.inl ⟨x, ?_, hrel⟩)
        rcases List.mem_append.mp hx with hb | hq
        · exact List.mem_append_left _ hb
        · exact List.mem_append_right _ (mem_enqueue_of_mem e hq)
      · exact Or.inr (Or.inr hP)
  | take =>
    obtain ⟨hb, rfl⟩ := step_take_eq_some R h
    rcases hcase with ho | ⟨x, hx, hrel⟩ | hP
    · exact Or.inl ho
    · exact Or.inr (Or.inl ⟨x, by simpa [hb] using hx, hrel⟩)
    · exact Or.inr (Or.inr hP)
  | handle =>
    obtain ⟨hr, e, rest, hb, rfl⟩ := step_handle_eq_some R h
    cases he : R.relevant e with
    | true =>
      -- the event in hand makes the reader act on the value in place
      refine Or.inr (Or.inr ?_)
      simpa [he] using (hset.acted _ _ _ hJs hr).2
    | false =>
      rcases hcase with ho | ⟨x, hx, hrel⟩ | hP
      · exact Or.inl ho
      · refine Or.inr (Or.inl ⟨x, ?_, hrel⟩)
        have hne : x ≠ e := fun hxe => by simp [hxe, he] at hrel
        simpa [hb, hne] using hx
      · exact Or.inr (Or.inr (by simpa [he] using hP))
  | tick =>
    cases h
    rcases hcase with ho | hp | hP
    · exact Or.inl ho
    · exact Or.inr (Or.inl hp)
    · exact Or.inr (Or.inr (hset.kept _ _ _ hJs hP))

omit [DecidableEq ε] in
/-- A fresh configuration at rest has been acted on. -/
theorem settled_of_quiescent {s : Conf γ ρ ε} (hs : Fresh R J P s) (hq : Quiescent R s) :
    P s.content s.atStore s.reader := by
  obtain ⟨hqueue, hbatch, -, howed⟩ := hq
  rcases hs.2 with ho | ⟨x, hx, -⟩ | hP
  · rw [howed] at ho
    cases ho
  · rw [hbatch, hqueue] at hx
    cases hx
  · exact hP

/-! ### One reader seen as another -/

section Simulates
variable {ρ' : Type} {f : ρ → ρ'} {R' : Reader γ ρ' ε}

/-- Seen through `f`, what `R` does when it is ready is what `R'` does. -/
structure Simulates (f : ρ → ρ') (R : Reader γ ρ ε) (R' : Reader γ ρ' ε) : Prop where
  relevant : R'.relevant = R.relevant
  ready : ∀ r, R.ready r = true → R'.ready (f r) = true
  act : ∀ c r, R.ready r = true → f (R.act c r) = R'.act c (f r)
  tick : ∀ r, f (R.tick r) = R'.tick (f r)

def Conf.through (f : ρ → ρ') (s : Conf γ ρ ε) : Conf γ ρ' ε :=
  ⟨s.content, s.owed, s.queue, s.batch, f s.reader, f s.atStore⟩

theorem step_through (hf : Simulates f R R') {s t : Conf γ ρ ε} {a : Act γ ε}
    (h : step R s a = some t) : step R' (s.through f) a = some (t.through f) := by
  cases a with
  | store c =>
    cases h
    rfl
  | notify e =>
    cases h
    simp only [step, Conf.through, hf.relevant]
  | take =>
    have hready : R.ready s.reader = true := by
      simp only [step] at h
      split at h
      next hb => exact hb.1
      next => cases h
    obtain ⟨hb, rfl⟩ := step_take_eq_some R h
    exact if_pos ⟨hf.ready _ hready, hb⟩
  | handle =>
    obtain ⟨hready, e, rest, hb, rfl⟩ := step_handle_eq_some R h
    have hready' : R'.ready (s.through f).reader = true := hf.ready _ hready
    have hb' : (s.through f).batch = e :: rest := hb
    simp only [step, hready', hb', if_true, hf.relevant]
    cases he : R.relevant e with
    | true => simp only [Conf.through, if_true, hf.act _ _ hready]
    | false => simp only [Conf.through, Bool.false_eq_true, if_false]
  | tick =>
    cases h
    simp only [step, Conf.through, hf.tick]

end Simulates

/-! ### A writer beside the reader

The writer is a program of its own: in its state `w`, the register holding `c`, an
action of it stores or notifies once and moves to the next state. -/

inductive Effect (γ ε : Type) where
  | store (c : γ)
  | notify (e : ε)
  deriving DecidableEq

def Effect.act : Effect γ ε → Act γ ε
  | .store c => .store c
  | .notify e => .notify e

inductive Move (α : Type) where
  | write (a : α)
  | take
  | handle
  | tick
  deriving DecidableEq

theorem Move.write_or {α : Type} (m : Move α) : (∃ a, m = .write a) ∨ ∀ a, m ≠ .write a := by
  by_cases h : ∃ a, m = .write a
  · exact Or.inl h
  · exact Or.inr fun a ha => h ⟨a, ha⟩

structure World (γ ρ ε ω : Type) where
  conf : Conf γ ρ ε
  writer : ω

section World
variable {ω α : Type} (W : γ → ω → α → Option (Effect γ ε × ω))

def worldStep (R : Reader γ ρ ε) (s : World γ ρ ε ω) : Move α → Option (World γ ρ ε ω)
  | .write a =>
      (W s.conf.content s.writer a).bind fun x =>
        (step R s.conf x.1.act).map fun c => ⟨c, x.2⟩
  | .take => (step R s.conf .take).map fun c => { s with conf := c }
  | .handle => (step R s.conf .handle).map fun c => { s with conf := c }
  | .tick => (step R s.conf .tick).map fun c => { s with conf := c }

/- The writer rests in a state of `idle`, and the reader has nothing left to do. -/
structure AtRest (R : Reader γ ρ ε) (idle : ω → Prop) (s : World γ ρ ε ω) : Prop where
  writer : idle s.writer
  queue : s.conf.queue = []
  batch : s.conf.batch = []
  ready : R.ready s.conf.reader = true

theorem worldStep_write_eq_some {s t : World γ ρ ε ω} {a : α}
    (h : worldStep W R s (.write a) = some t) :
    ∃ x c, W s.conf.content s.writer a = some x ∧ step R s.conf x.1.act = some c ∧
      t = ⟨c, x.2⟩ := by
  obtain ⟨x, hx, hmap⟩ := Option.bind_eq_some_iff.mp h
  obtain ⟨c, hc, ht⟩ := Option.map_eq_some_iff.mp hmap
  exact ⟨x, c, hx, hc, ht.symm⟩

omit [DecidableEq ε] in
/- A run whose end shows an idle writer, no events and a reader that is ready has
come to rest. -/
theorem rest_of_view (R : Reader γ ρ ε) (idle : ω → Prop) {o : Option (World γ ρ ε ω)} {w : ω}
    {r : ρ}
    (h : o.map (fun s => (s.writer, s.conf.queue, s.conf.batch, s.conf.reader)) =
      some (w, [], [], r))
    (hidle : idle w) (hready : R.ready r = true) :
    ∃ s, o = some s ∧ AtRest R idle s ∧ s.writer = w ∧ s.conf.reader = r := by
  obtain ⟨s, hs, hview⟩ := Option.map_eq_some_iff.mp h
  simp only [Prod.mk.injEq] at hview
  obtain ⟨rfl, hq, hb, rfl⟩ := hview
  exact ⟨s, hs, ⟨hidle, hq, hb, hready⟩, rfl, rfl⟩

/- What the reader's moves leave alone. -/
structure ReaderMove (R : Reader γ ρ ε) (s t : World γ ρ ε ω) : Prop where
  writer : t.writer = s.writer
  content : t.conf.content = s.conf.content
  owed : t.conf.owed = s.conf.owed
  atStore : t.conf.atStore = s.conf.atStore
  conf : ∃ a, step R s.conf a = some t.conf

theorem reader_move {s t : World γ ρ ε ω} {m : Move α} (hm : ∀ a, m ≠ .write a)
    (h : worldStep W R s m = some t) : ReaderMove R s t := by
  cases m with
  | write a => exact absurd rfl (hm a)
  | take =>
    obtain ⟨c, hc, rfl⟩ := Option.map_eq_some_iff.mp h
    obtain ⟨-, rfl⟩ := step_take_eq_some R hc
    exact ⟨rfl, rfl, rfl, rfl, .take, hc⟩
  | handle =>
    obtain ⟨c, hc, rfl⟩ := Option.map_eq_some_iff.mp h
    obtain ⟨-, e, rest, -, rfl⟩ := step_handle_eq_some R hc
    exact ⟨rfl, rfl, rfl, rfl, .handle, hc⟩
  | tick =>
    cases h
    exact ⟨rfl, rfl, rfl, rfl, .tick, rfl⟩

/- What becomes of the reader, and of queues that are empty. -/
structure Reads (R : Reader γ ρ ε) (s t : World γ ρ ε ω) : Prop where
  writer : t.writer = s.writer
  content : t.conf.content = s.conf.content
  atStore : t.conf.atStore = s.conf.atStore
  reader : t.conf.reader = s.conf.reader ∨ t.conf.reader = R.tick s.conf.reader ∨
    (s.conf.batch ≠ [] ∧ R.ready s.conf.reader = true ∧
      t.conf.reader = R.act s.conf.content s.conf.reader)
  quiet : s.conf.queue = [] → s.conf.batch = [] → t.conf.queue = [] ∧ t.conf.batch = []

theorem reads_of_move {s t : World γ ρ ε ω} {m : Move α} (hm : ∀ a, m ≠ .write a)
    (h : worldStep W R s m = some t) : Reads R s t := by
  cases m with
  | write a => exact absurd rfl (hm a)
  | take =>
    obtain ⟨c, hc, rfl⟩ := Option.map_eq_some_iff.mp h
    obtain ⟨-, rfl⟩ := step_take_eq_some R hc
    exact ⟨rfl, rfl, rfl, Or.inl rfl, fun hq _ => ⟨rfl, hq⟩⟩
  | handle =>
    obtain ⟨c, hc, rfl⟩ := Option.map_eq_some_iff.mp h
    obtain ⟨hready, e, rest, hb, rfl⟩ := step_handle_eq_some R hc
    have hne : s.conf.batch ≠ [] := by
      rw [hb]
      exact List.cons_ne_nil e rest
    refine ⟨rfl, rfl, rfl, ?_, fun _ hn => absurd hn hne⟩
    dsimp only
    split
    · exact Or.inr (Or.inr ⟨hne, hready, rfl⟩)
    · exact Or.inl rfl
  | tick =>
    cases h
    exact ⟨rfl, rfl, rfl, Or.inr (Or.inl rfl), fun hq hb => ⟨hq, hb⟩⟩

end World

end Tbouncer.Base.Watch
