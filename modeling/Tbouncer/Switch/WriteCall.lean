import Tbouncer.Switch.Events

/-!
# write_coordination_file with open(O_TRUNC) and write(2)

The version of `iago_attack/accept/accecpt.c:16-28`, beside any reader of the
switch file. The truncating open leaves an empty file and may queue an event of
its own; write(2) stores the whole string and then queues IN_MODIFY. A string is a
`const char *`, or what stands for one: `bytes` tells which bytes it is.
-/

namespace Tbouncer.Switch.WriteCall
open Base Watch

inductive Phase (σ : Type) where
  | idle
  | truncated (data : σ)
  | stored (data : σ)
  deriving DecidableEq

/- `last` is the string of the last completed call. -/
structure Writer (σ : Type) where
  phase : Phase σ
  last : Option σ
  deriving DecidableEq

inductive Act (σ : Type) where
  | openTrunc (data : σ)
  | truncEvent
  | write
  | writeEvent
  deriving DecidableEq

section
variable {σ : Type}

def writer (bytes : σ → Bytes) (_ : Bytes) (w : Writer σ) :
    Act σ → Option (Effect Bytes Event × Writer σ)
  | .openTrunc data =>
      match w.phase with
      | .idle => some (.store [], { w with phase := .truncated data })
      | _ => none
  | .truncEvent =>
      match w.phase with
      | .truncated _ => some (.notify .modify, w)
      | _ => none
  | .write =>
      match w.phase with
      | .truncated data => some (.store (bytes data), { w with phase := .stored data })
      | _ => none
  | .writeEvent =>
      match w.phase with
      | .stored data => some (.notify .modify, ⟨.idle, some data⟩)
      | _ => none

/- The watch is in place, nothing has been written yet. -/
def start {ρ : Type} (content : Bytes) (r : ρ) : World Bytes ρ Event (Writer σ) :=
  ⟨⟨content, false, [], [], r, r⟩, ⟨.idle, none⟩⟩

variable {bytes : σ → Bytes}

/- What an action of the writer does. -/
theorem writer_cases {c : Bytes} {w : Writer σ} {a : Act σ} {x : Effect Bytes Event × Writer σ}
    (h : writer bytes c w a = some x) :
    (∃ data, a = .openTrunc data ∧ w.phase = .idle ∧ x = (.store [], ⟨.truncated data, w.last⟩)) ∨
    (∃ data, w.phase = .truncated data ∧ x = (.notify .modify, w)) ∨
    (∃ data, w.phase = .truncated data ∧
      x = (.store (bytes data), ⟨.stored data, w.last⟩)) ∨
    (∃ data, w.phase = .stored data ∧ x = (.notify .modify, ⟨.idle, some data⟩)) := by
  cases a with
  | openTrunc data =>
    cases hp : w.phase <;> simp only [writer, hp] at h <;> cases h
    exact Or.inl ⟨data, rfl, rfl, rfl⟩
  | truncEvent =>
    cases hp : w.phase <;> simp only [writer, hp] at h <;> cases h
    exact Or.inr (Or.inl ⟨_, rfl, rfl⟩)
  | write =>
    cases hp : w.phase <;> simp only [writer, hp] at h <;> cases h
    exact Or.inr (Or.inr (Or.inl ⟨_, rfl, rfl⟩))
  | writeEvent =>
    cases hp : w.phase <;> simp only [writer, hp] at h <;> cases h
    exact Or.inr (Or.inr (Or.inr ⟨_, rfl, rfl⟩))

variable {ρ : Type} {R : Reader Bytes ρ Event}

/-! ### Only complete strings are read -/

/- The strings passed to the writer. -/
def openedStrings (ms : List (Move (Act σ))) : List σ :=
  ms.filterMap fun
    | .write (.openTrunc data) => some data
    | _ => none

theorem openedStrings_append (ms ms' : List (Move (Act σ))) :
    openedStrings (ms ++ ms') = openedStrings ms ++ openedStrings ms' := List.filterMap_append ..

/- One string written, from open to the event of write(2). -/
def writeOut (data : σ) : List (Move (Act σ)) :=
  [.write (.openTrunc data), .write .write, .write .writeEvent]

theorem mem_openedStrings {data : σ} {ms : List (Move (Act σ))} :
    data ∈ openedStrings ms ↔ .write (.openTrunc data) ∈ ms := by
  constructor
  · intro h
    obtain ⟨m, hm, heq⟩ := List.mem_filterMap.mp h
    split at heq
    · cases heq
      exact hm
    · cases heq
  · exact fun h => List.mem_filterMap.mpr ⟨_, h, rfl⟩

/- The file is empty or holds a string that `G` allows, or no event has been queued yet. -/
structure Whole (bytes : σ → Bytes) (G : σ → Prop) (s : World Bytes ρ Event (Writer σ)) : Prop where
  pending : ∀ data, s.writer.phase = .truncated data → G data
  content : (s.conf.content = [] ∨ ∃ data, G data ∧ s.conf.content = bytes data) ∨
    (s.writer.phase = .idle ∧ s.conf.queue = [] ∧ s.conf.batch = [])

theorem Whole.string {G : σ → Prop} {s : World Bytes ρ Event (Writer σ)} (h : Whole bytes G s)
    (hp : s.writer.phase ≠ .idle) :
    s.conf.content = [] ∨ ∃ data, G data ∧ s.conf.content = bytes data :=
  h.content.resolve_right fun hidle => hp hidle.1

theorem whole_step {G : σ → Prop} {s t : World Bytes ρ Event (Writer σ)} {m : Move (Act σ)}
    (hs : Whole bytes G s) (hm : ∀ data, m = .write (.openTrunc data) → G data)
    (h : worldStep (writer bytes) R s m = some t) : Whole bytes G t := by
  cases m with
  | write a =>
    obtain ⟨x, c, hx, hc, rfl⟩ := worldStep_write_eq_some (writer bytes) h
    obtain ⟨data, rfl, hp, rfl⟩ | ⟨data, hp, rfl⟩ | ⟨data, hp, rfl⟩ | ⟨data, hp, rfl⟩ :=
      writer_cases hx
    · cases hc
      exact ⟨fun d hd => by cases hd; exact hm data rfl, Or.inl (Or.inl rfl)⟩
    · cases hc
      exact ⟨hs.pending, Or.inl (hs.string (by rw [hp]; nofun))⟩
    · cases hc
      exact ⟨nofun, Or.inl (Or.inr ⟨data, hs.pending data hp, rfl⟩)⟩
    · cases hc
      exact ⟨nofun, Or.inl (hs.string (by rw [hp]; nofun))⟩
  | take =>
    obtain ⟨c, hc, rfl⟩ := Option.map_eq_some_iff.mp h
    obtain ⟨-, rfl⟩ := step_take_eq_some R hc
    exact ⟨hs.pending, hs.content.imp_right fun ⟨hi, hq, _⟩ => ⟨hi, rfl, hq⟩⟩
  | handle =>
    obtain ⟨c, hc, rfl⟩ := Option.map_eq_some_iff.mp h
    obtain ⟨-, e, rest, hb, rfl⟩ := step_handle_eq_some R hc
    refine ⟨hs.pending, hs.content.imp_right fun ⟨_, _, hn⟩ => ?_⟩
    rw [hn] at hb
    cases hb
  | tick =>
    cases h
    exact ⟨hs.pending, hs.content⟩

theorem whole_start {G : σ → Prop} (content : Bytes) (r₀ : ρ) :
    Whole bytes G (start (σ := σ) content r₀) := ⟨nofun, Or.inr ⟨rfl, rfl, rfl⟩⟩

theorem whole_run {content : Bytes} {r₀ : ρ} {ms : List (Move (Act σ))}
    {s : World Bytes ρ Event (Writer σ)}
    (hrun : run (worldStep (writer bytes) R) (start content r₀) ms = some s) :
    Whole bytes (· ∈ openedStrings ms) s := by
  have hmoves : ∀ m ∈ ms, ∀ data, m = .write (.openTrunc data) → data ∈ openedStrings ms :=
    fun m hm data heq => mem_openedStrings.mpr (heq ▸ hm)
  exact run_guarded (worldStep (writer bytes) R) (fun _ _ _ hs hG hst => whole_step hs hG hst)
    (whole_start content r₀) (allSteps_of_mem _ hmoves _) hrun

/- What reading complete strings preserves, a run preserves. -/
theorem reader_run_of {G : σ → Prop} {I : ρ → Prop} (hnil : ∀ r, I r → I (R.act [] r))
    (hact : ∀ data, G data → ∀ r, I r → I (R.act (bytes data) r))
    (htick : ∀ r, I r → I (R.tick r)) {content : Bytes} {r₀ : ρ} (h₀ : I r₀)
    {ms : List (Move (Act σ))} (hms : ∀ data ∈ openedStrings ms, G data)
    {s : World Bytes ρ Event (Writer σ)}
    (hrun : run (worldStep (writer bytes) R) (start content r₀) ms = some s) :
    I s.conf.reader := by
  have hmoves : ∀ m ∈ ms, ∀ data, m = .write (.openTrunc data) → G data := fun m hm data heq =>
    hms data (mem_openedStrings.mpr (heq ▸ hm))
  have hinv : Whole bytes G s ∧ I s.conf.reader := by
    refine run_guarded (worldStep (writer bytes) R)
      (I := fun s => Whole bytes G s ∧ I s.conf.reader)
      (fun s m t hs hG hst => ⟨whole_step hs.1 hG hst, ?_⟩) ⟨whole_start content r₀, h₀⟩
      (allSteps_of_mem _ hmoves _) hrun
    cases m with
    | write a =>
      obtain ⟨x, c, hx, hc, rfl⟩ := worldStep_write_eq_some (writer bytes) hst
      obtain ⟨_, _, _, rfl⟩ | ⟨_, _, rfl⟩ | ⟨_, _, rfl⟩ | ⟨_, _, rfl⟩ := writer_cases hx <;>
        cases hc <;> exact hs.2
    | take =>
      obtain ⟨c, hc, rfl⟩ := Option.map_eq_some_iff.mp hst
      obtain ⟨-, rfl⟩ := step_take_eq_some R hc
      exact hs.2
    | handle =>
      obtain ⟨c, hc, rfl⟩ := Option.map_eq_some_iff.mp hst
      obtain ⟨-, e, rest, hb, rfl⟩ := step_handle_eq_some R hc
      dsimp only
      split
      · rcases hs.1.content with (hempty | ⟨d, hd, hcontent⟩) | ⟨-, -, hn⟩
        · rw [hempty]
          exact hnil _ hs.2
        · rw [hcontent]
          exact hact d hd _ hs.2
        · rw [hn] at hb
          cases hb
      · exact hs.2
    | tick =>
      cases hst
      exact htick _ hs.2
  exact hinv.2

/-! ### The last string is acted on -/

variable {J P : Bytes → ρ → ρ → Prop}

structure Announced (bytes : σ → Bytes) (R : Reader Bytes ρ Event) (J P : Bytes → ρ → ρ → Prop)
    (s : World Bytes ρ Event (Writer σ)) : Prop where
  reader_ok : ReaderOk J s.conf
  fresh : s.writer ≠ ⟨.idle, none⟩ → Fresh R J P s.conf
  idle : s.writer.phase = .idle → s.conf.owed = false
  held : s.writer.phase = .idle → ∀ data, s.writer.last = some data →
    s.conf.content = bytes data
  stored : ∀ data, s.writer.phase = .stored data → s.conf.content = bytes data

theorem announced_start {content : Bytes} {r₀ : ρ} (h : J content r₀ r₀) :
    Announced bytes R J P (start content r₀) where
  reader_ok := h
  fresh := fun hne => absurd rfl hne
  idle := fun _ => rfl
  held := fun _ _ hd => by cases hd
  stored := fun _ hd => by cases hd

theorem announced_write (hset : Settles R J P) (hrel : R.relevant .modify = true)
    {s t : World Bytes ρ Event (Writer σ)} {a : Act σ} (hs : Announced bytes R J P s)
    (h : worldStep (writer bytes) R s (.write a) = some t) : Announced bytes R J P t := by
  obtain ⟨x, c, hx, hc, rfl⟩ := worldStep_write_eq_some (writer bytes) h
  have hok := reader_ok_step hset hs.reader_ok hc
  have hfresh : s.writer.phase ≠ .idle → Fresh R J P c := by
    intro hp
    refine fresh_step hset (hs.fresh fun he => hp ?_) hc
    rw [he]
  obtain ⟨data, -, hp, rfl⟩ | ⟨data, hp, rfl⟩ | ⟨data, hp, rfl⟩ | ⟨data, hp, rfl⟩ :=
    writer_cases hx
  · exact {
      reader_ok := hok
      fresh := fun _ => fresh_of_store hset hs.reader_ok hc
      idle := nofun
      held := nofun
      stored := nofun }
  · rw [hp] at hfresh
    exact {
      reader_ok := hok
      fresh := fun _ => hfresh nofun
      idle := fun hd => by rw [hp] at hd; cases hd
      held := fun hd => by rw [hp] at hd; cases hd
      stored := fun d hd => by rw [hp] at hd; cases hd }
  · have hf := fresh_of_store hset hs.reader_ok hc
    cases hc
    exact {
      reader_ok := hok
      fresh := fun _ => hf
      idle := nofun
      held := nofun
      stored := fun d hd => by cases hd; rfl }
  · rw [hp] at hfresh
    have hf := hfresh nofun
    have hheld := hs.stored data hp
    cases hc
    exact {
      reader_ok := hok
      fresh := fun _ => hf
      idle := fun _ => by simp [hrel]
      held := fun _ d hd => by cases hd; exact hheld
      stored := nofun }

theorem announced_step (hset : Settles R J P) (hrel : R.relevant .modify = true)
    {s t : World Bytes ρ Event (Writer σ)} {m : Move (Act σ)} (hs : Announced bytes R J P s)
    (h : worldStep (writer bytes) R s m = some t) : Announced bytes R J P t := by
  obtain ⟨a, rfl⟩ | hm := m.write_or
  · exact announced_write hset hrel hs h
  · have hmove := reader_move (writer bytes) hm h
    obtain ⟨a, hc⟩ := hmove.conf
    obtain ⟨hok, hfresh, hidle, hheld, hstored⟩ := hs
    rw [← hmove.writer] at hfresh hidle hheld hstored
    rw [← hmove.owed] at hidle
    rw [← hmove.content] at hheld hstored
    exact ⟨reader_ok_step hset hok hc, fun hne => fresh_step hset (hfresh hne) hc, hidle, hheld,
      hstored⟩

theorem announced_run (hset : Settles R J P) (hrel : R.relevant .modify = true)
    {content : Bytes} {r₀ : ρ} (h₀ : J content r₀ r₀) {ms : List (Move (Act σ))}
    {s : World Bytes ρ Event (Writer σ)}
    (hrun : run (worldStep (writer bytes) R) (start content r₀) ms = some s) :
    Announced bytes R J P s :=
  run_invariant (worldStep (writer bytes) R) (fun _ _ _ hI hst => announced_step hset hrel hI hst)
    (announced_start h₀) hrun

def Idle (w : Writer σ) : Prop := w.phase = .idle

/-- Once the writer and the reader rest, the reader has acted on the last string. -/
theorem settled_of_atRest (hset : Settles R J P) (hrel : R.relevant .modify = true)
    {content : Bytes} {r₀ : ρ} (h₀ : J content r₀ r₀) {ms : List (Move (Act σ))}
    {s : World Bytes ρ Event (Writer σ)}
    (hrun : run (worldStep (writer bytes) R) (start content r₀) ms = some s)
    (hrest : AtRest R Idle s) {data : σ} (hlast : s.writer.last = some data) :
    s.conf.content = bytes data ∧
      P (bytes data) s.conf.atStore s.conf.reader := by
  have hinv := announced_run hset hrel h₀ hrun
  have hheld := hinv.held hrest.writer data hlast
  have hne : s.writer ≠ ⟨.idle, none⟩ := fun he => by rw [he] at hlast; cases hlast
  have hquiet : Quiescent R s.conf :=
    ⟨hrest.queue, hrest.batch, hrest.ready, hinv.idle hrest.writer⟩
  have hP := settled_of_quiescent (hinv.fresh hne) hquiet
  rw [hheld] at hP
  exact ⟨hheld, hP⟩

end

end Tbouncer.Switch.WriteCall
