import Mathlib.Data.Finset.Card
import Mathlib.Data.Finset.Range
import Tbouncer.Base.TornWrite
import Tbouncer.Base.Watchers
import Tbouncer.Switch.Events

/-!
# write_coordination_file with ftruncate, mmap and memcpy

The version of `iago_attack/read/read_iago_attack.c:18-47`. ftruncate cuts the file or
pads it with NUL bytes and queues IN_MODIFY; the bytes are then stored through the
mapping, which queues nothing. A string is a `const char *`, or what stands for one:
`bytes` tells which bytes it is.
-/

namespace Tbouncer.Switch.SharedMemory
open Base Watch

inductive Phase (σ : Type) where
  | idle
  | truncated (data : σ)
  | mapped (data : σ) (stored : Finset ℕ)
  deriving DecidableEq

structure Writer (σ : Type) where
  phase : Phase σ
  last : Option σ
  deriving DecidableEq

inductive Act (σ : Type) where
  | ftruncate (data : σ)
  | event
  | storeByte (i : ℕ)
  deriving DecidableEq

section
variable {σ : Type} (bytes : σ → Bytes)

/- An empty string does not get through: mmap of length 0 fails. memcpy stores the
bytes in any order; with the last one the call is over but for munmap and close. -/
def writer (content : Bytes) (w : Writer σ) : Act σ → Option (Effect Bytes Event × Writer σ)
  | .ftruncate data =>
      match w.phase with
      | .idle =>
          if bytes data = [] then none
          else some (.store (fit 0 (bytes data).length content), { w with phase := .truncated data })
      | _ => none
  | .event =>
      match w.phase with
      | .truncated data => some (.notify .modify, { w with phase := .mapped data ∅ })
      | _ => none
  | .storeByte i =>
      match w.phase with
      | .mapped data stored =>
          some (.store (storeAt (bytes data) content i),
            if ∀ j < (bytes data).length, j ∈ insert i stored then ⟨.idle, some data⟩
            else { w with phase := .mapped data (insert i stored) })
      | _ => none

def Idle (w : Writer σ) : Prop := w.phase = .idle

def start {ρ : Type} (content : Bytes) (r : ρ) : World Bytes ρ Event (Writer σ) :=
  ⟨⟨content, false, [], [], r, r⟩, ⟨.idle, none⟩⟩

/- The bytes of a string stored from the first to the last, and one string written so. -/
def storeBytes (data : σ) : List (Act σ) := (List.range (bytes data).length).map .storeByte

def writeOut (data : σ) : List (Act σ) := [.ftruncate data, .event] ++ storeBytes bytes data

variable {bytes}

/- What an action of the writer does. -/
theorem writer_cases {c : Bytes} {w : Writer σ} {a : Act σ} {x : Effect Bytes Event × Writer σ}
    (h : writer bytes c w a = some x) :
    (∃ data, a = .ftruncate data ∧ w.phase = .idle ∧ bytes data ≠ [] ∧
      x = (.store (fit 0 (bytes data).length c), ⟨.truncated data, w.last⟩)) ∨
    (∃ data, a = .event ∧ w.phase = .truncated data ∧
      x = (.notify .modify, ⟨.mapped data ∅, w.last⟩)) ∨
    (∃ i data stored, a = .storeByte i ∧ w.phase = .mapped data stored ∧
      x = (.store (storeAt (bytes data) c i),
        if ∀ j < (bytes data).length, j ∈ insert i stored then ⟨.idle, some data⟩
        else ⟨.mapped data (insert i stored), w.last⟩)) := by
  cases a with
  | ftruncate data =>
    cases hp : w.phase <;> simp only [writer, hp] at h
    · split at h
      next => cases h
      next hne => exact Or.inl ⟨data, rfl, rfl, hne, (Option.some.inj h).symm⟩
    · cases h
    · cases h
  | event =>
    cases hp : w.phase <;> simp only [writer, hp] at h <;> cases h
    exact Or.inr (Or.inl ⟨_, rfl, rfl, rfl⟩)
  | storeByte i =>
    cases hp : w.phase <;> simp only [writer, hp] at h <;> cases h
    exact Or.inr (Or.inr ⟨i, _, _, rfl, rfl, rfl⟩)

/-! ### What can be in the file -/

/- `Ends data`: `data` can be what is in the file when the writer is idle; `Follows old data`:
it can be written over `old`. -/
structure Publishes (bytes : σ → Bytes) (Ends : σ → Prop) (Follows : σ → σ → Prop) : Prop where
  ends : ∀ old data, Follows old data → Ends data
  nonempty : ∀ old data, Follows old data → bytes data ≠ []

def Holds (bytes : σ → Bytes) (Ends : σ → Prop) (Follows : σ → σ → Prop) (content : Bytes)
    (w : Writer σ) : Prop :=
  match w.phase with
  | .idle => ∃ data, w.last = some data ∧ Ends data ∧ content = bytes data
  | .truncated data =>
      ∃ old, Follows old data ∧ Partly 0 (bytes old) (bytes data) ∅ content
  | .mapped data stored =>
      ∃ old, Follows old data ∧ Partly 0 (bytes old) (bytes data) stored content ∧
        ∃ i < (bytes data).length, i ∉ stored

variable {Ends : σ → Prop} {Follows : σ → σ → Prop}

theorem holds_writer (hpub : Publishes bytes Ends Follows) {c : Bytes} {w : Writer σ} {a : Act σ}
    {x : Effect Bytes Event × Writer σ} (hs : Holds bytes Ends Follows c w)
    (hnext : ∀ old data, w.last = some old → Ends old → a = .ftruncate data → Follows old data)
    (h : writer bytes c w a = some x) : Holds bytes Ends Follows (x.1.on c) x.2 := by
  obtain ⟨data, rfl, hp, -, rfl⟩ | ⟨data, rfl, hp, rfl⟩ | ⟨i, data, stored, rfl, hp, rfl⟩ :=
    writer_cases h
  · simp only [Holds, hp] at hs
    obtain ⟨old, hlast, hends, rfl⟩ := hs
    exact ⟨old, hnext old data hlast hends rfl, partly_fit 0 _ _⟩
  · simp only [Holds, hp] at hs
    obtain ⟨old, hfollows, hpart⟩ := hs
    have hpos : 0 < (bytes data).length :=
      List.length_pos_iff.mpr (hpub.nonempty old data hfollows)
    exact ⟨old, hfollows, hpart, 0, hpos, Finset.notMem_empty 0⟩
  · simp only [Holds, hp] at hs
    obtain ⟨old, hfollows, hpart, -⟩ := hs
    have hpart' := partly_storeAt 0 hpart i
    by_cases hall : ∀ j < (bytes data).length, j ∈ insert i stored
    · simp only [if_pos hall]
      exact ⟨data, rfl, hpub.ends old data hfollows, eq_of_partly 0 hpart' hall⟩
    · simp only [if_neg hall]
      simp only [not_forall] at hall
      obtain ⟨j, hj, hout⟩ := hall
      exact ⟨old, hfollows, hpart', j, hj, hout⟩

/- What holds of the bytes of all strings, and of NUL, holds of the bytes in the file. -/
theorem holds_all {Q : UInt8 → Prop} (hends : ∀ data, Ends data → ∀ b ∈ bytes data, Q b)
    (hfollows : ∀ old data, Follows old data → Ends old ∧ Ends data) (hnul : Q 0) {c : Bytes}
    {w : Writer σ} (h : Holds bytes Ends Follows c w) : ∀ b ∈ c, Q b := by
  have hpart : ∀ old data stored, Follows old data → Partly 0 (bytes old) (bytes data) stored c →
      ∀ b ∈ c, Q b := fun old data stored hf hp =>
    partly_all 0 (hends old (hfollows old data hf).1) (hends data (hfollows old data hf).2) hnul hp
  unfold Holds at h
  split at h
  · obtain ⟨data, -, hdata, rfl⟩ := h
    exact hends data hdata
  · obtain ⟨old, hf, hp⟩ := h
    exact hpart old _ _ hf hp
  · obtain ⟨old, hf, hp, -⟩ := h
    exact hpart old _ _ hf hp

/-! ### Finishing a call -/

variable {ρ : Type} {R : Reader Bytes ρ Event}

/- The call is over and the reader's side is as it was in `s`. -/
structure Finished (data : σ) (s t : World Bytes ρ Event (Writer σ)) : Prop where
  writer : t.writer = ⟨.idle, some data⟩
  queue : t.conf.queue = s.conf.queue
  batch : t.conf.batch = s.conf.batch
  reader : t.conf.reader = s.conf.reader

def missing (new : Bytes) (stored : Finset ℕ) : Finset ℕ :=
  (Finset.range new.length).filter (· ∉ stored)

theorem missing_insert_card_lt {new : Bytes} {stored : Finset ℕ} {i : ℕ}
    (hi : i ∈ missing new stored) :
    (missing new (insert i stored)).card < (missing new stored).card := by
  refine Finset.card_lt_card ⟨fun j hj => ?_, fun hsub => ?_⟩
  · obtain ⟨hr, hn⟩ := Finset.mem_filter.mp hj
    exact Finset.mem_filter.mpr ⟨hr, fun hin => hn (Finset.mem_insert_of_mem hin)⟩
  · have hout := (Finset.mem_filter.mp (hsub hi)).2
    exact hout (Finset.mem_insert_self i stored)

def confAfter (s : World Bytes ρ Event (Writer σ)) (new : Bytes) (i : ℕ) : Conf Bytes ρ Event :=
  { s.conf with
    content := storeAt new s.conf.content i
    owed := true
    atStore := s.conf.reader }

variable (bytes) in
theorem storeByte_step {data : σ} {stored : Finset ℕ} {s : World Bytes ρ Event (Writer σ)}
    (hp : s.writer.phase = .mapped data stored) (i : ℕ) :
    worldStep (writer bytes) R s (.write (.storeByte i)) =
      some ⟨confAfter s (bytes data) i,
        if ∀ j < (bytes data).length, j ∈ insert i stored then ⟨.idle, some data⟩
        else ⟨.mapped data (insert i stored), s.writer.last⟩⟩ := by
  simp only [worldStep, writer, hp]
  rfl

/- The writer can always store the missing bytes without the reader doing anything. -/
theorem finish_run (n : ℕ) {data : σ} {stored : Finset ℕ} {s : World Bytes ρ Event (Writer σ)}
    (hp : s.writer.phase = .mapped data stored) (hn : (missing (bytes data) stored).card ≤ n) :
    ∃ ms t, run (worldStep (writer bytes) R) s ms = some t ∧ Finished data s t := by
  induction n generalizing s stored with
  | zero =>
    have hall : ∀ j < (bytes data).length, j ∈ insert 0 stored := by
      intro j hj
      by_contra hout
      have hmem : j ∈ missing (bytes data) stored :=
        Finset.mem_filter.mpr ⟨Finset.mem_range.mpr hj,
          fun hin => hout (Finset.mem_insert_of_mem hin)⟩
      have hpos := Finset.card_pos.mpr ⟨j, hmem⟩
      omega
    have hstep := storeByte_step bytes (R := R) hp 0
    rw [if_pos hall] at hstep
    exact ⟨[.write (.storeByte 0)], _, (run_cons_eq_some _).mpr ⟨_, hstep, rfl⟩, rfl, rfl, rfl, rfl⟩
  | succ n ih =>
    by_cases hany : (missing (bytes data) stored).Nonempty
    · obtain ⟨i, hi⟩ := hany
      have hlt := missing_insert_card_lt hi
      have hstep := storeByte_step bytes (R := R) hp i
      by_cases hall : ∀ j < (bytes data).length, j ∈ insert i stored
      · rw [if_pos hall] at hstep
        exact ⟨[.write (.storeByte i)], _, (run_cons_eq_some _).mpr ⟨_, hstep, rfl⟩,
          rfl, rfl, rfl, rfl⟩
      · rw [if_neg hall] at hstep
        have hphase : Writer.phase ⟨.mapped data (insert i stored), s.writer.last⟩ =
            .mapped data (insert i stored) := rfl
        obtain ⟨ms, t, hrun, hw, hq, hb, hr⟩ :=
          ih (s := ⟨confAfter s (bytes data) i, _⟩) hphase (by omega)
        exact ⟨.write (.storeByte i) :: ms, t, (run_cons_eq_some _).mpr ⟨_, hstep, hrun⟩,
          hw, hq, hb, hr⟩
    · rw [Finset.not_nonempty_iff_eq_empty] at hany
      exact ih hp (by rw [hany, Finset.card_empty]; exact Nat.zero_le n)

end

end Tbouncer.Switch.SharedMemory
