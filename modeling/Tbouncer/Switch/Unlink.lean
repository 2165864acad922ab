import Mathlib.Data.Finset.Basic
import Mathlib.Logic.Function.Basic
import Tbouncer.Base.TornWrite
import Tbouncer.Switch.Events

/-!
# Failed calls of the shared-memory writer

When ftruncate or mmap fails, write_coordination_file unlinks the switch file
(`read/read_iago_attack.c:26-39`); the next call creates another one of the same name.
An inotify watch stays on the file it was made for, so it hears nothing of that one.
-/

namespace Tbouncer.Switch.Unlink
open Base Watch

/- A call with the file it has opened; `failing` is on the way to shm_unlink. -/
inductive Phase where
  | idle
  | opened (data : Bytes) (inode : ℕ)
  | truncated (data : Bytes) (inode : ℕ)
  | sized (data : Bytes) (inode : ℕ)
  | mapped (data : Bytes) (inode : ℕ) (stored : Finset ℕ)
  | failing
  deriving DecidableEq

def Phase.inode? : Phase → Option ℕ
  | .idle | .failing => none
  | .opened _ i | .truncated _ i | .sized _ i | .mapped _ i _ => some i

/- `path` is the file the name stands for, `last` the string of the last call if it has
succeeded. -/
structure Disk where
  path : Option ℕ
  bytes : ℕ → Bytes
  fresh : ℕ
  phase : Phase
  last : Option Bytes
  watched : ℕ
  queue : List Event

/- IN_IGNORED: the watched file is gone. -/
def ignored : Event := ⟨0x8000⟩

def start (content : Bytes) : Disk := ⟨some 0, fun _ => content, 1, .idle, none, 0, []⟩

inductive Call where
  | shmOpen (data : Bytes)
  | ftruncate
  | ftruncateFails
  | event
  | mmap
  | mmapFails
  | storeByte (k : ℕ)
  | shmUnlink
  deriving DecidableEq

def Complete (data : Bytes) (stored : Finset ℕ) : Prop :=
  ∀ j < data.length, j ∈ stored

instance (data : Bytes) (stored : Finset ℕ) : Decidable (Complete data stored) :=
  inferInstanceAs (Decidable (∀ j < _, _))

/- mmap of length 0 fails, so an empty string does not get through. -/
def Disk.step (d : Disk) : Call → Option Disk
  | .shmOpen data =>
      match d.phase, d.path with
      | .idle, some i => some { d with phase := .opened data i }
      | .idle, none =>
          some { d with
            path := some d.fresh
            bytes := Function.update d.bytes d.fresh []
            fresh := d.fresh + 1
            phase := .opened data d.fresh }
      | _, _ => none
  | .ftruncate =>
      match d.phase with
      | .opened data i =>
          some { d with
            bytes := Function.update d.bytes i (fit 0 data.length (d.bytes i))
            phase := .truncated data i }
      | _ => none
  | .ftruncateFails =>
      match d.phase with
      | .opened _ _ => some { d with phase := .failing }
      | _ => none
  | .event =>
      match d.phase with
      | .truncated data i =>
          some { d with
            phase := .sized data i
            queue := if i = d.watched then enqueue d.queue .modify else d.queue }
      | _ => none
  | .mmap =>
      match d.phase with
      | .sized data i => if data = [] then none else some { d with phase := .mapped data i ∅ }
      | _ => none
  | .mmapFails =>
      match d.phase with
      | .sized _ _ => some { d with phase := .failing }
      | _ => none
  | .storeByte k =>
      match d.phase with
      | .mapped data i stored =>
          if Complete data (insert k stored) then
            some { d with
              bytes := Function.update d.bytes i (storeAt data (d.bytes i) k)
              phase := .idle
              last := some data }
          else
            some { d with
              bytes := Function.update d.bytes i (storeAt data (d.bytes i) k)
              phase := .mapped data i (insert k stored) }
      | _ => none
  | .shmUnlink =>
      match d.phase with
      | .failing =>
          some { d with
            path := none
            phase := .idle
            last := none
            queue := if d.path = some d.watched then enqueue d.queue ignored else d.queue }
      | _ => none

/- `with open(switch_file, "r") as f: f.read()`; `none` is the exception. -/
def Disk.readFile (d : Disk) : Option Text := d.path.bind fun i => readText (d.bytes i)

/- What a poll has to be given, if no call is under way and the last one succeeded. -/
def Disk.expected (d : Disk) : Option Text :=
  match d.phase with
  | .idle => d.last.bind readText
  | _ => none

/- The string of the call that succeeds with this step, if one does. -/
def Disk.succeeds (d : Disk) (c : Call) : Option Bytes :=
  match d.phase, c with
  | .mapped data _ stored, .storeByte k =>
      if Complete data (insert k stored) then some data else none
  | _, _ => none

/-! ### The steps of a call -/

/- What the world can be after a step, case by case. -/
inductive Step (d : Disk) : Call → Disk → Prop
  | reopened {data : Bytes} {i : ℕ} (hp : d.phase = .idle) (hpath : d.path = some i) :
      Step d (.shmOpen data) { d with phase := .opened data i }
  | created {data : Bytes} (hp : d.phase = .idle) (hpath : d.path = none) :
      Step d (.shmOpen data) { d with
        path := some d.fresh
        bytes := Function.update d.bytes d.fresh []
        fresh := d.fresh + 1
        phase := .opened data d.fresh }
  | truncated {data : Bytes} {i : ℕ} (hp : d.phase = .opened data i) :
      Step d .ftruncate { d with
        bytes := Function.update d.bytes i (fit 0 data.length (d.bytes i))
        phase := .truncated data i }
  | refused {data : Bytes} {i : ℕ} (hp : d.phase = .opened data i) :
      Step d .ftruncateFails { d with phase := .failing }
  | announced {data : Bytes} {i : ℕ} (hp : d.phase = .truncated data i) :
      Step d .event { d with
        phase := .sized data i
        queue := if i = d.watched then enqueue d.queue .modify else d.queue }
  | mapped {data : Bytes} {i : ℕ} (hp : d.phase = .sized data i) (hne : data ≠ []) :
      Step d .mmap { d with phase := .mapped data i ∅ }
  | unmapped {data : Bytes} {i : ℕ} (hp : d.phase = .sized data i) :
      Step d .mmapFails { d with phase := .failing }
  | completed {data : Bytes} {i k : ℕ} {stored : Finset ℕ} (hp : d.phase = .mapped data i stored)
      (hall : Complete data (insert k stored)) :
      Step d (.storeByte k) { d with
        bytes := Function.update d.bytes i (storeAt data (d.bytes i) k)
        phase := .idle
        last := some data }
  | stored {data : Bytes} {i k : ℕ} {stored : Finset ℕ} (hp : d.phase = .mapped data i stored)
      (hmore : ¬ Complete data (insert k stored)) :
      Step d (.storeByte k) { d with
        bytes := Function.update d.bytes i (storeAt data (d.bytes i) k)
        phase := .mapped data i (insert k stored) }
  | unlinked (hp : d.phase = .failing) :
      Step d .shmUnlink { d with
        path := none
        phase := .idle
        last := none
        queue := if d.path = some d.watched then enqueue d.queue ignored else d.queue }

theorem step_of_eq {d e : Disk} {c : Call} (h : d.step c = some e) : Step d c e := by
  cases c with
  | shmOpen data =>
    simp only [Disk.step] at h
    split at h
    next hp hpath => cases h; exact .reopened hp hpath
    next hp hpath => cases h; exact .created hp hpath
    next => cases h
  | ftruncate =>
    simp only [Disk.step] at h
    split at h
    next hp => cases h; exact .truncated hp
    next => cases h
  | ftruncateFails =>
    simp only [Disk.step] at h
    split at h
    next hp => cases h; exact .refused hp
    next => cases h
  | event =>
    simp only [Disk.step] at h
    split at h
    next hp => cases h; exact .announced hp
    next => cases h
  | mmap =>
    simp only [Disk.step] at h
    split at h
    next hp =>
      split at h
      next => cases h
      next hne => cases h; exact .mapped hp hne
    next => cases h
  | mmapFails =>
    simp only [Disk.step] at h
    split at h
    next hp => cases h; exact .unmapped hp
    next => cases h
  | storeByte k =>
    simp only [Disk.step] at h
    split at h
    next hp =>
      split at h
      next hall => cases h; exact .completed hp hall
      next hmore => cases h; exact .stored hp hmore
    next => cases h
  | shmUnlink =>
    simp only [Disk.step] at h
    split at h
    next hp => cases h; exact .unlinked hp
    next => cases h

/- A call that succeeds. -/
def writeOut (data : Bytes) : List Call :=
  [.shmOpen data, .ftruncate, .event, .mmap] ++
    (List.range data.length).map .storeByte

/-! ### What a call leaves -/

def Sound (d : Disk) : Prop :=
  match d.phase with
  | .idle => ∀ data, d.last = some data → ∃ i, d.path = some i ∧ d.bytes i = data
  | .opened _ i => d.path = some i
  | .truncated data i | .sized data i =>
      d.path = some i ∧ ∃ old, Partly 0 old data ∅ (d.bytes i)
  | .mapped data i stored =>
      d.path = some i ∧ ∃ old, Partly 0 old data stored (d.bytes i)
  | .failing => True

theorem sound_start (content : Bytes) : Sound (start content) := nofun

theorem sound_step {d e : Disk} {c : Call} (hd : Sound d) (h : d.step c = some e) : Sound e := by
  unfold Sound at hd
  cases step_of_eq h with
  | reopened hp hpath => exact hpath
  | created hp hpath => rfl
  | @truncated data i hp =>
    rw [hp] at hd
    refine ⟨hd, d.bytes i, ?_⟩
    dsimp only
    rw [Function.update_self]
    exact partly_fit 0 _ _
  | refused hp => trivial
  | announced hp =>
    rw [hp] at hd
    exact hd
  | mapped hp hne =>
    rw [hp] at hd
    exact hd
  | unmapped hp => trivial
  | @completed data i k stored hp hall =>
    rw [hp] at hd
    obtain ⟨hpath, old, hpart⟩ := hd
    have hpart' := partly_storeAt 0 hpart k
    intro data' hdata
    cases hdata
    refine ⟨i, hpath, ?_⟩
    dsimp only
    rw [Function.update_self]
    exact eq_of_partly 0 hpart' hall
  | @stored data i k stored hp hmore =>
    rw [hp] at hd
    obtain ⟨hpath, old, hpart⟩ := hd
    refine ⟨hpath, old, ?_⟩
    dsimp only
    rw [Function.update_self]
    exact partly_storeAt 0 hpart k
  | unlinked hp => exact nofun

theorem step_of_succeeds {d e : Disk} {c : Call} {data : Bytes} (hc : d.succeeds c = some data)
    (h : d.step c = some e) : e.phase = .idle ∧ e.queue = d.queue ∧ e.last = some data := by
  unfold Disk.succeeds at hc
  split at hc
  next data i stored k hp =>
    split at hc
    next hall =>
      cases hc
      simp only [Disk.step, hp, hall, if_true] at h
      cases h
      exact ⟨rfl, rfl, rfl⟩
    next => cases hc
  next => cases hc

/- Right after a successful call the file reads as its string. -/
theorem readFile_expected {d : Disk} (hd : Sound d) {text : Text} (h : d.expected = some text) :
    d.readFile = some text := by
  unfold Disk.expected at h
  split at h
  next hp =>
    obtain ⟨data, hlast, hread⟩ := Option.bind_eq_some_iff.mp h
    simp only [Sound, hp] at hd
    obtain ⟨i, hpath, hbytes⟩ := hd data hlast
    rw [Disk.readFile, hpath, Option.bind_some, hbytes, hread]
  next => cases h

/-! ### After the unlink -/

/- The watched file has lost its name, and no call has it open. -/
structure Disk.Cut (d : Disk) : Prop where
  unnamed : d.path ≠ some d.watched
  closed : ∀ i, d.phase.inode? = some i → i ≠ d.watched
  older : d.watched < d.fresh

theorem cut_step {d e : Disk} {c : Call} (hd : d.Cut) (h : d.step c = some e) :
    e.Cut ∧ e.queue = d.queue := by
  obtain ⟨hunnamed, hclosed, holder⟩ := hd
  cases step_of_eq h with
  | @reopened data i hp hpath =>
    have hne : i ≠ d.watched := fun heq => hunnamed (by rw [hpath, heq])
    refine ⟨⟨hunnamed, ?_, holder⟩, rfl⟩
    rintro j ⟨⟩
    exact hne
  | created hp hpath =>
    have hne : d.fresh ≠ d.watched := by omega
    refine ⟨⟨?_, ?_, Nat.lt_succ_of_lt holder⟩, rfl⟩
    · simpa using hne
    · rintro j ⟨⟩
      exact hne
  | truncated hp =>
    rw [hp] at hclosed
    exact ⟨⟨hunnamed, hclosed, holder⟩, rfl⟩
  | refused hp => exact ⟨⟨hunnamed, nofun, holder⟩, rfl⟩
  | announced hp =>
    rw [hp] at hclosed
    exact ⟨⟨hunnamed, hclosed, holder⟩, if_neg (hclosed _ rfl)⟩
  | mapped hp hne =>
    rw [hp] at hclosed
    exact ⟨⟨hunnamed, hclosed, holder⟩, rfl⟩
  | unmapped hp => exact ⟨⟨hunnamed, nofun, holder⟩, rfl⟩
  | completed hp hall => exact ⟨⟨hunnamed, nofun, holder⟩, rfl⟩
  | stored hp hmore =>
    rw [hp] at hclosed
    exact ⟨⟨hunnamed, hclosed, holder⟩, rfl⟩
  | unlinked hp => exact ⟨⟨nofun, nofun, holder⟩, if_neg hunnamed⟩

end Tbouncer.Switch.Unlink
