import Mathlib.Logic.Function.Basic
import Tbouncer.Base.Watch

/-!
# Several readers of one register

Each reader has a queue of its own, and every notification goes into all of them. To any
one of the readers a run of the whole is a run of it beside the writer alone.
-/

namespace Tbouncer.Base.Watch

section
variable {γ ρ ε : Type} [DecidableEq ε]

/- What an effect of the writer does to a reader's side; nothing keeps it from happening. -/
def Conf.after (R : Reader γ ρ ε) (s : Conf γ ρ ε) : Effect γ ε → Conf γ ρ ε
  | .store c => { s with content := c, owed := true, atStore := s.reader }
  | .notify e => { s with queue := enqueue s.queue e, owed := s.owed && !R.relevant e }

theorem step_effect (R : Reader γ ρ ε) (s : Conf γ ρ ε) (e : Effect γ ε) :
    step R s e.act = some (s.after R e) := by
  cases e <;> rfl

def Effect.on (content : γ) : Effect γ ε → γ
  | .store c => c
  | .notify _ => content

theorem content_after (R : Reader γ ρ ε) (s : Conf γ ρ ε) (e : Effect γ ε) :
    (s.after R e).content = e.on s.content := by
  cases e <;> rfl

end

/- The steps a reader takes by itself. -/
inductive Reading where
  | take
  | handle
  | tick
  deriving DecidableEq

def Reading.act {γ ε : Type} : Reading → Act γ ε
  | .take => .take
  | .handle => .handle
  | .tick => .tick

def Reading.move {α : Type} : Reading → Move α
  | .take => .take
  | .handle => .handle
  | .tick => .tick

structure Shared {ι : Type} (γ ε ω : Type) (ρ : ι → Type) where
  content : γ
  confs : ∀ i, Conf γ (ρ i) ε
  writer : ω

inductive SharedMove (ι α : Type) where
  | write (a : α)
  | read (i : ι) (m : Reading)
  deriving DecidableEq

section
variable {γ ε ω α ι : Type} [DecidableEq ε] [DecidableEq ι] {ρ : ι → Type}
variable (W : γ → ω → α → Option (Effect γ ε × ω)) (R : ∀ i, Reader γ (ρ i) ε)

def sharedStep (s : Shared γ ε ω ρ) : SharedMove ι α → Option (Shared γ ε ω ρ)
  | .write a =>
      (W s.content s.writer a).map fun x =>
        ⟨x.1.on s.content, fun i => (s.confs i).after (R i) x.1, x.2⟩
  | .read i m =>
      (step (R i) (s.confs i) m.act).map fun c =>
        { s with confs := Function.update s.confs i c }

/- All readers of the register are at rest, and its writer. -/
structure Shared.AtRest (idle : ω → Prop) (s : Shared γ ε ω ρ) : Prop where
  writer : idle s.writer
  queues : ∀ i, (s.confs i).queue = []
  batches : ∀ i, (s.confs i).batch = []
  ready : ∀ i, (R i).ready (s.confs i).reader = true

/- The system as reader `i` knows it. -/
def Shared.world (s : Shared γ ε ω ρ) (i : ι) : World γ (ρ i) ε ω := ⟨s.confs i, s.writer⟩

def SharedMove.seenBy (i : ι) : SharedMove ι α → Option (Move α)
  | .write a => some (.write a)
  | .read j m => if j = i then some m.move else none

def Shared.Coherent (s : Shared γ ε ω ρ) : Prop := ∀ i, (s.confs i).content = s.content

theorem content_of_reading {ρ : Type} {R : Reader γ ρ ε} {s t : Conf γ ρ ε} {m : Reading}
    (h : step R s m.act = some t) : t.content = s.content := by
  cases m with
  | take =>
    obtain ⟨-, rfl⟩ := step_take_eq_some R h
    rfl
  | handle =>
    obtain ⟨-, e, rest, -, rfl⟩ := step_handle_eq_some R h
    rfl
  | tick =>
    cases h
    rfl

variable {W R}

theorem coherent_step {s t : Shared γ ε ω ρ} {m : SharedMove ι α} (hs : s.Coherent)
    (h : sharedStep W R s m = some t) : t.Coherent := by
  intro i
  cases m with
  | write a =>
    obtain ⟨x, -, rfl⟩ := Option.map_eq_some_iff.mp h
    dsimp only
    rw [content_after, hs i]
  | read j m =>
    obtain ⟨c, hc, rfl⟩ := Option.map_eq_some_iff.mp h
    dsimp only
    by_cases hij : i = j
    · subst hij
      rw [Function.update_self, content_of_reading hc]
      exact hs i
    · rw [Function.update_of_ne hij]
      exact hs i

theorem worldStep_reading {ρ : Type} (R : Reader γ ρ ε) (s : World γ ρ ε ω) (m : Reading) :
    worldStep W R s m.move = (step R s.conf m.act).map fun c => { s with conf := c } := by
  cases m <;> rfl

theorem world_step {s t : Shared γ ε ω ρ} {m : SharedMove ι α} (hs : s.Coherent)
    (h : sharedStep W R s m = some t) (i : ι) :
    run (worldStep W (R i)) (s.world i) (m.seenBy i).toList = some (t.world i) := by
  cases m with
  | write a =>
    obtain ⟨x, hx, rfl⟩ := Option.map_eq_some_iff.mp h
    rw [← hs i] at hx
    show (((W (s.confs i).content s.writer a).bind _).bind _) = _
    rw [hx, Option.bind_some, step_effect]
    rfl
  | read j m =>
    obtain ⟨c, hc, rfl⟩ := Option.map_eq_some_iff.mp h
    by_cases hij : j = i
    · subst hij
      have hseen : (SharedMove.read j m : SharedMove ι α).seenBy j = some m.move := if_pos rfl
      have hworld : worldStep W (R j) (s.world j) m.move = some ⟨c, s.writer⟩ := by
        rw [worldStep_reading]
        show (step (R j) (s.confs j) m.act).map _ = _
        rw [hc]
        rfl
      rw [hseen, Option.toList_some, run_cons, hworld, Option.bind_some, run_nil]
      show _ = some (World.mk (Function.update s.confs j c j) s.writer)
      rw [Function.update_self]
    · have hseen : (SharedMove.read j m : SharedMove ι α).seenBy i = none := if_neg hij
      rw [hseen, Option.toList_none, run_nil]
      show _ = some (World.mk (Function.update s.confs j c i) s.writer)
      rw [Function.update_of_ne (Ne.symm hij)]
      rfl

/-- What reader `i` sees of a run is a run of its own. -/
theorem world_run {s t : Shared γ ε ω ρ} {ms : List (SharedMove ι α)} (hs : s.Coherent)
    (h : run (sharedStep W R) s ms = some t) (i : ι) :
    run (worldStep W (R i)) (s.world i) (ms.filterMap (SharedMove.seenBy i)) =
      some (t.world i) := by
  induction ms generalizing s with
  | nil =>
    cases h
    rfl
  | cons m ms ih =>
    obtain ⟨u, hu, hrest⟩ := (run_cons_eq_some _).mp h
    have hfirst := world_step hs hu i
    have hlater := ih (coherent_step hs hu) hrest
    cases hseen : m.seenBy i with
    | none =>
      rw [hseen] at hfirst
      rw [List.filterMap_cons_none hseen, ← hlater]
      exact congrArg (fun w => run _ w _) (Option.some.inj hfirst)
    | some a =>
      rw [hseen, Option.toList_some, run_cons_eq_some] at hfirst
      obtain ⟨w, hw, heq⟩ := hfirst
      rw [List.filterMap_cons_some hseen, run_cons, hw, Option.bind_some, Option.some.inj heq]
      exact hlater

omit [DecidableEq ε] [DecidableEq ι] in
theorem Shared.AtRest.world {idle : ω → Prop} {s : Shared γ ε ω ρ} (h : s.AtRest R idle) (i : ι) :
    Watch.AtRest (R i) idle (s.world i) :=
  ⟨h.writer, h.queues i, h.batches i, h.ready i⟩

end

end Tbouncer.Base.Watch
