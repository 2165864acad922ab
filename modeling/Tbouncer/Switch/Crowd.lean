import Mathlib.Data.Fintype.Basic
import Mathlib.Logic.Function.Basic
import Tbouncer.Base.Layers
import Tbouncer.Base.Watchers
import Tbouncer.Switch.WriteCall

/-!
# Several programs write to the switch file

The truncating open and the write of one program can lie between those of another: the
parent and the child behind the fork of `fork_iago.c:32-33` both write `mutation_done`.
Every program writes from the front of the file through a descriptor of its own, and
truncates it at its open only.
-/

namespace Tbouncer.Switch.Crowd
open Base Watch WriteCall

/- `layers`: the strings written since the last truncation, in their order; none as long
as no program has opened the file. -/
structure Programs (π : Type) where
  phase : π → Phase Text
  layers : Option (List Text)

section
variable {π : Type} [DecidableEq π]

def Programs.set (w : Programs π) (p : π) (phase : Phase Text) (layers : Option (List Text)) :
    Programs π :=
  ⟨Function.update w.phase p phase, layers⟩

theorem Programs.set_same (w : Programs π) (p : π) (phase : Phase Text)
    (layers : Option (List Text)) : (w.set p phase layers).phase p = phase := by
  rw [set]
  exact Function.update_self p phase w.phase

theorem Programs.set_other (w : Programs π) {p q : π} (phase : Phase Text)
    (layers : Option (List Text)) (h : q ≠ p) : (w.set p phase layers).phase q = w.phase q := by
  rw [set]
  exact Function.update_of_ne h phase w.phase

/- `accecpt.c:16-28` as the program `a.1` runs it. -/
def crowd (content : Bytes) (w : Programs π) (a : π × Act Text) :
    Option (Effect Bytes Event × Programs π) :=
  match a.2, w.phase a.1 with
  | .openTrunc data, .idle => some (.store [], w.set a.1 (.truncated data) (some []))
  | .truncEvent, .truncated _ => some (.notify .modify, w)
  | .write, .truncated data =>
      some (.store (cover (encodeUtf8 data) content),
        w.set a.1 (.stored data) (w.layers.map (· ++ [data])))
  | .writeEvent, .stored _ => some (.notify .modify, w.set a.1 .idle w.layers)
  | _, _ => none

def start {ρ : Type} (content : Bytes) (r : ρ) : World Bytes ρ Event (Programs π) :=
  ⟨⟨content, false, [], [], r, r⟩, ⟨fun _ => .idle, none⟩⟩

def Programs.Idle (w : Programs π) : Prop := ∀ p, w.phase p = .idle

/- What an action of a program does. -/
inductive Does (content : Bytes) (w : Programs π) :
    π × Act Text → Effect Bytes Event × Programs π → Prop
  | opens {p : π} {data : Text} (hphase : w.phase p = .idle) :
      Does content w (p, .openTrunc data)
        (.store [], w.set p (.truncated data) (some []))
  | announces {p : π} {data : Text} (hphase : w.phase p = .truncated data) :
      Does content w (p, .truncEvent) (.notify .modify, w)
  | writes {p : π} {data : Text} (hphase : w.phase p = .truncated data) :
      Does content w (p, .write) (.store (cover (encodeUtf8 data) content),
        w.set p (.stored data) (w.layers.map (· ++ [data])))
  | ends {p : π} {data : Text} (hphase : w.phase p = .stored data) :
      Does content w (p, .writeEvent) (.notify .modify, w.set p .idle w.layers)

theorem does_of_crowd {content : Bytes} {w : Programs π} {a : π × Act Text}
    {x : Effect Bytes Event × Programs π} (h : crowd content w a = some x) :
    Does content w a x := by
  obtain ⟨p, a⟩ := a
  cases a with
  | openTrunc data =>
    cases hp : w.phase p <;> simp only [crowd, hp] at h <;> cases h
    exact .opens hp
  | truncEvent =>
    cases hp : w.phase p <;> simp only [crowd, hp] at h <;> cases h
    exact .announces hp
  | write =>
    cases hp : w.phase p <;> simp only [crowd, hp] at h <;> cases h
    exact .writes hp
  | writeEvent =>
    cases hp : w.phase p <;> simp only [crowd, hp] at h <;> cases h
    exact .ends hp

end

variable {π ρ : Type} [DecidableEq π] {R : Reader Bytes ρ Event}

/-! ### What the file holds -/

/- The file holds what its layers leave; a program that has truncated it without writing
stands behind an empty list of them. -/
structure Holds (s : World Bytes ρ Event (Programs π)) : Prop where
  content : ∀ ls, s.writer.layers = some ls → s.conf.content = laid (ls.map encodeUtf8)
  begun : s.writer.layers = none → s.writer.Idle
  bottom : s.writer.layers = some [] → ∃ p data, s.writer.phase p = .truncated data
  owed : s.conf.owed = true → ¬ s.writer.Idle

omit [DecidableEq π] in
theorem not_idle {w : Programs π} {p : π} {phase : Phase Text} (h : w.phase p = phase)
    (hne : phase ≠ .idle) : ¬ w.Idle := fun hidle => hne (h ▸ hidle p)

theorem holds_write (hrel : R.relevant .modify = true) {s t : World Bytes ρ Event (Programs π)}
    {a : π × Act Text} (hs : Holds s) (h : worldStep crowd R s (.write a) = some t) : Holds t := by
  obtain ⟨x, c, hx, hc, rfl⟩ := worldStep_write_eq_some crowd h
  obtain ⟨hcontent, hbegun, hbottom, howed⟩ := hs
  cases does_of_crowd hx with
  | @opens p data hphase =>
    cases hc
    refine ⟨fun ls hls => ?_, fun hnone => ?_, fun _ => ⟨p, data, ?_⟩, fun _ => ?_⟩
    · cases hls
      rfl
    · cases hnone
    · exact Programs.set_same ..
    · exact not_idle (Programs.set_same s.writer p _ _) nofun
  | announces hphase =>
    cases hc
    exact ⟨hcontent, hbegun, hbottom, fun _ => not_idle hphase nofun⟩
  | @writes p data hphase =>
    cases hc
    have hbusy := not_idle hphase nofun
    obtain ⟨under, hunder⟩ : ∃ under, s.writer.layers = some under :=
      Option.ne_none_iff_exists'.mp fun hnone => hbusy (hbegun hnone)
    refine ⟨fun ls hls => ?_, fun hnone => ?_, fun hnil => ?_, fun _ => ?_⟩
    · have hnew : s.writer.layers.map (· ++ [data]) = some ls := hls
      rw [hunder, Option.map_some] at hnew
      cases hnew
      show cover _ s.conf.content = _
      rw [hcontent under hunder, List.map_append, List.map_singleton, laid_snoc]
    · have hold : s.writer.layers.map (· ++ [data]) = none := hnone
      rw [hunder] at hold
      cases hold
    · have hold : s.writer.layers.map (· ++ [data]) = some [] := hnil
      rw [hunder, Option.map_some, Option.some.injEq] at hold
      exact absurd hold (List.append_ne_nil_of_right_ne_nil _ (List.cons_ne_nil _ _))
    · exact not_idle (Programs.set_same s.writer p _ _) nofun
  | @ends p data hphase =>
    cases hc
    refine ⟨hcontent, fun hnone => ?_, fun hnil => ?_, fun hlate => ?_⟩
    · exact absurd (hbegun hnone) (not_idle hphase nofun)
    · obtain ⟨q, d, hq⟩ := hbottom hnil
      have hne : q ≠ p := fun heq => by
        rw [heq, hphase] at hq
        cases hq
      exact ⟨q, d, by rw [Programs.set_other s.writer _ _ hne, hq]⟩
    · have hsent : (s.conf.owed && !R.relevant .modify) = true := hlate
      rw [hrel, Bool.not_true, Bool.and_false] at hsent
      cases hsent

theorem holds_step (hrel : R.relevant .modify = true) {s t : World Bytes ρ Event (Programs π)}
    {m : Move (π × Act Text)} (hs : Holds s) (h : worldStep crowd R s m = some t) : Holds t := by
  obtain ⟨a, rfl⟩ | hm := m.write_or
  · exact holds_write hrel hs h
  · have hmove := reader_move crowd hm h
    obtain ⟨hcontent, hbegun, hbottom, howed⟩ := hs
    rw [← hmove.writer] at hcontent hbegun hbottom howed
    rw [← hmove.content] at hcontent
    rw [← hmove.owed] at howed
    exact ⟨hcontent, hbegun, hbottom, howed⟩

theorem holds_run (hrel : R.relevant .modify = true) {content : Bytes} {r₀ : ρ}
    {ms : List (Move (π × Act Text))} {s : World Bytes ρ Event (Programs π)}
    (hrun : run (worldStep crowd R) (start content r₀) ms = some s) : Holds s := by
  refine run_invariant (worldStep crowd R) (fun _ _ _ hI hst => holds_step hrel hI hst) ?_ hrun
  refine ⟨fun ls hls => ?_, fun _ _ => rfl, fun hnil => ?_, fun hlate => ?_⟩
  · cases hls
  · cases hnil
  · cases hlate

/-! ### The reader -/

variable {J P : Bytes → ρ → ρ → Prop}

structure Told (R : Reader Bytes ρ Event) (J P : Bytes → ρ → ρ → Prop)
    (s : World Bytes ρ Event (Programs π)) : Prop where
  reader_ok : ReaderOk J s.conf
  fresh : s.writer.layers ≠ none → Fresh R J P s.conf

theorem told_step (hset : Settles R J P) {s t : World Bytes ρ Event (Programs π)}
    {m : Move (π × Act Text)} (hholds : Holds s) (hs : Told R J P s)
    (h : worldStep crowd R s m = some t) : Told R J P t := by
  obtain ⟨a, rfl⟩ | hm := m.write_or
  · obtain ⟨x, c, hx, hc, rfl⟩ := worldStep_write_eq_some crowd h
    have hok := reader_ok_step hset hs.reader_ok hc
    have hbusy : ∀ p phase, s.writer.phase p = phase → phase ≠ .idle → Fresh R J P s.conf :=
      fun p phase hp hne => hs.fresh fun hnone => not_idle hp hne (hholds.begun hnone)
    cases does_of_crowd hx with
    | opens => exact ⟨hok, fun _ => fresh_of_store hset hs.reader_ok hc⟩
    | announces hphase =>
      exact ⟨hok, fun _ => fresh_step hset (hbusy _ _ hphase nofun) hc⟩
    | writes => exact ⟨hok, fun _ => fresh_of_store hset hs.reader_ok hc⟩
    | ends hphase =>
      exact ⟨hok, fun _ => fresh_step hset (hbusy _ _ hphase nofun) hc⟩
  · have hmove := reader_move crowd hm h
    obtain ⟨a, hc⟩ := hmove.conf
    refine ⟨reader_ok_step hset hs.reader_ok hc, fun hne => ?_⟩
    rw [hmove.writer] at hne
    exact fresh_step hset (hs.fresh hne) hc

theorem told_run (hset : Settles R J P) (hrel : R.relevant .modify = true) {content : Bytes}
    {r₀ : ρ} (h₀ : J content r₀ r₀) {ms : List (Move (π × Act Text))}
    {s : World Bytes ρ Event (Programs π)}
    (hrun : run (worldStep crowd R) (start content r₀) ms = some s) : Told R J P s := by
  have hboth : Holds s ∧ Told R J P s := by
    refine run_invariant (worldStep crowd R) (I := fun s => Holds s ∧ Told R J P s)
      (fun s m t hI hst => ⟨holds_step hrel hI.1 hst, told_step hset hI.1 hI.2 hst⟩) ?_ hrun
    exact ⟨holds_run (R := R) hrel (run_nil _ _), h₀, fun hne => absurd rfl hne⟩
  exact hboth.2

/-- Once all programs and the reader rest, the file holds what the strings written since
the last truncation leave of one another, and the reader has acted on that. -/
theorem crowd_settles (hset : Settles R J P) (hrel : R.relevant .modify = true) {content : Bytes}
    {r₀ : ρ} (h₀ : J content r₀ r₀) {ms : List (Move (π × Act Text))}
    {s : World Bytes ρ Event (Programs π)}
    (hrun : run (worldStep crowd R) (start content r₀) ms = some s)
    (hrest : AtRest R Programs.Idle s) {ls : List Text} (hlayers : s.writer.layers = some ls) :
    ls ≠ [] ∧ s.conf.content = laid (ls.map encodeUtf8) ∧
      P s.conf.content s.conf.atStore s.conf.reader := by
  have hholds := holds_run hrel hrun
  have htold := told_run hset hrel h₀ hrun
  have howed : s.conf.owed = false := by
    cases ho : s.conf.owed with
    | false => rfl
    | true => exact absurd hrest.writer (hholds.owed ho)
  have hne : s.writer.layers ≠ none := by
    rw [hlayers]
    exact Option.some_ne_none ls
  refine ⟨fun hnil => ?_, hholds.content ls hlayers,
    settled_of_quiescent (htold.fresh hne) ⟨hrest.queue, hrest.batch, hrest.ready, howed⟩⟩
  rw [hnil] at hlayers
  obtain ⟨p, data, hp⟩ := hholds.bottom hlayers
  exact not_idle hp nofun hrest.writer

/-! ### What has been asked of the file -/

/- Which program it is that writes does not show. -/
def alone : Move (π × Act Text) → Move (Act Text)
  | .write a => .write a.2
  | .take => .take
  | .handle => .handle
  | .tick => .tick

/- The strings passed to open and write. -/
def opened (ms : List (Move (π × Act Text))) : List Text := openedStrings (ms.map alone)

/- What has been asked of the file, program by program. -/
structure Asked (strings : List Text) (s : World Bytes ρ Event (Programs π)) : Prop where
  layers : ∀ ls, s.writer.layers = some ls → ∀ data ∈ ls, data ∈ strings
  pending : ∀ p data, s.writer.phase p = .truncated data → data ∈ strings

omit [DecidableEq π] in
theorem Asked.mono {strings more : List Text} {s : World Bytes ρ Event (Programs π)}
    (h : Asked strings s) (hsub : strings ⊆ more) : Asked more s :=
  ⟨fun ls hls data hd => hsub (h.layers ls hls data hd),
    fun p data hp => hsub (h.pending p data hp)⟩

theorem asked_write {strings : List Text} {s t : World Bytes ρ Event (Programs π)}
    {a : π × Act Text} (hs : Asked strings s) (hopened : opened [.write a] ⊆ strings)
    (h : worldStep crowd R s (.write a) = some t) : Asked strings t := by
  obtain ⟨x, c, hx, hc, rfl⟩ := worldStep_write_eq_some crowd h
  have hother : ∀ p q phase ls d, (s.writer.set p phase ls).phase q = .truncated d →
      phase ≠ .truncated d → d ∈ strings := fun p q phase ls d hq hne => by
    by_cases heq : q = p
    · rw [heq, Programs.set_same] at hq
      exact absurd hq hne
    · rw [Programs.set_other _ _ _ heq] at hq
      exact hs.pending q d hq
  cases does_of_crowd hx with
  | @opens p data hphase =>
    cases hc
    refine ⟨fun ls hls => ?_, fun q d hq => ?_⟩
    · cases hls
      exact List.forall_mem_nil _
    · by_cases heq : data = d
      · rw [← heq]
        exact hopened (List.mem_singleton_self data)
      · exact hother p q _ _ d hq fun hsame => heq (Phase.truncated.inj hsame)
  | announces hphase =>
    cases hc
    exact ⟨hs.layers, hs.pending⟩
  | @writes p data hphase =>
    cases hc
    refine ⟨fun ls hls => ?_, fun q d hq => hother p q _ _ d hq nofun⟩
    obtain ⟨under, hunder, rfl⟩ := Option.map_eq_some_iff.mp hls
    exact List.forall_mem_append.mpr
      ⟨hs.layers under hunder, List.forall_mem_singleton.mpr (hs.pending p data hphase)⟩
  | @ends p data hphase =>
    cases hc
    exact ⟨hs.layers, fun q d hq => hother p q _ _ d hq nofun⟩

/- The strings that lie over one another have been passed to open. -/
theorem asked_run {content : Bytes} {r₀ : ρ} {ms : List (Move (π × Act Text))}
    {s : World Bytes ρ Event (Programs π)}
    (hrun : run (worldStep crowd R) (start content r₀) ms = some s) : Asked (opened ms) s := by
  induction ms using List.reverseRecOn generalizing s with
  | nil =>
    cases hrun
    refine ⟨fun ls hls => ?_, fun p data hp => ?_⟩
    · cases hls
    · cases hp
  | append_singleton ms m ih =>
    obtain ⟨r, hr, hst⟩ := (run_snoc_eq_some _).mp hrun
    have happend : opened (ms ++ [m]) = opened ms ++ opened [m] := by
      rw [opened, List.map_append, openedStrings_append]
      rfl
    have hmore := (ih hr).mono (List.subset_append_left (opened ms) (opened [m]))
    rw [happend]
    obtain ⟨a, rfl⟩ | hm := m.write_or
    · exact asked_write hmore (List.subset_append_right _ _) hst
    · have hmove := reader_move crowd hm hst
      obtain ⟨hlayers, hpending⟩ := hmore
      rw [← hmove.writer] at hlayers hpending
      exact ⟨hlayers, hpending⟩

theorem laid_bytes {Q : UInt8 → Prop} {ls : List Text} (h : ∀ d ∈ ls, ∀ b ∈ encodeUtf8 d, Q b) :
    ∀ b ∈ laid (ls.map encodeUtf8), Q b := by
  intro b hb
  obtain ⟨layer, hl, hin⟩ := mem_laid hb
  obtain ⟨d, hd, rfl⟩ := List.mem_map.mp hl
  exact h d hd b hin

/-! ### Taking turns -/

instance [Fintype π] (w : Programs π) : Decidable w.Idle :=
  inferInstanceAs (Decidable (∀ p, w.phase p = .idle))

/- A program opens the file only when no other has it open. -/
def Turns (s : World Bytes ρ Event (Programs π)) : Move (π × Act Text) → Prop
  | .write (_, .openTrunc _) => s.writer.Idle
  | _ => True

instance [Fintype π] (s : World Bytes ρ Event (Programs π)) : ∀ m, Decidable (Turns s m)
  | .write (_, .openTrunc _) => inferInstanceAs (Decidable s.writer.Idle)
  | .write (_, .truncEvent) => .isTrue trivial
  | .write (_, .write) => .isTrue trivial
  | .write (_, .writeEvent) => .isTrue trivial
  | .take => .isTrue trivial
  | .handle => .isTrue trivial
  | .tick => .isTrue trivial

/- The one program that has the file open is in the phase of the single writer. -/
def Mirrors (content : Bytes) (w : Programs π) (v : Writer Text) : Prop :=
  match v.phase with
  | .idle => w.Idle ∧ w.layers = v.last.map fun data => [data]
  | .truncated data =>
      content = [] ∧ w.layers = some [] ∧
        ∃ p, w.phase = Function.update (fun _ => .idle) p (.truncated data)
  | .stored data =>
      w.layers = some [data] ∧ ∃ p, w.phase = Function.update (fun _ => .idle) p (.stored data)

/- A program that has the file open is the only one, in the phase of the writer. -/
theorem mirrors_busy {content : Bytes} {w : Programs π} {v : Writer Text} {p : π}
    {phase : Phase Text} (hs : Mirrors content w v) (hp : w.phase p = phase) (hne : phase ≠ .idle) :
    v.phase = phase ∧ w.phase = Function.update (fun _ => .idle) p phase := by
  have honly : ∀ q only, w.phase = Function.update (fun _ => .idle) q only →
      only = phase ∧ w.phase = Function.update (fun _ => .idle) p phase := fun q only hw => by
    have hq := hp
    rw [hw] at hq
    by_cases heq : p = q
    · rw [heq, Function.update_self] at hq
      exact ⟨hq, by rw [hw, hq, heq]⟩
    · rw [Function.update_of_ne heq] at hq
      exact absurd hq.symm hne
  obtain ⟨writing, last⟩ := v
  cases writing with
  | idle => exact absurd hs.1 (not_idle hp hne)
  | truncated d =>
    obtain ⟨-, -, q, hq⟩ := hs
    exact honly q _ hq
  | stored d =>
    obtain ⟨-, q, hq⟩ := hs
    exact honly q _ hq

theorem mirrors_idle {content : Bytes} {w : Programs π} {v : Writer Text} (hs : Mirrors content w v)
    (hidle : w.Idle) : v.phase = .idle := by
  obtain ⟨writing, last⟩ := v
  cases writing with
  | idle => rfl
  | truncated d =>
    obtain ⟨-, -, q, hq⟩ := hs
    have hphase : w.phase q = .truncated d := by rw [hq, Function.update_self]
    exact absurd hidle (not_idle hphase nofun)
  | stored d =>
    obtain ⟨-, q, hq⟩ := hs
    have hphase : w.phase q = .stored d := by rw [hq, Function.update_self]
    exact absurd hidle (not_idle hphase nofun)

theorem mirrors_write {content : Bytes} {w : Programs π} {v : Writer Text} {a : π × Act Text}
    {x : Effect Bytes Event × Programs π} (hs : Mirrors content w v)
    (hx : crowd content w a = some x)
    (hturn : ∀ data, a.2 = .openTrunc data → w.Idle) :
    ∃ y, writer encodeUtf8 content v a.2 = some (x.1, y) ∧ Mirrors (x.1.on content) x.2 y := by
  obtain ⟨writing, last⟩ := v
  cases does_of_crowd hx with
  | @opens p data hphase =>
    have hidle := hturn data rfl
    obtain rfl : writing = .idle := mirrors_idle hs hidle
    refine ⟨⟨.truncated data, last⟩, rfl, rfl, rfl, p, ?_⟩
    show Function.update w.phase p (.truncated data) = _
    rw [show w.phase = fun _ => .idle from funext hidle]
  | @announces p data hphase =>
    obtain ⟨rfl, -⟩ := mirrors_busy hs hphase (by rintro ⟨⟩)
    exact ⟨⟨.truncated data, last⟩, rfl, hs⟩
  | @writes p data hphase =>
    obtain ⟨rfl, hw⟩ := mirrors_busy hs hphase (by rintro ⟨⟩)
    obtain ⟨rfl, hlayers, -⟩ := hs
    refine ⟨⟨.stored data, last⟩, ?_, ?_, p, ?_⟩
    · show some _ = some _
      rw [cover, List.drop_nil, List.append_nil]
    · show w.layers.map (· ++ [data]) = _
      rw [hlayers]
      rfl
    · show Function.update w.phase p (.stored data) = _
      rw [hw, Function.update_idem]
  | @ends p data hphase =>
    obtain ⟨rfl, hw⟩ := mirrors_busy hs hphase (by rintro ⟨⟩)
    refine ⟨⟨.idle, some data⟩, rfl, fun r => ?_, hs.1⟩
    show Function.update w.phase p .idle r = .idle
    rw [hw, Function.update_idem, Function.update_eq_self]

structure Mirror (s : World Bytes ρ Event (Programs π)) (t : World Bytes ρ Event (Writer Text)) :
    Prop where
  conf : t.conf = s.conf
  writer : Mirrors s.conf.content s.writer t.writer

theorem mirror_step {s s' : World Bytes ρ Event (Programs π)}
    {t : World Bytes ρ Event (Writer Text)} {m : Move (π × Act Text)} (hs : Mirror s t)
    (hturn : Turns s m) (h : worldStep crowd R s m = some s') :
    ∃ t', worldStep (writer encodeUtf8) R t (alone m) = some t' ∧ Mirror s' t' := by
  obtain ⟨conf₀, w⟩ := s
  obtain ⟨conf, v⟩ := t
  obtain ⟨hconf, hmirrors⟩ := hs
  obtain rfl : conf = conf₀ := hconf
  cases m with
  | write a =>
    obtain ⟨x, c, hx, hc, rfl⟩ := worldStep_write_eq_some crowd h
    have hopens : ∀ data, a.2 = .openTrunc data → w.Idle := fun data ha => by
      obtain ⟨p, a⟩ := a
      cases ha
      exact hturn
    obtain ⟨y, hy, hnew⟩ := mirrors_write hmirrors hx hopens
    refine ⟨⟨c, y⟩, ?_, rfl, ?_⟩
    · show (writer encodeUtf8 conf.content v a.2).bind _ = _
      rw [hy, Option.bind_some, hc]
      rfl
    · show Mirrors c.content x.2 y
      rw [step_effect] at hc
      rw [← Option.some.inj hc, content_after]
      exact hnew
  | take =>
    obtain ⟨c, hc, rfl⟩ := Option.map_eq_some_iff.mp h
    refine ⟨⟨c, v⟩, Option.map_eq_some_iff.mpr ⟨c, hc, rfl⟩, rfl, ?_⟩
    obtain ⟨-, rfl⟩ := step_take_eq_some R hc
    exact hmirrors
  | handle =>
    obtain ⟨c, hc, rfl⟩ := Option.map_eq_some_iff.mp h
    refine ⟨⟨c, v⟩, Option.map_eq_some_iff.mpr ⟨c, hc, rfl⟩, rfl, ?_⟩
    obtain ⟨-, e, rest, -, rfl⟩ := step_handle_eq_some R hc
    exact hmirrors
  | tick =>
    cases h
    exact ⟨_, rfl, rfl, hmirrors⟩

theorem mirror_run {s s' : World Bytes ρ Event (Programs π)} {t : World Bytes ρ Event (Writer Text)}
    {ms : List (Move (π × Act Text))} (hs : Mirror s t)
    (hrun : run (worldStep crowd R) s ms = some s')
    (hturns : AllSteps (worldStep crowd R) Turns s ms) :
    ∃ t', run (worldStep (writer encodeUtf8) R) t (ms.map alone) = some t' ∧ Mirror s' t' := by
  induction ms generalizing s t with
  | nil =>
    cases hrun
    exact ⟨t, rfl, hs⟩
  | cons m ms ih =>
    obtain ⟨r, hr, hrest⟩ := (run_cons_eq_some _).mp hrun
    obtain ⟨hturn, hafter⟩ := (allSteps_cons _ hr).mp hturns
    obtain ⟨u, hu, hmirror⟩ := mirror_step hs hturn hr
    obtain ⟨t', ht', hend⟩ := ih hmirror hrest hafter
    exact ⟨t', (run_cons_eq_some _).mpr ⟨u, hu, ht'⟩, hend⟩

/-- Programs that take turns are one writer: the reader, the file and its events go
through a run beside a single program, at rest when they all are, behind the string of
the last of them. -/
theorem turns_refine (R : Reader Bytes ρ Event) (content : Bytes) (r₀ : ρ)
    (ms : List (Move (π × Act Text))) (s : World Bytes ρ Event (Programs π))
    (hrun : run (worldStep crowd R) (start content r₀) ms = some s)
    (hturns : AllSteps (worldStep crowd R) Turns (start content r₀) ms) :
    ∃ t, run (worldStep (writer encodeUtf8) R) (WriteCall.start content r₀) (ms.map alone) =
        some t ∧
      t.conf = s.conf ∧ (s.writer.Idle → t.writer.phase = .idle ∧
        s.writer.layers = t.writer.last.map fun data => [data]) := by
  have hstart : Mirror (start (π := π) content r₀) (WriteCall.start content r₀) :=
    ⟨rfl, fun _ => rfl, rfl⟩
  obtain ⟨t, ht, hconf, hmirrors⟩ := mirror_run hstart hrun hturns
  refine ⟨t, ht, hconf, fun hidle => ?_⟩
  have hphase := mirrors_idle hmirrors hidle
  simp only [Mirrors, hphase] at hmirrors
  exact ⟨hphase, hmirrors.2⟩

/- A run of a parent and its child whose end shows that all rest. -/
theorem rest_of_views (R : Reader Bytes ρ Event) {o : Option (World Bytes ρ Event (Programs Bool))}
    {ls : List Text} {r : ρ}
    (hprograms : o.map (fun s => (s.writer.phase true, s.writer.phase false, s.writer.layers)) =
      some (.idle, .idle, some ls))
    (hreader : o.map (fun s => (s.conf.queue, s.conf.batch, s.conf.reader)) = some ([], [], r))
    (hready : R.ready r = true) :
    ∃ s, o = some s ∧ AtRest R Programs.Idle s ∧ s.writer.layers = some ls := by
  obtain ⟨s, rfl, hend⟩ := Option.map_eq_some_iff.mp hprograms
  simp only [Prod.mk.injEq] at hend
  obtain ⟨hparent, hchild, hlayers⟩ := hend
  simp only [Option.map_some, Option.some.injEq, Prod.mk.injEq] at hreader
  obtain ⟨hqueue, hbatch, rfl⟩ := hreader
  refine ⟨s, rfl, ⟨fun p => ?_, hqueue, hbatch, hready⟩, hlayers⟩
  cases p with
  | false => exact hchild
  | true => exact hparent

/- A reader that remembers what it has read. -/
def remembers : Reader Bytes Bytes Event := ⟨isModify, fun _ => true, fun content _ => content, id⟩

def moveOf (p : π) : Move (Act Text) → Move (π × Act Text)
  | .write a => .write (p, a)
  | .take => .take
  | .handle => .handle
  | .tick => .tick

def writeOut (p : π) (data : Text) : List (Move (π × Act Text)) :=
  (WriteCall.writeOut data).map (moveOf p)

/- A parent writes a name, its child the "0". -/
def familyRun : List (Move (Bool × Act Text)) :=
  writeOut true "fork01".toList ++ [.take, .handle] ++ writeOut false ['0'] ++ [.take, .handle]

theorem turns_refine_family :
    ∃ s, run (worldStep crowd remembers) (start [] []) familyRun = some s ∧
      ∃ t, run (worldStep (writer encodeUtf8) remembers) (WriteCall.start [] [])
          (familyRun.map alone) = some t ∧
        t.conf = s.conf ∧ (s.writer.Idle → t.writer.phase = .idle ∧
          s.writer.layers = t.writer.last.map fun data => [data]) := by
  have hsome : (run (worldStep crowd remembers) (start [] []) familyRun).isSome = true := by decide
  have hturns : AllSteps (worldStep crowd remembers) Turns (start [] []) familyRun := by decide
  obtain ⟨s, hs⟩ := Option.isSome_iff_exists.mp hsome
  exact ⟨s, hs, turns_refine remembers _ _ _ s hs hturns⟩

end Tbouncer.Switch.Crowd
