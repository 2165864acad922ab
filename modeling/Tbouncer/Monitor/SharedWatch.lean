import Tbouncer.Monitor.SwitchWatch
import Tbouncer.Switch.SharedMemory

/-!
# The file-monitor thread and the shared-memory writer

The one event of a call is queued by ftruncate, before the new bytes are stored. If
it is handled while they are still being stored, what the thread makes of the half
written file is final.
-/

namespace Tbouncer.Monitor.SharedMemory
open Base Switch Watch Switch.SharedMemory

abbrev State := World Bytes Vars Event (Writer Bytes)

def step : State → Move (Act Bytes) → Option State := worldStep (writer id) reader
def start (content : Bytes) : State := Switch.SharedMemory.start content Vars.start

/- The string whose bytes are being stored. -/
def storing : Phase Bytes → Option Bytes
  | .mapped data _ => some data
  | _ => none

theorem mapped_of_storing {p : Phase Bytes} {data : Bytes} (h : storing p = some data) :
    ∃ stored, p = .mapped data stored := by
  cases p with
  | idle => cases h
  | truncated d => cases h
  | mapped d stored =>
    cases h
    exact ⟨stored, rfl⟩

/- No event is left behind the one at hand. -/
def LastQueued (s : State) : Prop :=
  ∀ e ∈ s.conf.batch.tail ++ s.conf.queue, isModify e = false

/- The thread can read the file, and takes it for "0" exactly when `data` is "0". -/
def ReadsAs (data content : Bytes) : Prop :=
  ∃ value ∈ readSwitchFile (some content), (value = off ↔ data = encodeUtf8 off)

/- Every string can be read, and none but "0" for "0"; and an event that is handled while
bytes are being stored either is not the last one or finds the file readable as the string
it is going to hold. -/
def Calm (s : State) : Move (Act Bytes) → Prop
  | .write (.ftruncate data) => ReadsAs data data
  | .handle => ∀ data ∈ storing s.writer.phase, LastQueued s → ReadsAs data s.conf.content
  | _ => True

instance (s : State) : Decidable (LastQueued s) :=
  inferInstanceAs (Decidable (∀ e ∈ _, _))

instance (data content : Bytes) : Decidable (ReadsAs data content) :=
  inferInstanceAs (Decidable (∃ value ∈ _, _))

instance decidableCalm (s : State) : ∀ m, Decidable (Calm s m)
  | .write (.ftruncate data) => inferInstanceAs (Decidable (ReadsAs data data))
  | .write .event => .isTrue trivial
  | .write (.storeByte _) => .isTrue trivial
  | .take => .isTrue trivial
  | .handle => inferInstanceAs (Decidable (∀ data ∈ _, _ → _))
  | .tick => .isTrue trivial

/- What that means for a text. -/
theorem readsAs_encodeUtf8_iff {text : Text} :
    ReadsAs (encodeUtf8 text) (encodeUtf8 text) ↔ (strip text = off → text = off) := by
  obtain ⟨value, hv, hoff⟩ := readSwitchFile_encodeUtf8 text
  have hkept : text = off → strip text = off := fun h => by
    rw [h]
    decide
  have hreads : ReadsAs (encodeUtf8 text) (encodeUtf8 text) ↔ (value = off ↔ text = off) := by
    simp only [ReadsAs, hv, Option.mem_some_iff, exists_eq_left', encodeUtf8_inj]
  rw [hreads, hoff]
  exact ⟨Iff.mp, fun h => ⟨h, hkept⟩⟩

/- The flag is right for `data`, or an event that will make it right is queued. -/
def Told (data : Bytes) (c : Conf Bytes Vars Event) : Prop :=
  Pending reader c ∨ c.reader.isMonitoring = decide (data ≠ encodeUtf8 off)

theorem told_take {data : Bytes} {c d : Conf Bytes Vars Event} (h : Told data c)
    (hst : Watch.step reader c .take = some d) : Told data d := by
  obtain ⟨hb, rfl⟩ := step_take_eq_some reader hst
  rcases h with ⟨e, he, hrel⟩ | hflag
  · exact Or.inl ⟨e, by simpa [hb] using he, hrel⟩
  · exact Or.inr hflag

theorem told_handle {data : Bytes} {c d : Conf Bytes Vars Event} (h : Told data c)
    (hread : (∀ e ∈ c.batch.tail ++ c.queue, isModify e = false) → ReadsAs data c.content)
    (hst : Watch.step reader c .handle = some d) : Told data d := by
  obtain ⟨-, e, rest, hb, rfl⟩ := step_handle_eq_some reader hst
  rw [hb, List.tail_cons] at hread
  by_cases hlast : ∀ x ∈ rest ++ c.queue, isModify x = false
  · obtain ⟨value, hv, hoff⟩ := hread hlast
    refine Or.inr ?_
    cases he : reader.relevant e with
    | true =>
      simp only [if_true]
      show (updateFlags (some c.content) c.reader).isMonitoring = _
      rw [updateFlags_isMonitoring hv, decide_eq_decide, not_iff_not]
      exact hoff
    | false =>
      rcases h with ⟨x, hx, hrel⟩ | hflag
      · rw [hb, List.cons_append] at hx
        rcases List.mem_cons.mp hx with rfl | hin
        · rw [he] at hrel
          cases hrel
        · have hno := hlast x hin
          exact absurd hrel (by simp [reader, hno])
      · simpa using hflag
  · simp only [not_forall, Bool.not_eq_false] at hlast
    obtain ⟨x, hx, hrel⟩ := hlast
    exact Or.inl ⟨x, hx, hrel⟩

/-! ### The invariant of calm runs -/

def Informed (s : State) : Prop :=
  match s.writer.phase with
  | .idle => ∀ data, s.writer.last = some data →
      ReadsAs data data ∧ s.conf.content = data ∧ Told data s.conf
  | .truncated data =>
      ReadsAs data data ∧ ∃ old, Partly 0 old data ∅ s.conf.content
  | .mapped data stored =>
      ReadsAs data data ∧ (∃ old, Partly 0 old data stored s.conf.content) ∧
        Told data s.conf

theorem informed_write {s t : State} {a : Act Bytes} (hs : Informed s) (hcalm : Calm s (.write a))
    (h : step s (.write a) = some t) : Informed t := by
  obtain ⟨x, c, hx, hc, rfl⟩ := worldStep_write_eq_some (writer id) h
  obtain ⟨data, rfl, hp, -, rfl⟩ | ⟨data, rfl, hp, rfl⟩ | ⟨i, data, stored, rfl, hp, rfl⟩ :=
    writer_cases hx
  · cases hc
    exact ⟨hcalm, _, partly_fit 0 _ data⟩
  · simp only [Informed, hp] at hs
    cases hc
    exact ⟨hs.1, hs.2, Or.inl ⟨.modify, List.mem_append_right _ (mem_enqueue _ _), rfl⟩⟩
  · simp only [Informed, hp] at hs
    obtain ⟨hreads, ⟨old, hover⟩, htold⟩ := hs
    have hover' := partly_storeAt 0 hover i
    cases hc
    by_cases hall : ∀ j < (id data).length, j ∈ insert i stored
    · simp only [Informed, if_pos hall]
      intro d hd
      cases hd
      exact ⟨hreads, eq_of_partly 0 hover' hall, htold⟩
    · simp only [Informed, if_neg hall]
      exact ⟨hreads, ⟨old, hover'⟩, htold⟩

/- What the reader does next keeps a string told that is in the file, whole or in part. -/
theorem told_reader {s t : State} {m : Move (Act Bytes)} (hm : ∀ a, m ≠ .write a) (hcalm : Calm s m)
    (h : step s m = some t) {data : Bytes} (hreads : ReadsAs data data)
    (hfile : s.conf.content = data ∨ storing s.writer.phase = some data)
    (htold : Told data s.conf) : Told data t.conf := by
  cases m with
  | write a => exact absurd rfl (hm a)
  | take =>
    obtain ⟨c, hc, rfl⟩ := Option.map_eq_some_iff.mp h
    exact told_take htold hc
  | handle =>
    obtain ⟨c, hc, rfl⟩ := Option.map_eq_some_iff.mp h
    refine told_handle htold (fun hlast => ?_) hc
    rcases hfile with hwhole | hpart
    · rw [hwhole]
      exact hreads
    · exact hcalm data hpart hlast
  | tick =>
    cases h
    rcases htold with hp | hflag
    · exact Or.inl hp
    · refine Or.inr ?_
      rw [← hflag]
      exact storeSwitch_isMonitoring s.conf.reader

theorem informed_step {s t : State} {m : Move (Act Bytes)} (hs : Informed s) (hcalm : Calm s m)
    (h : step s m = some t) : Informed t := by
  obtain ⟨a, rfl⟩ | hm := m.write_or
  · exact informed_write hs hcalm h
  · have hmove := reader_move (writer id) hm h
    have htold : ∀ data, (ReadsAs data data) →
        s.conf.content = data ∨ storing s.writer.phase = some data →
          Told data s.conf → Told data t.conf :=
      fun _ hreads hfile hold => told_reader hm hcalm h hreads hfile hold
    unfold Informed at hs ⊢
    rw [hmove.writer, hmove.content]
    cases hp : s.writer.phase with
    | idle =>
      simp only [hp] at hs ⊢
      intro data hd
      obtain ⟨hreads, hc, ht⟩ := hs data hd
      exact ⟨hreads, hc, htold data hreads (Or.inl hc) ht⟩
    | truncated data =>
      simp only [hp] at hs ⊢
      exact hs
    | mapped data stored =>
      simp only [hp] at hs ⊢
      obtain ⟨hreads, hover, ht⟩ := hs
      exact ⟨hreads, hover, htold data hreads (Or.inr (by rw [hp]; rfl)) ht⟩

/- The end of a run; the thread may be between its two stores, or have ended. -/
structure Drained (s : State) : Prop where
  writer : Idle s.writer
  queue : s.conf.queue = []
  batch : s.conf.batch = []

/-- In a calm run, once the writer is idle and every event has been handled, the flag
tells whether the last string differs from "0". -/
theorem monitor_follows (content : Bytes) (ms : List (Move (Act Bytes))) (s : State)
    (hcalm : AllSteps step Calm (start content) ms) (hrun : run step (start content) ms = some s)
    (hdrained : Drained s) (data : Bytes) (hlast : s.writer.last = some data) :
    s.conf.reader.isMonitoring = true ↔ data ≠ encodeUtf8 off := by
  have hstart : Informed (start content) := nofun
  have hs : Informed s :=
    run_guarded step (fun _ _ _ hI hG hst => informed_step hI hG hst) hstart hcalm hrun
  have hidle : s.writer.phase = .idle := hdrained.writer
  simp only [Informed, hidle] at hs
  obtain ⟨-, -, ⟨e, he, -⟩ | hflag⟩ := hs data hlast
  · rw [hdrained.batch, hdrained.queue] at he
    cases he
  · rw [hflag, decide_eq_true_iff]

theorem drained_of_view {o : Option State} {last : Option Bytes} {v : Vars}
    (h : o.map (fun s => (s.writer, s.conf.queue, s.conf.batch, s.conf.reader)) =
      some (⟨.idle, last⟩, [], [], v)) :
    ∃ s, o = some s ∧ Drained s ∧ s.writer.last = last ∧ s.conf.reader = v := by
  obtain ⟨s, hs, hview⟩ := Option.map_eq_some_iff.mp h
  simp only [Prod.mk.injEq] at hview
  obtain ⟨hw, hq, hb, hr⟩ := hview
  exact ⟨s, hs, ⟨by rw [Idle, hw], hq, hb⟩, by rw [hw], hr⟩

theorem monitor_follows_off :
    ∃ s, run step (start (encodeUtf8 "read".toList))
        ((writeOut id offBytes).map Move.write ++ [.take, .handle]) = some s ∧
      (s.conf.reader.isMonitoring = true ↔ offBytes ≠ encodeUtf8 off) := by
  have hcalm : AllSteps step Calm (start (encodeUtf8 "read".toList))
      ((writeOut id offBytes).map Move.write ++ [.take, .handle]) := by decide
  have hview : (run step (start (encodeUtf8 "read".toList))
      ((writeOut id offBytes).map Move.write ++ [.take, .handle])).map
      (fun s => (s.writer, s.conf.queue, s.conf.batch, s.conf.reader)) =
      some (⟨.idle, some offBytes⟩, [], [], ⟨false, 0, .wait⟩) := by decide
  obtain ⟨s, hs, hdrained, hlast, -⟩ := drained_of_view hview
  exact ⟨s, hs, monitor_follows _ _ s hcalm hs hdrained offBytes hlast⟩

def FollowsOn (content : Bytes) (ms : List (Move (Act Bytes))) : Prop :=
  ∀ s, run step (start content) ms = some s → Drained s →
    ∀ data, s.writer.last = some data → (s.conf.reader.isMonitoring = true ↔ data ≠ encodeUtf8 off)

/- The closing "0" is stored after its event has been handled. -/
def lateStore : List (Move (Act Bytes)) :=
  (writeOut id (encodeUtf8 "iago_attack_read".toList)).map Move.write ++
    [.take, .handle, .tick, .write (.ftruncate offBytes), .write .event, .take, .handle] ++
    (storeBytes id offBytes).map Move.write

/-- The thread has read "i" where "0" was going to be, and is never told again. -/
theorem follows_on_fails : ¬ ∀ content ms, FollowsOn content ms := by
  intro h
  have hview : (run step (start []) lateStore).map
      (fun s => (s.writer, s.conf.queue, s.conf.batch, s.conf.reader)) =
      some (⟨.idle, some offBytes⟩, [], [], ⟨true, 1, .wait⟩) := by decide
  obtain ⟨s, hs, hdrained, hlast, hr⟩ := drained_of_view hview
  have hflag := (h _ _ s hs hdrained offBytes hlast).mp (by rw [hr])
  exact hflag rfl

/-! ### Every other run can go wrong -/

/-- If the last event is handled while the file reads otherwise than as the string being
stored, the flag is wrong once that string is in place, and stays so. -/
theorem misread_stays {s t : State} {data : Bytes} {value : Text} {e : Event}
    (hpart : storing s.writer.phase = some data) (hb : s.conf.batch = [e])
    (hq : s.conf.queue = []) (he : isModify e = true)
    (hv : readSwitchFile (some s.conf.content) = some value)
    (hne : ¬ (value = off ↔ data = encodeUtf8 off))
    (h : step s .handle = some t) :
    ∃ ms u, run step t ms = some u ∧ AtRest reader Idle u ∧ u.writer.last = some data ∧
      ¬ (u.conf.reader.isMonitoring = true ↔ data ≠ encodeUtf8 off) := by
  obtain ⟨stored, hp⟩ := mapped_of_storing hpart
  obtain ⟨c, hc, rfl⟩ := Option.map_eq_some_iff.mp h
  obtain ⟨hready, e', rest, hb', rfl⟩ := step_handle_eq_some reader hc
  rw [hb] at hb'
  cases hb'
  have hrel : reader.relevant e = true := he
  -- the thread finishes its two stores, then the writer finishes its call
  have htick : step ⟨{ s.conf with
        batch := []
        reader := if reader.relevant e then reader.act s.conf.content s.conf.reader
          else s.conf.reader }, s.writer⟩ .tick =
      some ⟨{ s.conf with
        batch := []
        reader := storeSwitch (updateFlags (some s.conf.content) s.conf.reader) }, s.writer⟩ := by
    rw [if_pos hrel]
    rfl
  obtain ⟨ms, u, hrun, hw, huq, hub, hur⟩ := finish_run (R := reader) _
    (s := ⟨{ s.conf with
      batch := []
      reader := storeSwitch (updateFlags (some s.conf.content) s.conf.reader) }, s.writer⟩)
    hp (Nat.le_refl _)
  have hwait : (storeSwitch (updateFlags (some s.conf.content) s.conf.reader)).place = .wait :=
    place_after_read hv (reader_ready hready)
  refine ⟨.tick :: ms, u, (run_cons_eq_some _).mpr ⟨_, htick, hrun⟩, ⟨?_, ?_, hub, ?_⟩, ?_, ?_⟩
  · show u.writer.phase = .idle
    rw [hw]
  · rw [huq]
    exact hq
  · rw [hur]
    simpa [reader] using hwait
  · rw [hw]
  · rw [hur]
    show ¬ ((storeSwitch (updateFlags (some s.conf.content) s.conf.reader)).isMonitoring = true ↔ _)
    rw [storeSwitch_isMonitoring, updateFlags_isMonitoring hv, decide_eq_true_iff, not_iff_not]
    exact hne

end Tbouncer.Monitor.SharedMemory
