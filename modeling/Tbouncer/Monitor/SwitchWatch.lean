import Tbouncer.Monitor.SyscallMonitor
import Tbouncer.Switch.WriteCall

/-!
# The file-monitor thread and the writers of the switch file

With open(O_TRUNC) and write(2), every stored string is followed by an event, so
the thread ends up on the last one. It compares what it has stripped
(`syscall_monitor.py:409`).
-/

namespace Tbouncer.Monitor
open Base Switch Watch

def reader : Reader Bytes Vars Event where
  relevant := isModify
  ready v := v.place = .wait
  act content v := updateFlags (some content) v
  tick := storeSwitch

theorem reader_ready {v : Vars} (h : reader.ready v = true) : v.place = .wait := by
  simpa [reader] using h

theorem off_not_space : isSpace '0' = false := by decide

theorem readSwitchFile_encodeUtf8 (data : Text) :
    ∃ value, readSwitchFile (some (encodeUtf8 data)) = some value ∧
      (value = off ↔ strip data = off) := by
  refine ⟨strip (universalNewlines data), ?_, ?_⟩
  · rw [readSwitchFile, readText_encodeUtf8]
    rfl
  · exact strip_universalNewlines_eq_singleton_iff data '0' off_not_space

/-! ### open(O_TRUNC) and write(2) -/

/- The flag is right for a content that can be read. -/
def Flagged (content : Bytes) (_ v : Vars) : Prop :=
  ∀ value, readSwitchFile (some content) = some value → v.isMonitoring = decide (value ≠ off)

theorem isMonitoring_of_flagged {data : Text} {r v : Vars} (h : Flagged (encodeUtf8 data) r v) :
    v.isMonitoring = decide (strip data ≠ off) := by
  obtain ⟨value, hv, hoff⟩ := readSwitchFile_encodeUtf8 data
  rw [h value hv, decide_eq_decide, not_iff_not]
  exact hoff

theorem reader_settles : Settles reader (fun _ _ v => Agree v) Flagged where
  stored _ _ _ _ h := h
  acted content _ v hagree hready :=
    ⟨agree_updateFlags (some content) (reader_ready hready) hagree, fun _ hv =>
      updateFlags_isMonitoring hv v⟩
  ticked _ _ _ h := agree_storeSwitch h
  kept _ _ v _ hflag := fun value hv => by
    rw [← hflag value hv]
    exact storeSwitch_isMonitoring v

namespace WriteCall
open Switch.WriteCall

section
variable {σ : Type}

abbrev State (σ : Type) := World Bytes Vars Event (Writer σ)

def step (bytes : σ → Bytes) : State σ → Move (Act σ) → Option (State σ) :=
  worldStep (writer bytes) reader

def start (content : Bytes) : State σ := Switch.WriteCall.start content Vars.start

variable {bytes : σ → Bytes} {content : Bytes} {ms : List (Move (Act σ))} {s : State σ}

/- A thread that only meets texts it can decode lives on. -/
theorem run_not_raised
    (hread : ∀ data ∈ openedStrings ms, ∃ value, readSwitchFile (some (bytes data)) = some value)
    (hrun : run (step bytes) (start content) ms = some s) : s.conf.reader.place ≠ .raised := by
  have hact : ∀ c value, readSwitchFile (some c) = some value → ∀ v : Vars, v.place ≠ .raised →
      (reader.act c v).place ≠ .raised := by
    intro c value hr v hv
    show (updateFlags (some c) v).place ≠ .raised
    unfold updateFlags
    rw [hr]
    dsimp only
    split
    · exact Place.noConfusion
    · split
      · exact Place.noConfusion
      · exact hv
  refine reader_run_of (R := reader) (I := fun v : Vars => v.place ≠ .raised)
    (hact [] [] (by decide)) (fun data hd v hv => ?_) (fun v hv => ?_) (by decide) hread hrun
  · obtain ⟨value, hr⟩ := hd
    exact hact _ value hr v hv
  · show (storeSwitch v).place ≠ .raised
    unfold storeSwitch
    split
    · exact Place.noConfusion
    · exact hv

theorem agree_run (hrun : run (step bytes) (start content) ms = some s) : Agree s.conf.reader :=
  (announced_run reader_settles isModify_modify agree_start hrun).reader_ok

end

/- The writer is idle, every event has been handled, and the thread is not between its
two stores. -/
structure Handled (s : State Bytes) : Prop where
  writer : Idle s.writer
  queue : s.conf.queue = []
  batch : s.conf.batch = []
  stores : ∀ value, s.conf.reader.place ≠ .setSwitch value

/-- Once the writer is idle and every event of UTF-8 strings has been handled, the flag
tells whether the last string, stripped, differs from "0", and switch_state[0] agrees
with it. -/
theorem monitor_converges (content : Bytes) (ms : List (Move (Act Bytes))) (s : State Bytes)
    (hutf8 : ∀ data ∈ openedStrings ms, ∃ text, data = encodeUtf8 text)
    (hrun : run (step id) (start content) ms = some s) (hrest : Handled s) (text : Text)
    (hlast : s.writer.last = some (encodeUtf8 text)) :
    (s.conf.reader.isMonitoring = true ↔ strip text ≠ off) ∧
      (s.conf.reader.switchState = 1 ↔ s.conf.reader.isMonitoring = true) := by
  have hlives : s.conf.reader.place ≠ .raised := by
    refine run_not_raised (fun data hd => ?_) hrun
    obtain ⟨text, rfl⟩ := hutf8 data hd
    obtain ⟨value, hv, -⟩ := readSwitchFile_encodeUtf8 text
    exact ⟨value, hv⟩
  have hwait : s.conf.reader.place = .wait := by
    cases hp : s.conf.reader.place with
    | wait => rfl
    | raised => exact absurd hp hlives
    | setSwitch value => exact absurd hp (hrest.stores value)
  have hready : AtRest reader Idle s :=
    ⟨hrest.writer, hrest.queue, hrest.batch, by simpa [reader] using hwait⟩
  have hflag := (settled_of_atRest reader_settles isModify_modify agree_start hrun hready hlast).2
  have hagree := agree_run hrun
  refine ⟨?_, ?_⟩
  · rw [isMonitoring_of_flagged hflag, decide_eq_true_iff]
  · simp only [Agree, hwait] at hagree
    rw [hagree]
    cases s.conf.reader.isMonitoring <;> decide

theorem handled_of_view {s : State Bytes} {r : Vars} {last : Option Bytes}
    (hs : (s.writer, s.conf.queue, s.conf.batch, s.conf.reader) = (⟨.idle, last⟩, [], [], r))
    (hr : ∀ value, r.place ≠ .setSwitch value) :
    Handled s ∧ s.writer.last = last ∧ s.conf.reader = r := by
  simp only [Prod.mk.injEq] at hs
  obtain ⟨hw, hq, hb, hread⟩ := hs
  exact ⟨⟨by rw [Idle, hw], hq, hb, by rw [hread]; exact hr⟩, by rw [hw], hread⟩

theorem monitor_converges_accept :
    ∃ s, run (step id) (start [])
        (writeOut (encodeUtf8 "accept01".toList) ++ [.take, .handle, .tick]) = some s ∧
      (s.conf.reader.isMonitoring = true ↔ strip "accept01".toList ≠ off) ∧
        (s.conf.reader.switchState = 1 ↔ s.conf.reader.isMonitoring = true) := by
  have hview : (run (step id) (start [])
      (writeOut (encodeUtf8 "accept01".toList) ++ [.take, .handle, .tick])).map
      (fun s => (s.writer, s.conf.queue, s.conf.batch, s.conf.reader)) =
      some (⟨.idle, some (encodeUtf8 "accept01".toList)⟩, [], [], ⟨true, 1, .wait⟩) := by decide
  obtain ⟨s, hs, hview⟩ := Option.map_eq_some_iff.mp hview
  obtain ⟨hrest, hlast, -⟩ := handled_of_view hview fun _ => Place.noConfusion
  refine ⟨s, hs, monitor_converges _ _ s (fun data hd => ?_) hs hrest _ hlast⟩
  exact ⟨_, List.mem_singleton.mp hd⟩

def ConvergesOn (content : Bytes) (ms : List (Move (Act Bytes))) : Prop :=
  ∀ s, run (step id) (start content) ms = some s → Handled s →
    ∀ data, s.writer.last = some data →
      (s.conf.reader.isMonitoring = true ↔ data ≠ encodeUtf8 off) ∧
        (s.conf.reader.switchState = 1 ↔ s.conf.reader.isMonitoring = true)

/- A string other than "0" behind which the thread is not monitoring. -/
theorem not_convergesOn {content : Bytes} {ms : List (Move (Act Bytes))} {data : Bytes} {r : Vars}
    (hview : (run (step id) (start content) ms).map
      (fun s => (s.writer, s.conf.queue, s.conf.batch, s.conf.reader)) =
      some (⟨.idle, some data⟩, [], [], r)) (hr : ∀ value, r.place ≠ .setSwitch value)
    (hoff : r.isMonitoring = false) (hdata : data ≠ encodeUtf8 off) : ¬ ConvergesOn content ms := by
  intro h
  obtain ⟨s, hs, hview⟩ := Option.map_eq_some_iff.mp hview
  obtain ⟨hrest, hlast, hread⟩ := handled_of_view hview hr
  have hflag := (h s hs hrest data hlast).1.mpr hdata
  rw [hread, hoff] at hflag
  cases hflag

/-- "0" with a line end, as `echo 0` leaves it, stops the monitor as well; and the byte FF,
which no UTF-8 string has, ends its thread. -/
theorem converges_on_fails :
    ¬ ConvergesOn [] (writeOut (encodeUtf8 "0\n".toList) ++ [.take, .handle]) ∧
      ¬ ConvergesOn [] (writeOut [0xff] ++ [.take, .handle]) := by
  have hline : (run (step id) (start [])
      (writeOut (encodeUtf8 "0\n".toList) ++ [.take, .handle])).map
      (fun s => (s.writer, s.conf.queue, s.conf.batch, s.conf.reader)) =
      some (⟨.idle, some (encodeUtf8 "0\n".toList)⟩, [], [], ⟨false, 0, .wait⟩) := by decide
  have hbyte : (run (step id) (start []) (writeOut [0xff] ++ [.take, .handle])).map
      (fun s => (s.writer, s.conf.queue, s.conf.batch, s.conf.reader)) =
      some (⟨.idle, some [0xff]⟩, [], [], ⟨false, 0, .raised⟩) := by decide
  exact ⟨not_convergesOn hline (fun _ => Place.noConfusion) rfl (by decide),
    not_convergesOn hbyte (fun _ => Place.noConfusion) rfl (by decide)⟩

end WriteCall

end Tbouncer.Monitor
