import Tbouncer.Monitor.SwitchWatch
import Tbouncer.Switch.Crowd

/-!
# The monitor beside several programs

An instrumented test that forks writes its "0" from every process that comes to the end of
the function; a child that nobody waits for may do so after the next test has begun.
-/

namespace Tbouncer.Monitor.Crowded
open Base Switch Watch WriteCall Crowd

variable {π : Type} [DecidableEq π]

abbrev State (π : Type) := World Bytes Vars Event (Programs π)

def step : State π → Move (π × Act Text) → Option (State π) := worldStep crowd reader
def start (content : Bytes) : State π := Crowd.start content Vars.start

theorem flagged {content : Bytes} {v₀ v : Vars} (h : Flagged content v₀ v)
    (hword : ∀ b ∈ content, OneByte b) :
    v.isMonitoring = true ↔ content ≠ encodeUtf8 off := by
  obtain ⟨word, hcontent, -, hstrip⟩ := readText_of_oneByte hword
  rw [hcontent] at h
  rw [isMonitoring_of_flagged h, hstrip, decide_eq_true_iff, hcontent, ne_eq, ne_eq,
    encodeUtf8_inj]

/- One "0" is left if it was written last and nothing longer lies under it. -/
theorem laid_off_iff (ls : List Text) {data : Text} (hdata : data ≠ []) :
    laid ((ls ++ [data]).map encodeUtf8) = encodeUtf8 off ↔
      data = off ∧ ∀ d ∈ ls, (encodeUtf8 d).length ≤ 1 := by
  have hunder : (∀ layer ∈ ls.map encodeUtf8, layer.length ≤ (encodeUtf8 off).length) ↔
      ∀ d ∈ ls, (encodeUtf8 d).length ≤ 1 := by
    rw [List.forall_mem_map]
    exact Iff.rfl
  rw [List.map_append, List.map_singleton, ← hunder, ← laid_snoc_eq_iff]
  constructor
  · intro h
    have hoff : encodeUtf8 off = [48] := by decide
    have hne : encodeUtf8 data ≠ [] := fun hnil => hdata (encodeUtf8_inj.mp hnil)
    have htop : encodeUtf8 data = encodeUtf8 off := by
      rw [laid_snoc, cover, hoff] at h
      rw [hoff]
      exact (List.append_eq_singleton_iff.mp h).elim (fun hcase => absurd hcase.1 hne)
        fun hcase => hcase.1
    rw [htop] at h
    exact ⟨encodeUtf8_inj.mp htop, h⟩
  · rintro ⟨rfl, h⟩
    exact h

/-- However many programs write and however their calls lie in one another: at rest the
monitor is on exactly if the string written last is not "0", or a longer one has been
written between the last truncation and that "0". A name that is written last is heard in
any case; a "0" is not where it lies over a name. -/
theorem last_heard (content : Bytes) (ms : List (Move (π × Act Text))) (s : State π)
    (hrun : run step (start content) ms = some s) (hrest : AtRest reader Programs.Idle s)
    (hwords : ∀ data ∈ opened ms, ∀ b ∈ encodeUtf8 data, OneByte b) (ls : List Text)
    (data : Text) (hlayers : s.writer.layers = some (ls ++ [data])) (hdata : data ≠ []) :
    (s.conf.reader.isMonitoring = true ↔ data ≠ off ∨ ∃ d ∈ ls, 1 < (encodeUtf8 d).length) ∧
      (s.conf.reader.switchState = 1 ↔ s.conf.reader.isMonitoring = true) := by
  obtain ⟨-, hcontent, hflag⟩ :=
    crowd_settles reader_settles isModify_modify agree_start hrun hrest hlayers
  have hbytes : ∀ b ∈ s.conf.content, OneByte b := by
    rw [hcontent]
    exact laid_bytes fun d hd => hwords d ((asked_run hrun).layers _ hlayers d hd)
  have hagree : Agree s.conf.reader :=
    (told_run reader_settles isModify_modify agree_start hrun).reader_ok
  refine ⟨?_, ?_⟩
  · rw [flagged hflag hbytes, hcontent, ne_eq, laid_off_iff ls hdata]
    simp only [not_and_or, not_forall, Nat.not_le, exists_prop, ne_eq]
  · simp only [Agree, reader_ready hrest.ready] at hagree
    rw [hagree]
    cases s.conf.reader.isMonitoring <;> decide

/- The parent is done with fork01 and writes the name of its next test, the child writes
the "0" of fork01 over it. -/
def lateChild : List (Move (Bool × Act Text)) :=
  [.write (true, .openTrunc "fork02".toList), .write (false, .openTrunc off),
    .write (true, .write), .write (true, .writeEvent), .write (false, .write),
    .write (false, .writeEvent), .take, .handle, .tick]

theorem last_heard_child :
    ∃ s, run step (start []) lateChild = some s ∧
      (s.conf.reader.isMonitoring = true ↔
        off ≠ off ∨ ∃ d ∈ ["fork02".toList], 1 < (encodeUtf8 d).length) ∧
      (s.conf.reader.switchState = 1 ↔ s.conf.reader.isMonitoring = true) := by
  have hprograms : (run step (start []) lateChild).map
      (fun s => (s.writer.phase true, s.writer.phase false, s.writer.layers)) =
      some (.idle, .idle, some ["fork02".toList, off]) := by decide
  have hreader : (run step (start []) lateChild).map
      (fun s => (s.conf.queue, s.conf.batch, s.conf.reader)) =
      some ([], [], ⟨true, 1, .wait⟩) := by decide
  obtain ⟨s, hs, hrest, hlayers⟩ := rest_of_views reader hprograms hreader rfl
  have hwords : ∀ data ∈ opened lateChild, ∀ b ∈ encodeUtf8 data, OneByte b :=
    List.forall_mem_cons.mpr ⟨oneByte_of_all (by decide),
      List.forall_mem_singleton.mpr (oneByte_of_all (by decide))⟩
  exact ⟨s, hs, last_heard _ _ s hs hrest hwords ["fork02".toList] off hlayers (by decide)⟩

end Tbouncer.Monitor.Crowded
