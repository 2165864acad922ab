import Tbouncer.Base.Latch
import Tbouncer.Monitor.SwitchWatch
import Tbouncer.Switch.Patient

/-!
# Under which name the calls are shown

`Starting system call monitoring, {switch_value}...` (`syscall_monitor.py:429`) is the one
line of the output that says whose calls follow. It is printed when the monitoring starts
and not when the name changes, and the name is whatever the file held at that moment.
-/

namespace Tbouncer.Monitor.Headings
open Base Switch Watch

/- What is printed before is_monitoring is set. -/
def startMessage (content : Option Bytes) (v : Vars) : Option Text :=
  match readSwitchFile content with
  | none => none
  | some switchValue => if switchValue ≠ off && !v.isMonitoring then some switchValue else none

/- The thread with the names it has printed. -/
structure Headed where
  vars : Vars
  messages : List Text
  deriving DecidableEq

def Headed.start : Headed := ⟨Vars.start, []⟩

def Headed.onEvent (content : Option Bytes) (r : Headed) : Headed :=
  ⟨updateFlags content r.vars, r.messages ++ (startMessage content r.vars).toList⟩

def Headed.store (r : Headed) : Headed := { r with vars := storeSwitch r.vars }

/- The name the calls that are shown now are shown under. -/
def Headed.shown (r : Headed) : Option Text :=
  if r.vars.isMonitoring then r.messages.getLast? else none

/- Every name is offered, and "0" releases. -/
def names : Latch Text Text := ⟨fun value => if value = off then none else some value,
  fun value => value = off⟩

theorem meet_off (l : Latch.Run Text) : names.meet l off = ⟨none, l.taken⟩ := if_pos rfl

theorem meet_name {value : Text} (h : value ≠ off) (l : Latch.Run Text) :
    names.meet l value =
      if l.held.isSome then l else ⟨some value, l.taken ++ [value]⟩ := by
  obtain ⟨held, taken⟩ := l
  cases held <;> simp [Latch.meet, names, h]

theorem onEvent_off {content : Option Bytes} (h : readSwitchFile content = some off) (r : Headed) :
    (r.onEvent content).vars.isMonitoring = false ∧ (r.onEvent content).messages = r.messages := by
  refine ⟨?_, ?_⟩
  · show (updateFlags content r.vars).isMonitoring = false
    rw [updateFlags_isMonitoring h, decide_eq_false (by simp)]
  · show r.messages ++ (startMessage content r.vars).toList = r.messages
    simp [startMessage, h]

theorem onEvent_name {content : Option Bytes} {value : Text} (h : readSwitchFile content = some value)
    (hne : value ≠ off) (r : Headed) :
    (r.onEvent content).vars.isMonitoring = true ∧
      (r.onEvent content).messages =
        if r.vars.isMonitoring then r.messages else r.messages ++ [value] := by
  refine ⟨?_, ?_⟩
  · show (updateFlags content r.vars).isMonitoring = true
    rw [updateFlags_isMonitoring h, decide_eq_true hne]
  · show r.messages ++ (startMessage content r.vars).toList = _
    cases hm : r.vars.isMonitoring <;> simp [startMessage, h, hne, hm]

/-! ### A sequence of contents -/

/- One event handled to its end. -/
def Headed.pass (r : Headed) (content : Option Bytes) : Headed := (r.onEvent content).store

def process (contents : List (Option Bytes)) : Headed := contents.foldl Headed.pass Headed.start

structure Agrees (r : Headed) (l : Latch.Run Text) : Prop where
  place : r.vars.place = .wait
  monitoring : r.vars.isMonitoring = l.held.isSome
  messages : r.messages = l.taken
  shown : r.shown = l.held

theorem pass_place {content : Option Bytes} {value : Text}
    (h : readSwitchFile content = some value) {r : Headed} (hr : r.vars.place = .wait) :
    (r.pass content).vars.place = .wait :=
  place_after_read h hr

theorem pass_isMonitoring (r : Headed) (content : Option Bytes) :
    (r.pass content).vars.isMonitoring = (r.onEvent content).vars.isMonitoring :=
  storeSwitch_isMonitoring _

theorem agrees_pass {r : Headed} {l : Latch.Run Text} (hr : Agrees r l) {content : Option Bytes}
    {value : Text} (h : readSwitchFile content = some value) :
    Agrees (r.pass content) (names.meet l value) := by
  have hplace := pass_place h hr.place
  have hmonitoring := pass_isMonitoring r content
  by_cases hv : value = off
  · subst hv
    obtain ⟨hon, hmessages⟩ := onEvent_off h r
    rw [hon] at hmonitoring
    rw [meet_off]
    refine ⟨hplace, hmonitoring, hmessages.trans hr.messages, ?_⟩
    rw [Headed.shown, hmonitoring]
    rfl
  · obtain ⟨hon, hmessages⟩ := onEvent_name h hv r
    rw [hon] at hmonitoring
    have hshown : (r.pass content).shown = (r.onEvent content).messages.getLast? := by
      rw [Headed.shown, hmonitoring]
      rfl
    rw [meet_name hv]
    cases hheld : l.held with
    | some x =>
      have hm : r.vars.isMonitoring = true := by rw [hr.monitoring, hheld]; rfl
      rw [if_pos hm] at hmessages
      rw [if_pos Option.isSome_some]
      refine ⟨hplace, by rw [hmonitoring, hheld]; rfl, hmessages.trans hr.messages, ?_⟩
      rw [hshown, hmessages, ← hr.shown, Headed.shown, if_pos hm]
    | none =>
      have hm : r.vars.isMonitoring = false := by rw [hr.monitoring, hheld]; rfl
      rw [hm, if_neg Bool.false_ne_true] at hmessages
      rw [if_neg (by simp)]
      refine ⟨hplace, hmonitoring, ?_, ?_⟩
      · show (r.onEvent content).messages = l.taken ++ [value]
        rw [hmessages, hr.messages]
      · rw [hshown, hmessages, List.getLast?_concat]

theorem agrees_process (contents : List (Option Bytes)) (values : List Text)
    (h : contents.map readSwitchFile = values.map some) :
    Agrees (process contents) (names.run values) := by
  induction contents using List.reverseRecOn generalizing values with
  | nil =>
    have hnil : values = [] := by simpa using h.symm
    rw [hnil]
    exact ⟨rfl, rfl, rfl, rfl⟩
  | append_singleton contents content ih =>
    cases values using List.reverseRecOn with
    | nil => simp at h
    | append_singleton values value =>
      rw [List.map_append, List.map_append] at h
      obtain ⟨hbefore, hlast⟩ := List.append_inj' h rfl
      have hvalue : readSwitchFile content = some value := by simpa using hlast
      rw [process, List.foldl_append, names.run_snoc]
      exact agrees_pass (ih values hbefore) hvalue

theorem lastBlock_ne_nil_iff (values : List Text) :
    (names.run values).held.isSome = true ↔ names.lastBlock values ≠ [] := by
  rw [names.held_isSome, List.ne_nil_iff_exists_cons]
  constructor
  · rintro ⟨x, hx, -⟩
    cases hb : names.lastBlock values with
    | nil =>
      rw [hb] at hx
      cases hx
    | cons y ys => exact ⟨y, ys, rfl⟩
  · rintro ⟨y, ys, hb⟩
    have hy : y ∈ names.lastBlock values := by
      rw [hb]
      exact List.mem_cons_self ..
    have hne : y ≠ off := by simpa [names] using ((names.mem_lastBlock values y).mp hy).1
    exact ⟨y, hy, by simp [names, hne]⟩

/-- After any contents that can be read the thread waits for the next event. It has printed
one name for each block between "0" contents that is not empty, the first of the block, so
the later names of a block are in no line of the output; it is monitoring exactly if the
last block is not empty, and shows what it shows under the first name of it. -/
theorem messages_blocks (contents : List (Option Bytes)) (values : List Text)
    (h : contents.map readSwitchFile = values.map some) :
    (process contents).vars.place = .wait ∧
      (process contents).messages = (names.blocks values).filterMap names.first ∧
      ((process contents).vars.isMonitoring = true ↔ names.lastBlock values ≠ []) ∧
      (process contents).shown = names.first (names.lastBlock values) := by
  have hagrees := agrees_process contents values h
  refine ⟨hagrees.place, ?_, ?_, ?_⟩
  · rw [hagrees.messages, names.run_taken]
  · rw [hagrees.monitoring, lastBlock_ne_nil_iff]
  · rw [hagrees.shown, names.run_held]

theorem messages_blocks_sample :
    (process [some (encodeUtf8 "fork01".toList), some (encodeUtf8 "brk01".toList), none]).vars.place =
        .wait ∧
      (process [some (encodeUtf8 "fork01".toList), some (encodeUtf8 "brk01".toList), none]).messages =
        (names.blocks ["fork01".toList, "brk01".toList, off]).filterMap names.first ∧
      ((process [some (encodeUtf8 "fork01".toList), some (encodeUtf8 "brk01".toList),
        none]).vars.isMonitoring = true ↔
        names.lastBlock ["fork01".toList, "brk01".toList, off] ≠ []) ∧
      (process [some (encodeUtf8 "fork01".toList), some (encodeUtf8 "brk01".toList), none]).shown =
        names.first (names.lastBlock ["fork01".toList, "brk01".toList, off]) :=
  messages_blocks _ _ (by decide)

/-! ### Beside the writers of the file -/

/- What the thread makes of a string in the file. -/
def valueOf (data : Text) : Text := strip (universalNewlines data)

def headed : Reader Bytes Headed Event where
  relevant := isModify
  ready r := r.vars.place = .wait
  act content r := r.onEvent (some content)
  tick := Headed.store

/- The names that are not empty; the empty file gives one that is. -/
def Headed.named (r : Headed) : List Text := r.messages.filter (· ≠ [])

theorem read_string (data : Text) : readSwitchFile (some (encodeUtf8 data)) = some (valueOf data) := by
  rw [readSwitchFile, readText_encodeUtf8]
  rfl

theorem read_empty : readSwitchFile (some []) = some [] := by decide

theorem empty_ne_off : ([] : Text) ≠ off := by decide

theorem store_isMonitoring (r : Headed) : r.store.vars.isMonitoring = r.vars.isMonitoring :=
  storeSwitch_isMonitoring r.vars

theorem named_off {content : Option Bytes} (h : readSwitchFile content = some off) (r : Headed) :
    (r.onEvent content).named = r.named := by
  rw [Headed.named, (onEvent_off h r).2]
  rfl

theorem named_name {content : Option Bytes} {value : Text} (h : readSwitchFile content = some value)
    (hne : value ≠ off) (r : Headed) :
    (r.onEvent content).named =
      if r.vars.isMonitoring = false ∧ value ≠ [] then r.named ++ [value] else r.named := by
  rw [Headed.named, (onEvent_name h hne r).2, Headed.named]
  cases hm : r.vars.isMonitoring with
  | true => simp
  | false =>
    by_cases hv : value = []
    · simp [hv]
    · simp [hv]

/- The names are chosen from `values`, and while nothing is shown the last block has given
none. -/
def Chosen (values : List Text) (r : Headed) : Prop :=
  ∃ taken, names.Loose values r.named taken ∧ (r.vars.isMonitoring = false → taken = false)

/- The same while `value` is in the file, read or not. -/
inductive Meets (values : List Text) (value : Text) (r : Headed) : Prop
  | unread {taken : Bool} (h : names.Loose values r.named taken)
      (hfree : r.vars.isMonitoring = false → value ≠ off → taken = false)
  | shown {taken : Bool} (h : names.Loose (values ++ [value]) r.named taken) (hne : value ≠ off)
      (hon : r.vars.isMonitoring = true)

theorem release_iff (value : Text) : names.release value = true ↔ value = off := by
  simp [names]

theorem not_release {value : Text} (h : value ≠ off) : names.release value = false := by
  simp [names, h]

theorem Chosen.meets {values : List Text} {r : Headed} (h : Chosen values r) (value : Text) :
    Meets values value r := by
  obtain ⟨taken, hloose, hfree⟩ := h
  exact .unread hloose fun hoff _ => hfree hoff

theorem Meets.chosen {values : List Text} {value : Text} {r : Headed} (h : Meets values value r) :
    Chosen (values ++ [value]) r := by
  cases h with
  | @unread taken h hfree =>
    by_cases hv : value = off
    · exact ⟨false, .release ((release_iff value).mpr hv) h, fun _ => rfl⟩
    · exact ⟨taken, .miss (not_release hv) h, fun hoff => hfree hoff hv⟩
  | @shown taken h hne hon => exact ⟨taken, h, fun hoff => absurd hon (by rw [hoff]; decide)⟩

theorem meets_read {content : Option Bytes} {values : List Text} {value : Text} {r : Headed}
    (hread : readSwitchFile content = some value) (h : Meets values value r) :
    Meets values value (r.onEvent content) := by
  by_cases hv : value = off
  · subst hv
    cases h with
    | unread h hfree => exact .unread (by rw [named_off hread]; exact h) fun _ hne => absurd rfl hne
    | shown h hne hon => exact absurd rfl hne
  · have hon' := (onEvent_name hread hv r).1
    have hnamed := named_name hread hv r
    have hnever : ∀ {b : Bool}, (r.onEvent content).vars.isMonitoring = false →
        value ≠ off → b = false :=
      fun hoff _ => absurd hon' (by rw [hoff]; decide)
    cases h with
    | @unread taken h hfree =>
      by_cases hnew : r.vars.isMonitoring = false ∧ value ≠ []
      · rw [if_pos hnew] at hnamed
        obtain rfl : taken = false := hfree hnew.1 hv
        have hoffer : names.offer value = some value := if_neg hv
        have htaken : names.Loose (values ++ [value]) (r.named ++ [value]) true :=
          .take (not_release hv) hoffer h
        exact .shown (by rw [hnamed]; exact htaken) hv hon'
      · rw [if_neg hnew] at hnamed
        exact .unread (by rw [hnamed]; exact h) hnever
    | shown h hne hon =>
      rw [if_neg (by simp [hon])] at hnamed
      exact .shown (by rw [hnamed]; exact h) hv hon'

theorem chosen_empty {values : List Text} {r : Headed} (h : Chosen values r) :
    Chosen values (r.onEvent (some [])) := by
  obtain ⟨taken, hloose, -⟩ := h
  refine ⟨taken, ?_, fun hoff => ?_⟩
  · rw [named_name read_empty empty_ne_off, if_neg (by simp)]
    exact hloose
  · exact absurd (onEvent_name read_empty empty_ne_off r).1 (by rw [hoff]; decide)

theorem chosen_store {values : List Text} {r : Headed} (h : Chosen values r) :
    Chosen values r.store := by
  obtain ⟨taken, hloose, hfree⟩ := h
  exact ⟨taken, hloose, fun hoff => hfree ((store_isMonitoring r).symm.trans hoff)⟩

theorem meets_store {values : List Text} {value : Text} {r : Headed} (h : Meets values value r) :
    Meets values value r.store := by
  cases h with
  | unread h hfree =>
    exact .unread h fun hoff => hfree ((store_isMonitoring r).symm.trans hoff)
  | shown h hne hon => exact .shown h hne ((store_isMonitoring r).trans hon)

def valuesOf (ms : List (Move (WriteCall.Act Text))) : List Text :=
  (WriteCall.openedStrings ms).map valueOf

/- Which of the strings have given a name. -/
inductive Noted (s : World Bytes Headed Event (WriteCall.Writer Text)) : List Text → Prop
  | untouched (hw : s.writer = ⟨.idle, none⟩) (hq : s.conf.queue = []) (hb : s.conf.batch = [])
      (hr : Chosen [] s.conf.reader) : Noted s []
  | truncated {values : List Text} {data : Text} (hphase : s.writer.phase = .truncated data)
      (hcontent : s.conf.content = []) (hr : Chosen values s.conf.reader) :
      Noted s (values ++ [valueOf data])
  | held {values : List Text} {data : Text}
      (hphase : s.writer.phase = .stored data ∨ s.writer.phase = .idle)
      (hcontent : s.conf.content = encodeUtf8 data) (hr : Meets values (valueOf data) s.conf.reader) :
      Noted s (values ++ [valueOf data])

section
variable {s t : World Bytes Headed Event (WriteCall.Writer Text)} {values : List Text}

theorem Noted.chosen (h : Noted s values) : Chosen values s.conf.reader := by
  cases h with
  | untouched hw hq hb hr => exact hr
  | truncated hphase hcontent hr => exact (hr.meets _).chosen
  | held hphase hcontent hr => exact hr.chosen

theorem noted_write {a : WriteCall.Act Text} (hs : Noted s values)
    (h : worldStep (WriteCall.writer encodeUtf8) headed s (.write a) = some t) :
    Noted t (values ++ valuesOf [.write a]) := by
  cases WriteCall.writes_of_move headed h with
  | opened hp hwriter hcontent hreader =>
    exact .truncated (by rw [hwriter]) hcontent (by rw [hreader]; exact hs.chosen)
  | announced hp hwriter hcontent hreader =>
    show Noted t (values ++ [])
    rw [List.append_nil]
    cases hs with
    | untouched hw hq hb hr => rw [hw] at hp; cases hp
    | truncated hphase hempty hr =>
      exact .truncated (by rw [hwriter, hphase]) (hcontent.trans hempty) (by rw [hreader]; exact hr)
    | held hphase hstring hr => rw [hp] at hphase; rcases hphase with hphase | hphase <;> cases hphase
  | wrote hp hwriter hcontent hreader hstore =>
    show Noted t (values ++ [])
    rw [List.append_nil]
    cases hs with
    | untouched hw hq hb hr => rw [hw] at hp; cases hp
    | truncated hphase hempty hr =>
      rw [hphase] at hp
      cases hp
      exact .held (Or.inl (by rw [hwriter])) hcontent (by rw [hreader]; exact hr.meets _)
    | held hphase hstring hr => rw [hp] at hphase; rcases hphase with hphase | hphase <;> cases hphase
  | ended hp hwriter hcontent hreader hstore =>
    show Noted t (values ++ [])
    rw [List.append_nil]
    cases hs with
    | untouched hw hq hb hr => rw [hw] at hp; cases hp
    | truncated hphase hempty hr => rw [hphase] at hp; cases hp
    | held hphase hstring hr =>
      rw [hp] at hphase
      rcases hphase with hphase | hphase
      · cases hphase
        exact .held (Or.inr (by rw [hwriter])) (hcontent.trans hstring) (by rw [hreader]; exact hr)
      · cases hphase

theorem noted_read {m : Move (WriteCall.Act Text)} (hm : ∀ a, m ≠ .write a) (hs : Noted s values)
    (h : worldStep (WriteCall.writer encodeUtf8) headed s m = some t) : Noted t values := by
  have hreads := reads_of_move (WriteCall.writer encodeUtf8) hm h
  cases hs with
  | untouched hw hq hb hr =>
    obtain ⟨hq', hb'⟩ := hreads.quiet hq hb
    refine .untouched (by rw [hreads.writer, hw]) hq' hb' ?_
    rcases hreads.reader with he | he | ⟨hne, -⟩
    · rw [he]
      exact hr
    · rw [he]
      exact chosen_store hr
    · exact absurd hb hne
  | truncated hphase hempty hr =>
    refine .truncated (by rw [hreads.writer, hphase]) (by rw [hreads.content, hempty]) ?_
    rcases hreads.reader with he | he | ⟨-, -, he⟩
    · rw [he]
      exact hr
    · rw [he]
      exact chosen_store hr
    · rw [he, hempty]
      exact chosen_empty hr
  | held hphase hstring hr =>
    refine .held (by rw [hreads.writer]; exact hphase) (by rw [hreads.content, hstring]) ?_
    rcases hreads.reader with he | he | ⟨-, -, he⟩
    · rw [he]
      exact hr
    · rw [he]
      exact meets_store hr
    · rw [he, hstring]
      exact meets_read (read_string _) hr

theorem noted_run {content : Bytes} {ms : List (Move (WriteCall.Act Text))}
    (hrun : run (worldStep (WriteCall.writer encodeUtf8) headed)
      (Switch.WriteCall.start content Headed.start) ms = some s) :
    Noted s (valuesOf ms) := by
  induction ms using List.reverseRecOn generalizing s with
  | nil =>
    cases hrun
    exact .untouched rfl rfl rfl ⟨false, .nil, fun _ => rfl⟩
  | append_singleton ms m ih =>
    obtain ⟨r, hr, hst⟩ := (run_snoc_eq_some _).mp hrun
    rw [valuesOf, WriteCall.openedStrings_append, List.map_append]
    obtain ⟨a, rfl⟩ | hm := m.write_or
    · exact noted_write (ih hr) hst
    · rw [WriteCall.openedStrings_reading hm, List.map_nil, List.append_nil]
      exact noted_read hm (ih hr) hst

end

/-- However the thread and the writers interleave: from each block of strings between "0"s
it prints at most one name, a name of that block, and it prints the names in the order of
the blocks. What else it prints is the empty name. -/
theorem headings_chosen (content : Bytes) (ms : List (Move (WriteCall.Act Text)))
    (s : World Bytes Headed Event (WriteCall.Writer Text))
    (hrun : run (worldStep (WriteCall.writer encodeUtf8) headed)
      (Switch.WriteCall.start content Headed.start) ms = some s) :
    ∃ picks, List.Forall₂ (fun block pick => ∀ name ∈ pick, name ∈ block)
        (names.blocks (valuesOf ms)) picks ∧
      s.conf.reader.named = picks.reduceOption := by
  obtain ⟨taken, hloose, -⟩ := (noted_run hrun).chosen
  obtain ⟨picks, hpicks, hnamed⟩ := hloose.blocks
  refine ⟨picks, hpicks.imp fun block pick hoffers name hname => ?_, hnamed⟩
  obtain ⟨value, hvalue, hoffer⟩ := hoffers name hname
  have heq : value = name := by
    simp only [names] at hoffer
    split at hoffer
    · cases hoffer
    · exact Option.some.inj hoffer
  exact heq ▸ hvalue

/- fork01 and brk01 with a "0" between them; the thread is told of the last write only. -/
def hurried : List (Move (WriteCall.Act Text)) :=
  WriteCall.writeOut "fork01".toList ++ [.take, .handle, .tick] ++ WriteCall.writeOut off ++
    WriteCall.writeOut "brk01".toList ++ [.take, .handle, .tick]

theorem headings_chosen_hurried :
    ∃ s, run (worldStep (WriteCall.writer encodeUtf8) headed)
        (Switch.WriteCall.start [] Headed.start) hurried = some s ∧
      s.conf.reader.shown = some "fork01".toList ∧
      ∃ picks, List.Forall₂ (fun block pick => ∀ name ∈ pick, name ∈ block)
          (names.blocks (valuesOf hurried)) picks ∧ s.conf.reader.named = picks.reduceOption := by
  have hview : (run (worldStep (WriteCall.writer encodeUtf8) headed)
      (Switch.WriteCall.start [] Headed.start) hurried).map (fun s => s.conf.reader.shown) =
      some (some "fork01".toList) := by decide
  obtain ⟨s, hs, hshown⟩ := Option.map_eq_some_iff.mp hview
  exact ⟨s, hs, hshown, headings_chosen [] hurried s hs⟩

/-! ### Behind writers that wait -/

/- The thread has met `values`, but for names it has missed on an empty file. -/
structure Met (values : List Text) (r : Headed) : Prop where
  monitoring : r.vars.isMonitoring = (names.run values).held.isSome
  shown : ∀ name, r.shown = some name → name = [] ∨ (names.run values).held = some name
  named : r.named.Sublist (names.run values).taken

/- It has met the empty file after them, and shows what follows under no name. -/
inductive Shaken (values : List Text) (r : Headed) : Prop
  | met (h : Met values r)
  | emptied (hfree : (names.run values).held = none) (hon : r.vars.isMonitoring = true)
      (hshown : r.shown = some []) (hnamed : r.named.Sublist (names.run values).taken)

theorem shown_name {content : Option Bytes} {value : Text} (h : readSwitchFile content = some value)
    (hne : value ≠ off) (r : Headed) :
    (r.onEvent content).shown = if r.vars.isMonitoring then r.shown else some value := by
  rw [Headed.shown, (onEvent_name h hne r).1, if_pos rfl, (onEvent_name h hne r).2]
  cases hm : r.vars.isMonitoring with
  | true => rw [if_pos rfl, if_pos rfl, Headed.shown, hm, if_pos rfl]
  | false =>
    rw [if_neg Bool.false_ne_true, if_neg Bool.false_ne_true, List.getLast?_concat]

theorem shown_off {content : Option Bytes} (h : readSwitchFile content = some off) (r : Headed) :
    (r.onEvent content).shown = none := by
  rw [Headed.shown, (onEvent_off h r).1, if_neg Bool.false_ne_true]

theorem shown_store (r : Headed) : r.store.shown = r.shown := by
  rw [Headed.shown, store_isMonitoring]
  rfl

theorem met_store {values : List Text} {r : Headed} (h : Met values r) : Met values r.store where
  monitoring := (store_isMonitoring r).trans h.monitoring
  shown name hname := h.shown name ((shown_store r).symm.trans hname)
  named := h.named

theorem shaken_store {values : List Text} {r : Headed} (h : Shaken values r) :
    Shaken values r.store := by
  cases h with
  | met h => exact .met (met_store h)
  | emptied hfree hon hshown hnamed =>
    exact .emptied hfree ((store_isMonitoring r).trans hon) ((shown_store r).trans hshown) hnamed

/- The empty file is a name like others, but for a thread that shows nothing. -/
theorem shaken_empty {values : List Text} {r : Headed} (h : Shaken values r) :
    Shaken values (r.onEvent (some [])) := by
  have hon' := (onEvent_name read_empty empty_ne_off r).1
  have hshown' := shown_name read_empty empty_ne_off r
  have hnamed' : (r.onEvent (some [])).named = r.named := by
    rw [named_name read_empty empty_ne_off, if_neg (by simp)]
  cases h with
  | met h =>
    cases hheld : (names.run values).held with
    | none =>
      have hoff : r.vars.isMonitoring = false := by rw [h.monitoring, hheld]; rfl
      rw [hoff, if_neg Bool.false_ne_true] at hshown'
      exact .emptied hheld hon' hshown' (by rw [hnamed']; exact h.named)
    | some name =>
      have hon : r.vars.isMonitoring = true := by rw [h.monitoring, hheld]; rfl
      rw [if_pos hon] at hshown'
      refine .met ⟨by rw [hon', hheld]; rfl, ?_, by rw [hnamed']; exact h.named⟩
      rw [hshown']
      exact h.shown
  | emptied hfree hon hshown hnamed =>
    rw [if_pos hon] at hshown'
    exact .emptied hfree hon' (hshown'.trans hshown) (by rw [hnamed']; exact hnamed)

/- "0" takes the name away, whatever the thread was. -/
theorem met_off {content : Option Bytes} (h : readSwitchFile content = some off) {values : List Text}
    {r : Headed} (hr : Shaken values r) : Met (values ++ [off]) (r.onEvent content) := by
  have hrun : names.run (values ++ [off]) = ⟨none, (names.run values).taken⟩ := by
    rw [names.run_snoc, meet_off]
  have hnamed : r.named.Sublist (names.run values).taken := by
    cases hr with
    | met hr => exact hr.named
    | emptied hfree hon hshown hnamed => exact hnamed
  constructor
  · rw [(onEvent_off h r).1, hrun]
    rfl
  · intro name hname
    rw [shown_off h] at hname
    cases hname
  · rw [named_off h, hrun]
    exact hnamed

theorem met_name {content : Option Bytes} {value : Text} (h : readSwitchFile content = some value)
    (hne : value ≠ off) {values : List Text} {r : Headed} (hr : Shaken values r) :
    Met (values ++ [value]) (r.onEvent content) := by
  have hrun : names.run (values ++ [value]) =
      if (names.run values).held.isSome then names.run values
      else ⟨some value, (names.run values).taken ++ [value]⟩ := by
    rw [names.run_snoc, meet_name hne]
  have hon' := (onEvent_name h hne r).1
  have hshown' := shown_name h hne r
  have hnamed' := named_name h hne r
  cases hr with
  | met hr =>
    cases hheld : (names.run values).held with
    | none =>
      have hoff : r.vars.isMonitoring = false := by rw [hr.monitoring, hheld]; rfl
      rw [hheld, if_neg (by simp)] at hrun
      rw [hoff, if_neg Bool.false_ne_true] at hshown'
      refine ⟨by rw [hon', hrun]; rfl, fun name hname => Or.inr ?_, ?_⟩
      · rw [hshown'] at hname
        rw [hrun, ← Option.some.inj hname]
      · rw [hnamed', hrun]
        split
        · exact hr.named.append (List.Sublist.refl _)
        · exact hr.named.trans (List.sublist_append_left _ _)
    | some name =>
      have hon : r.vars.isMonitoring = true := by rw [hr.monitoring, hheld]; rfl
      rw [hheld, if_pos Option.isSome_some] at hrun
      rw [if_pos hon] at hshown'
      rw [if_neg (by simp [hon])] at hnamed'
      refine ⟨by rw [hon', hrun, hheld]; rfl, ?_, by rw [hnamed', hrun]; exact hr.named⟩
      rw [hshown', hrun]
      exact hr.shown
  | emptied hfree hon hshown hnamed =>
    rw [hfree, if_neg (by simp)] at hrun
    rw [if_pos hon] at hshown'
    rw [if_neg (by simp [hon])] at hnamed'
    refine ⟨by rw [hon', hrun]; rfl, fun name hname => Or.inl ?_, ?_⟩
    · rw [hshown', hshown] at hname
      exact (Option.some.inj hname).symm
    · rw [hnamed', hrun]
      exact hnamed.trans (List.sublist_append_left _ _)

theorem met_again {content : Option Bytes} {value : Text}
    (h : readSwitchFile content = some value) {values : List Text} {r : Headed}
    (hr : Met (values ++ [value]) r) : Met (values ++ [value]) (r.onEvent content) := by
  by_cases hv : value = off
  · subst hv
    have hrun : (names.run (values ++ [off])).held = none := by rw [names.run_snoc, meet_off]
    constructor
    · rw [(onEvent_off h r).1, hrun]
      rfl
    · intro name hname
      rw [shown_off h] at hname
      cases hname
    · rw [named_off h]
      exact hr.named
  · have hheld : (names.run (values ++ [value])).held.isSome = true := by
      rw [names.run_snoc, meet_name hv]
      split
      · assumption
      · rfl
    have hon : r.vars.isMonitoring = true := hr.monitoring.trans hheld
    constructor
    · rw [(onEvent_name h hv r).1, hheld]
    · rw [shown_name h hv, if_pos hon]
      exact hr.shown
    · rw [named_name h hv, if_neg (by simp [hon])]
      exact hr.named

theorem headed_learns :
    WriteCall.Learns headed (fun ws r => Met (ws.map valueOf) r)
      (fun ws r => Shaken (ws.map valueOf) r) where
  shaken _ _ h := .met h
  emptied _ _ h _ := shaken_empty h
  told ws data r h _ := by
    rw [List.map_append]
    show Met (ws.map valueOf ++ [valueOf data]) (r.onEvent (some (encodeUtf8 data)))
    by_cases hv : valueOf data = off
    · rw [hv]
      exact met_off (by rw [read_string, hv]) h
    · exact met_name (read_string data) hv h
  again ws data r h _ := by
    rw [List.map_append] at h ⊢
    exact met_again (read_string data) h
  metTick _ _ h := met_store h
  shakenTick _ _ h := shaken_store h

theorem met_start : Met [] Headed.start := ⟨rfl, nofun, List.Sublist.refl []⟩

/-- Behind writers that wait for the thread, a thread at rest is monitoring exactly if the
last block of strings is not empty; it shows the calls under the first name of that block or
under none, and the names it has printed are first names of blocks, in their order. The
one name it can miss is that of a block before which it has met the empty file. -/
theorem headings_at_rest (content : Bytes) (ms : List (Move (WriteCall.Act Text)))
    (s : World Bytes Headed Event (WriteCall.Writer Text))
    (hrun : run (worldStep (WriteCall.writer encodeUtf8) headed)
      (Switch.WriteCall.start content Headed.start) ms = some s)
    (hwaits : AllSteps (worldStep (WriteCall.writer encodeUtf8) headed) (WriteCall.Waits headed)
      (Switch.WriteCall.start content Headed.start) ms)
    (hrest : AtRest headed WriteCall.Idle s) :
    (s.conf.reader.vars.isMonitoring = true ↔ names.lastBlock (valuesOf ms) ≠ []) ∧
      (∀ name, s.conf.reader.shown = some name →
        name = [] ∨ names.first (names.lastBlock (valuesOf ms)) = some name) ∧
      s.conf.reader.named.Sublist ((names.blocks (valuesOf ms)).filterMap names.first) := by
  have hmet : Met (valuesOf ms) s.conf.reader :=
    WriteCall.met_of_waits headed_learns isModify_modify met_start hrun hwaits hrest
  refine ⟨?_, ?_, ?_⟩
  · rw [hmet.monitoring, lastBlock_ne_nil_iff]
  · rw [← names.run_held]
    exact hmet.shown
  · rw [← names.run_taken]
    exact hmet.named

/- fork01 waits for the thread, which has met the empty file before. -/
def patient : List (Move (WriteCall.Act Text)) :=
  [.write (.openTrunc "fork01".toList), .write .truncEvent, .take, .handle, .tick,
    .write .write, .write .writeEvent, .take, .handle] ++ WriteCall.writeOut off ++
    [.take, .handle, .tick] ++ WriteCall.writeOut "brk01".toList ++ [.take, .handle, .tick]

theorem headings_at_rest_patient :
    ∃ s, run (worldStep (WriteCall.writer encodeUtf8) headed)
        (Switch.WriteCall.start [] Headed.start) patient = some s ∧
      s.conf.reader.messages = [[], "brk01".toList] ∧
      (s.conf.reader.vars.isMonitoring = true ↔ names.lastBlock (valuesOf patient) ≠ []) ∧
      (∀ name, s.conf.reader.shown = some name →
        name = [] ∨ names.first (names.lastBlock (valuesOf patient)) = some name) ∧
      s.conf.reader.named.Sublist ((names.blocks (valuesOf patient)).filterMap names.first) := by
  have hview : (run (worldStep (WriteCall.writer encodeUtf8) headed)
      (Switch.WriteCall.start [] Headed.start) patient).map
      (fun s => (s.writer, s.conf.queue, s.conf.batch, s.conf.reader)) =
      some (⟨.idle, some "brk01".toList⟩, [], [],
        ⟨⟨true, 1, .wait⟩, [[], "brk01".toList]⟩) := by decide
  have hwaits : AllSteps (worldStep (WriteCall.writer encodeUtf8) headed) (WriteCall.Waits headed)
      (Switch.WriteCall.start [] Headed.start) patient := by decide
  obtain ⟨s, hs, hrest, hw, hr⟩ := rest_of_view headed WriteCall.Idle hview rfl rfl
  exact ⟨s, hs, by rw [hr], headings_at_rest [] patient s hs hwaits hrest⟩

end Tbouncer.Monitor.Headings
