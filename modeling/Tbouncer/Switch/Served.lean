import Tbouncer.Switch.Unlink

/-!
# The controllers beside a writer whose calls fail

A polling controller opens the file by its name, mutation.py keeps its watch on the file
that was there at the start. Neither expects the name to be gone, as `read_switch_file`
of the monitor does (`syscall_monitor.py:406-411`).
-/

namespace Tbouncer.Switch.Unlink
open Base Watch

/-! ### A polling controller -/

/- `read` is what the last poll has read, `ended` set once an exception has ended the
script. -/
structure Polling where
  disk : Disk
  read : Option Text
  ended : Bool

inductive PollAct where
  | call (c : Call)
  | poll
  deriving DecidableEq

def Polling.start (content : Bytes) : Polling := ⟨Unlink.start content, none, false⟩

def Polling.step (s : Polling) : PollAct → Option Polling
  | .call c => (s.disk.step c).map fun d => { s with disk := d }
  | .poll =>
      if s.ended then none
      else
        match s.disk.readFile with
        | none => some { s with ended := true }
        | some text => some { s with read := some text }

/- The script runs on, and a poll behind a successful call reads the string of that
call. -/
def Polling.Served (s : Polling) (a : PollAct) : Prop :=
  ∀ t, s.step a = some t →
    t.ended = false ∧ (a = .poll → ∀ text, s.disk.expected = some text → t.read = some text)

/- The file is there when it is polled, and can be decoded. -/
def Polling.Present (s : Polling) : PollAct → Prop
  | .call _ => True
  | .poll => s.disk.readFile.isSome = true

instance (s : Polling) : ∀ a, Decidable (s.Present a)
  | .call _ => .isTrue trivial
  | .poll => inferInstanceAs (Decidable (_ = true))

theorem Polling.served_step {s t : Polling} {a : PollAct} (hs : Sound s.disk)
    (hran : s.ended = false) (h : s.step a = some t) : s.Served a ↔ s.Present a := by
  cases a with
  | call c =>
    refine ⟨fun _ => trivial, fun _ u hu => ⟨?_, nofun⟩⟩
    obtain ⟨d, -, rfl⟩ := Option.map_eq_some_iff.mp hu
    exact hran
  | poll =>
    unfold Polling.Served Polling.Present
    simp only [Polling.step, hran, Bool.false_eq_true, if_false]
    cases hread : s.disk.readFile with
    | none => simp
    | some text =>
      have hexpected : ∀ e, s.disk.expected = some e → text = e := fun e he => by
        have heq := readFile_expected hs he
        rw [hread] at heq
        exact Option.some.inj heq
      simpa using hexpected

theorem Polling.sound_step {s t : Polling} {a : PollAct} (hs : Sound s.disk)
    (h : s.step a = some t) : Sound t.disk := by
  cases a with
  | call c =>
    obtain ⟨d, hd, rfl⟩ := Option.map_eq_some_iff.mp h
    exact Unlink.sound_step hs hd
  | poll =>
    simp only [Polling.step] at h
    split at h
    · cases h
    · split at h
      · cases h
        exact hs
      · cases h
        exact hs

/- `reads` is what the handled MODIFY events have read. -/
structure Watching where
  disk : Disk
  batch : List Event
  reads : List Text
  ended : Bool

inductive WatchAct where
  | call (c : Call)
  | take
  | handle
  deriving DecidableEq

def Watching.start (content : Bytes) : Watching := ⟨Unlink.start content, [], [], false⟩

def Watching.step (s : Watching) : WatchAct → Option Watching
  | .call c => (s.disk.step c).map fun d => { s with disk := d }
  | .take =>
      if s.ended = false ∧ s.batch = [] then
        some { s with batch := s.disk.queue, disk := { s.disk with queue := [] } }
      else none
  | .handle =>
      if s.ended then none
      else
        match s.batch with
        | [] => none
        | e :: rest =>
            if isModify e then
              match s.disk.readFile with
              | none => some { s with batch := rest, ended := true }
              | some text => some { s with batch := rest, reads := s.reads ++ [text] }
            else some { s with batch := rest }

def WatchAct.own : WatchAct → Bool
  | .call _ => false
  | .take | .handle => true

/- The string can be decoded, and left alone mutation.py has read it, and nothing else,
when it has handled all its events. -/
def Watching.Given (s : Watching) (data : Bytes) : Prop :=
  ∃ text, readText data = some text ∧
    ∀ (as : List WatchAct) (t : Watching), (∀ a ∈ as, a.own = true) →
      run Watching.step s as = some t → t.batch = [] → t.disk.queue = [] →
        ∃ n, t.reads = s.reads ++ List.replicate (n + 1) text

/- The script runs on, and a successful call is given to it. -/
def Watching.Served (s : Watching) (a : WatchAct) : Prop :=
  ∀ t, s.step a = some t → t.ended = false ∧
    ∀ c data, a = .call c → s.disk.succeeds c = some data → t.Given data

/- The MODIFY events still to be handled. -/
def Watching.waiting (s : Watching) : ℕ := (s.batch ++ s.disk.queue).countP isModify

/- When a call succeeds its string can be decoded and an event is still to be handled; when
an event is handled the file of the name is there, and can be decoded. -/
def Watching.Present (s : Watching) : WatchAct → Prop
  | .call c => ∀ data ∈ s.disk.succeeds c, (readText data).isSome = true ∧ 0 < s.waiting
  | .take => True
  | .handle => ∀ e ∈ s.batch.head?, isModify e = true → s.disk.readFile.isSome = true

instance (s : Watching) : ∀ a, Decidable (s.Present a)
  | .call _ => inferInstanceAs (Decidable (∀ data ∈ _, _ ∧ _))
  | .take => .isTrue trivial
  | .handle => inferInstanceAs (Decidable (∀ e ∈ _, _))

theorem Watching.sound_step {s t : Watching} {a : WatchAct} (hs : Sound s.disk)
    (h : s.step a = some t) : Sound t.disk := by
  cases a with
  | call c =>
    obtain ⟨d, hd, rfl⟩ := Option.map_eq_some_iff.mp h
    exact Unlink.sound_step hs hd
  | take =>
    simp only [Watching.step] at h
    split at h
    · cases h
      exact hs
    · cases h
  | handle =>
    simp only [Watching.step] at h
    split at h
    · cases h
    · split at h
      · cases h
      · split at h
        · split at h
          · cases h
            exact hs
          · cases h
            exact hs
        · cases h
          exact hs

section
variable {text : Text}

/- What has been read and what still will be are together always the same. -/
theorem own_step {s t : Watching} {a : WatchAct} (hown : a.own = true) (hran : s.ended = false)
    (hread : s.disk.readFile = some text) (h : s.step a = some t) :
    (t.ended = false ∧ t.disk.readFile = some text) ∧
      t.reads ++ List.replicate t.waiting text = s.reads ++ List.replicate s.waiting text := by
  cases a with
  | call c => cases hown
  | take =>
    simp only [Watching.step] at h
    split at h
    next hempty =>
      cases h
      refine ⟨⟨hran, hread⟩, ?_⟩
      simp only [Watching.waiting, hempty.2, List.append_nil, List.nil_append]
    next => cases h
  | handle =>
    simp only [Watching.step, hran, Bool.false_eq_true, if_false, hread] at h
    split at h
    next => cases h
    next e rest hb =>
      split at h
      next hm =>
        cases h
        refine ⟨⟨rfl, hread⟩, ?_⟩
        simp only [Watching.waiting, hb, List.cons_append, List.countP_cons_of_pos hm,
          List.replicate_succ, List.append_assoc, List.nil_append]
      next hm =>
        cases h
        refine ⟨⟨rfl, hread⟩, ?_⟩
        simp only [Watching.waiting, hb, List.cons_append, List.countP_cons_of_neg hm]

theorem own_run {s t : Watching} {as : List WatchAct} (hown : ∀ a ∈ as, a.own = true)
    (hran : s.ended = false) (hread : s.disk.readFile = some text)
    (h : run Watching.step s as = some t) :
    t.reads ++ List.replicate t.waiting text = s.reads ++ List.replicate s.waiting text := by
  induction as generalizing s with
  | nil =>
    cases h
    rfl
  | cons a as ih =>
    obtain ⟨r, hr, ht⟩ := (run_cons_eq_some Watching.step).mp h
    obtain ⟨⟨hran', hread'⟩, hsame⟩ := own_step (hown a List.mem_cons_self) hran hread hr
    rw [ih (fun b hb => hown b (List.mem_cons_of_mem a hb)) hran' hread' ht, hsame]

/- The events taken can all be handled. -/
theorem handle_all {s : Watching} (hran : s.ended = false) (hread : s.disk.readFile = some text) :
    ∃ as t, (∀ a ∈ as, a.own = true) ∧ run Watching.step s as = some t ∧ t.ended = false ∧
      t.batch = [] ∧ t.disk = s.disk := by
  induction hb : s.batch generalizing s with
  | nil => exact ⟨[], s, nofun, rfl, hran, hb, rfl⟩
  | cons e rest ih =>
    have hstep : ∃ t, s.step .handle = some t ∧ t.ended = false ∧ t.disk = s.disk ∧
        t.batch = rest := by
      simp only [Watching.step, hran, Bool.false_eq_true, if_false, hb, hread]
      split
      · exact ⟨_, rfl, rfl, rfl, rfl⟩
      · exact ⟨_, rfl, rfl, rfl, rfl⟩
    obtain ⟨t, ht, hend, hdisk, hrest⟩ := hstep
    obtain ⟨as, u, hown, hu, hlast, hnil, hsame⟩ := ih hend (by rw [hdisk, hread]) hrest
    refine ⟨.handle :: as, u, ?_, ?_, hlast, hnil, hsame.trans hdisk⟩
    · intro a ha
      rcases List.mem_cons.mp ha with rfl | hrest
      · rfl
      · exact hown a hrest
    · exact (run_cons_eq_some Watching.step).mpr ⟨t, ht, hu⟩

theorem drain {s : Watching} (hran : s.ended = false) (hread : s.disk.readFile = some text) :
    ∃ as t, (∀ a ∈ as, a.own = true) ∧ run Watching.step s as = some t ∧
      t.batch = [] ∧ t.disk.queue = [] := by
  obtain ⟨as, t, hown, ht, hend, hnil, hdisk⟩ := handle_all hran hread
  have htake : t.step .take = some { t with
      batch := t.disk.queue
      disk := { t.disk with queue := [] } } := by
    rw [Watching.step, if_pos ⟨hend, hnil⟩]
  have hread' : ({ t.disk with queue := [] } : Disk).readFile = some text := by
    rw [← hread, ← hdisk]
    rfl
  obtain ⟨bs, u, hown', hu, -, hnil', hdisk'⟩ := handle_all (s := { t with
    batch := t.disk.queue
    disk := { t.disk with queue := [] } }) hend hread'
  refine ⟨as ++ .take :: bs, u, ?_, ?_, hnil', by rw [hdisk']⟩
  · intro a ha
    rcases List.mem_append.mp ha with h | h
    · exact hown a h
    · rcases List.mem_cons.mp h with rfl | h
      · rfl
      · exact hown' a h
  · exact (run_append_eq_some Watching.step).mpr
      ⟨t, ht, (run_cons_eq_some Watching.step).mpr ⟨_, htake, hu⟩⟩

end

theorem given_iff_waiting {s : Watching} {data : Bytes} {text : Text} (hran : s.ended = false)
    (htext : readText data = some text) (hread : s.disk.readFile = some text) :
    s.Given data ↔ 0 < s.waiting := by
  have hdone : ∀ t : Watching, t.batch = [] → t.disk.queue = [] → t.waiting = 0 := by
    intro t hb hq
    rw [Watching.waiting, hb, hq]
    rfl
  constructor
  · rintro ⟨text', htext', hgiven⟩
    obtain rfl := Option.some.inj (htext'.symm.trans htext)
    obtain ⟨as, t, hown, ht, hb, hq⟩ := drain hran hread
    obtain ⟨n, hn⟩ := hgiven as t hown ht hb hq
    have hsame := own_run hown hran hread ht
    rw [hdone t hb hq, hn, List.replicate_zero, List.append_nil] at hsame
    have hlen := congrArg List.length (List.append_cancel_left hsame)
    rw [List.length_replicate, List.length_replicate] at hlen
    omega
  · refine fun hpos => ⟨text, htext, fun as t hown ht hb hq => ?_⟩
    have hsame := own_run hown hran hread ht
    rw [hdone t hb hq, List.replicate_zero, List.append_nil] at hsame
    refine ⟨s.waiting - 1, ?_⟩
    rw [hsame, Nat.sub_add_cancel hpos]

theorem given_of_succeeds {s : Watching} {c : Call} {d : Disk} {data : Bytes} (hs : Sound s.disk)
    (hran : s.ended = false) (hc : s.disk.succeeds c = some data) (hd : s.disk.step c = some d) :
    ({ s with disk := d } : Watching).Given data ↔
      (readText data).isSome = true ∧ 0 < s.waiting := by
  obtain ⟨hidle, hqueue, hlast⟩ := step_of_succeeds hc hd
  cases htext : readText data with
  | none =>
    refine iff_of_false ?_ (by simp)
    rintro ⟨text, hread, -⟩
    rw [htext] at hread
    cases hread
  | some text =>
    have hexpected : d.expected = some text := by
      rw [Disk.expected, hidle, hlast]
      exact htext
    have hread := readFile_expected (Unlink.sound_step hs hd) hexpected
    rw [given_iff_waiting (s := { s with disk := d }) hran htext hread, Watching.waiting, hqueue]
    exact (and_iff_right rfl).symm

theorem Watching.served_step {s t : Watching} {a : WatchAct} (hs : Sound s.disk)
    (hran : s.ended = false) (h : s.step a = some t) : s.Served a ↔ s.Present a := by
  cases a with
  | call c =>
    obtain ⟨d, hd, rfl⟩ := Option.map_eq_some_iff.mp h
    constructor
    · intro hserved data hc
      exact (given_of_succeeds hs hran hc hd).mp ((hserved _ h).2 c data rfl hc)
    · intro hpresent u hu
      cases h.symm.trans hu
      refine ⟨hran, ?_⟩
      intro c' data hcall hc
      cases hcall
      exact (given_of_succeeds hs hran hc hd).mpr (hpresent data hc)
  | take =>
    refine ⟨fun _ => trivial, fun _ u hu => ?_⟩
    simp only [Watching.step] at hu
    split at hu
    · cases hu
      exact ⟨hran, nofun⟩
    · cases hu
  | handle =>
    unfold Watching.Served Watching.Present
    simp only [Watching.step, hran, Bool.false_eq_true, if_false]
    cases hb : s.batch with
    | nil => simp
    | cons e rest =>
      cases hm : isModify e with
      | false => simp [hm]
      | true => cases hread : s.disk.readFile <;> simp [hm]

/- mutation.py has handled what came before. -/
def Watching.Silent (s : Watching) : Prop := s.disk.Cut ∧ s.waiting = 0

theorem silent_step {s t : Watching} {a : WatchAct} (hs : s.Silent) (h : s.step a = some t) :
    t.Silent := by
  obtain ⟨hcut, hnone⟩ := hs
  unfold Watching.waiting at hnone
  cases a with
  | call c =>
    obtain ⟨d, hd, rfl⟩ := Option.map_eq_some_iff.mp h
    obtain ⟨hcut', hqueue⟩ := cut_step hcut hd
    refine ⟨hcut', ?_⟩
    rw [Watching.waiting, hqueue]
    exact hnone
  | take =>
    simp only [Watching.step] at h
    split at h
    next hempty =>
      cases h
      rw [hempty.2, List.nil_append] at hnone
      refine ⟨⟨hcut.unnamed, hcut.closed, hcut.older⟩, ?_⟩
      simpa only [Watching.waiting, List.append_nil] using hnone
    next => cases h
  | handle =>
    simp only [Watching.step] at h
    split at h
    next => cases h
    next =>
      split at h
      next => cases h
      next e rest hb =>
        rw [hb, List.cons_append, List.countP_eq_zero] at hnone
        have hquiet : ¬ isModify e = true := hnone e List.mem_cons_self
        rw [if_neg hquiet] at h
        cases h
        refine ⟨hcut, ?_⟩
        exact List.countP_eq_zero.mpr fun x hx => hnone x (List.mem_cons_of_mem e hx)

/-- From then on no call that succeeds is given to mutation.py, however many there are. -/
theorem silenced {content : Bytes} {pre as : List WatchAct} {s t u : Watching} {c : Call}
    {data : Bytes}
    (hpre : run Watching.step (Watching.start content) pre = some s) (hs : s.Silent)
    (hrun : run Watching.step s as = some t) (hc : t.disk.succeeds c = some data)
    (hu : t.step (.call c) = some u) : ¬ t.Served (.call c) := by
  have hsilent : t.Silent :=
    run_invariant Watching.step (fun _ _ _ hI hst => silent_step hI hst) hs hrun
  have hsound : Sound t.disk :=
    run_invariant Watching.step (I := fun s => Sound s.disk)
      (fun _ _ _ hI hst => Watching.sound_step hI hst) (sound_start content)
      ((run_append_eq_some Watching.step).mpr ⟨s, hpre, hrun⟩)
  intro hserved
  have hran : t.ended = false := by
    have hlater := (hserved u hu).1
    obtain ⟨d, -, rfl⟩ := Option.map_eq_some_iff.mp hu
    exact hlater
  have hpos := ((Watching.served_step hsound hran hu).mp hserved data hc).2
  rw [hsilent.2] at hpos
  exact Nat.lt_irrefl 0 hpos

end Tbouncer.Switch.Unlink
