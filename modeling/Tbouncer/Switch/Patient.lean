import Mathlib.Data.List.Induction
import Tbouncer.Switch.WriteCall

/-!
# A writer that waits for its reader

No program of the repository waits before it writes the next string. Had it waited until
the reader has handled every event, the reader would have met every string, one after the
other, and the empty file before a string at most.
-/

namespace Tbouncer.Switch.WriteCall
open Base Watch

theorem openedStrings_reading {m : Move (Act Text)} (hm : ∀ a, m ≠ .write a) :
    openedStrings [m] = [] := by
  cases m with
  | write a => exact absurd rfl (hm a)
  | take => rfl
  | handle => rfl
  | tick => rfl

section
variable {ρ : Type} (R : Reader Bytes ρ Event)

/- What an action of the writer changes. -/
inductive Writes (s t : World Bytes ρ Event (Writer Text)) : Act Text → Prop
  | opened {data : Text} (hphase : s.writer.phase = .idle)
      (hwriter : t.writer = ⟨.truncated data, s.writer.last⟩) (hcontent : t.conf.content = [])
      (hreader : t.conf.reader = s.conf.reader) : Writes s t (.openTrunc data)
  | announced {data : Text} (hphase : s.writer.phase = .truncated data)
      (hwriter : t.writer = s.writer) (hcontent : t.conf.content = s.conf.content)
      (hreader : t.conf.reader = s.conf.reader) : Writes s t .truncEvent
  | wrote {data : Text} (hphase : s.writer.phase = .truncated data)
      (hwriter : t.writer = ⟨.stored data, s.writer.last⟩)
      (hcontent : t.conf.content = encodeUtf8 data) (hreader : t.conf.reader = s.conf.reader)
      (hstore : t.conf.atStore = s.conf.reader) : Writes s t .write
  | ended {data : Text} (hphase : s.writer.phase = .stored data)
      (hwriter : t.writer = ⟨.idle, some data⟩) (hcontent : t.conf.content = s.conf.content)
      (hreader : t.conf.reader = s.conf.reader) (hstore : t.conf.atStore = s.conf.atStore) :
      Writes s t .writeEvent

theorem writes_of_move {s t : World Bytes ρ Event (Writer Text)} {a : Act Text}
    (h : worldStep (writer encodeUtf8) R s (.write a) = some t) : Writes s t a := by
  obtain ⟨x, c, hx, hc, rfl⟩ := worldStep_write_eq_some (writer encodeUtf8) h
  cases a with
  | openTrunc data =>
    cases hp : s.writer.phase <;> simp only [writer, hp] at hx <;> cases hx
    cases hc
    exact .opened hp rfl rfl rfl
  | truncEvent =>
    cases hp : s.writer.phase <;> simp only [writer, hp] at hx <;> cases hx
    cases hc
    exact .announced hp rfl rfl rfl
  | write =>
    cases hp : s.writer.phase <;> simp only [writer, hp] at hx <;> cases hx
    cases hc
    exact .wrote hp rfl rfl rfl rfl
  | writeEvent =>
    cases hp : s.writer.phase <;> simp only [writer, hp] at hx <;> cases hx
    cases hc
    exact .ended hp rfl rfl rfl rfl

/- A string is begun only at rest. -/
def Waits (s : World Bytes ρ Event (Writer Text)) : Move (Act Text) → Prop
  | .write (.openTrunc _) => AtRest R Idle s
  | _ => True

theorem waits_open_iff {s : World Bytes ρ Event (Writer Text)} {data : Text} :
    Waits R s (.write (.openTrunc data)) ↔ s.writer.phase = .idle ∧ s.conf.queue = [] ∧
      s.conf.batch = [] ∧ R.ready s.conf.reader = true :=
  ⟨fun h => ⟨h.writer, h.queue, h.batch, h.ready⟩, fun ⟨hw, hq, hb, hr⟩ => ⟨hw, hq, hb, hr⟩⟩

instance (s : World Bytes ρ Event (Writer Text)) : ∀ m, Decidable (Waits R s m)
  | .write (.openTrunc _) => decidable_of_iff _ (waits_open_iff R).symm
  | .write .truncEvent | .write .write | .write .writeEvent => .isTrue trivial
  | .take | .handle | .tick => .isTrue trivial

/- `Met ws` is what holds of a reader that has met the strings `ws`, `Shaken ws` what
holds of it if it has perhaps met the empty file after them. -/
structure Learns (Met Shaken : List Text → ρ → Prop) : Prop where
  shaken : ∀ ws r, Met ws r → Shaken ws r
  emptied : ∀ ws r, Shaken ws r → R.ready r = true → Shaken ws (R.act [] r)
  told : ∀ ws data r, Shaken ws r → R.ready r = true →
    Met (ws ++ [data]) (R.act (encodeUtf8 data) r)
  again : ∀ ws data r, Met (ws ++ [data]) r → R.ready r = true →
    Met (ws ++ [data]) (R.act (encodeUtf8 data) r)
  metTick : ∀ ws r, Met ws r → Met ws (R.tick r)
  shakenTick : ∀ ws r, Shaken ws r → Shaken ws (R.tick r)

variable {R} {Met Shaken : List Text → ρ → Prop}

/- What a reader knows of the string in the file. -/
theorem settles_of_learns (h : Learns R Met Shaken) :
    Settles R
      (fun c r₀ r => ∀ ws data, c = encodeUtf8 data → Shaken ws r₀ →
        Shaken ws r ∨ Met (ws ++ [data]) r)
      (fun c r₀ r => ∀ ws data, c = encodeUtf8 data → Shaken ws r₀ → Met (ws ++ [data]) r) where
  stored _ _ _ _ _ := fun _ _ _ hs => Or.inl hs
  acted c r₀ r hJ hready := by
    have hmet : ∀ ws data, c = encodeUtf8 data → Shaken ws r₀ → Met (ws ++ [data]) (R.act c r) := by
      intro ws data hc hs
      rcases hJ ws data hc hs with hr | hr
      · rw [hc]
        exact h.told ws data r hr hready
      · rw [hc]
        exact h.again ws data r hr hready
    exact ⟨fun ws data hc hs => Or.inr (hmet ws data hc hs), hmet⟩
  ticked c r₀ r hJ := fun ws data hc hs =>
    (hJ ws data hc hs).imp (h.shakenTick ws r) (h.metTick _ r)
  kept c r₀ r _ hP := fun ws data hc hs => h.metTick _ r (hP ws data hc hs)

/- How far the last of the strings `ws` has come. -/
inductive Progress (Met Shaken : List Text → ρ → Prop) (s : World Bytes ρ Event (Writer Text)) :
    List Text → Prop
  | untouched (hw : s.writer = ⟨.idle, none⟩) (hq : s.conf.queue = []) (hb : s.conf.batch = [])
      (hmet : Met [] s.conf.reader) : Progress Met Shaken s []
  | truncated {ws : List Text} {data : Text} (hphase : s.writer.phase = .truncated data)
      (hcontent : s.conf.content = []) (hshaken : Shaken ws s.conf.reader) :
      Progress Met Shaken s (ws ++ [data])
  | stored {ws : List Text} {data : Text} (hphase : s.writer.phase = .stored data)
      (hshaken : Shaken ws s.conf.atStore) : Progress Met Shaken s (ws ++ [data])
  | written {ws : List Text} {data : Text} (hw : s.writer = ⟨.idle, some data⟩)
      (hshaken : Shaken ws s.conf.atStore) : Progress Met Shaken s (ws ++ [data])

/- At rest the reader has met all of them. -/
theorem met_of_rest (h : Learns R Met Shaken) (hrel : R.relevant .modify = true)
    {content : Bytes} {r₀ : ρ} {ms : List (Move (Act Text))}
    {s : World Bytes ρ Event (Writer Text)} {ws : List Text}
    (hrun : run (worldStep (writer encodeUtf8) R) (start content r₀) ms = some s)
    (hrest : AtRest R Idle s) (hs : Progress Met Shaken s ws) : Met ws s.conf.reader := by
  have hidle : s.writer.phase = .idle := hrest.writer
  cases hs with
  | untouched hw hq hb hmet => exact hmet
  | truncated hphase hcontent hshaken =>
    rw [hidle] at hphase
    cases hphase
  | stored hphase hshaken =>
    rw [hidle] at hphase
    cases hphase
  | @written ws data hw hshaken =>
    have hlast : s.writer.last = some data := by rw [hw]
    exact (settled_of_atRest (settles_of_learns h) hrel (fun _ _ _ hs => Or.inl hs) hrun hrest
      hlast).2 ws data rfl hshaken

/- A reader's own step while the file is empty. -/
theorem shaken_read (h : Learns R Met Shaken) {s t : World Bytes ρ Event (Writer Text)}
    {ws : List Text} (hreads : Reads R s t) (hcontent : s.conf.content = [])
    (hs : Shaken ws s.conf.reader) :
    Shaken ws t.conf.reader := by
  rcases hreads.reader with hr | hr | ⟨-, hready, hr⟩
  · rw [hr]
    exact hs
  · rw [hr]
    exact h.shakenTick ws _ hs
  · rw [hr, hcontent]
    exact h.emptied ws _ hs hready

theorem untouched_read (h : Learns R Met Shaken) {s t : World Bytes ρ Event (Writer Text)}
    (hreads : Reads R s t) (hb : s.conf.batch = []) (hs : Met [] s.conf.reader) :
    Met [] t.conf.reader := by
  rcases hreads.reader with hr | hr | ⟨hne, -⟩
  · rw [hr]
    exact hs
  · rw [hr]
    exact h.metTick [] _ hs
  · exact absurd hb hne

theorem progress_write (h : Learns R Met Shaken) {s t : World Bytes ρ Event (Writer Text)}
    {a : Act Text} {ws : List Text} (hs : Progress Met Shaken s ws)
    (hmet : AtRest R Idle s → Met ws s.conf.reader)
    (hwaits : Waits R s (.write a)) (hst : worldStep (writer encodeUtf8) R s (.write a) = some t) :
    Progress Met Shaken t (ws ++ openedStrings [.write a]) := by
  have hidle : ∀ {d : Text}, s.writer = ⟨.idle, some d⟩ → s.writer.phase = .idle := fun hw => by
    rw [hw]
  cases writes_of_move R hst with
  | @opened data hphase hwriter hcontent hreader =>
    have hrest : AtRest R Idle s := hwaits
    refine .truncated (by rw [hwriter]) hcontent ?_
    rw [hreader]
    exact h.shaken ws _ (hmet hrest)
  | announced hp hwriter hcontent hreader =>
    show Progress Met Shaken _ (ws ++ [])
    rw [List.append_nil]
    cases hs with
    | untouched hw hq hb hm => rw [hw] at hp; cases hp
    | truncated hphase hempty hshaken =>
      exact .truncated (by rw [hwriter, hphase]) (hcontent.trans hempty)
        (by rw [hreader]; exact hshaken)
    | stored hphase hshaken => rw [hphase] at hp; cases hp
    | written hw hshaken => rw [hidle hw] at hp; cases hp
  | wrote hp hwriter hcontent hreader hstore =>
    show Progress Met Shaken _ (ws ++ [])
    rw [List.append_nil]
    cases hs with
    | untouched hw hq hb hm => rw [hw] at hp; cases hp
    | truncated hphase hempty hshaken =>
      rw [hphase] at hp
      cases hp
      exact .stored (by rw [hwriter]) (by rw [hstore]; exact hshaken)
    | stored hphase hshaken => rw [hphase] at hp; cases hp
    | written hw hshaken => rw [hidle hw] at hp; cases hp
  | ended hp hwriter hcontent hreader hstore =>
    show Progress Met Shaken _ (ws ++ [])
    rw [List.append_nil]
    cases hs with
    | untouched hw hq hb hm => rw [hw] at hp; cases hp
    | truncated hphase hempty hshaken => rw [hphase] at hp; cases hp
    | stored hphase hshaken =>
      rw [hphase] at hp
      cases hp
      exact .written hwriter (by rw [hstore]; exact hshaken)
    | written hw hshaken => rw [hidle hw] at hp; cases hp

theorem progress_read (h : Learns R Met Shaken) {s t : World Bytes ρ Event (Writer Text)}
    {m : Move (Act Text)} (hm : ∀ a, m ≠ .write a) {ws : List Text} (hs : Progress Met Shaken s ws)
    (hst : worldStep (writer encodeUtf8) R s m = some t) : Progress Met Shaken t ws := by
  have hreads := reads_of_move (writer encodeUtf8) hm hst
  cases hs with
  | untouched hw hq hb hmet =>
    obtain ⟨hq', hb'⟩ := hreads.quiet hq hb
    exact .untouched (by rw [hreads.writer, hw]) hq' hb' (untouched_read h hreads hb hmet)
  | truncated hphase hcontent hshaken =>
    exact .truncated (by rw [hreads.writer, hphase]) (by rw [hreads.content, hcontent])
      (shaken_read h hreads hcontent hshaken)
  | stored hphase hshaken =>
    exact .stored (by rw [hreads.writer, hphase]) (by rw [hreads.atStore]; exact hshaken)
  | written hw hshaken =>
    exact .written (by rw [hreads.writer, hw]) (by rw [hreads.atStore]; exact hshaken)

/-- Behind a writer that waits, a reader at rest has met every string. -/
theorem met_of_waits (h : Learns R Met Shaken) (hrel : R.relevant .modify = true)
    {content : Bytes} {r₀ : ρ} (h₀ : Met [] r₀) {ms : List (Move (Act Text))}
    {s : World Bytes ρ Event (Writer Text)}
    (hrun : run (worldStep (writer encodeUtf8) R) (start content r₀) ms = some s)
    (hwaits : AllSteps (worldStep (writer encodeUtf8) R) (Waits R) (start content r₀) ms)
    (hrest : AtRest R Idle s) : Met (openedStrings ms) s.conf.reader := by
  have hprogress : Progress Met Shaken s (openedStrings ms) := by
    clear hrest
    induction ms using List.reverseRecOn generalizing s with
    | nil =>
      cases hrun
      exact .untouched rfl rfl rfl h₀
    | append_singleton ms m ih =>
      obtain ⟨r, hr, hst⟩ := (run_snoc_eq_some _).mp hrun
      obtain ⟨hbefore, hlast⟩ := (allSteps_append _ hr).mp hwaits
      have hs := ih hr hbefore
      rw [openedStrings_append]
      obtain ⟨a, rfl⟩ | hm := m.write_or
      · exact progress_write h hs (fun hrest => met_of_rest h hrel hr hrest hs) hlast.1 hst
      · rw [openedStrings_reading hm, List.append_nil]
        exact progress_read h hm hs hst
  exact met_of_rest h hrel hrun hrest hprogress

end

end Tbouncer.Switch.WriteCall
