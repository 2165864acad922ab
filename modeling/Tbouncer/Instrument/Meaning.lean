import Tbouncer.Instrument.ExitPaths

/-!
# An instrumented test does what it did before

Besides its coordination writes a test calls the kernel, reports and asserts. The tool
only adds statements that write to the coordination file, so everything else a test can
do, and every way it can end, is what it was.
-/

namespace Tbouncer.Instrument
open Base LineFlow

/- One thing a line does: a write to the coordination file, or something else. -/
inductive Effect (β : Type) where
  | coordination (data : Text)
  | own (b : β)

section
variable {β : Type}

def Effect.data? : Effect β → Option Text
  | .coordination data => some data
  | .own _ => none

def Effect.own? : Effect β → Option β
  | .coordination _ => none
  | .own b => some b

/- A body with all that its lines do; what it writes is the body of the test file. -/
abbrev EffectBody (β : Type) := List (Line Text (Effect β))

def EffectBody.writes (body : EffectBody β) : List BodyLine := body.map (Line.view Effect.data?)

/- The lines modify_c_file adds, as effects. -/
def effects (β : Type) (base : Text) (body : List Text) : Insertion Text (Effect β) :=
  (instrumentation base body).written .coordination

def EffectBody.instrumented (body : EffectBody β) (base : Text) : EffectBody β :=
  (effects β base (body.map Line.text)).insert body

theorem texts_of_writes (body : EffectBody β) :
    body.writes.map Line.text = body.map Line.text := by
  rw [EffectBody.writes, List.map_map]
  rfl

theorem writes_instrumented (body : EffectBody β) (base : Text) :
    (body.instrumented base).writes =
      (instrumentation base (body.writes.map Line.text)).insert body.writes := by
  rw [texts_of_writes]
  exact Insertion.insert_view (f := Effect.data?) (g := .coordination) _ (fun _ => rfl) body

theorem effects_silent (base : Text) (body : List Text) :
    (effects β base body).Silent Effect.own? := by
  intro k x hx
  obtain ⟨y, -, rfl⟩ := List.mem_map.mp hx
  rfl

/- `new` ends like `old`, with the same effects of its own, shows the same ones up to
every point, and can run forever if `old` can. -/
structure SameBehaviour (new old : EffectBody β) : Prop where
  complete : ∀ e bs, (∃ ws, Path new 0 ws e ∧ ws.filterMap Effect.own? = bs) ↔
    ∃ ws, Path old 0 ws e ∧ ws.filterMap Effect.own? = bs
  upTo : ∀ bs, (∃ ws p, Reach new 0 ws p ∧ ws.filterMap Effect.own? = bs) ↔
    ∃ ws i, Reach old 0 ws i ∧ ws.filterMap Effect.own? = bs
  forever : Diverges new 0 ↔ Diverges old 0

theorem sameBehaviour_instrumented {body : EffectBody β} (hjumps : WellJumped body)
    (base : Text) : SameBehaviour (body.instrumented base) body where
  complete := Insertion.path_insert_observed (effects_silent base _) hjumps
  upTo := Insertion.reach_insert_observed (effects_silent base _) hjumps
  forever := Insertion.diverges_insert_iff (effects_silent base _) hjumps

/-- The file written back has the lines of a body that behaves like the one of the test,
and the writes of which are those of the instrumented test. -/
theorem instrumented_behaves {isalnum : Char → Bool} {script : Script} (t : TestFile)
    (name : Text) (h : t.parts.Counted isalnum script name) (hjumps : WellJumped t.body)
    (filePath : Text) (body : EffectBody β) (hbody : body.writes = t.body) :
    ∃ new : EffectBody β,
      (∃ rest, modifyCFile isalnum script filePath t.code =
        some (t.pre ++ [t.signature, t.opening] ++ new.map Line.text ++ t.closing :: rest)) ∧
      new.writes = t.instrumented (splitextRoot (basename filePath)) ∧
      SameBehaviour new body := by
  have hwrites : (body.instrumented (splitextRoot (basename filePath))).writes =
      t.instrumented (splitextRoot (basename filePath)) := by
    rw [writes_instrumented, hbody]
    rfl
  have hold : WellJumped body := by
    rw [← hbody] at hjumps
    exact wellJumped_view.mp hjumps
  refine ⟨body.instrumented _, ⟨t.treatedBelow (isDefinition script name)
    (splitextRoot (basename filePath)), ?_⟩, hwrites, sameBehaviour_instrumented hold _⟩
  rw [← texts_of_writes, hwrites, modify_test_file t h.named filePath,
    treated_counted h hjumps, treatedAbove_counted h]
  simp only [List.append_assoc, List.cons_append, List.nil_append]

end

/- fstat03 with every line an effect of its own. -/
def fstat03Effects : EffectBody Text :=
  fstat03.body.map fun l => ⟨l.text, l.outcomes.map fun o => ([.own l.text], o.2)⟩

theorem instrumented_behaves_fstat03 :
    ∃ new : EffectBody Text,
      (∃ rest, modifyCFile Char.isAlphanum .syscalls "./fstat/fstat03.c".toList fstat03.code =
        some (fstat03.pre ++ [fstat03.signature, fstat03.opening] ++ new.map Line.text ++
          fstat03.closing :: rest)) ∧
      new.writes = fstat03.instrumented (splitextRoot (basename "./fstat/fstat03.c".toList)) ∧
      SameBehaviour new fstat03Effects :=
  instrumented_behaves fstat03 "run".toList fstat03_counted fstat03_allman.jumps
    "./fstat/fstat03.c".toList fstat03Effects rfl

end Tbouncer.Instrument
