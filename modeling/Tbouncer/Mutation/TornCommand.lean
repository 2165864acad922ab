import Tbouncer.Base.TornWrite
import Tbouncer.Mutation.Loop

/-!
# Half-written commands

The shared-memory version of write_coordination_file replaces the file in place, so
mutation.py can read any mixture of the old bytes, cut or padded, and the new ones.
The loop body takes every text with the right start for a command, whatever stands
behind it.
-/

namespace Tbouncer.Mutation
open Base

/- What one pass over the content does: the calls on bpf and the resulting
(attached, saved_name). `none` is the UnicodeDecodeError, which ends the script. -/
def effect (v : LoopVars) (content : Bytes) : Option (List BpfCall × Bool × Text) :=
  (readText content).map fun text =>
    ((loopBody text v).2, (loopBody text v).1.attached, (loopBody text v).1.savedName)

def unchanged (v : LoopVars) : List BpfCall × Bool × Text := ([], v.attached, v.savedName)

/- `old` is the content before the call, `new` the string written. -/
def Harmless (old new : Bytes) : Prop :=
  ∀ c, Seen 0 old new c → ∀ v,
    effect v c = effect v old ∨ effect v c = effect v new ∨ effect v c = some (unchanged v)

/-! ### Effects and commands -/

def commandAt (content : Bytes) : Option Command := (readText content).map commandOf

def effectOf (v : LoopVars) : Command → List BpfCall × Bool × Text
  | .foreign => unchanged v
  | .done => ([], false, v.savedName)
  | .start x => if v.attached then unchanged v else ([.attachKretprobe x], true, x)

theorem effect_eq (v : LoopVars) (content : Bytes) :
    effect v content = (commandAt content).map (effectOf v) := by
  rw [effect, commandAt, Option.map_map]
  congr 1
  funext text
  rw [Function.comp_apply]
  cases hc : commandOf text with
  | foreign => rw [loopBody_foreign hc, effectOf, unchanged]
  | done => rw [loopBody_done hc, effectOf]
  | start x =>
    rw [(loopBody_start hc v).2, effectOf]
    split
    · rfl
    · rfl

/- Some state tells a command from every other one. -/
theorem effectOf_separates {k : Command} (hk : k ≠ .foreign) :
    ∃ v, effectOf v k ≠ unchanged v ∧ ∀ k', k' ≠ k → effectOf v k' ≠ effectOf v k := by
  cases k with
  | foreign => exact absurd rfl hk
  | done =>
    refine ⟨⟨true, [], []⟩, by decide, fun k' hk' => ?_⟩
    cases k' with
    | done => exact absurd rfl hk'
    | foreign => simp [effectOf, unchanged]
    | start x => simp [effectOf, unchanged]
  | start x =>
    refine ⟨LoopVars.start, by simp [effectOf, unchanged, LoopVars.start], fun k' hk' => ?_⟩
    cases k' with
    | foreign => simp [effectOf, unchanged, LoopVars.start]
    | done => simp [effectOf, LoopVars.start]
    | start y =>
      have hy : y ≠ x := fun he => hk' (by rw [he])
      simp [effectOf, LoopVars.start, hy]

/- For a content that reads as a command, or cannot be read, some state tells it from
all contents that read otherwise. -/
theorem effect_separates {c : Bytes} (hc : commandAt c ≠ some .foreign) :
    ∃ v, effect v c ≠ some (unchanged v) ∧
      ∀ b, effect v c = effect v b → commandAt c = commandAt b := by
  cases hk : commandAt c with
  | none =>
    refine ⟨LoopVars.start, ?_, fun b hb => ?_⟩
    · rw [effect_eq, hk]
      exact nofun
    · rw [effect_eq, effect_eq, hk, Option.map_none, eq_comm, Option.map_eq_none_iff] at hb
      exact hb.symm
  | some k =>
    have hf : k ≠ .foreign := fun he => hc (by rw [hk, he])
    obtain ⟨v, hun, hsep⟩ := effectOf_separates hf
    refine ⟨v, ?_, fun b hb => ?_⟩
    · rw [effect_eq, hk, Option.map_some, ne_eq, Option.some.injEq]
      exact hun
    · rw [effect_eq, effect_eq, hk, Option.map_some] at hb
      obtain ⟨k', hk', heq⟩ := Option.map_eq_some_iff.mp hb.symm
      rw [hk']
      by_contra hne
      exact hsep k' (fun he => hne (by rw [he])) heq

theorem command_of_harmless {old new c : Bytes} (h : Harmless old new) (hc : Seen 0 old new c) :
    commandAt c = some .foreign ∨ commandAt c = commandAt old ∨ commandAt c = commandAt new := by
  by_cases hf : commandAt c = some .foreign
  · exact Or.inl hf
  · obtain ⟨v, hun, hsep⟩ := effect_separates hf
    rcases h c hc v with ho | hn | hu
    · exact Or.inr (Or.inl (hsep old ho))
    · exact Or.inr (Or.inr (hsep new hn))
    · exact absurd hu hun

theorem harmless_of_command {old new : Bytes}
    (h : ∀ c, Seen 0 old new c → commandAt c = some .foreign ∨ commandAt c = commandAt old ∨
      commandAt c = commandAt new) : Harmless old new := by
  intro c hc v
  rcases h c hc with hf | ho | hn
  · exact Or.inr (Or.inr (by rw [effect_eq, hf]; rfl))
  · exact Or.inl (by rw [effect_eq, effect_eq, ho])
  · exact Or.inr (Or.inl (by rw [effect_eq, effect_eq, hn]))

/-- A write is harmless exactly when every content seen that reads as a command reads
as the command of the old content or of the new one. -/
theorem harmless_iff (old new : Bytes) :
    Harmless old new ↔ ∀ c, Seen 0 old new c →
      commandAt c = some .foreign ∨ commandAt c = commandAt old ∨ commandAt c = commandAt new := by
  constructor
  · intro h c hc
    exact command_of_harmless h hc
  · exact harmless_of_command

/-- The file still holds the last command of a mutation test when a demo writes its
own name: right after ftruncate it reads `mutation_done` with three NUL bytes. -/
theorem harmless_fails :
    ¬ Harmless (encodeUtf8 "mutation_done".toList) (encodeUtf8 "iago_attack_read".toList) := by
  intro h
  have hall := h _ (seen_fit 0 _ _) LoopVars.start
  exact absurd hall (by decide)

/-! ### Every command written over a shorter file -/

/- What a command reads as fits into the file it is read from. -/
theorem start_length_le {b : Bytes} {x : Text} (h : commandAt b = some (.start x)) :
    (encodeUtf8 (commandPrefix ++ x)).length ≤ b.length := by
  obtain ⟨text, hread, hc⟩ := Option.map_eq_some_iff.mp h
  have hstrip : strip text = commandPrefix ++ x := by
    simp only [commandOf] at hc
    split at hc
    next hp =>
      split at hc
      next => cases hc
      next =>
        cases hc
        obtain ⟨t, ht⟩ := List.isPrefixOf_iff_prefix.mp hp
        rw [← ht, List.drop_left]
    next => cases hc
  rw [← hstrip]
  exact readText_strip_length_le hread

theorem commandAt_encodeUtf8 {x : Text} (hx : ∀ c ∈ x, isSpace c = false) (hd : x ≠ doneName) :
    commandAt (encodeUtf8 (commandPrefix ++ x)) = some (.start x) := by
  rw [commandAt, readText_encodeUtf8, universalNewlines_of_no_space _ (command_no_space hx),
    Option.map_some,
    commandOf_mutation x hx hd]

/- All bytes but the last one are stored, and behind the old end there are NULs. -/
theorem torn_all_but_last (old p : Bytes) (b : UInt8) (h : old.length ≤ p.length) :
    Torn 0 old (p ++ [b]) (p ++ [0]) := by
  refine ⟨by simp, fun i hi => ?_⟩
  simp only [List.length_append, List.length_cons, List.length_nil] at hi
  by_cases hlast : i < p.length
  · exact Or.inl (by rw [List.getElem?_append_left hlast, List.getElem?_append_left hlast])
  · have hi' : i = p.length := by omega
    refine Or.inr ?_
    subst hi'
    rw [fit_getElem?_of_ge 0 h (by simp)]
    simp

theorem encodeUtf8_command_snoc (x : Text) (z : Char) :
    encodeUtf8 (commandPrefix ++ (x ++ [z])) =
      encodeUtf8 (commandPrefix ++ x) ++ encodeUtf8 [z] := by
  rw [← List.append_assoc, encodeUtf8_append]

theorem commandAt_snoc {x : Text} {z : Char} (hx : ∀ c ∈ x, isSpace c = false)
    (hz : isSpace z = false) :
    commandAt (encodeUtf8 (commandPrefix ++ (x ++ [z]))) =
      some (if x ++ [z] = doneName then .done else .start (x ++ [z])) := by
  have hword : ∀ c ∈ x ++ [z], isSpace c = false := by
    intro c hc
    rcases List.mem_append.mp hc with hin | hin
    · exact hx c hin
    · rw [List.mem_singleton.mp hin]
      exact hz
  by_cases hd : x ++ [z] = doneName
  · rw [if_pos hd, hd]
    decide
  · rw [if_neg hd, commandAt_encodeUtf8 hword hd]

/- Cut behind its last but one character and padded, a command is still a start. -/
theorem commandAt_padded {x : Text} (hx : ∀ c ∈ x, isSpace c = false) :
    commandAt (encodeUtf8 (commandPrefix ++ (x ++ ['\x00']))) = some (.start (x ++ ['\x00'])) := by
  have hdone : x ++ ['\x00'] ≠ doneName := by
    intro he
    have hlast : (x ++ ['\x00']).getLast? = doneName.getLast? := by rw [he]
    rw [List.getLast?_concat] at hlast
    exact absurd hlast (by decide)
  rw [commandAt_snoc hx (by decide), if_neg hdone]

/-- A command is never harmless when the file was shorter than it. -/
theorem not_harmless_of_shorter (old : Bytes) (x : Text) (z : Char)
    (hx : ∀ c ∈ x, isSpace c = false) (hz : isSpace z = false) (hnul : z ≠ '\x00')
    (hone : z.utf8Size = 1)
    (hlen : old.length < (encodeUtf8 (commandPrefix ++ (x ++ [z]))).length) :
    ¬ Harmless old (encodeUtf8 (commandPrefix ++ (x ++ [z]))) := by
  intro h
  obtain ⟨b, hb⟩ : ∃ b, encodeUtf8 [z] = [b] := by
    have hl : (encodeUtf8 [z]).length = 1 := by simpa [encodeUtf8] using hone
    exact List.length_eq_one_iff.mp hl
  have hnew := encodeUtf8_command_snoc x z
  have hcut : encodeUtf8 (commandPrefix ++ (x ++ ['\x00'])) =
      encodeUtf8 (commandPrefix ++ x) ++ [0] := encodeUtf8_command_snoc x '\x00'
  rw [hb] at hnew
  rw [hnew, List.length_append, List.length_singleton] at hlen
  have hseen : Seen 0 old (encodeUtf8 (commandPrefix ++ (x ++ [z])))
      (encodeUtf8 (commandPrefix ++ (x ++ ['\x00']))) := by
    rw [hnew, hcut, seen_iff_torn]
    exact torn_all_but_last old _ b (by omega)
  rcases command_of_harmless h hseen with hf | ho | hn
  · rw [commandAt_padded hx] at hf
    cases hf
  · -- the old file is too short to hold this command
    have hfits := start_length_le (ho.symm.trans (commandAt_padded hx))
    rw [hcut, List.length_append, List.length_singleton] at hfits
    omega
  · rw [commandAt_padded hx, commandAt_snoc hx hz, Option.some.injEq] at hn
    split at hn
    · cases hn
    · simp only [Command.start.injEq, List.append_cancel_left_eq, List.cons.injEq, and_true] at hn
      exact hnul hn.symm

/-! ### Words: the places where the two strings differ -/

def commandBytes : Bytes := encodeUtf8 commandPrefix

theorem commandOf_prefixed {x : Text} (h : strip (commandPrefix ++ x) = commandPrefix ++ x) :
    commandOf (commandPrefix ++ x) = if x = doneName then .done else .start x := by
  have hp : startsWith (commandPrefix ++ x) commandPrefix = true :=
    List.isPrefixOf_iff_prefix.mpr (List.prefix_append commandPrefix x)
  simp only [commandOf, h, hp, if_true, List.drop_left]

theorem commandOf_unprefixed {word : Text} (h : strip word = word)
    (hp : ¬ commandPrefix <+: word) : commandOf word = .foreign := by
  have hs : startsWith word commandPrefix = false := by
    rw [← Bool.not_eq_true]
    exact fun hs => hp (List.isPrefixOf_iff_prefix.mp hs)
  simp only [commandOf, h, hs, Bool.false_eq_true, if_false]

/- Words are commands if they begin like one, and then no two are the same command. -/
theorem commandAt_word_cases {content : Bytes} (h : ∀ b ∈ content, OneByte b) :
    (¬ commandBytes <+: content ∧ commandAt content = some .foreign) ∨
      ∃ x, content = commandBytes ++ encodeUtf8 x ∧
        commandAt content = some (if x = doneName then .done else .start x) := by
  obtain ⟨word, hword, hread, hstrip⟩ := readText_of_oneByte h
  have hcommand : commandAt content = some (commandOf word) := by
    rw [commandAt, hread, Option.map_some]
  by_cases hp : commandPrefix <+: word
  · obtain ⟨x, rfl⟩ := hp
    refine Or.inr ⟨x, by rw [hword, encodeUtf8_append]; rfl, ?_⟩
    rw [hcommand, commandOf_prefixed hstrip]
  · refine Or.inl ⟨?_, by rw [hcommand, commandOf_unprefixed hstrip hp]⟩
    rintro ⟨tail, htail⟩
    obtain ⟨x, hx, -⟩ := word_of_oneByte fun b hb =>
      h b (by rw [← htail]; exact List.mem_append_right _ hb)
    have heq : encodeUtf8 (commandPrefix ++ x) = encodeUtf8 word := by
      rw [encodeUtf8_append, ← hx, ← hword]
      exact htail
    exact hp ⟨x, encodeUtf8_inj.mp heq⟩

theorem eq_of_commandAt {a b : Bytes} (ha : ∀ x ∈ a, OneByte x) (hb : ∀ x ∈ b, OneByte x)
    (hc : commandAt a ≠ some .foreign) (h : commandAt a = commandAt b) : a = b := by
  obtain ⟨-, hf⟩ | ⟨x, rfl, hx⟩ := commandAt_word_cases ha
  · exact absurd hf hc
  · obtain ⟨-, hf⟩ | ⟨y, rfl, hy⟩ := commandAt_word_cases hb
    · exact absurd (h.trans hf) hc
    · rw [hx, hy, Option.some.injEq] at h
      have hxy : x = y := by
        split at h <;> split at h
        next hxd hyd => rw [hxd, hyd]
        next => cases h
        next => cases h
        next => exact Command.start.inj h
      rw [hxy]

theorem harmless_iff_prefixed {old new : Bytes} (hold : ∀ b ∈ old, OneByte b)
    (hnew : ∀ b ∈ new, OneByte b) :
    Harmless old new ↔
      ∀ c, Torn 0 old new c → commandBytes <+: c → c = old ∨ c = new := by
  have hnul : OneByte 0 := ⟨'\x00', by decide, by decide⟩
  have hword : ∀ c, Torn 0 old new c → ∀ b ∈ c, OneByte b := by
    intro c hc b hb
    obtain ⟨i, hi, rfl⟩ := List.mem_iff_getElem.mp hb
    have hplace := hc.2 i (hc.1 ▸ hi)
    rw [List.getElem?_eq_getElem hi] at hplace
    rcases hplace with hin | hin
    · exact hnew _ (List.mem_of_getElem? hin.symm)
    · rcases mem_fit 0 (List.mem_of_getElem? hin.symm) with ho | hz
      · exact hold _ ho
      · rw [hz]
        exact hnul
  constructor
  · intro h c hc hp
    have hcommand : commandAt c ≠ some .foreign := by
      obtain ⟨hn, -⟩ | ⟨x, -, hx⟩ := commandAt_word_cases (hword c hc)
      · exact absurd hp hn
      · rw [hx]
        split <;> simp
    rcases command_of_harmless h ((seen_iff_torn 0).mpr hc) with hf | ho | hn
    · exact absurd hf hcommand
    · exact Or.inl (eq_of_commandAt (hword c hc) hold hcommand ho)
    · exact Or.inr (eq_of_commandAt (hword c hc) hnew hcommand hn)
  · intro h
    refine harmless_of_command fun c hseen => ?_
    have hc := torn_of_seen 0 hseen
    obtain ⟨-, hf⟩ | ⟨x, hx, -⟩ := commandAt_word_cases (hword c hc)
    · exact Or.inl hf
    · rcases h c hc ⟨_, hx.symm⟩ with rfl | rfl
      · exact Or.inr (Or.inl rfl)
      · exact Or.inr (Or.inr rfl)

/-- Words of one-byte characters, `padded` being the old one cut or padded to the length
of the new one: a write is harmless exactly if some place of `mutation_` is wrong in both,
or the two differ in at most one place behind `mutation_` and either rest behind
`mutation_` makes the old or the new string. -/
theorem harmless_words_iff {old new padded : Bytes} (hold : ∀ b ∈ old, OneByte b)
    (hnew : ∀ b ∈ new, OneByte b) (hpadded : padded = fit 0 new.length old) :
    Harmless old new ↔
      (∃ i < commandBytes.length, commandBytes[i]? ≠ new[i]? ∧ commandBytes[i]? ≠ padded[i]?) ∨
      (OnePlace (padded.drop commandBytes.length) (new.drop commandBytes.length) ∧
        ∀ rest ∈ [padded.drop commandBytes.length, new.drop commandBytes.length],
          commandBytes ++ rest = old ∨ commandBytes ++ rest = new) := by
  subst hpadded
  rw [harmless_iff_prefixed hold hnew, prefixed_two_iff]

/-- A command is harmless exactly if the old content, cut or padded to its length, ends
like it, or is a command of the same length that differs in at most one place. -/
theorem harmless_command_iff {old y : Bytes} (hold : ∀ b ∈ old, OneByte b)
    (hy : ∀ b ∈ y, OneByte b) :
    Harmless old (commandBytes ++ y) ↔
      (fit 0 (commandBytes ++ y).length old).drop commandBytes.length = y ∨
      (commandBytes <+: old ∧ old.length = (commandBytes ++ y).length ∧
        OnePlace old (commandBytes ++ y)) := by
  have hprefix : ∀ b ∈ commandBytes, OneByte b := oneByte_of_all (by decide)
  have hnew : ∀ b ∈ commandBytes ++ y, OneByte b := by
    intro b hb
    rcases List.mem_append.mp hb with hin | hin
    · exact hprefix b hin
    · exact hy b hin
  rw [harmless_words_iff hold hnew rfl, List.drop_left]
  constructor
  · rintro (⟨i, hi, hne, -⟩ | ⟨hone, hends⟩)
    · rw [List.getElem?_append_left hi] at hne
      exact absurd rfl hne
    · rcases hends _ (List.mem_cons_self ..) with ho | hn
      · -- the old content is the command its padded end makes
        have hlen : old.length = (commandBytes ++ y).length := by
          rw [← ho]
          simp
        refine Or.inr ⟨⟨_, ho⟩, hlen, ?_⟩
        rw [← ho, onePlace_append_left]
        exact hone
      · exact Or.inl (List.append_cancel_left hn)
  · rintro (heq | ⟨⟨x, rfl⟩, hlen, hone⟩)
    · rw [heq]
      exact Or.inr ⟨fun i j hi _ => absurd rfl hi, by simp⟩
    · rw [fit_of_length 0 hlen, List.drop_left]
      exact Or.inr ⟨(onePlace_append_left _ _ _).mp hone, by simp⟩

/- The version with open(O_TRUNC) shows the empty file between two strings. -/
theorem effect_nil (v : LoopVars) : effect v [] = some (unchanged v) := by
  have hc : commandAt [] = some .foreign := by decide
  rw [effect_eq, hc]
  rfl

end Tbouncer.Mutation
