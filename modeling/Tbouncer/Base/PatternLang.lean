import Tbouncer.Base.Pattern

/-!
# The language of a pattern

`Matches p u` says what texts a pattern stands for, without an order of attempts. The
backtracking matcher finds exactly these, and a search for a word behind a match finds
the whole word.
-/

namespace Tbouncer.Base.Pattern

inductive Matches : Pattern → Text → Prop where
  | char {accepts c} : accepts c = true → Matches (char accepts) [c]
  | empty : Matches empty []
  | seq {p q u v} : Matches p u → Matches q v → Matches (seq p q) (u ++ v)
  | altLeft {p q u} : Matches p u → Matches (alt p q) u
  | altRight {p q u} : Matches q u → Matches (alt p q) u
  | starNil {p} : Matches (star p) []
  | starCons {p u v} : u ≠ [] → Matches p u → Matches (star p) v → Matches (star p) (u ++ v)

/-! ### The matcher finds the language -/

section
variable {p : Pattern} {f : Text → List Text}

theorem repeat_of_mem (hf : ∀ s t, t ∈ f s → ∃ u, s = u ++ t ∧ Matches p u) (fuel : ℕ)
    (s t : Text) (h : t ∈ repeatRests f fuel s) : ∃ u, s = u ++ t ∧ Matches (star p) u := by
  induction fuel generalizing s with
  | zero =>
    rw [repeatRests, List.mem_singleton] at h
    exact ⟨[], by rw [h, List.nil_append], Matches.starNil⟩
  | succ fuel ih =>
    rw [repeatRests, List.mem_append, List.mem_singleton] at h
    rcases h with h | h
    · obtain ⟨r, hr, hrest⟩ := List.mem_flatMap.mp h
      rw [List.mem_filter, decide_eq_true_eq] at hr
      obtain ⟨u, rfl, hu⟩ := hf s r hr.1
      obtain ⟨v, rfl, hv⟩ := ih r hrest
      have hne : u ≠ [] := by
        rintro rfl
        exact Nat.lt_irrefl _ hr.2
      exact ⟨u ++ v, (List.append_assoc u v t).symm, Matches.starCons hne hu hv⟩
    · exact ⟨[], by rw [h, List.nil_append], Matches.starNil⟩

/- The fuel is the length of the text: every repetition consumes some of it. -/
theorem mem_repeat (hf : ∀ u t, Matches p u → t ∈ f (u ++ t)) {u : Text}
    (h : Matches (star p) u) (fuel : ℕ) (hfuel : u.length ≤ fuel) (t : Text) :
    t ∈ repeatRests f fuel (u ++ t) := by
  generalize hp : star p = q at h
  induction h generalizing fuel with
  | starNil =>
    cases fuel with
    | zero => exact List.mem_singleton_self t
    | succ fuel => exact List.mem_append_right _ (List.mem_singleton_self t)
  | @starCons p' u v hne hu _ _ ih =>
    obtain rfl := Pattern.star.inj hp
    have hpos : 0 < u.length := List.length_pos_iff.mpr hne
    rw [List.length_append] at hfuel
    cases fuel with
    | zero => omega
    | succ fuel =>
      rw [repeatRests, List.append_assoc]
      apply List.mem_append_left
      refine List.mem_flatMap.mpr ⟨v ++ t, ?_, ih fuel (by omega) rfl⟩
      rw [List.mem_filter, decide_eq_true_eq]
      refine ⟨hf u (v ++ t) hu, ?_⟩
      simp only [List.length_append]
      omega
  | char => cases hp
  | empty => cases hp
  | seq => cases hp
  | altLeft => cases hp
  | altRight => cases hp

end

theorem matches_of_mem_rests (p : Pattern) (s t : Text) (h : t ∈ rests p s) :
    ∃ u, s = u ++ t ∧ Matches p u := by
  induction p generalizing s t with
  | char accepts =>
    cases s with
    | nil => cases h
    | cons c s =>
      rw [rests] at h
      split at h
      next hc =>
        obtain rfl := List.mem_singleton.mp h
        exact ⟨[c], rfl, Matches.char hc⟩
      next => cases h
  | empty =>
    obtain rfl := List.mem_singleton.mp h
    exact ⟨[], rfl, Matches.empty⟩
  | seq p q ihp ihq =>
    obtain ⟨r, hr, hrest⟩ := List.mem_flatMap.mp h
    obtain ⟨u, rfl, hu⟩ := ihp s r hr
    obtain ⟨v, rfl, hv⟩ := ihq r t hrest
    exact ⟨u ++ v, (List.append_assoc u v t).symm, Matches.seq hu hv⟩
  | alt p q ihp ihq =>
    rcases List.mem_append.mp h with h | h
    · obtain ⟨u, hs, hu⟩ := ihp s t h
      exact ⟨u, hs, Matches.altLeft hu⟩
    · obtain ⟨u, hs, hu⟩ := ihq s t h
      exact ⟨u, hs, Matches.altRight hu⟩
  | star p ih => exact repeat_of_mem ih s.length s t h

theorem mem_rests_of_matches {p : Pattern} {u : Text} (h : Matches p u) (t : Text) :
    t ∈ rests p (u ++ t) := by
  induction p generalizing u t with
  | char accepts =>
    cases h with
    | char hc => simp [rests, hc]
  | empty =>
    cases h
    exact List.mem_singleton_self t
  | seq p q ihp ihq =>
    cases h with
    | seq hu hv =>
      rw [List.append_assoc]
      exact List.mem_flatMap.mpr ⟨_, ihp hu _, ihq hv t⟩
  | alt p q ihp ihq =>
    cases h with
    | altLeft hu => exact List.mem_append_left _ (ihp hu t)
    | altRight hu => exact List.mem_append_right _ (ihq hu t)
  | star p ih =>
    refine mem_repeat (fun u t hu => ih hu t) h _ ?_ t
    rw [List.length_append]
    omega

/-- What may remain after a match is what remains behind a text of the language. -/
theorem mem_rests_iff {p : Pattern} {s t : Text} :
    t ∈ rests p s ↔ ∃ u, s = u ++ t ∧ Matches p u := by
  constructor
  · exact matches_of_mem_rests p s t
  · rintro ⟨u, rfl, hu⟩
    exact mem_rests_of_matches hu t

theorem matchesAt_iff {p : Pattern} {s : Text} :
    matchesAt p s = true ↔ ∃ u t, s = u ++ t ∧ Matches p u := by
  rw [matchesAt, Bool.not_eq_true', List.isEmpty_eq_false_iff_exists_mem]
  constructor
  · rintro ⟨t, ht⟩
    obtain ⟨u, hs, hu⟩ := mem_rests_iff.mp ht
    exact ⟨u, t, hs, hu⟩
  · rintro ⟨u, t, hs, hu⟩
    exact ⟨t, mem_rests_iff.mpr ⟨u, hs, hu⟩⟩

/-! ### The languages of the constructs -/

theorem matches_seq_iff {p q : Pattern} {u : Text} :
    Matches (seq p q) u ↔ ∃ v w, u = v ++ w ∧ Matches p v ∧ Matches q w := by
  constructor
  · intro h
    cases h with
    | seq hv hw => exact ⟨_, _, rfl, hv, hw⟩
  · rintro ⟨v, w, rfl, hv, hw⟩
    exact Matches.seq hv hw

theorem matches_alt_iff {p q : Pattern} {u : Text} :
    Matches (alt p q) u ↔ Matches p u ∨ Matches q u := by
  constructor
  · intro h
    cases h with
    | altLeft h => exact Or.inl h
    | altRight h => exact Or.inr h
  · rintro (h | h)
    · exact Matches.altLeft h
    · exact Matches.altRight h

theorem matches_empty_iff {u : Text} : Matches empty u ↔ u = [] := by
  constructor
  · intro h
    cases h
    rfl
  · rintro rfl
    exact Matches.empty

theorem matches_char_iff {accepts : Char → Bool} {u : Text} :
    Matches (char accepts) u ↔ ∃ c, u = [c] ∧ accepts c = true := by
  constructor
  · intro h
    cases h with
    | char hc => exact ⟨_, rfl, hc⟩
  · rintro ⟨c, rfl, hc⟩
    exact Matches.char hc

theorem matches_lit_iff {s u : Text} : Matches (lit s) u ↔ u = s := by
  induction s generalizing u with
  | nil => exact matches_empty_iff
  | cons c s ih =>
    show Matches (seq (char (· == c)) (lit s)) u ↔ u = c :: s
    rw [matches_seq_iff]
    constructor
    · rintro ⟨v, w, rfl, hv, hw⟩
      obtain ⟨d, rfl, hd⟩ := matches_char_iff.mp hv
      rw [ih.mp hw, eq_of_beq hd]
      rfl
    · rintro rfl
      exact ⟨[c], s, rfl, Matches.char (beq_self_eq_true c), ih.mpr rfl⟩

theorem matches_star_char_iff {accepts : Char → Bool} {u : Text} :
    Matches (star (char accepts)) u ↔ ∀ c ∈ u, accepts c = true := by
  constructor
  · intro h
    generalize hp : star (char accepts) = q at h
    induction h with
    | starNil => exact List.forall_mem_nil _
    | starCons _ hu _ _ ih =>
      obtain rfl := Pattern.star.inj hp
      obtain ⟨c, rfl, hc⟩ := matches_char_iff.mp hu
      exact List.forall_mem_cons.mpr ⟨hc, ih rfl⟩
    | char => cases hp
    | empty => cases hp
    | seq => cases hp
    | altLeft => cases hp
    | altRight => cases hp
  · intro h
    induction u with
    | nil => exact Matches.starNil
    | cons c u ih =>
      obtain ⟨hc, hu⟩ := List.forall_mem_cons.mp h
      exact Matches.starCons (List.cons_ne_nil c []) (Matches.char hc) (ih hu)

theorem matches_plus_char_iff {accepts : Char → Bool} {u : Text} :
    Matches (plus (char accepts)) u ↔ u ≠ [] ∧ ∀ c ∈ u, accepts c = true := by
  rw [plus, matches_seq_iff]
  constructor
  · rintro ⟨v, w, rfl, hv, hw⟩
    obtain ⟨c, rfl, hc⟩ := matches_char_iff.mp hv
    exact ⟨List.cons_ne_nil c w, List.forall_mem_cons.mpr ⟨hc, matches_star_char_iff.mp hw⟩⟩
  · rintro ⟨hne, h⟩
    cases u with
    | nil => exact absurd rfl hne
    | cons c u =>
      obtain ⟨hc, hu⟩ := List.forall_mem_cons.mp h
      exact ⟨[c], u, rfl, Matches.char hc, matches_star_char_iff.mpr hu⟩

/-! ### Searching -/

/- Somewhere in `s` a text of `before` is followed by one of `group`. -/
def Occurs (before group : Pattern) (s : Text) : Prop :=
  ∃ a m g b, s = a ++ (m ++ (g ++ b)) ∧ Matches before m ∧ Matches group g

theorem captureAt_eq_none_iff {before group : Pattern} {s : Text} :
    captureAt before group s = none ↔
      ¬ ∃ m g b, s = m ++ (g ++ b) ∧ Matches before m ∧ Matches group g := by
  rw [captureAt, List.head?_eq_none_iff, List.flatMap_eq_nil_iff]
  constructor
  · rintro h ⟨m, g, b, rfl, hm, hg⟩
    have hnil := h (g ++ b) (mem_rests_of_matches hm (g ++ b))
    rw [List.map_eq_nil_iff] at hnil
    have hmem := mem_rests_of_matches hg b
    rw [hnil] at hmem
    cases hmem
  · intro h u hu
    rw [List.map_eq_nil_iff, List.eq_nil_iff_forall_not_mem]
    intro b hb
    obtain ⟨m, rfl, hm⟩ := mem_rests_iff.mp hu
    obtain ⟨g, rfl, hg⟩ := mem_rests_iff.mp hb
    exact h ⟨m, g, b, rfl, hm, hg⟩

theorem search_eq_none_iff {before group : Pattern} {s : Text} :
    search before group s = none ↔ ¬ Occurs before group s := by
  induction s with
  | nil =>
    rw [search, captureAt_eq_none_iff]
    constructor
    · rintro h ⟨a, m, g, b, heq, hm, hg⟩
      obtain ⟨-, hrest⟩ := List.append_eq_nil_iff.mp heq.symm
      exact h ⟨m, g, b, hrest.symm, hm, hg⟩
    · rintro h ⟨m, g, b, heq, hm, hg⟩
      exact h ⟨[], m, g, b, heq, hm, hg⟩
  | cons c s ih =>
    rw [search]
    cases hat : captureAt before group (c :: s) with
    | some g =>
      have hsome : captureAt before group (c :: s) ≠ none := by
        rw [hat]
        exact Option.some_ne_none g
      rw [Ne, captureAt_eq_none_iff, not_not] at hsome
      obtain ⟨m, g', b, heq, hm, hg⟩ := hsome
      simp only [reduceCtorEq, false_iff, not_not]
      exact ⟨[], m, g', b, heq, hm, hg⟩
    | none =>
      rw [captureAt_eq_none_iff] at hat
      show search before group s = none ↔ _
      rw [ih]
      apply not_congr
      constructor
      · rintro ⟨a, m, g, b, rfl, hm, hg⟩
        exact ⟨c :: a, m, g, b, rfl, hm, hg⟩
      · rintro ⟨a, m, g, b, heq, hm, hg⟩
        cases a with
        | nil => exact absurd ⟨m, g, b, heq, hm, hg⟩ hat
        | cons d a =>
          obtain ⟨-, rfl⟩ := List.cons.inj heq
          exact ⟨a, m, g, b, rfl, hm, hg⟩

/- A greedy repetition tries all it can first. -/
theorem rests_star_char_head (accepts : Char → Bool) (s : Text) :
    (rests (star (char accepts)) s).head? = some (s.dropWhile accepts) := by
  have hfuel : ∀ fuel s, s.length ≤ fuel →
      (repeatRests (rests (char accepts)) fuel s).head? = some (s.dropWhile accepts) := by
    intro fuel
    induction fuel with
    | zero =>
      intro s hs
      obtain rfl := List.length_eq_zero_iff.mp (Nat.le_zero.mp hs)
      rfl
    | succ fuel ih =>
      intro s hs
      cases s with
      | nil => rfl
      | cons c s =>
        rw [repeatRests, rests]
        cases hc : accepts c with
        | true =>
          have hrest := ih s (Nat.le_of_succ_le_succ hs)
          simp [hc, List.head?_append, hrest]
        | false => simp [hc]
  exact hfuel s.length s (Nat.le_refl _)

/- Behind a match the whole of a word is captured. -/
theorem captureAt_word {before : Pattern} {isWord : Char → Bool} {s g : Text}
    (h : captureAt before (plus (char isWord)) s = some g) :
    ∃ m b, s = m ++ (g ++ b) ∧ Matches before m ∧ Matches (plus (char isWord)) g ∧
      ∀ c, b.head? = some c → isWord c = false := by
  rw [captureAt, List.head?_flatMap] at h
  obtain ⟨u, hu, hg⟩ := List.exists_of_findSome?_eq_some h
  obtain ⟨m, rfl, hm⟩ := mem_rests_iff.mp hu
  rw [List.head?_map, Option.map_eq_some_iff] at hg
  obtain ⟨b, hb, rfl⟩ := hg
  obtain ⟨g, rfl, hg⟩ := mem_rests_iff.mp (List.mem_of_mem_head? hb)
  have htake : (g ++ b).take ((g ++ b).length - b.length) = g := by
    rw [List.length_append, Nat.add_sub_cancel, List.take_left]
  rw [htake]
  refine ⟨m, b, rfl, hm, hg, fun d hd => ?_⟩
  obtain ⟨hne, hall⟩ := matches_plus_char_iff.mp hg
  cases g with
  | nil => exact absurd rfl hne
  | cons c g =>
    have hc : isWord c = true := hall c (List.mem_cons_self ..)
    rw [plus, rests, List.cons_append, rests, if_pos hc, List.flatMap_singleton,
      rests_star_char_head] at hb
    have hnot := List.head?_dropWhile_not isWord (g ++ b)
    rw [Option.some.inj hb, hd] at hnot
    simpa using hnot

/-- The leftmost occurrence, and of a word behind it all of the word. -/
theorem search_word {before : Pattern} {isWord : Char → Bool} {s g : Text}
    (h : search before (plus (char isWord)) s = some g) :
    ∃ a m b, s = a ++ (m ++ (g ++ b)) ∧ Matches before m ∧ Matches (plus (char isWord)) g ∧
      (∀ c, b.head? = some c → isWord c = false) ∧
      ∀ a' m' g' b', s = a' ++ (m' ++ (g' ++ b')) → Matches before m' →
        Matches (plus (char isWord)) g' → a.length ≤ a'.length := by
  induction s with
  | nil =>
    obtain ⟨m, b, hs, hm, hg, hb⟩ := captureAt_word h
    exact ⟨[], m, b, hs, hm, hg, hb, fun _ _ _ _ _ _ _ => Nat.zero_le _⟩
  | cons c s ih =>
    rw [search] at h
    split at h
    next g' hfound =>
      obtain rfl := Option.some.inj h
      obtain ⟨m, b, hs, hm, hg, hb⟩ := captureAt_word hfound
      exact ⟨[], m, b, hs, hm, hg, hb, fun _ _ _ _ _ _ _ => Nat.zero_le _⟩
    next hnone =>
      obtain ⟨a, m, b, rfl, hm, hg, hb, hleft⟩ := ih h
      refine ⟨c :: a, m, b, rfl, hm, hg, hb, fun a' m' g' b' hs hm' hg' => ?_⟩
      cases a' with
      | nil => exact absurd ⟨m', g', b', hs, hm', hg'⟩ (captureAt_eq_none_iff.mp hnone)
      | cons d a' =>
        obtain ⟨-, hs'⟩ := List.cons.inj hs
        exact Nat.succ_le_succ (hleft a' m' g' b' hs' hm' hg')

end Tbouncer.Base.Pattern
