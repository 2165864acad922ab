import Mathlib.Data.Finset.Basic
import Mathlib.Data.List.Induction

/-!
# Overwriting a buffer element by element

A buffer is first brought to the length of the new contents, then the new elements
are stored one at a time in some order. What another party can see meanwhile
(`Seen`) has the old element or the new one at each place, and everything of that
kind can be seen (`seen_iff_torn`).
-/

namespace Tbouncer.Base

section
variable {α : Type} (pad : α)

/- Cut or padded to length `n`. -/
def fit (n : ℕ) (old : List α) : List α := old.take n ++ List.replicate (n - old.length) pad

@[simp] theorem fit_length (n : ℕ) (old : List α) : (fit pad n old).length = n := by
  simp only [fit, List.length_append, List.length_take, List.length_replicate]
  omega

theorem fit_getElem?_of_ge {n i : ℕ} {old : List α} (hi : old.length ≤ i) (hn : i < n) :
    (fit pad n old)[i]? = some pad := by
  have htake : (old.take n).length ≤ i := by
    rw [List.length_take]
    omega
  rw [fit, List.getElem?_append_right htake, List.getElem?_replicate, if_pos]
  rw [List.length_take]
  omega

theorem mem_fit {n : ℕ} {old : List α} {x : α} (h : x ∈ fit pad n old) : x ∈ old ∨ x = pad := by
  rcases List.mem_append.mp h with hold | hpad
  · exact Or.inl (List.mem_of_mem_take hold)
  · exact Or.inr (List.eq_of_mem_replicate hpad)

def storeAt (new cur : List α) (i : ℕ) : List α :=
  match new[i]? with
  | some x => cur.set i x
  | none => cur

@[simp] theorem storeAt_length (new cur : List α) (i : ℕ) :
    (storeAt new cur i).length = cur.length := by
  unfold storeAt
  split
  · exact List.length_set
  · rfl

theorem storeAt_getElem? {new cur : List α} (hlen : cur.length = new.length) (i j : ℕ) :
    (storeAt new cur i)[j]? = if j = i then new[j]? else cur[j]? := by
  unfold storeAt
  cases hx : new[i]? with
  | some x =>
    have hi : i < cur.length := by
      rw [hlen]
      exact (List.getElem?_eq_some_iff.mp hx).1
    by_cases hj : j = i
    · subst hj
      rw [if_pos rfl, List.getElem?_set_self hi, hx]
    · rw [if_neg hj, List.getElem?_set_ne (Ne.symm hj)]
  | none =>
    by_cases hj : j = i
    · subst hj
      have hout : cur[j]? = none := by
        rw [List.getElem?_eq_none_iff, hlen]
        exact List.getElem?_eq_none_iff.mp hx
      rw [if_pos rfl, hx, hout]
    · rw [if_neg hj]

theorem foldl_storeAt_getElem? {new cur : List α} (hlen : cur.length = new.length) (is : List ℕ)
    (j : ℕ) : (is.foldl (storeAt new) cur)[j]? = if j ∈ is then new[j]? else cur[j]? := by
  induction is generalizing cur with
  | nil => rfl
  | cons i is ih =>
    have hstep : (storeAt new cur i).length = new.length := by rw [storeAt_length, hlen]
    rw [List.foldl_cons, ih hstep, storeAt_getElem? hlen]
    by_cases hj : j = i
    · simp [hj]
    · simp [hj]

/- What can be seen while `new` replaces `old`: some of the elements are stored. -/
def Seen (old new cur : List α) : Prop :=
  ∃ is : List ℕ, cur = is.foldl (storeAt new) (fit pad new.length old)

/- The same, place by place. -/
def Torn (old new cur : List α) : Prop :=
  cur.length = new.length ∧
    ∀ i < new.length, cur[i]? = new[i]? ∨ cur[i]? = (fit pad new.length old)[i]?

theorem seen_fit (old new : List α) : Seen pad old new (fit pad new.length old) := ⟨[], rfl⟩

theorem torn_storeAt {old new cur : List α} (h : Torn pad old new cur) (i : ℕ) :
    Torn pad old new (storeAt new cur i) := by
  refine ⟨by rw [storeAt_length, h.1], fun j hj => ?_⟩
  rw [storeAt_getElem? h.1]
  split
  · exact Or.inl rfl
  · exact h.2 j hj

theorem torn_of_seen {old new cur : List α} (h : Seen pad old new cur) : Torn pad old new cur := by
  obtain ⟨is, rfl⟩ := h
  induction is using List.reverseRecOn with
  | nil => exact ⟨fit_length pad _ _, fun _ _ => Or.inr rfl⟩
  | append_singleton is i ih =>
    rw [List.foldl_append]
    exact torn_storeAt pad ih i

/-- Every mixture of old and new elements can be seen, and nothing else. -/
theorem seen_iff_torn [DecidableEq α] {old new cur : List α} :
    Seen pad old new cur ↔ Torn pad old new cur := by
  refine ⟨torn_of_seen pad, ?_⟩
  rintro ⟨hlen, hmix⟩
  -- store the places that already agree with `new`
  refine ⟨(List.range new.length).filter (fun i => cur[i]? = new[i]?), ?_⟩
  refine List.ext_getElem? fun j => ?_
  rw [foldl_storeAt_getElem? (fit_length pad _ _)]
  by_cases hj : j < new.length
  · by_cases hnew : cur[j]? = new[j]?
    · have hin : j ∈ (List.range new.length).filter (fun i => cur[i]? = new[i]?) := by
        simp [hj, hnew]
      rw [if_pos hin, hnew]
    · have hout : j ∉ (List.range new.length).filter (fun i => cur[i]? = new[i]?) := by
        simp [hnew]
      rw [if_neg hout]
      exact (hmix j hj).resolve_left hnew
  · have hcur : cur[j]? = none := List.getElem?_eq_none_iff.mpr (by omega)
    have hnew : new[j]? = none := List.getElem?_eq_none_iff.mpr (by omega)
    have hfit : (fit pad new.length old)[j]? = none :=
      List.getElem?_eq_none_iff.mpr (by rw [fit_length]; omega)
    rw [hcur, hnew, hfit, ite_self]

/-! ### Counting the mixtures -/

/- At most one place tells the two apart. -/
def OnePlace (a b : List α) : Prop := ∀ i j : ℕ, a[i]? ≠ b[i]? → a[j]? ≠ b[j]? → i = j

theorem onePlace_append_left (p a b : List α) : OnePlace (p ++ a) (p ++ b) ↔ OnePlace a b := by
  have hbelow : ∀ i, i < p.length → (p ++ a)[i]? = (p ++ b)[i]? := fun i hi => by
    rw [List.getElem?_append_left hi, List.getElem?_append_left hi]
  constructor
  · intro h i j hi hj
    have heq := h (p.length + i) (p.length + j) (by simpa [List.getElem?_append_right] using hi)
      (by simpa [List.getElem?_append_right] using hj)
    omega
  · intro h i j hi hj
    have hil : p.length ≤ i := Nat.le_of_not_lt fun hlt => hi (hbelow i hlt)
    have hjl : p.length ≤ j := Nat.le_of_not_lt fun hlt => hj (hbelow j hlt)
    rw [List.getElem?_append_right hil, List.getElem?_append_right hil] at hi
    rw [List.getElem?_append_right hjl, List.getElem?_append_right hjl] at hj
    have heq := h _ _ hi hj
    omega

theorem fit_of_length {n : ℕ} {old : List α} (h : old.length = n) : fit pad n old = old := by
  subst h
  simp [fit]

theorem torn_new (old new : List α) : Torn pad old new new := ⟨rfl, fun _ _ => Or.inl rfl⟩

theorem torn_fit (old new : List α) : Torn pad old new (fit pad new.length old) :=
  ⟨fit_length pad _ _, fun _ _ => Or.inr rfl⟩

/- What begins with `p` is a mixture if `p` is one and the rest is one. -/
theorem torn_append_iff {old new p m : List α} (hp : p.length ≤ new.length) :
    Torn pad old new (p ++ m) ↔
      (∀ i < p.length, p[i]? = new[i]? ∨ p[i]? = (fit pad new.length old)[i]?) ∧
        Torn pad ((fit pad new.length old).drop p.length) (new.drop p.length) m := by
  have hfit : fit pad (new.length - p.length) ((fit pad new.length old).drop p.length) =
      (fit pad new.length old).drop p.length := fit_of_length pad (by simp)
  simp only [Torn, List.length_append, List.length_drop, hfit, List.getElem?_drop]
  constructor
  · rintro ⟨hlen, hmix⟩
    refine ⟨fun i hi => ?_, by omega, fun i hi => ?_⟩
    · simpa [List.getElem?_append_left hi] using hmix i (by omega)
    · simpa [List.getElem?_append_right] using hmix (p.length + i) (by omega)
  · rintro ⟨hfront, hlen, hback⟩
    refine ⟨by omega, fun i hi => ?_⟩
    by_cases hin : i < p.length
    · simpa [List.getElem?_append_left hin] using hfront i hin
    · have hplace := hback (i - p.length) (by omega)
      rw [Nat.add_sub_cancel' (by omega)] at hplace
      rwa [List.getElem?_append_right (by omega)]

theorem eq_of_onePlace {old new cur : List α} (hlen : old.length = new.length)
    (hone : OnePlace old new) (h : Torn pad old new cur) : cur = old ∨ cur = new := by
  obtain ⟨hcur, hmix⟩ := h
  rw [fit_of_length pad hlen] at hmix
  have hplace : ∀ j : ℕ, cur[j]? = new[j]? ∨ cur[j]? = old[j]? := by
    intro j
    by_cases hj : j < new.length
    · exact hmix j hj
    · refine Or.inl ?_
      rw [List.getElem?_eq_none_iff.mpr (by omega), List.getElem?_eq_none_iff.mpr (by omega)]
  by_cases hnew : cur = new
  · exact Or.inr hnew
  · -- at some place `cur` has the old element; there is no other place to differ
    obtain ⟨i, hi⟩ : ∃ i : ℕ, cur[i]? ≠ new[i]? := by
      by_contra hall
      exact hnew (List.ext_getElem? fun i => not_not.mp (not_exists.mp hall i))
    have hdiff : old[i]? ≠ new[i]? := by
      rw [← (hplace i).resolve_left hi]
      exact hi
    refine Or.inl (List.ext_getElem? fun j => ?_)
    rcases hplace j with hj | hj
    · by_cases heq : old[j]? = new[j]?
      · rw [hj, heq]
      · have hij := hone i j hdiff heq
        subst hij
        exact absurd hj hi
    · exact hj

/- Two places to differ leave room for a third content. -/
theorem third_of_not_onePlace {old new : List α} (hlen : old.length = new.length)
    (h : ¬ OnePlace old new) : ∃ cur, Torn pad old new cur ∧ cur ≠ old ∧ cur ≠ new := by
  simp only [OnePlace, not_forall] at h
  obtain ⟨i, j, hi, hj, hij⟩ := h
  have htorn : Torn pad old new (storeAt new old i) := by
    have hfit := torn_storeAt pad (torn_fit pad old new) i
    rwa [fit_of_length pad hlen] at hfit
  refine ⟨storeAt new old i, htorn, fun heq => ?_, fun heq => ?_⟩
  · have hplace := storeAt_getElem? hlen i i
    rw [heq, if_pos rfl] at hplace
    exact hi hplace
  · have hplace := storeAt_getElem? hlen i j
    rw [heq, if_neg (Ne.symm hij)] at hplace
    exact hj hplace.symm

theorem two_of_three {β : Type} {a b c x y : β} (ha : a = x ∨ a = y) (hb : b = x ∨ b = y)
    (hc : c = x ∨ c = y) : a = b ∨ c = a ∨ c = b := by
  grind

/-- Of the mixtures that begin with `p` there are at most the two given ones exactly if
there are none at all, or the old and the new contents differ in at most one place
behind `p` and either of them, with `p` in front, is one of the two. -/
theorem prefixed_two_iff (old new p x y : List α) :
    (∀ cur, Torn pad old new cur → p <+: cur → cur = x ∨ cur = y) ↔
      (∃ i < p.length, p[i]? ≠ new[i]? ∧ p[i]? ≠ (fit pad new.length old)[i]?) ∨
      (OnePlace ((fit pad new.length old).drop p.length) (new.drop p.length) ∧
        ∀ m ∈ [(fit pad new.length old).drop p.length, new.drop p.length],
          p ++ m = x ∨ p ++ m = y) := by
  have htails : ((fit pad new.length old).drop p.length).length =
      (new.drop p.length).length := by simp
  constructor
  · intro h
    by_cases hnone : ∃ i < p.length, p[i]? ≠ new[i]? ∧ p[i]? ≠ (fit pad new.length old)[i]?
    · exact Or.inl hnone
    · have hfront : ∀ i < p.length, p[i]? = new[i]? ∨ p[i]? = (fit pad new.length old)[i]? := by
        intro i hi
        by_contra hne
        exact hnone ⟨i, hi, not_or.mp hne⟩
      have hp : p.length ≤ new.length := by
        by_contra hlt
        rcases hfront new.length (by omega) with heq | heq
        · simp at heq
          omega
        · simp at heq
          omega
      have hall : ∀ m, Torn pad ((fit pad new.length old).drop p.length) (new.drop p.length) m →
          p ++ m = x ∨ p ++ m = y := fun m hm =>
        h _ ((torn_append_iff pad hp).mpr ⟨hfront, hm⟩) (List.prefix_append p m)
      have hold := torn_fit pad ((fit pad new.length old).drop p.length) (new.drop p.length)
      rw [fit_of_length pad htails] at hold
      have hx := hall _ hold
      have hy := hall _ (torn_new pad _ _)
      refine Or.inr ⟨?_, by simpa using ⟨hx, hy⟩⟩
      by_contra hone
      obtain ⟨m, hm, hmold, hmnew⟩ := third_of_not_onePlace pad htails hone
      have hdiff : (fit pad new.length old).drop p.length ≠ new.drop p.length := by
        intro heq
        rw [heq] at hone
        exact hone fun i j hi _ => absurd rfl hi
      -- two of the three contents have the same name
      rcases two_of_three hx hy (hall m hm) with heq | heq | heq
      · exact hdiff (List.append_cancel_left heq)
      · exact hmold (List.append_cancel_left heq)
      · exact hmnew (List.append_cancel_left heq)
  · rintro h cur htorn ⟨m, rfl⟩
    have hp : p.length ≤ new.length := by
      have hlen := htorn.1
      rw [List.length_append] at hlen
      omega
    obtain ⟨hfront, hback⟩ := (torn_append_iff pad hp).mp htorn
    rcases h with ⟨i, hi, hnew, hold⟩ | ⟨hone, hends⟩
    · exact absurd (hfront i hi) (not_or.mpr ⟨hnew, hold⟩)
    · rcases eq_of_onePlace pad htails hone hback with rfl | rfl
      · exact hends _ (List.mem_cons_self ..)
      · exact hends _ (List.mem_cons_of_mem _ (List.mem_singleton_self _))

/-! ### Which places are stored -/

/- Exactly the places of `stored` hold what they will hold. -/
def Partly (old new : List α) (stored : Finset ℕ) (cur : List α) : Prop :=
  cur.length = new.length ∧
    ∀ i, cur[i]? = if i ∈ stored then new[i]? else (fit pad new.length old)[i]?

theorem partly_fit (old new : List α) : Partly pad old new ∅ (fit pad new.length old) :=
  ⟨fit_length pad _ _, fun i => (if_neg (Finset.notMem_empty i)).symm⟩

theorem partly_storeAt {old new cur : List α} {stored : Finset ℕ}
    (h : Partly pad old new stored cur) (i : ℕ) :
    Partly pad old new (insert i stored) (storeAt new cur i) := by
  obtain ⟨hlen, hplaces⟩ := h
  refine ⟨by rw [storeAt_length, hlen], fun j => ?_⟩
  rw [storeAt_getElem? hlen, hplaces j]
  by_cases hj : j = i
  · rw [if_pos hj, if_pos (Finset.mem_insert.mpr (Or.inl hj))]
  · simp only [Finset.mem_insert, hj, false_or, if_false]

/- What holds of the old elements, of the new and of the padding holds of all. -/
theorem partly_all {Q : α → Prop} {old new cur : List α} {stored : Finset ℕ}
    (hold : ∀ x ∈ old, Q x) (hnew : ∀ x ∈ new, Q x) (hpad : Q pad)
    (h : Partly pad old new stored cur) : ∀ x ∈ cur, Q x := by
  intro x hx
  obtain ⟨i, hi, rfl⟩ := List.mem_iff_getElem.mp hx
  have hplace := h.2 i
  rw [List.getElem?_eq_getElem hi] at hplace
  split at hplace
  · exact hnew _ (List.mem_of_getElem? hplace.symm)
  · rcases mem_fit pad (List.mem_of_getElem? hplace.symm) with hin | heq
    · exact hold _ hin
    · rw [heq]
      exact hpad

/- An element the new contents must have and the old cannot show keeps a partial
write from being taken for `other`. -/
theorem partly_ne {old new other cur : List α} {stored : Finset ℕ}
    (h : Partly pad old new stored cur) {i : ℕ} (hi : i < new.length) (hout : i ∉ stored)
    (hother : ∀ x ∈ other, x ∉ old ∧ x ≠ pad) : cur ≠ other := by
  rintro rfl
  have hplace : cur[i]? = (fit pad new.length old)[i]? := by rw [h.2 i, if_neg hout]
  have hlt : i < cur.length := by
    rw [h.1]
    exact hi
  rw [List.getElem?_eq_getElem hlt] at hplace
  obtain ⟨hold, hpad⟩ := hother _ (List.getElem_mem hlt)
  rcases mem_fit pad (List.mem_of_getElem? hplace.symm) with hin | heq
  · exact hold hin
  · exact hpad heq

/- Once every place has been stored the new contents are there. -/
theorem eq_of_partly {old new cur : List α} {stored : Finset ℕ} (h : Partly pad old new stored cur)
    (hall : ∀ i < new.length, i ∈ stored) : cur = new := by
  refine List.ext_getElem? fun j => ?_
  by_cases hj : j < new.length
  · rw [h.2 j, if_pos (hall j hj)]
  · rw [List.getElem?_eq_none_iff.mpr (h.1 ▸ Nat.not_lt.mp hj),
      List.getElem?_eq_none_iff.mpr (Nat.not_lt.mp hj)]

end

end Tbouncer.Base
