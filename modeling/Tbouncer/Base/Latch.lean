import Mathlib.Data.List.DropRight
import Mathlib.Data.List.Forall2
import Mathlib.Data.List.Induction
import Mathlib.Data.List.ReduceOption

/-!
# Latches

A latch takes the first value it is offered, holds it whatever is offered later, and
lets go of it when it is released. The releases cut what it has met into blocks; what
it holds and what it has taken are read off the blocks.
-/

namespace Tbouncer.Base

structure Latch (α β : Type) where
  offer : α → Option β
  release : α → Bool

namespace Latch
variable {α β : Type} (L : Latch α β)

/- The blocks between the releases; the last one is the one that is not yet ended. -/
def blocks (xs : List α) : List (List α) := xs.splitOnP L.release
def lastBlock (xs : List α) : List α := xs.rtakeWhile fun x => !L.release x

/- The first offer of a block. -/
def first (block : List α) : Option β := block.findSome? L.offer

structure Run (β : Type) where
  held : Option β
  taken : List β

def meet (r : Run β) (x : α) : Run β :=
  if L.release x then ⟨none, r.taken⟩
  else
    match r.held, L.offer x with
    | none, some y => ⟨some y, r.taken ++ [y]⟩
    | held, _ => ⟨held, r.taken⟩

def run (xs : List α) : Run β := xs.foldl L.meet ⟨none, []⟩

theorem run_snoc (xs : List α) (x : α) : L.run (xs ++ [x]) = L.meet (L.run xs) x := by
  rw [run, List.foldl_append, List.foldl_cons, List.foldl_nil, run]

theorem first_snoc (block : List α) (x : α) :
    L.first (block ++ [x]) = (L.first block).or (L.offer x) := by
  rw [first, List.findSome?_append, List.findSome?_singleton, first]

theorem lastBlock_release {x : α} (hx : L.release x = true) (xs : List α) :
    L.lastBlock (xs ++ [x]) = [] := by
  rw [lastBlock, List.rtakeWhile_concat_neg]
  simp [hx]

theorem lastBlock_snoc {x : α} (hx : L.release x = false) (xs : List α) :
    L.lastBlock (xs ++ [x]) = L.lastBlock xs ++ [x] := by
  rw [lastBlock, List.rtakeWhile_concat_pos, lastBlock]
  simp [hx]

theorem blocks_of_no_release {zs : List α} (hz : ∀ z ∈ zs, L.release z = false) :
    L.blocks zs = [zs] :=
  List.splitOnP_eq_singleton hz

theorem blocks_release {x : α} {zs : List α} (hx : L.release x = true)
    (hz : ∀ z ∈ zs, L.release z = false) (xs : List α) :
    L.blocks (xs ++ x :: zs) = L.blocks xs ++ [zs] := by
  rw [blocks, List.splitOnP_append_cons xs zs hx, List.splitOnP_eq_singleton hz, blocks]

/- What is met between two releases goes to the last block. -/
theorem blocks_append (xs : List α) :
    ∃ ended, ∀ zs, (∀ z ∈ zs, L.release z = false) →
      L.blocks (xs ++ zs) = ended ++ [L.lastBlock xs ++ zs] := by
  induction xs using List.reverseRecOn with
  | nil => exact ⟨[], fun zs hz => L.blocks_of_no_release hz⟩
  | append_singleton xs x ih =>
    cases hx : L.release x with
    | true =>
      refine ⟨L.blocks xs, fun zs hz => ?_⟩
      rw [List.append_assoc, List.singleton_append, L.blocks_release hx hz,
        L.lastBlock_release hx, List.nil_append]
    | false =>
      obtain ⟨ended, h⟩ := ih
      refine ⟨ended, fun zs hz => ?_⟩
      have hxz : ∀ z ∈ x :: zs, L.release z = false := by
        intro z hm
        rcases List.mem_cons.mp hm with rfl | hm
        · exact hx
        · exact hz z hm
      rw [List.append_assoc, List.singleton_append, h (x :: zs) hxz, L.lastBlock_snoc hx,
        List.append_assoc, List.singleton_append]

/-- The latch holds the first offer of the last block, and has taken the first offer of
every block that makes one. -/
theorem run_blocks (xs : List α) :
    L.run xs = ⟨L.first (L.lastBlock xs), (L.blocks xs).filterMap L.first⟩ := by
  induction xs using List.reverseRecOn with
  | nil => rfl
  | append_singleton xs x ih =>
    rw [L.run_snoc, ih]
    cases hx : L.release x with
    | true =>
      have hblocks : L.blocks (xs ++ [x]) = L.blocks xs ++ [[]] :=
        L.blocks_release hx (List.forall_mem_nil _) xs
      rw [hblocks, L.lastBlock_release hx, List.filterMap_append, meet, if_pos hx]
      simp [first]
    | false =>
      obtain ⟨ended, h⟩ := L.blocks_append xs
      have hbefore : L.blocks xs = ended ++ [L.lastBlock xs] := by
        have h0 := h [] (List.forall_mem_nil _)
        rwa [List.append_nil, List.append_nil] at h0
      have hafter : L.blocks (xs ++ [x]) = ended ++ [L.lastBlock xs ++ [x]] :=
        h [x] (fun z hz => by rw [List.mem_singleton.mp hz]; exact hx)
      rw [hbefore, hafter, L.lastBlock_snoc hx, List.filterMap_append, List.filterMap_append,
        meet, if_neg (by simp [hx]), L.first_snoc]
      cases hfirst : L.first (L.lastBlock xs) <;> cases hoffer : L.offer x <;>
        simp [hfirst, hoffer, L.first_snoc]

theorem run_held (xs : List α) : (L.run xs).held = L.first (L.lastBlock xs) := by
  rw [L.run_blocks]

theorem run_taken (xs : List α) : (L.run xs).taken = (L.blocks xs).filterMap L.first := by
  rw [L.run_blocks]

theorem mem_lastBlock (xs : List α) (x : α) :
    x ∈ L.lastBlock xs ↔ L.release x = false ∧
      ∃ before later, xs = before ++ x :: later ∧ ∀ z ∈ later, L.release z = false := by
  constructor
  · intro h
    have hall : ∀ z ∈ L.lastBlock xs, L.release z = false := fun z hz => by
      simpa using List.mem_rtakeWhile_imp hz
    obtain ⟨earlier, later, hsplit⟩ := List.append_of_mem h
    refine ⟨hall x h, xs.rdropWhile (fun x => !L.release x) ++ earlier, later, ?_, ?_⟩
    · rw [List.append_assoc, ← hsplit, lastBlock, List.rdropWhile_append_rtakeWhile]
    · intro z hz
      apply hall
      rw [hsplit]
      exact List.mem_append_right _ (List.mem_cons_of_mem _ hz)
  · rintro ⟨hx, before, later, rfl, hlater⟩
    induction later using List.reverseRecOn with
    | nil => rw [L.lastBlock_snoc hx]; simp
    | append_singleton later z ih =>
      have hz : L.release z = false := hlater z (by simp)
      rw [← List.cons_append, ← List.append_assoc, L.lastBlock_snoc hz]
      exact List.mem_append_left _ (ih fun w hw => hlater w (List.mem_append_left _ hw))

/- It holds something exactly when the last block offers something. -/
theorem held_isSome (xs : List α) :
    (L.run xs).held.isSome = true ↔ ∃ x ∈ L.lastBlock xs, (L.offer x).isSome = true := by
  rw [L.run_held, first, List.findSome?_isSome_iff]

/- As many values are taken as blocks make an offer. -/
theorem taken_length (xs : List α) :
    (L.run xs).taken.length =
      (L.blocks xs).countP fun block => block.any fun x => (L.offer x).isSome := by
  rw [L.run_taken, List.length_filterMap_eq_countP]
  apply List.countP_congr
  intro block _
  rw [first, List.findSome?_isSome_iff, List.any_eq_true]

/-! ### A latch that is not always there

It misses values and releases; what it takes it takes from what is offered then. The last
argument tells whether it has taken from the last block. -/

inductive Loose : List α → List β → Bool → Prop
  | nil : Loose [] [] false
  | release {xs : List α} {ys : List β} {b : Bool} {x : α} (hx : L.release x = true)
      (h : Loose xs ys b) : Loose (xs ++ [x]) ys false
  | miss {xs : List α} {ys : List β} {b : Bool} {x : α} (hx : L.release x = false)
      (h : Loose xs ys b) : Loose (xs ++ [x]) ys b
  | take {xs : List α} {ys : List β} {x : α} {y : β} (hx : L.release x = false)
      (hy : L.offer x = some y) (h : Loose xs ys false) : Loose (xs ++ [x]) (ys ++ [y]) true

theorem blocks_snoc {x : α} (hx : L.release x = false) {xs : List α} {ended : List (List α)}
    {last : List α} (h : L.blocks xs = ended ++ [last]) :
    L.blocks (xs ++ [x]) = ended ++ [last ++ [x]] := by
  obtain ⟨front, hfront⟩ := L.blocks_append xs
  have hbefore := hfront [] (List.forall_mem_nil _)
  rw [List.append_nil, List.append_nil, h] at hbefore
  obtain ⟨rfl, hlast⟩ := List.append_inj' hbefore rfl
  have hsame : last = L.lastBlock xs := by simpa using hlast
  rw [hsame]
  exact hfront [x] fun z hz => by rw [List.mem_singleton.mp hz]; exact hx

/- What may be taken from a block. -/
def Offers (block : List α) (pick : Option β) : Prop := ∀ y ∈ pick, ∃ x ∈ block, L.offer x = some y

theorem offers_none (block : List α) : L.Offers block none := nofun

theorem Offers.snoc {block : List α} {pick : Option β} (h : L.Offers block pick) (x : α) :
    L.Offers (block ++ [x]) pick := fun y hy => by
  obtain ⟨z, hz, hoffer⟩ := h y hy
  exact ⟨z, List.mem_append_left _ hz, hoffer⟩

theorem Loose.picks {xs : List α} {ys : List β} {b : Bool} (h : L.Loose xs ys b) :
    ∃ ended last picks pick, L.blocks xs = ended ++ [last] ∧
      List.Forall₂ L.Offers ended picks ∧ L.Offers last pick ∧ pick.isSome = b ∧
        ys = picks.reduceOption ++ pick.toList := by
  induction h with
  | nil => exact ⟨[], [], [], none, rfl, .nil, L.offers_none [], rfl, rfl⟩
  | @release xs ys b x hx _ ih =>
    obtain ⟨ended, last, picks, pick, hblocks, hpicks, hpick, -, rfl⟩ := ih
    refine ⟨ended ++ [last], [], picks ++ [pick], none, ?_, ?_, L.offers_none [], rfl, ?_⟩
    · rw [L.blocks_release hx (List.forall_mem_nil _), hblocks]
    · exact List.rel_append hpicks (.cons hpick .nil)
    · rw [List.reduceOption_append, List.reduceOption_singleton]
      exact (List.append_nil _).symm
  | @miss xs ys b x hx _ ih =>
    obtain ⟨ended, last, picks, pick, hblocks, hpicks, hpick, hb, rfl⟩ := ih
    exact ⟨ended, last ++ [x], picks, pick, L.blocks_snoc hx hblocks, hpicks,
      Offers.snoc L hpick x, hb, rfl⟩
  | @take xs ys x y hx hy _ ih =>
    obtain ⟨ended, last, picks, pick, hblocks, hpicks, -, hb, rfl⟩ := ih
    obtain rfl : pick = none := by simpa using hb
    refine ⟨ended, last ++ [x], picks, some y, L.blocks_snoc hx hblocks, hpicks, ?_, rfl, by simp⟩
    rintro y' hy'
    cases hy'
    exact ⟨x, List.mem_append_right _ (List.mem_singleton_self x), hy⟩

/-- It takes at most one value from a block, in the order of the blocks. -/
theorem Loose.blocks {xs : List α} {ys : List β} {b : Bool} (h : L.Loose xs ys b) :
    ∃ picks, List.Forall₂ L.Offers (L.blocks xs) picks ∧ ys = picks.reduceOption := by
  obtain ⟨ended, last, picks, pick, hblocks, hpicks, hpick, -, rfl⟩ := h.picks
  refine ⟨picks ++ [pick], ?_, ?_⟩
  · rw [hblocks]
    exact List.rel_append hpicks (.cons hpick .nil)
  · rw [List.reduceOption_append, List.reduceOption_singleton]

end Latch
end Tbouncer.Base
