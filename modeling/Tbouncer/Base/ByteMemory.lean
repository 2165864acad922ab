import Mathlib.Algebra.Group.Nat.Defs
import Mathlib.Data.List.Basic

/-!
# Memories of bytes

A memory has a byte at every address of `w` bits. A store changes the bytes from an
address on, wrapping around at the end. A load finds what was stored at its own place,
and is blind to what was stored apart from it.
-/

namespace Tbouncer.Base.ByteMemory

variable {w : ℕ}

def store (mem : BitVec w → UInt8) (dst : BitVec w) (src : List UInt8) : BitVec w → UInt8 :=
  fun a => (src[(a - dst).toNat]?).getD (mem a)

def load (mem : BitVec w → UInt8) (a : BitVec w) (n : ℕ) : List UInt8 :=
  (List.range n).map fun i => mem (a + BitVec.ofNat w i)

theorem load_length (mem : BitVec w → UInt8) (a : BitVec w) (n : ℕ) : (load mem a n).length = n := by
  rw [load, List.length_map, List.length_range]

theorem load_add (mem : BitVec w → UInt8) (a : BitVec w) (m n : ℕ) :
    load mem a (m + n) = load mem a m ++ load mem (a + BitVec.ofNat w m) n := by
  simp only [load, List.range_add, List.map_append, List.map_map]
  congr 1
  apply List.map_congr_left
  intro i _
  rw [Function.comp_apply, BitVec.ofNat_add, BitVec.add_assoc]

/- The place of an offset, relative to an address. -/
theorem toNat_offset (a b : BitVec w) {i : ℕ} (h : (a - b).toNat + i < 2 ^ w) :
    (a + BitVec.ofNat w i - b).toNat = (a - b).toNat + i := by
  have hmove : a + BitVec.ofNat w i - b = a - b + BitVec.ofNat w i := by grind
  have hi : i < 2 ^ w := by omega
  rw [hmove, BitVec.toNat_add, BitVec.toNat_ofNat, Nat.mod_eq_of_lt hi, Nat.mod_eq_of_lt h]

theorem load_store_same (mem : BitVec w → UInt8) (dst : BitVec w) {src : List UInt8}
    (hfit : src.length ≤ 2 ^ w) : load (store mem dst src) dst src.length = src := by
  apply List.ext_getElem (load_length _ _ _)
  intro i _ hi
  have hself : (dst - dst).toNat = 0 := by rw [BitVec.sub_self, BitVec.toNat_zero]
  have hplace : (dst + BitVec.ofNat w i - dst).toNat = i := by
    rw [toNat_offset dst dst (by omega), hself, Nat.zero_add]
  simp only [load, store, List.getElem_map, List.getElem_range, hplace, List.getElem?_eq_getElem hi,
    Option.getD_some]

/- The load begins after the bytes stored and ends before they come round again. -/
theorem load_store_apart (mem : BitVec w → UInt8) {a dst : BitVec w} {src : List UInt8} {n : ℕ}
    (hafter : src.length ≤ (a - dst).toNat) (hbefore : (a - dst).toNat + n ≤ 2 ^ w) :
    load (store mem dst src) a n = load mem a n := by
  apply List.map_congr_left
  intro i hi
  have hin : i < n := List.mem_range.mp hi
  have hplace := toNat_offset a dst (i := i) (by omega)
  rw [store, hplace, List.getElem?_eq_none (by omega), Option.getD_none]

/- The same for two fields of one object. -/
theorem load_store_field (mem : BitVec w → UInt8) (base : BitVec w) {x y : BitVec w}
    {src : List UInt8} {n : ℕ} (h : src.length ≤ (x - y).toNat ∧ (x - y).toNat + n ≤ 2 ^ w) :
    load (store mem (base + y) src) (base + x) n = load mem (base + x) n := by
  have hoffset : base + x - (base + y) = x - y := by grind
  apply load_store_apart
  · rw [hoffset]
    exact h.1
  · rw [hoffset]
    exact h.2

end Tbouncer.Base.ByteMemory
