import Tbouncer.Attack.Isolation

/-!
# What a process finds after an exit hook

An exit hook stores in the memory of the current process (bpf_probe_write_user), which
then goes on to load integers and pointers there.
-/

namespace Tbouncer.Attack
open Base Bpf Isolation ByteMemory

def loadInt (mem : Memory) (a : Addr) : BitVec 32 := BitVec.ofNat 32 (leVal (load mem a 4))
def loadLong (mem : Memory) (a : Addr) : BitVec 64 := BitVec.ofNat 64 (leVal (load mem a 8))

theorem leVal_load_store (mem : Memory) (a : Addr) {n : ℕ} (h : n ≤ 2 ^ 64) (v : ℕ) :
    leVal (load (store mem a (leBytes n v)) a n) = v % 256 ^ n := by
  have hlen := leBytes_length n v
  have hsame : load (store mem a (leBytes n v)) a (leBytes n v).length = leBytes n v :=
    load_store_same mem a (by omega)
  rw [hlen] at hsame
  rw [hsame, leVal_leBytes]

theorem loadInt_store (mem : Memory) (a : Addr) (v : ℕ) :
    loadInt (store mem a (leBytes 4 v)) a = BitVec.ofNat 32 v := by
  rw [loadInt, leVal_load_store mem a (by omega)]
  apply BitVec.eq_of_toNat_eq
  rw [BitVec.toNat_ofNat, BitVec.toNat_ofNat]
  omega

theorem loadLong_store (mem : Memory) (a : Addr) (v : BitVec 64) :
    loadLong (store mem a (leBytes 8 v.toNat)) a = v := by
  rw [loadLong, leVal_load_store mem a (by omega)]
  apply BitVec.eq_of_toNat_eq
  have hv := v.isLt
  rw [BitVec.toNat_ofNat]
  omega

/- A field is not touched by the store to another field. -/
theorem loadInt_field (mem : Memory) (base : Addr) {x y : Addr} {n : ℕ} (v : ℕ)
    (h : n ≤ (x - y).toNat ∧ (x - y).toNat + 4 ≤ 2 ^ 64) :
    loadInt (store mem (base + y) (leBytes n v)) (base + x) = loadInt mem (base + x) := by
  rw [loadInt, load_store_field mem base (by rwa [leBytes_length]), loadInt]

theorem loadLong_field (mem : Memory) (base : Addr) {x y : Addr} {n : ℕ} (v : ℕ)
    (h : n ≤ (x - y).toNat ∧ (x - y).toNat + 8 ≤ 2 ^ 64) :
    loadLong (store mem (base + y) (leBytes n v)) (base + x) = loadLong mem (base + x) := by
  rw [loadLong, load_store_field mem base (by rwa [leBytes_length]), loadLong]

theorem leVal_load_lt (mem : Memory) (a : Addr) (n : ℕ) : leVal (load mem a n) < 256 ^ n := by
  have h := leVal_lt (load mem a n)
  rwa [load_length] at h

theorem loadLong_toNat (mem : Memory) (a : Addr) :
    (loadLong mem a).toNat = leVal (load mem a 4) + 2 ^ 32 * leVal (load mem (a + 4) 4) := by
  have hlt : leVal (load mem a 8) < 2 ^ 64 := leVal_load_lt mem a 8
  have hsplit : leVal (load mem a 8) =
      leVal (load mem a 4) + 2 ^ 32 * leVal (load mem (a + 4) 4) := by
    rw [show 8 = 4 + 4 by omega, load_add, leVal_append, load_length]
    rfl
  rw [loadLong, BitVec.toNat_ofNat, Nat.mod_eq_of_lt hlt, hsplit]

/- An int stored in the low half of a long leaves the high half as it was. -/
theorem loadLong_store_low (mem : Memory) (a : Addr) (v : ℕ) :
    (loadLong (store mem a (leBytes 4 v)) a).toNat =
      v % 2 ^ 32 + 2 ^ 32 * ((loadLong mem a).toNat / 2 ^ 32) := by
  have hoffset : (a + 4 - a).toNat = 4 := by
    rw [BitVec.add_comm, BitVec.add_sub_cancel]
    rfl
  have hlen := leBytes_length 4 v
  have hhigh : load (store mem a (leBytes 4 v)) (a + 4) 4 = load mem (a + 4) 4 :=
    load_store_apart mem (by omega) (by omega)
  have hlow := leVal_load_lt mem a 4
  rw [loadLong_toNat, loadLong_toNat, leVal_load_store mem a (by omega), hhigh]
  omega

end Tbouncer.Attack
