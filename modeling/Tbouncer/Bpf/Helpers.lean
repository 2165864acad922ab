import Mathlib.Algebra.Group.Nat.Defs
import Mathlib.Logic.Function.Basic
import Tbouncer.Base.PyText

/-!
# What the eBPF programs are made of

The cgroup test every program starts with, the hash map the entry and exit
hooks share, and the writes to the memory of the current process.
-/

namespace Tbouncer.Bpf
open Base

abbrev CgroupId := BitVec 64
abbrev Addr := BitVec 64

/- compare_cgroup_id, the same four lines in every program; `current` is
bpf_get_current_cgroup_id(). -/
def compareCgroupId (cgroupId current : CgroupId) : Bool :=
  if cgroupId ≠ current then false else true

theorem compareCgroupId_iff (a b : CgroupId) : compareCgroupId a b = true ↔ a = b := by
  simp [compareCgroupId]

/- BPF_HASH(name, u32, value). -/
abbrev BpfHash (ν : Type) := BitVec 32 → Option ν

def BpfHash.empty {ν : Type} : BpfHash ν := fun _ => none
def BpfHash.update {ν : Type} (m : BpfHash ν) (key : BitVec 32) (v : ν) : BpfHash ν :=
  Function.update m key (some v)

@[simp] theorem BpfHash.update_same {ν : Type} (m : BpfHash ν) (key : BitVec 32) (v : ν) :
    m.update key v key = some v := by
  simp [BpfHash.update]

/- bpf_probe_write_user(dst, src, sizeof(src)): `src` is the object's bytes. -/
structure UserWrite where
  dst : Addr
  src : Bytes
  deriving DecidableEq

/- The object representation of an unsigned value on a little-endian machine. -/
def leBytes : ℕ → ℕ → Bytes
  | 0, _ => []
  | n + 1, v => UInt8.ofNat v :: leBytes n (v / 256)

def leVal : Bytes → ℕ
  | [] => 0
  | b :: bs => b.toNat + 256 * leVal bs

theorem leBytes_length (n v : ℕ) : (leBytes n v).length = n := by
  induction n generalizing v with
  | zero => rw [leBytes, List.length_nil]
  | succ n ih => rw [leBytes, List.length_cons, ih]

theorem leVal_leBytes (n v : ℕ) : leVal (leBytes n v) = v % 256 ^ n := by
  induction n generalizing v with
  | zero => simp [leBytes, leVal, Nat.mod_one]
  | succ n ih =>
    rw [leBytes, leVal, ih, Nat.pow_succ', Nat.mod_mul, UInt8.toNat_ofNat']

theorem leVal_lt (bs : Bytes) : leVal bs < 256 ^ bs.length := by
  induction bs with
  | nil => rw [leVal, List.length_nil, Nat.pow_zero]; omega
  | cons b bs ih =>
    have hb := b.toNat_lt
    rw [leVal, List.length_cons, Nat.pow_succ]
    omega

theorem leBytes_leVal (bs : Bytes) : leBytes bs.length (leVal bs) = bs := by
  induction bs with
  | nil => rfl
  | cons b bs ih =>
    have hb := b.toNat_lt
    have hdiv : (b.toNat + 256 * leVal bs) / 256 = leVal bs := by omega
    have hmod : UInt8.ofNat (b.toNat + 256 * leVal bs) = b := by
      apply UInt8.toNat_inj.mp
      rw [UInt8.toNat_ofNat']
      omega
    rw [leVal, List.length_cons, leBytes, hdiv, hmod, ih]

theorem leVal_append (bs cs : Bytes) : leVal (bs ++ cs) = leVal bs + 256 ^ bs.length * leVal cs := by
  induction bs with
  | nil => simp [leVal]
  | cons b bs ih =>
    rw [List.cons_append, leVal, ih, leVal, List.length_cons, Nat.pow_succ', Nat.mul_add,
      Nat.add_assoc, Nat.mul_assoc]

end Tbouncer.Bpf
