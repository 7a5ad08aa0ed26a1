import Mathlib.Data.List.Basic
import Mathlib.Data.Nat.ModEq

/- A ring buffer with free-running counters: `w` bits wide, never reduced, and
taken modulo the capacity only to index the cells. What it stores is a queue. -/
namespace RingBuffer

/-- The cells and the two counters. -/
structure Buffer (w : Nat) (α : Type) where
  cells : Nat → α
  nread : BitVec w
  nwrite : BitVec w

variable {w cap : Nat} {α : Type}

def Buffer.isEmpty (r : Buffer w α) : Prop := r.nread = r.nwrite

def Buffer.isFull (cap : Nat) (r : Buffer w α) : Prop := r.nwrite = r.nread + BitVec.ofNat w cap

instance (r : Buffer w α) : Decidable r.isEmpty := inferInstanceAs (Decidable (_ = _))

instance (r : Buffer w α) : Decidable (r.isFull cap) := inferInstanceAs (Decidable (_ = _))

def Buffer.put (cap : Nat) (r : Buffer w α) (a : α) : Buffer w α :=
  { r with
    cells := Function.update r.cells (r.nwrite.toNat % cap) a
    nwrite := r.nwrite + 1 }

def Buffer.front (cap : Nat) (r : Buffer w α) : α := r.cells (r.nread.toNat % cap)

def Buffer.advance (r : Buffer w α) : Buffer w α := { r with nread := r.nread + 1 }

/-- The buffer stores this queue, oldest first. -/
structure Holds (cap : Nat) (r : Buffer w α) (queue : List α) : Prop where
  length_le : queue.length ≤ cap
  counted : r.nwrite = r.nread + BitVec.ofNat w queue.length
  stored : ∀ k (inside : k < queue.length), r.cells ((r.nread.toNat + k) % cap) = queue[k]

variable {r : Buffer w α} {queue : List α}

/-- Counters that wrap at a multiple of the capacity index the same cell. -/
theorem toNat_add_mod (divides : cap ∣ 2 ^ w) (x : BitVec w) (k : Nat) :
    (x + BitVec.ofNat w k).toNat % cap = (x.toNat + k) % cap := by
  rw [BitVec.toNat_add, BitVec.toNat_ofNat, Nat.add_mod_mod, Nat.mod_mod_of_dvd _ divides]

theorem ofNat_injective {m n : Nat} (small : m < 2 ^ w) (small' : n < 2 ^ w)
    (same : BitVec.ofNat w m = BitVec.ofNat w n) : m = n := by
  have nats := congrArg BitVec.toNat same
  simpa only [BitVec.toNat_ofNat, Nat.mod_eq_of_lt small, Nat.mod_eq_of_lt small'] using nats

theorem Holds.isEmpty_iff (holds : Holds cap r queue) (narrow : cap < 2 ^ w) :
    r.isEmpty ↔ queue = [] := by
  unfold Buffer.isEmpty
  rw [holds.counted]
  constructor
  · intro same
    have zero : BitVec.ofNat w queue.length = BitVec.ofNat w 0 := by
      apply (BitVec.add_right_inj r.nread).mp
      simpa using same.symm
    have len := holds.length_le
    exact List.eq_nil_of_length_eq_zero (ofNat_injective (by omega) (by omega) zero)
  · rintro rfl
    simp

theorem Holds.isFull_iff (holds : Holds cap r queue) (narrow : cap < 2 ^ w) :
    r.isFull cap ↔ queue.length = cap := by
  unfold Buffer.isFull
  rw [holds.counted]
  constructor
  · intro same
    have len := holds.length_le
    exact ofNat_injective (by omega) narrow ((BitVec.add_right_inj _).mp same)
  · intro same
    rw [same]

theorem Holds.put (holds : Holds cap r queue) (divides : cap ∣ 2 ^ w) (room : queue.length < cap)
    (a : α) : Holds cap (r.put cap a) (queue ++ [a]) := by
  have place : r.nwrite.toNat % cap = (r.nread.toNat + queue.length) % cap := by
    rw [holds.counted, toNat_add_mod divides]
  refine ⟨by simpa using Nat.succ_le_of_lt room, ?_, ?_⟩
  · change r.nwrite + 1 = _
    rw [holds.counted, List.length_append, BitVec.ofNat_add, BitVec.add_assoc]
    rfl
  · intro k inside
    change Function.update r.cells (r.nwrite.toNat % cap) a ((r.nread.toNat + k) % cap) = _
    rcases Nat.lt_or_ge k queue.length with old | new
    · have apart : (r.nread.toNat + k) % cap ≠ r.nwrite.toNat % cap := by
        rw [place]
        intro same
        have close : k ≡ queue.length [MOD cap] := Nat.ModEq.add_left_cancel' _ same
        exact absurd (Nat.ModEq.eq_of_lt_of_lt close (by omega) room) (by omega)
      rw [Function.update_of_ne apart, List.getElem_append_left old]
      exact holds.stored k old
    · have last : k = queue.length := by
        have bound := inside
        rw [List.length_append, List.length_singleton] at bound
        omega
      subst last
      rw [place, Function.update_self]
      simp

theorem Holds.front {a : α} (holds : Holds cap r (a :: queue)) : r.front cap = a :=
  holds.stored 0 (Nat.zero_lt_succ _)

theorem Holds.advance {a : α} (holds : Holds cap r (a :: queue)) (divides : cap ∣ 2 ^ w) :
    Holds cap r.advance queue := by
  refine ⟨Nat.le_of_succ_le holds.length_le, ?_, ?_⟩
  · change r.nwrite = r.nread + 1 + _
    rw [holds.counted, List.length_cons, Nat.add_comm, BitVec.ofNat_add, BitVec.add_assoc]
    rfl
  · intro k inside
    have index : (r.advance.nread.toNat + k) % cap = (r.nread.toNat + (k + 1)) % cap := by
      rw [Nat.add_mod, show r.advance.nread = r.nread + BitVec.ofNat w 1 from rfl,
        toNat_add_mod divides, ← Nat.add_mod]
      congr 1
      omega
    change r.cells ((r.advance.nread.toNat + k) % cap) = _
    rw [index]
    exact holds.stored (k + 1) (Nat.succ_lt_succ inside)

theorem Holds.nwrite_pred {a : α} (holds : Holds cap r (queue ++ [a])) :
    r.nwrite - 1 = r.nread + BitVec.ofNat w queue.length := by
  rw [holds.counted, List.length_append, List.length_singleton, BitVec.ofNat_add,
    ← BitVec.add_assoc, show BitVec.ofNat w 1 = 1 from rfl, BitVec.add_sub_cancel]

theorem Holds.last {a : α} (holds : Holds cap r (queue ++ [a])) (divides : cap ∣ 2 ^ w) :
    r.cells ((r.nwrite - 1).toNat % cap) = a := by
  rw [holds.nwrite_pred, toNat_add_mod divides]
  have newest := holds.stored queue.length (by simp)
  simpa using newest

theorem Holds.retract {a : α} (holds : Holds cap r (queue ++ [a])) :
    Holds cap { r with nwrite := r.nwrite - 1 } queue := by
  have size := holds.length_le
  rw [List.length_append, List.length_singleton] at size
  refine ⟨by omega, holds.nwrite_pred, fun k inside => ?_⟩
  have kept := holds.stored k (by rw [List.length_append]; omega)
  rwa [List.getElem_append_left inside] at kept

end RingBuffer
