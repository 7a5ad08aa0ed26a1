import Mathlib.Algebra.BigOperators.Fin
import Mathlib.Algebra.Order.BigOperators.Group.Finset
import Mathlib.Data.Fintype.BigOperators

/- Sums of a weight over finitely many parties, one of which moves at a time. -/
namespace Tally

variable {ι α : Type} [Fintype ι] [DecidableEq ι] {w : α → Nat}

/-- The weights of all parties. -/
def tally (w : α → Nat) (parties : ι → α) : Nat := ∑ p, w (parties p)

theorem tally_update (parties : ι → α) (p : ι) (next : α) :
    tally w (Function.update parties p next) + w (parties p) =
      tally w parties + w next := by
  unfold tally
  rw [← Finset.add_sum_erase _ _ (Finset.mem_univ p), Function.update_self,
    ← Finset.add_sum_erase Finset.univ (fun q => w (parties q)) (Finset.mem_univ p)]
  have rest : ∀ q ∈ Finset.univ.erase p, w (Function.update parties p next q) =
      w (parties q) := by
    intro q member
    rw [Function.update_of_ne (Finset.ne_of_mem_erase member)]
  rw [Finset.sum_congr rfl rest]
  omega

omit [DecidableEq ι] in
theorem le_tally (parties : ι → α) (p : ι) : w (parties p) ≤ tally w parties :=
  Finset.single_le_sum (f := fun q => w (parties q)) (fun _ _ => Nat.zero_le _)
    (Finset.mem_univ p)

theorem add_le_tally (parties : ι → α) {p q : ι} (apart : p ≠ q) (zero : α)
    (empty : w zero = 0) : w (parties p) + w (parties q) ≤ tally w parties := by
  have cleared := tally_update (w := w) parties p zero
  have other := le_tally (w := w) (Function.update parties p zero) q
  rw [Function.update_of_ne (Ne.symm apart)] at other
  omega

omit [DecidableEq ι] in
theorem tally_le_tally {other : α → Nat} (parties : ι → α)
    (below : ∀ p, w (parties p) ≤ other (parties p)) :
    tally w parties ≤ tally other parties :=
  Finset.sum_le_sum fun p _ => below p

omit [DecidableEq ι] in
theorem tally_eq_zero_iff {parties : ι → α} :
    tally w parties = 0 ↔ ∀ p, w (parties p) = 0 := by
  unfold tally
  rw [Finset.sum_eq_zero_iff]
  simp

end Tally
