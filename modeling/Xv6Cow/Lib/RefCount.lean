import Mathlib.Data.Finset.Card
import Mathlib.Data.Finset.Prod
import Mathlib.Data.List.Nodup
import Mathlib.Data.Set.Basic

/- Counting the references held by finitely many sites. A site refers to at most
one object; `pins` are objects referred to once from outside the sites. Nothing
here says what a site or an object is. -/
namespace RefCount

variable {ι κ : Type} [DecidableEq κ]

/-- How many sites refer to an object. -/
def count (sites : Finset ι) (target : ι → Option κ) (q : κ) : Nat :=
  (sites.filter (fun x => target x = some q)).card

theorem count_congr {sites : Finset ι} {target fresh : ι → Option κ} (q : κ)
    (same : ∀ x ∈ sites, fresh x = target x) : count sites fresh q = count sites target q := by
  unfold count
  congr 1
  apply Finset.filter_congr
  intro x member
  rw [same x member]

theorem count_pos_iff {sites : Finset ι} {target : ι → Option κ} {q : κ} :
    0 < count sites target q ↔ ∃ x ∈ sites, target x = some q := by
  unfold count
  rw [Finset.card_pos]
  constructor
  · rintro ⟨x, member⟩
    exact ⟨x, Finset.mem_filter.mp member⟩
  · rintro ⟨x, member, refers⟩
    exact ⟨x, Finset.mem_filter.mpr ⟨member, refers⟩⟩

theorem count_eq_zero_iff {sites : Finset ι} {target : ι → Option κ} {q : κ} :
    count sites target q = 0 ↔ ∀ x ∈ sites, target x ≠ some q := by
  rw [← Nat.le_zero, ← Nat.not_lt, count_pos_iff]
  constructor
  · intro absent x member refers
    exact absent ⟨x, member, refers⟩
  · rintro absent ⟨x, member, refers⟩
    exact absent x member refers

/-- Two sites of an object referred to once are the same site. -/
theorem count_le_one {sites : Finset ι} {target : ι → Option κ} {q : κ} {y : ι}
    (only : ∀ x ∈ sites, target x = some q → x = y) : count sites target q ≤ 1 := by
  refine Finset.card_le_one.mpr ?_
  intro a first b second
  have left := Finset.mem_filter.mp first
  have right := Finset.mem_filter.mp second
  rw [only a left.1 left.2, only b right.1 right.2]

theorem count_unique {sites : Finset ι} {target : ι → Option κ} {q : κ}
    (once : count sites target q ≤ 1) {x y : ι} (hx : x ∈ sites) (hy : y ∈ sites)
    (left : target x = some q) (right : target y = some q) : x = y := by
  unfold count at once
  exact Finset.card_le_one.mp once x (Finset.mem_filter.mpr ⟨hx, left⟩) y
    (Finset.mem_filter.mpr ⟨hy, right⟩)

theorem count_update [DecidableEq ι] {sites : Finset ι} (target : ι → Option κ)
    {x : ι} (member : x ∈ sites) (next : Option κ) (q : κ) :
    count sites (Function.update target x next) q + (if target x = some q then 1 else 0) =
      count sites target q + (if next = some q then 1 else 0) := by
  have others : ∀ value : Option κ, count sites (Function.update target x value) q =
      ((sites.erase x).filter (fun y => target y = some q)).card +
        (if value = some q then 1 else 0) := by
    intro value
    unfold count
    rw [← Finset.insert_erase member, Finset.filter_insert, Function.update_self,
      Finset.erase_insert (Finset.notMem_erase x sites)]
    have rest : (sites.erase x).filter (fun y => Function.update target x value y = some q) =
        (sites.erase x).filter (fun y => target y = some q) := by
      apply Finset.filter_congr
      intro y inside
      rw [Function.update_of_ne (Finset.ne_of_mem_erase inside)]
    split
    · rw [Finset.card_insert_of_notMem, rest]
      intro inside
      exact Finset.notMem_erase x sites (Finset.mem_filter.mp inside).1
    · rw [rest, Nat.add_zero]
  have before := others (target x)
  rw [Function.update_eq_self] at before
  rw [others next, before]
  omega

theorem count_mono {small large : Finset ι} {target : ι → Option κ} {q : κ}
    (included : small ⊆ large) (idle : ∀ x ∈ large, x ∉ small → target x ≠ some q) :
    count large target q = count small target q := by
  unfold count
  congr 1
  ext x
  simp only [Finset.mem_filter]
  constructor
  · rintro ⟨member, refers⟩
    refine ⟨?_, refers⟩
    by_contra outside
    exact idle x member outside refers
  · rintro ⟨member, refers⟩
    exact ⟨included member, refers⟩

open Classical in
/-- All references to an object: from the sites, and the pin. -/
noncomputable def refs (sites : Finset ι) (target : ι → Option κ) (pins : Set κ) (q : κ) : Nat :=
  count sites target q + if q ∈ pins then 1 else 0

theorem refs_of_pinned {sites : Finset ι} {target : ι → Option κ} {pins : Set κ} {q : κ}
    (pinned : q ∈ pins) : refs sites target pins q = count sites target q + 1 := by
  rw [refs, if_pos pinned]

theorem refs_of_unpinned {sites : Finset ι} {target : ι → Option κ} {pins : Set κ} {q : κ}
    (loose : q ∉ pins) : refs sites target pins q = count sites target q := by
  rw [refs, if_neg loose, Nat.add_zero]

/-- A count table and a free list that agree with the references: a used object
carries its exact count, and the free list holds each unused one once. The entry
of an unused object is not constrained. -/
structure Exact (pool : Finset κ) (uses : κ → Nat) (table : κ → Int) (free : List κ) :
    Prop where
  counted : ∀ q ∈ pool, 0 < uses q → table q = uses q
  mem_free : ∀ q, q ∈ free ↔ q ∈ pool ∧ uses q = 0
  nodup : free.Nodup

section Exact

variable {pool : Finset κ} {uses fresh : κ → Nat} {table : κ → Int} {free : List κ}

omit [DecidableEq κ] in
theorem Exact.congr (exact' : Exact pool uses table free) (same : ∀ q, fresh q = uses q) :
    Exact pool fresh table free := by
  have equal : fresh = uses := funext same
  rw [equal]
  exact exact'

theorem Exact.alloc {q : κ} (exact' : Exact pool uses table (q :: free))
    (first : fresh q = 1) (same : ∀ x, x ≠ q → fresh x = uses x) :
    Exact pool fresh (Function.update table q 1) free := by
  have nodup := List.nodup_cons.mp exact'.nodup
  refine ⟨?_, ?_, nodup.2⟩
  · intro x inside positive
    by_cases here : x = q
    · subst here
      rw [Function.update_self, first]
      rfl
    · rw [Function.update_of_ne here, same x here]
      rw [same x here] at positive
      exact exact'.counted x inside positive
  · intro x
    by_cases here : x = q
    · subst here
      constructor
      · intro member
        exact absurd member nodup.1
      · rintro ⟨-, unused⟩
        omega
    · rw [same x here, ← exact'.mem_free x, List.mem_cons]
      constructor
      · intro member
        exact Or.inr member
      · rintro (rfl | member)
        · exact absurd rfl here
        · exact member

theorem Exact.recount {q : κ} {count : Int} (exact' : Exact pool uses table free)
    (used : 0 < uses q) (still : 0 < fresh q) (counts : q ∈ pool → count = fresh q)
    (same : ∀ x, x ≠ q → fresh x = uses x) :
    Exact pool fresh (Function.update table q count) free := by
  refine ⟨?_, ?_, exact'.nodup⟩
  · intro x member positive
    by_cases here : x = q
    · subst here
      rw [Function.update_self, counts member]
    · rw [Function.update_of_ne here, same x here]
      rw [same x here] at positive
      exact exact'.counted x member positive
  · intro x
    rw [exact'.mem_free x]
    by_cases here : x = q
    · subst here
      omega
    · rw [same x here]

theorem Exact.share {q : κ} (exact' : Exact pool uses table free)
    (used : 0 < uses q) (more : fresh q = uses q + 1) (same : ∀ x, x ≠ q → fresh x = uses x) :
    Exact pool fresh (Function.update table q (table q + 1)) free := by
  refine exact'.recount used (by omega) (fun member => ?_) same
  rw [exact'.counted q member used, more]
  push_cast
  rfl

theorem Exact.drop {q : κ} (exact' : Exact pool uses table free)
    (several : 1 < uses q) (less : fresh q = uses q - 1)
    (same : ∀ x, x ≠ q → fresh x = uses x) :
    Exact pool fresh (Function.update table q (table q - 1)) free := by
  refine exact'.recount (by omega) (by omega) (fun member => ?_) same
  rw [exact'.counted q member (by omega), less]
  omega

/-- Dropping the last reference puts the object on the free list; its entry in
the table goes stale. -/
theorem Exact.last {q : κ} (exact' : Exact pool uses table free) (inside : q ∈ pool)
    (once : uses q = 1) (gone : fresh q = 0) (same : ∀ x, x ≠ q → fresh x = uses x) :
    Exact pool fresh table (q :: free) := by
  refine ⟨?_, ?_, ?_⟩
  · intro x member positive
    by_cases here : x = q
    · subst here
      omega
    · rw [same x here] at positive ⊢
      exact exact'.counted x member positive
  · intro x
    rw [List.mem_cons, exact'.mem_free x]
    by_cases here : x = q
    · subst here
      simp only [true_or, true_iff]
      exact ⟨inside, gone⟩
    · simp only [here, false_or, same x here]
  · refine List.nodup_cons.mpr ⟨?_, exact'.nodup⟩
    intro member
    have unused := ((exact'.mem_free q).mp member).2
    omega

/-- Dropping the last reference without freeing the object takes it out of the
pool for good. -/
theorem Exact.leak {q : κ} (exact' : Exact pool uses table free)
    (once : uses q = 1) (same : ∀ x, x ≠ q → fresh x = uses x) (value : Int) :
    Exact (pool.erase q) fresh (Function.update table q value) free := by
  refine ⟨?_, ?_, exact'.nodup⟩
  · intro x member positive
    obtain ⟨other, inside⟩ := Finset.mem_erase.mp member
    rw [Function.update_of_ne other, same x other]
    rw [same x other] at positive
    exact exact'.counted x inside positive
  · intro x
    rw [exact'.mem_free x, Finset.mem_erase]
    by_cases here : x = q
    · subst here
      constructor
      · rintro ⟨-, unused⟩
        omega
      · rintro ⟨⟨other, -⟩, -⟩
        exact absurd rfl other
    · rw [same x here]
      simp only [ne_eq, here, not_false_eq_true, true_and]

/-- The entry of an object that is not in use may hold anything. -/
theorem Exact.scribble (exact' : Exact pool uses table free) (q : κ) (value : Int)
    (unused : q ∈ pool → uses q = 0) :
    Exact pool uses (Function.update table q value) free := by
  refine ⟨?_, exact'.mem_free, exact'.nodup⟩
  intro x member positive
  by_cases here : x = q
  · subst here
    have := unused member
    omega
  · rw [Function.update_of_ne here]
    exact exact'.counted x member positive

end Exact

end RefCount
