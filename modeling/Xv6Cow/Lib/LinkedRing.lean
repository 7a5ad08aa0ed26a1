import Mathlib.Data.List.Nodup
import Mathlib.Logic.Function.Basic
import Mathlib.Tactic.Common

/- Circular doubly linked lists. The nodes are a head, which is `none`, and the members, which
hold the pointers themselves. -/
namespace LinkedRing

variable {α : Type}

structure Links (α : Type) where
  next : Option α → Option α
  prev : Option α → Option α

/-- The pointers lead from `x` over the members in order to `z`, and back. -/
def Path (links : Links α) : Option α → List α → Option α → Prop
  | x, [], z => links.next x = z ∧ links.prev z = x
  | x, y :: rest, z => links.next x = some y ∧ links.prev (some y) = x ∧ Path links (some y) rest z

/-- The members in the order of `next`, starting at the head. -/
structure Ring (links : Links α) (members : List α) : Prop where
  nodup : members.Nodup
  path : Path links none members none

/-- The head alone. -/
def empty : Links α := ⟨fun _ => none, fun _ => none⟩

variable {links links' : Links α} {x z : Option α} {b : α} {l l' : List α}

/-- A path depends on the pointers of its nodes only. -/
theorem Path.frame (path : Path links x l z)
    (next : ∀ y, y = x ∨ (∃ a ∈ l, y = some a) → links'.next y = links.next y)
    (prev : ∀ y, y = z ∨ (∃ a ∈ l, y = some a) → links'.prev y = links.prev y) :
    Path links' x l z := by
  induction l generalizing x with
  | nil =>
    obtain ⟨forward, backward⟩ := path
    exact ⟨by rw [next x (.inl rfl), forward], by rw [prev z (.inl rfl), backward]⟩
  | cons y rest ih =>
    obtain ⟨forward, backward, path⟩ := path
    refine ⟨by rw [next x (.inl rfl), forward], ?_, ?_⟩
    · rw [prev (some y) (.inr ⟨y, List.mem_cons_self, rfl⟩), backward]
    · refine ih path (fun w inside => next w ?_) (fun w inside => prev w ?_)
      · rcases inside with rfl | ⟨a, member, rfl⟩
        · exact .inr ⟨y, List.mem_cons_self, rfl⟩
        · exact .inr ⟨a, List.mem_cons_of_mem _ member, rfl⟩
      · rcases inside with rfl | ⟨a, member, rfl⟩
        · exact .inl rfl
        · exact .inr ⟨a, List.mem_cons_of_mem _ member, rfl⟩

theorem path_append :
    Path links x (l ++ b :: l') z ↔ Path links x l (some b) ∧ Path links (some b) l' z := by
  induction l generalizing x with
  | nil => exact ⟨fun path => ⟨⟨path.1, path.2.1⟩, path.2.2⟩, fun both =>
    ⟨both.1.1, both.1.2, both.2⟩⟩
  | cons y rest ih =>
    constructor
    · rintro ⟨forward, backward, path⟩
      obtain ⟨first, second⟩ := ih.mp path
      exact ⟨⟨forward, backward, first⟩, second⟩
    · rintro ⟨⟨forward, backward, first⟩, second⟩
      exact ⟨forward, backward, ih.mpr ⟨first, second⟩⟩

theorem Path.prev_end (path : Path links x l z) :
    links.prev z = x ∨ ∃ a ∈ l, links.prev z = some a := by
  induction l generalizing x with
  | nil => exact .inl path.2
  | cons y rest ih =>
    rcases ih path.2.2 with last | ⟨a, member, last⟩
    · exact .inr ⟨y, List.mem_cons_self, last⟩
    · exact .inr ⟨a, List.mem_cons_of_mem _ member, last⟩

theorem Path.next_start (path : Path links x l z) :
    links.next x = z ∨ ∃ a ∈ l, links.next x = some a := by
  cases l with
  | nil => exact .inl path.1
  | cons y rest => exact .inr ⟨y, List.mem_cons_self, path.1⟩

theorem ring_empty : Ring (empty : Links α) [] := ⟨List.nodup_nil, rfl, rfl⟩

theorem Path.reverse (path : Path links x l z) : Path ⟨links.prev, links.next⟩ z l.reverse x := by
  induction l generalizing x with
  | nil => exact ⟨path.2, path.1⟩
  | cons y rest ih =>
    obtain ⟨forward, backward, path⟩ := path
    rw [List.reverse_cons]
    exact path_append.mpr ⟨ih path, backward, forward⟩

/-- The first member that passes the test, following `step` from a node to the head. -/
def scan (step : Option α → Option α) (test : α → Bool) : Nat → Option α → Option α
  | 0, _ => none
  | _ + 1, none => none
  | fuel + 1, some a => if test a then some a else scan step test fuel (step (some a))

theorem Path.scan_eq {test : α → Bool} (path : Path links x l none)
    {fuel : Nat} (enough : l.length < fuel) :
    scan links.next test fuel (links.next x) = l.find? test := by
  induction l generalizing x fuel with
  | nil =>
    rw [path.1]
    cases fuel with
    | zero => rfl
    | succ fuel => rfl
  | cons y rest ih =>
    obtain ⟨forward, -, path⟩ := path
    rw [forward]
    cases fuel with
    | zero => exact absurd enough (Nat.not_lt_zero _)
    | succ fuel =>
      rw [scan, List.find?_cons]
      rw [List.length_cons] at enough
      cases test y with
      | true => rfl
      | false => exact ih path (by omega)

/-! ## Taking a node out and putting it in -/

section Edits

variable [DecidableEq α]

/-- A node is taken out. -/
def remove (links : Links α) (b : α) : Links α where
  next := Function.update links.next (links.prev (some b)) (links.next (some b))
  prev := Function.update links.prev (links.next (some b)) (links.prev (some b))

/-- A node is put in after the head. -/
def pushFront (links : Links α) (b : α) : Links α where
  next := Function.update (Function.update links.next (some b) (links.next none)) none (some b)
  prev := Function.update (Function.update links.prev (some b) none) (links.next none) (some b)

theorem Path.removed (path : Path links x (l ++ b :: l') none) (nodup : (l ++ b :: l').Nodup)
    (start : ∀ a ∈ l ++ b :: l', x ≠ some a) : Path (remove links b) x (l ++ l') none := by
  induction l generalizing x with
  | nil =>
    obtain ⟨-, back, path⟩ := path
    rw [List.nil_append, List.nodup_cons] at nodup
    rw [List.nil_append] at start ⊢
    cases l' with
    | nil =>
      obtain ⟨forward, -⟩ := path
      unfold remove
      rw [forward, back]
      exact ⟨by simp, by simp⟩
    | cons y rest =>
      obtain ⟨forward, -, path⟩ := path
      have nodup' := List.nodup_cons.mp nodup.2
      refine ⟨?_, ?_, path.frame (fun w inside => ?_) (fun w inside => ?_)⟩
      · unfold remove
        rw [forward, back]
        exact Function.update_self ..
      · unfold remove
        rw [forward, back]
        exact Function.update_self ..
      · unfold remove
        rw [back]
        refine Function.update_of_ne ?_ ..
        rcases inside with rfl | ⟨a, member, rfl⟩
        · exact (start y (by simp)).symm
        · exact (start a (by simp [member])).symm
      · unfold remove
        rw [forward]
        refine Function.update_of_ne ?_ ..
        rcases inside with rfl | ⟨a, member, rfl⟩
        · exact (Option.some_ne_none y).symm
        · intro same
          cases same
          exact nodup'.1 member
  | cons u l ih =>
    obtain ⟨forward, back, path⟩ := path
    rw [List.cons_append, List.nodup_cons] at nodup
    have rest := ih path nodup.2 (by
      intro a member same
      cases same
      exact nodup.1 member)
    obtain ⟨first, second⟩ := path_append.mp path
    refine ⟨?_, ?_, rest⟩
    · unfold remove
      refine (Function.update_of_ne ?_ ..).trans forward
      rcases first.prev_end with last | ⟨a, member, last⟩
      · rw [last]
        exact start u (by simp)
      · rw [last]
        exact start a (by simp [member])
    · unfold remove
      refine (Function.update_of_ne ?_ ..).trans back
      rcases second.next_start with after | ⟨a, member, after⟩
      · rw [after]
        exact Option.some_ne_none u
      · rw [after]
        intro same
        cases same
        exact nodup.1 (by simp [member])

theorem Ring.removed (ring : Ring links (l ++ b :: l')) : Ring (remove links b) (l ++ l') := by
  refine ⟨?_, ring.path.removed ring.nodup fun a _ => (Option.some_ne_none a).symm⟩
  exact ring.nodup.sublist (List.Sublist.append_left (List.sublist_cons_self b l') l)

theorem Ring.pushed (ring : Ring links l) (fresh : b ∉ l) : Ring (pushFront links b) (b :: l) := by
  refine ⟨List.nodup_cons.mpr ⟨fresh, ring.nodup⟩, ?_⟩
  have first : (pushFront links b).next none = some b := by
    unfold pushFront
    simp
  have second : (pushFront links b).next (some b) = links.next none := by
    unfold pushFront
    simp
  have path := ring.path
  have nodup := ring.nodup
  cases l with
  | nil =>
    obtain ⟨forward, -⟩ := path
    refine ⟨first, ?_, second.trans forward, ?_⟩
    · unfold pushFront
      rw [forward]
      simp
    · unfold pushFront
      rw [forward]
      simp
  | cons y rest =>
    obtain ⟨forward, -, path⟩ := path
    rw [List.nodup_cons] at nodup
    have apart : b ≠ y := fun same => fresh (same ▸ List.mem_cons_self)
    refine ⟨first, ?_, second.trans forward, ?_,
      path.frame (fun w inside => ?_) (fun w inside => ?_)⟩
    · unfold pushFront
      rw [forward]
      simp [apart]
    · unfold pushFront
      rw [forward]
      simp
    · unfold pushFront
      rcases inside with rfl | ⟨a, member, rfl⟩
      · simp [Ne.symm apart]
      · have other : a ≠ b := fun same => fresh (same ▸ List.mem_cons_of_mem _ member)
        simp [other]
    · unfold pushFront
      rw [forward]
      rcases inside with rfl | ⟨a, member, rfl⟩
      · simp
      · have other : a ≠ b := fun same => fresh (same ▸ List.mem_cons_of_mem _ member)
        have later : a ≠ y := fun same => nodup.1 (same ▸ member)
        simp [other, later]

end Edits

end LinkedRing
