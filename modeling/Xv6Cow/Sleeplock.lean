import Mathlib.Logic.Function.Basic
import Xv6Cow.Lib.Runs

/- sleeplock.c: one lock, and the processes `ι` that try to take it. -/
namespace Xv6Cow.Sleeplock

open Runs
open Function (update update_self update_of_ne)

inductive Phase
  | out
  | asleep
  | awake
  | inside
  deriving DecidableEq

structure State (ι : Type) where
  locked : Bool
  pid : Nat
  procs : ι → Phase

inductive Label (ι : Type)
  | acquiresleep (p : ι)
  | releasesleep (p : ι)
  | kill (p : ι)

variable {ι : Type} [DecidableEq ι] (pids : ι → Nat)

/-- One round of the loop, and what follows it, under lk->lk. -/
def acquiresleep (s : State ι) (p : ι) : State ι :=
  if s.locked then { s with procs := update s.procs p .asleep }
  else ⟨true, pids p, update s.procs p .inside⟩

def releasesleep (s : State ι) (p : ι) : State ι :=
  let procs := update s.procs p .out
  ⟨false, 0, fun q => if procs q = .asleep then .awake else procs q⟩

def holdingsleep (s : State ι) (p : ι) : Bool := s.locked && s.pid == pids p

inductive Step : State ι → Label ι → Unit → State ι → Prop
  | acquiresleep {s p} (tries : s.procs p = .out ∨ s.procs p = .awake) :
    Step s (.acquiresleep p) () (acquiresleep pids s p)
  | releasesleep {s p} (inside : s.procs p = .inside) :
    Step s (.releasesleep p) () (releasesleep s p)
  | kill {s p} (asleep : s.procs p = .asleep) :
    Step s (.kill p) () { s with procs := update s.procs p .awake }

/-- While the lock is free nobody sleeps. -/
structure Inv (s : State ι) : Prop where
  holds : ∀ p, s.procs p = .inside → s.locked = true ∧ s.pid = pids p
  one : ∀ p q, s.procs p = .inside → s.procs q = .inside → p = q
  held : s.locked = true → ∃ p, s.procs p = .inside
  asleep : ∀ p, s.procs p = .asleep → s.locked = true

variable {pids} {s t : State ι} {label : Label ι} {p q : ι}

theorem update_inside {phase : Phase} (outside : s.procs p ≠ .inside) (stays : phase ≠ .inside) :
    update s.procs p phase q = .inside ↔ s.procs q = .inside := by
  by_cases here : q = p
  · subst here
    rw [update_self]
    exact ⟨fun inside => absurd inside stays, fun inside => absurd inside outside⟩
  · rw [update_of_ne here]

theorem Inv.move {phase : Phase} (inv : Inv pids s) (outside : s.procs p ≠ .inside)
    (stays : phase ≠ .inside) (sleeps : phase = .asleep → s.locked = true) :
    Inv pids { s with procs := update s.procs p phase } := by
  refine ⟨fun q inside => inv.holds q ((update_inside outside stays).mp inside),
    fun q r inside inside' => inv.one q r ((update_inside outside stays).mp inside)
      ((update_inside outside stays).mp inside'),
    fun locked => (inv.held locked).imp fun q => (update_inside outside stays).mpr,
    fun q asleep => ?_⟩
  dsimp only at asleep
  by_cases here : q = p
  · rw [here, update_self] at asleep
    exact sleeps asleep
  · rw [update_of_ne here] at asleep
    exact inv.asleep q asleep

theorem Inv.enter (inv : Inv pids s) (free : s.locked = false) :
    Inv pids ⟨true, pids p, update s.procs p .inside⟩ := by
  have only : ∀ q, update s.procs p .inside q = .inside → q = p := by
    intro q inside
    by_contra other
    rw [update_of_ne other] at inside
    exact absurd (inv.holds q inside).1 (by rw [free]; decide)
  exact ⟨fun q inside => ⟨rfl, by rw [only q inside]⟩,
    fun q r inside inside' => (only q inside).trans (only r inside').symm,
    fun _ => ⟨p, update_self _ _ _⟩, fun _ _ => rfl⟩

theorem releasesleep_inside (inv : Inv pids s) (inside : s.procs p = .inside) (q : ι) :
    (releasesleep s p).procs q ≠ .inside ∧ (releasesleep s p).procs q ≠ .asleep := by
  unfold releasesleep
  dsimp only
  by_cases here : q = p
  · rw [here, update_self]
    decide
  · rw [update_of_ne here]
    split
    · decide
    · exact ⟨fun inside' => here (inv.one q p inside' inside), ‹_›⟩

theorem Inv.step {out : Unit} (inv : Inv pids s) (taken : Step pids s label out t) :
    Inv pids t := by
  cases taken with
  | acquiresleep tries =>
    unfold Sleeplock.acquiresleep
    split
    · refine inv.move ?_ (by decide) (fun _ => ‹_›)
      rcases tries with out | awake
      · rw [out]
        decide
      · rw [awake]
        decide
    · exact inv.enter (Bool.eq_false_iff.mpr ‹_›)
  | releasesleep inside =>
    have gone := releasesleep_inside inv inside
    exact ⟨fun q inside => absurd inside (gone q).1, fun q _ inside => absurd inside (gone q).1,
      nofun, fun q asleep => absurd asleep (gone q).2⟩
  | kill asleep => exact inv.move (by rw [asleep]; decide) (by decide) nofun

/-- At most one process is past acquiresleep, holdingsleep tells which, and whoever sleeps
sleeps for another that is inside. -/
theorem sleeplock_excludes (distinct : Function.Injective pids) {trace : List (Label ι × Unit)}
    (run : Run (Step pids) ⟨false, 0, fun _ => .out⟩ trace s) :
    (∀ p q, s.procs p = .inside → s.procs q = .inside → p = q) ∧
      (∀ p, holdingsleep pids s p = true ↔ s.procs p = .inside) ∧
      ∀ p, s.procs p = .asleep → ∃ q, q ≠ p ∧ s.procs q = .inside := by
  have inv : Inv pids s := run.invariant (fun inv taken => inv.step taken)
    ⟨nofun, nofun, nofun, nofun⟩
  refine ⟨inv.one, fun p => ⟨fun both => ?_, fun inside => ?_⟩, fun p asleep => ?_⟩
  · obtain ⟨locked, same⟩ := Bool.and_eq_true_iff.mp both
    obtain ⟨q, inside⟩ := inv.held locked
    rw [beq_iff_eq, (inv.holds q inside).2] at same
    exact distinct same ▸ inside
  · obtain ⟨locked, same⟩ := inv.holds p inside
    exact Bool.and_eq_true_iff.mpr ⟨locked, beq_iff_eq.mpr same⟩
  · obtain ⟨q, inside⟩ := inv.held (inv.asleep p asleep)
    refine ⟨q, fun same => ?_, inside⟩
    rw [same, asleep] at inside
    cases inside

/-- Process 2 sleeps while 1 has the lock, and gets it after the release. -/
theorem sleeplock_excludes_handover : ∃ s t : State Nat, s.procs 2 = .asleep ∧
    (∃ q, q ≠ 2 ∧ s.procs q = .inside) ∧ t = acquiresleep id (releasesleep s 1) 2 ∧
    holdingsleep id t 2 = true ∧ ∀ p, t.procs p = .inside → p = 2 := by
  have waits : Run (Step id) ⟨false, 0, fun _ => .out⟩ _ _ :=
    .cons (.acquiresleep (p := 1) (.inl rfl)) (.single (.acquiresleep (p := 2) (.inl rfl)))
  have gets := waits.append (.cons (.releasesleep (p := 1) rfl)
    (.single (.acquiresleep (p := 2) (.inr rfl))))
  obtain ⟨one, holding, -⟩ := sleeplock_excludes Function.injective_id gets
  exact ⟨_, _, rfl, (sleeplock_excludes Function.injective_id waits).2.2 2 rfl, rfl,
    (holding 2).mpr rfl, fun p inside => one p 2 inside rfl⟩

/-! ## The lock as a field -/

/-- The lock is what other parts of the kernel model take it for, a field with its holder. -/
def Holds (s : State ι) (holder : Option ι) : Prop := ∀ p, holder = some p ↔ s.procs p = .inside

/-- The field is set when it is empty and cleared by the process it names. -/
theorem Inv.holder {out : Unit} {holder : Option ι} (inv : Inv pids s) (holds : Holds s holder)
    (taken : Step pids s label out t) : Holds t holder ∨
      (∃ p, label = .acquiresleep p ∧ holder = none ∧ Holds t (some p)) ∨
      ∃ p, label = .releasesleep p ∧ holder = some p ∧ Holds t none := by
  cases taken with
  | @acquiresleep p tries =>
    unfold Sleeplock.acquiresleep
    split
    · refine .inl fun q => (holds q).trans (update_inside ?_ (by decide)).symm
      rcases tries with out | awake
      · rw [out]
        decide
      · rw [awake]
        decide
    · rename_i free
      refine .inr (.inl ⟨p, rfl, ?_, fun q => ⟨fun same => ?_, fun inside => ?_⟩⟩)
      · cases found : holder with
        | none => rfl
        | some q => exact absurd (inv.holds q ((holds q).mp found)).1 free
      · cases same
        exact update_self _ _ _
      · exact congrArg some ((inv.enter (Bool.eq_false_iff.mpr free)).one p q
          (update_self _ _ _) inside)
  | @releasesleep p inside =>
    exact .inr (.inr ⟨p, rfl, (holds p).mpr inside, fun q =>
      ⟨nofun, fun inside' => absurd inside' (releasesleep_inside inv inside q).1⟩⟩)
  | kill asleep =>
    exact .inl fun q => (holds q).trans (update_inside (by rw [asleep]; decide) (by decide)).symm

end Xv6Cow.Sleeplock
