import Mathlib.Logic.Basic
import Mathlib.Tactic.TypeStar

/-- A program over states `σ`. It either stops with a fault or returns a value
together with the next state; after a fault there is no state to go on from. -/
structure Prog (ε σ α : Type) : Type where
  run : σ → Except ε (α × σ)

namespace Prog

variable {ε σ α β : Type}

instance : CoeFun (Prog ε σ α) (fun _ => σ → Except ε (α × σ)) := ⟨Prog.run⟩

instance : Monad (Prog ε σ) where
  pure value := ⟨fun s => .ok (value, s)⟩
  bind first next := ⟨fun s =>
    match first s with
    | .error why => .error why
    | .ok (value, t) => next value t⟩

/-- The current state. -/
def read : Prog ε σ σ := ⟨fun s => .ok (s, s)⟩

/-- Replace the state. -/
def update (change : σ → σ) : Prog ε σ Unit := ⟨fun s => .ok ((), change s)⟩

/-- Stop. -/
def halt (why : ε) : Prog ε σ α := ⟨fun _ => .error why⟩

theorem pure_apply (value : α) (s : σ) :
    (pure value : Prog ε σ α) s = .ok (value, s) := rfl

theorem update_apply (change : σ → σ) (s : σ) :
    (update change : Prog ε σ Unit) s = .ok ((), change s) := rfl

theorem halt_apply (why : ε) (s : σ) : (halt why : Prog ε σ α) s = .error why := rfl

theorem bind_apply (first : Prog ε σ α) (next : α → Prog ε σ β) (s : σ) :
    (first >>= next) s =
      match first s with
      | .error why => .error why
      | .ok (value, t) => next value t := rfl

/-- Run the first half of a sequence whose outcome is known. -/
theorem bind_of_ok {first : Prog ε σ α} {next : α → Prog ε σ β} {s t : σ} {value : α}
    (success : first s = .ok (value, t)) : (first >>= next) s = next value t := by
  rw [bind_apply, success]

theorem bind_of_error {first : Prog ε σ α} {next : α → Prog ε σ β} {s : σ} {why : ε}
    (failed : first s = .error why) : (first >>= next) s = .error why := by
  rw [bind_apply, failed]

/-- A sequence returns exactly when both halves do. -/
theorem bind_ok_iff {first : Prog ε σ α} {next : α → Prog ε σ β} {s u : σ} {result : β} :
    (first >>= next) s = .ok (result, u) ↔
      ∃ value t, first s = .ok (value, t) ∧ next value t = .ok (result, u) := by
  constructor
  · intro success
    cases outcome : first s with
    | error why => rw [bind_of_error outcome] at success; cases success
    | ok pair =>
      obtain ⟨value, t⟩ := pair
      rw [bind_of_ok outcome] at success
      exact ⟨value, t, rfl, success⟩
  · rintro ⟨value, t, outcome, success⟩
    rw [bind_of_ok outcome]
    exact success

theorem bind_assoc_apply {γ : Type} (first : Prog ε σ α) (next : α → Prog ε σ β)
    (last : β → Prog ε σ γ) (s : σ) :
    ((first >>= next) >>= last) s = (first >>= fun value => next value >>= last) s := by
  rw [bind_apply, bind_apply, bind_apply]
  cases first s with
  | error why => rfl
  | ok pair => rfl

/-- Two sequences with the same first half agree if they do after it. -/
theorem bind_congr {first : Prog ε σ α} {next next' : α → Prog ε σ β} {s : σ}
    (same : ∀ value t, first s = .ok (value, t) → next value t = next' value t) :
    (first >>= next) s = (first >>= next') s := by
  rw [bind_apply, bind_apply]
  cases outcome : first s with
  | error why => rfl
  | ok pair => exact same pair.1 pair.2 outcome

theorem pure_ok_iff {value result : α} {s t : σ} :
    (pure value : Prog ε σ α) s = .ok (result, t) ↔ result = value ∧ t = s := by
  rw [pure_apply]
  constructor
  · intro same
    cases same
    exact ⟨rfl, rfl⟩
  · rintro ⟨rfl, rfl⟩
    rfl

theorem read_ok_iff {s t value : σ} :
    (read : Prog ε σ σ) s = .ok (value, t) ↔ value = s ∧ t = s := pure_ok_iff

theorem update_ok_iff {change : σ → σ} {s t : σ} {value : Unit} :
    (update change : Prog ε σ Unit) s = .ok (value, t) ↔ t = change s := by
  rw [update_apply]
  constructor
  · intro same
    cases same
    rfl
  · rintro rfl
    rfl

theorem halt_ok_iff {why : ε} {s t : σ} {value : α} :
    (halt why : Prog ε σ α) s = .ok (value, t) ↔ False := by
  rw [halt_apply]
  constructor
  · intro same
    cases same
  · exact False.elim

/-- Reading the state hands it to the rest of the program. -/
theorem read_bind (next : σ → Prog ε σ β) (s : σ) : (read >>= next) s = next s s := rfl

theorem update_bind (change : σ → σ) (next : Unit → Prog ε σ β) (s : σ) :
    (update change >>= next) s = next () (change s) := rfl

theorem pure_bind_apply (value : α) (next : α → Prog ε σ β) (s : σ) :
    ((pure value : Prog ε σ α) >>= next) s = next value s := rfl

theorem ite_apply {c : Prop} [Decidable c] (first second : Prog ε σ α) (s : σ) :
    (if c then first else second) s = if c then first s else second s := by
  split <;> rfl

/-- A guarded program returns where the guard holds, and then as it does unguarded. -/
theorem guard_ok_iff {c : Prop} [Decidable c] {prog : Prog ε σ α} {why : ε} {s t : σ} {value : α} :
    (if c then prog else halt why) s = .ok (value, t) ↔ c ∧ prog s = .ok (value, t) := by
  by_cases holds : c
  · rw [if_pos holds, and_iff_right holds]
  · rw [if_neg holds, halt_ok_iff, iff_false_intro holds, false_and]

theorem refuse_ok_iff {c : Prop} [Decidable c] {prog : Prog ε σ α} {why : ε} {s t : σ} {value : α} :
    (if c then halt why else prog) s = .ok (value, t) ↔ ¬ c ∧ prog s = .ok (value, t) := by
  rw [← ite_not, guard_ok_iff]

/-- Every state a program returns to is related to the one it started from. -/
def Steps (rel : σ → σ → Prop) (prog : Prog ε σ α) : Prop :=
  ∀ s value t, prog s = .ok (value, t) → rel s t

section Steps

variable {rel : σ → σ → Prop}

theorem Steps.bind {first : Prog ε σ α} {next : α → Prog ε σ β}
    (compose : ∀ {s t u}, rel s t → rel t u → rel s u)
    (left : Steps rel first) (right : ∀ value, Steps rel (next value)) :
    Steps rel (first >>= next) := by
  intro s result u success
  obtain ⟨value, t, head, tail⟩ := bind_ok_iff.mp success
  exact compose (left s value t head) (right value t result u tail)

theorem Steps.pure (same : ∀ s, rel s s) (value : α) :
    Steps rel (Pure.pure value : Prog ε σ α) := by
  intro s result t success
  obtain ⟨-, rfl⟩ := pure_ok_iff.mp success
  exact same _

theorem Steps.read (same : ∀ s, rel s s) : Steps rel (Prog.read : Prog ε σ σ) := by
  intro s result t success
  obtain ⟨-, rfl⟩ := read_ok_iff.mp success
  exact same _

theorem Steps.update {change : σ → σ} (moved : ∀ s, rel s (change s)) :
    Steps rel (Prog.update change : Prog ε σ Unit) := by
  intro s result t success
  rw [update_ok_iff.mp success]
  exact moved s

theorem Steps.halt (why : ε) : Steps rel (Prog.halt why : Prog ε σ α) := by
  intro s result t success
  exact (halt_ok_iff.mp success).elim

theorem Steps.ite {c : Prop} [Decidable c] {first second : Prog ε σ α}
    (left : c → Steps rel first) (right : ¬ c → Steps rel second) :
    Steps rel (if c then first else second) := by
  split
  · exact left ‹_›
  · exact right ‹_›

end Steps

/-- The program never stops for a reason in `bad`. -/
def Avoids (bad : ε → Prop) (prog : Prog ε σ α) : Prop := ∀ s why, prog s = .error why → ¬ bad why

section Avoids

variable {bad : ε → Prop}

theorem Avoids.bind {first : Prog ε σ α} {next : α → Prog ε σ β} (left : Avoids bad first)
    (right : ∀ value, Avoids bad (next value)) : Avoids bad (first >>= next) := by
  intro s why failed
  rw [bind_apply] at failed
  split at failed
  · rename_i stopped
    cases failed
    exact left s _ stopped
  · rename_i value t _
    exact right value t why failed

theorem Avoids.pure (value : α) : Avoids bad (Pure.pure value : Prog ε σ α) := by
  intro s why failed
  cases failed

theorem Avoids.read : Avoids bad (Prog.read : Prog ε σ σ) := by
  intro s why failed
  cases failed

theorem Avoids.update (change : σ → σ) : Avoids bad (Prog.update change : Prog ε σ Unit) := by
  intro s why failed
  cases failed

theorem Avoids.halt {why : ε} (other : ¬ bad why) : Avoids bad (Prog.halt why : Prog ε σ α) := by
  intro s why failed
  cases failed
  exact other

theorem Avoids.ite {c : Prop} [Decidable c] {first second : Prog ε σ α} (left : Avoids bad first)
    (right : Avoids bad second) : Avoids bad (if c then first else second) := by
  split
  · exact left
  · exact right

end Avoids

section Inside

variable {δ τ : Type} {get : σ → τ} {put : τ → σ → σ} {fault : δ → ε}

/-- A program on a part of the state: `get` reads the part and `put` writes it back. -/
def inside (get : σ → τ) (put : τ → σ → σ) (fault : δ → ε) (prog : Prog δ τ α) : Prog ε σ α :=
  ⟨fun s =>
    match prog (get s) with
    | .error why => .error (fault why)
    | .ok (value, t) => .ok (value, put t s)⟩

theorem inside_of_ok {prog : Prog δ τ α} {s : σ} {t : τ} {value : α}
    (success : prog (get s) = .ok (value, t)) :
    inside get put fault prog s = .ok (value, put t s) := by
  change (match prog (get s) with | .error why => _ | .ok (value, t) => _) = _
  rw [success]

theorem inside_of_error {prog : Prog δ τ α} {s : σ} {why : δ} (failed : prog (get s) = .error why) :
    inside get put fault prog s = .error (fault why) := by
  change (match prog (get s) with | .error why => _ | .ok (value, t) => _) = _
  rw [failed]

end Inside

end Prog
