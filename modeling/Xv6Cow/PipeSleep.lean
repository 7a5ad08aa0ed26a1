import Xv6Cow.Pipes

/- pipe.c: who sleeps on a pipe, and why. -/
namespace Xv6Cow.Pipes

open Runs RingBuffer

variable {ι : Type} [DecidableEq ι] {s t : State ι} {p q : ι} {label : Label ι} {out : Out}
  {trace : List (Label ι × Out)}

/-- Nobody sleeps whose condition has come true. -/
structure NoLost (s : State ι) : Prop where
  readers : ∀ p, (s.procs p).sleeping = some .nread →
    s.pipe.ring.isEmpty ∧ s.pipe.writeopen = true
  writers : ∀ p, (s.procs p).sleeping = some .nwrite →
    s.pipe.ring.isFull PIPESIZE ∧ s.pipe.readopen = true

/-- A process in a call has its end of the pipe open, and sleeps only in a call. -/
structure Roles (s : State ι) : Prop where
  reading : ∀ p n, (s.procs p).task = .reading n → s.pipe.readopen = true
  writing : ∀ p c rest, (s.procs p).task = .writing c rest → s.pipe.writeopen = true
  reader : ∀ p, (s.procs p).sleeping = some .nread → ∃ n, (s.procs p).task = .reading n
  writer : ∀ p, (s.procs p).sleeping = some .nwrite → ∃ c rest, (s.procs p).task = .writing c rest

/-- A pipewrite of a killed process stores bytes, finds the pipe full and returns
-1, without a wakeup for the readers that sleep. -/
def Abandons (s : State ι) (label : Label ι) : Prop :=
  ∃ p c src, label = .run p ∧ (s.procs p).sleeping = none ∧ (s.procs p).task = .writing c src ∧
    (s.procs p).killed = true ∧ stored s.pipe.ring src ≠ [] ∧ (fill s.pipe.ring src).2 ≠ [] ∧
    ∃ q, (s.procs q).sleeping = some .nread

omit [DecidableEq ι] in
theorem wakeup_sleeping (chan : Chan) (procs : ι → Proc) (p : ι) :
    (wakeup chan procs p).sleeping =
      if (procs p).sleeping = some chan then none else (procs p).sleeping := by
  unfold wakeup
  split <;> rfl

theorem update_sleeping (procs : ι → Proc) (p q : ι) (proc : Proc) :
    (Function.update procs p proc q).sleeping = if q =
      p then proc.sleeping else (procs q).sleeping := by
  by_cases same : q = p
  · simp [same]
  · simp [same]

theorem Roles.step (roles : Roles s) (taken : Step s label out t) : Roles t := by
  obtain ⟨⟩ := roles
  cases taken with
  | enterWrite =>
    constructor <;> simp only [State.setProc] <;> grind [update_task, update_sleeping]
  | enterRead =>
    constructor <;> simp only [State.setProc] <;> grind [update_task, update_sleeping]
  | kill =>
    constructor <;> simp only [State.setProc] <;> grind [update_task, update_sleeping]
  | @close writable unused =>
    cases writable <;> unfold pipeclose <;> simp only [↓reduceIte, Bool.false_eq_true] <;>
      constructor <;> grind [wakeup_task, wakeup_sleeping, Task.uses]
  | @write p call src awake here =>
    have pipe := (pipewrite_rest s p call src).1
    rcases pipewrite_cases s p call src with ⟨-, -, procs⟩ | ⟨-, -, -, procs⟩ | ⟨-, -, -, procs⟩ <;>
      constructor <;> rw [procs] <;>
      grind [update_task, update_sleeping, wakeup_task, wakeup_sleeping]
  | @read p n awake here =>
    rcases piperead_cases s p n with ⟨-, -, ends⟩ | ⟨-, -, ends⟩ | ⟨-, ends⟩ <;> rw [ends] <;>
      constructor <;> simp only [State.setProc] <;>
      grind [update_task, update_sleeping, wakeup_task, wakeup_sleeping]

theorem NoLost.write (safe : NoLost s) (queued : Queued s) (roles : Roles s) {call : Nat}
    {src : List Byte} (awake : (s.procs p).sleeping = none)
    (here : (s.procs p).task = .writing call src) (tidy : ¬Abandons s (.run p)) :
    NoLost (pipewrite s p call src).2 := by
  obtain ⟨queue, holds, -⟩ := queued
  obtain ⟨split, holds', size⟩ := fill_spec holds src
  have full : (fill s.pipe.ring src).2 ≠ [] → (fill s.pipe.ring src).1.isFull PIPESIZE :=
    fun more => (holds'.isFull_iff pipesize_lt).mpr (size more)
  have kept : s.pipe.ring.isFull PIPESIZE → (fill s.pipe.ring src).1 = s.pipe.ring :=
    fun full => by rw [fill_full full]
  have pipe := (pipewrite_rest s p call src).1
  obtain ⟨asleep, blocked⟩ := safe
  rcases pipewrite_cases s p call
    src with ⟨-, -, procs⟩ | ⟨more, why, -, procs⟩ | ⟨more, up, -, procs⟩
  · constructor <;> rw [procs, pipe] <;> grind [update_sleeping, wakeup_sleeping]
  · -- nothing was stored, or nobody was there to be woken
    have quiet :
        ∀ q, (s.procs q).sleeping = some .nread → (fill s.pipe.ring src).1 = s.pipe.ring := by
      intro q sleeps
      obtain ⟨n, reads⟩ := roles.reader q sleeps
      have killed : (s.procs p).killed = true := by
        rcases why with closed | killed
        · rw [roles.reading q n reads] at closed
          cases closed
        · exact killed
      have nothing : stored s.pipe.ring src = [] := by
        by_contra some
        exact tidy ⟨p, call, src, rfl, awake, here, killed, some, more, q, sleeps⟩
      have before := size more
      rw [nothing, List.append_nil] at before
      exact kept ((holds.isFull_iff pipesize_lt).mpr before)
    constructor <;> rw [procs, pipe] <;> grind [update_sleeping]
  · constructor <;> rw [procs, pipe] <;> grind [update_sleeping, wakeup_sleeping]

theorem NoLost.step (safe : NoLost s) (queued : Queued s) (roles : Roles s)
    (taken : Step s label out t) (tidy : ¬Abandons s label) : NoLost t := by
  cases taken with
  | write awake here => exact safe.write queued roles awake here tidy
  | enterWrite idle =>
    obtain ⟨asleep, blocked⟩ := safe
    constructor <;> simp only [State.setProc] <;> grind [update_sleeping]
  | enterRead =>
    obtain ⟨asleep, blocked⟩ := safe
    constructor <;> simp only [State.setProc] <;> grind [update_sleeping]
  | kill =>
    obtain ⟨asleep, blocked⟩ := safe
    constructor <;> simp only [State.setProc] <;> grind [update_sleeping]
  | @close writable unused =>
    obtain ⟨asleep, blocked⟩ := safe
    cases writable <;> unfold pipeclose <;> simp only [↓reduceIte, Bool.false_eq_true] <;>
      constructor <;> grind [wakeup_sleeping]
  | @read p n awake here =>
    have up := roles.reading p n here
    obtain ⟨asleep, blocked⟩ := safe
    rcases piperead_cases s p n with ⟨-, -, ends⟩ | ⟨empty, up, ends⟩ | ⟨ready, ends⟩ <;>
      rw [ends] <;> constructor <;> simp only [State.setProc] <;>
      grind [update_sleeping, wakeup_sleeping]

theorem pipewrite_gives_up {call : Nat} {src : List Byte} (killed : (s.procs p).killed = true)
    (more : (fill s.pipe.ring src).2 ≠ []) :
    (pipewrite s p call src).2.procs =
      Function.update s.procs p { s.procs p with task := .idle } := by
  unfold pipewrite
  dsimp only
  split
  · contradiction
  · rw [if_pos (by simp [killed])]
    rfl

/-- The reader that an abandoned pipewrite leaves asleep has bytes to read. -/
theorem Abandons.leaves (abandons : Abandons s label) (queued : Queued s)
    (taken : Step s label out t) :
    ∃ q, (t.procs q).sleeping = some .nread ∧ ¬t.pipe.ring.isEmpty := by
  obtain ⟨p, c, src, rfl, awake, here, killed, -, more, q, sleeps⟩ := abandons
  obtain ⟨queue, holds, -⟩ := queued
  obtain ⟨-, holds', size⟩ := fill_spec holds src
  cases taken with
  | read _ other =>
    rw [here] at other
    cases other
  | write _ other =>
    rw [here] at other
    cases other
    have apart : q ≠ p := by
      rintro rfl
      rw [awake] at sleeps
      cases sleeps
    refine ⟨q, ?_, ?_⟩
    · rw [pipewrite_gives_up killed more, Function.update_of_ne apart, sleeps]
    · rw [(pipewrite_rest s p c src).1]
      intro empty
      have full := size more
      rw [(holds'.isEmpty_iff pipesize_lt).mp empty] at full
      cases full

def Tidy (s : State ι) (label : Label ι) (out : Out) (t : State ι) : Prop :=
  Step s label out t ∧ ¬Abandons s label

omit [DecidableEq ι] in
theorem roles_start (cells : Nat → Byte) : Roles (start cells : State ι) :=
  ⟨nofun, nofun, nofun, nofun⟩

/-- As long as no killed writer abandons a pipe it has just filled while a reader
sleeps, nobody sleeps whose condition has come true; and it takes such a step to
break this. -/
theorem no_lost_wakeup {cells : Nat → Byte} (run : Run Tidy (start cells) trace s) :
    NoLost s ∧ ∀ label out t, Step s label out t → (NoLost t ↔ ¬Abandons s label) := by
  obtain ⟨safe, queued, roles⟩ : NoLost s ∧ Queued s ∧ Roles s :=
    run.invariant (I := fun s => NoLost s ∧ Queued s ∧ Roles s)
      (fun ⟨safe, queued, roles⟩ taken =>
        ⟨safe.step queued roles taken.1 taken.2, queued.step taken.1, roles.step taken.1⟩)
      ⟨⟨nofun, nofun⟩, queued_start cells, roles_start cells⟩
  refine ⟨safe, fun label out t taken => ⟨fun after abandons => ?_, safe.step queued roles taken⟩⟩
  obtain ⟨q, sleeps, bytes⟩ := abandons.leaves queued taken
  exact bytes (after.readers q sleeps).1

/-- A reader goes to sleep on an empty pipe. -/
theorem no_lost_wakeup_reader : ∃ trace, ∃ s : State Bool, Run Tidy (start fun _ => 0) trace s ∧
    (s.procs true).sleeping = some .nread ∧ NoLost s := by
  have run : ∃ trace, ∃ s : State Bool, Run Tidy (start fun _ => 0) trace s ∧
      (s.procs true).sleeping = some .nread := by
    refine ⟨_, _, .cons ⟨@Step.enterRead Bool _ _ true 1 rfl rfl, ?_⟩
      (.cons ⟨@Step.read Bool _ _ true 1 rfl rfl, ?_⟩ .nil), rfl⟩
    · rintro ⟨p, c, src, same, -⟩
      cases same
    · rintro ⟨p, c, src, same, -, here, -⟩
      cases same
      cases here
  obtain ⟨trace, s, run, sleeps⟩ := run
  exact ⟨trace, s, run, sleeps, (no_lost_wakeup run).1⟩

/-- The writer is killed after it has entered pipewrite with 513 bytes, while a
reader sleeps: it fills the pipe and returns, and the reader sleeps on. -/
theorem full_pipe_sleeping_reader : ∃ trace, ∃ s : State Bool,
    Run Step (start fun _ => 0) trace s ∧
      ∃ q, (s.procs q).sleeping = some .nread ∧ ¬s.pipe.ring.isEmpty := by
  obtain ⟨src, long⟩ : ∃ src : List Byte, src.length = PIPESIZE + 1 :=
    ⟨List.replicate _ 0, List.length_replicate⟩
  have before : ∃ trace, ∃ u : State Bool, Run Step (start fun _ => 0) trace u ∧
      u.pipe.ring = ⟨fun _ => 0, 0, 0⟩ ∧ u.procs = Function.update (Function.update (fun _ =>
        ⟨.idle, none, false⟩) true ⟨.reading 1, some .nread, false⟩) false
        ⟨.writing 0 src, none, true⟩ := by
    refine ⟨_, _, .cons (@Step.enterRead Bool _ _ true 1 rfl rfl)
      (.cons (@Step.read Bool _ _ true 1 rfl rfl)
      (.cons (@Step.enterWrite Bool _ _ false src rfl rfl)
      (.cons (@Step.kill Bool _ _ false) .nil))), rfl, ?_⟩
    funext p
    cases p <;> rfl
  obtain ⟨trace, u, run, ring, procs⟩ := before
  have queued : Queued u :=
    run.invariant (fun queued taken => queued.step taken) (queued_start _)
  have holds : Holds PIPESIZE u.pipe.ring [] := by
    rw [ring]
    exact ⟨Nat.zero_le _, rfl, nofun⟩
  obtain ⟨split, holds', size⟩ := fill_spec holds src
  have more : (fill u.pipe.ring src).2 ≠ [] := by
    intro none
    have bound := holds'.length_le
    rw [none, List.append_nil] at split
    rw [List.nil_append, ← split] at bound
    omega
  have some : stored u.pipe.ring src ≠ [] := by
    intro none
    have full := size more
    rw [none] at full
    cases full
  have abandons : Abandons u (.run false) :=
    ⟨false, 0, src, rfl, by rw [procs]; rfl, by rw [procs]; rfl, by rw [procs]; rfl, some, more,
      true,
      by rw [procs]; rfl⟩
  have last : Step u (.run false) _ _ :=
    @Step.write Bool _ u false 0 src (by rw [procs]; rfl) (by rw [procs]; rfl)
  exact ⟨_, _, run.append (.single last), abandons.leaves queued last⟩

end Xv6Cow.Pipes
