import Mathlib.Data.List.FinRange
import Xv6Cow.Kernel
import Xv6Cow.Lib.Runs

/- proc.c: the process table as fork, exit, wait, kill and the scheduler see it,
cut into the sections that run under ptable.lock. fork writes its child's entry
outside the lock, so it is three sections: allocproc, the store of the parent,
and the store of RUNNABLE. trap.c marks a process that misbehaves. What these
calls do to memory is in Process. -/
namespace Xv6Cow.ProcTable

open Runs

/-- What a process sleeps on: an entry of the table (wait), or anything else. -/
inductive Chan
  | proc (p : Fin NPROC)
  | other (c : Nat)
  deriving DecidableEq

/-- Where the kernel thread of a process stands: inside fork with the entry it was
given, before or after it has stored the parent, or inside wait. -/
inductive Stage
  | free
  | forked (np : Fin NPROC)
  | adopted (np : Fin NPROC)
  | waiting
  deriving DecidableEq

/-- `birth` numbers the calls of allocproc; it tells apart the processes that used
one entry, and is not in the source. -/
structure Entry where
  state : ProcState
  pid : Word
  parent : Option (Fin NPROC)
  killed : Bool
  chan : Option Chan
  stage : Stage
  birth : Nat
  deriving DecidableEq

structure Table where
  entries : Fin NPROC → Entry
  nextpid : Word
  initproc : Fin NPROC
  births : Nat

def Table.set (s : Table) (q : Fin NPROC) (e : Entry) : Table :=
  { s with entries := Function.update s.entries q e }

@[grind =] theorem Table.set_entries (s : Table) (q r : Fin NPROC) (e : Entry) :
    (s.set q e).entries r = if r = q then e else s.entries r := Function.update_apply ..

@[grind =] theorem Table.set_initproc (s : Table) (q : Fin NPROC) (e : Entry) :
    (s.set q e).initproc = s.initproc := rfl

@[grind =] theorem Table.set_births (s : Table) (q : Fin NPROC) (e : Entry) :
    (s.set q e).births = s.births := rfl

inductive Label
  | schedule (p : Fin NPROC)
  | yield (p : Fin NPROC)
  | sleep (p : Fin NPROC) (c : Nat)
  | wakeup (c : Nat)
  | kill (p : Fin NPROC) (pid : Word)
  | allocproc (p : Fin NPROC)
  | adopt (p : Fin NPROC)
  | publish (p : Fin NPROC)
  | exit (p : Fin NPROC)
  | wait (p : Fin NPROC)
  | trap (p : Fin NPROC)
  deriving DecidableEq

/-- What a section returns: nothing, 0, -1, or for wait the child's pid. -/
inductive Out
  | none
  | zero
  | minusOne
  | reaped (pid : Word) (birth : Nat)
  deriving DecidableEq

def wakeup1 (chan : Option Chan) (s : Table) : Table :=
  { s with
    entries := fun q =>
      let e := s.entries q
      if e.state = .sleeping ∧ e.chan = chan then { e with state := .runnable } else e }

/-- One round of exit's loop over the table. -/
def abandonChild (p : Fin NPROC) (s : Table) (q : Fin NPROC) : Table :=
  if (s.entries q).parent = some p then
    let s' := s.set q { s.entries q with parent := some s.initproc }
    if (s'.entries q).state = .zombie then wakeup1 (some (.proc s'.initproc)) s' else s'
  else s

/-- exit, from the acquire of ptable.lock to sched. -/
def exit (p : Fin NPROC) (s : Table) : Table :=
  let woken := wakeup1 ((s.entries p).parent.map .proc) s
  let orphaned := (List.finRange NPROC).foldl (abandonChild p) woken
  orphaned.set p { orphaned.entries p with state := .zombie }

/-- The first entry of the table that passes a test. -/
def Table.find (s : Table) (test : Entry → Bool) : Option (Fin NPROC) :=
  (List.finRange NPROC).find? fun q => test (s.entries q)

/-- The part of allocproc under the lock. `killed` is not among what it sets. -/
def allocproc (s : Table) : Option (Fin NPROC × Table) :=
  (s.find fun e => e.state = .unused).map fun np =>
    (np, { s with nextpid := s.nextpid + 1, births := s.births + 1 }.set np
      { s.entries np with state := .embryo, pid := s.nextpid, birth := s.births })

/-- One scan of wait's loop, up to its return or its sleep. -/
def wait (p : Fin NPROC) (s : Table) : Out × Table :=
  match s.find fun e => e.parent = some p ∧ e.state = .zombie with
  | some q =>
    let e := s.entries q
    let reaped :=
      s.set q { e with state := .unused, pid := 0, parent := none, killed := false }
    (.reaped e.pid e.birth, reaped.set p { reaped.entries p with stage := .free })
  | none =>
    if (s.find fun e => e.parent = some p) = none ∨ (s.entries p).killed then
      (.minusOne, s.set p { s.entries p with stage := .free })
    else
      (.none, s.set p { s.entries p with
        chan := some (.proc p), state := .sleeping, stage := .waiting })

def kill (w : Word) (s : Table) : Out × Table :=
  match s.find fun e => e.pid = w with
  | some q =>
    let e := { s.entries q with killed := true }
    (.zero, s.set q (if e.state = .sleeping then { e with state := .runnable } else e))
  | none => (.minusOne, s)

/-- One section. `none`: that process is not running, or is not at that point. -/
def step (s : Table) : Label → Option (Out × Table)
  | .schedule p =>
    -- a process that slept clears its channel before it gives up the lock
    if (s.entries p).state = .runnable then
      some (.none, s.set p { s.entries p with state := .running, chan := none })
    else none
  | .yield p =>
    if (s.entries p).state = .running then
      some (.none, s.set p { s.entries p with state := .runnable })
    else none
  | .sleep p c =>
    if (s.entries p).state = .running ∧ (s.entries p).stage ≠ .waiting then
      some (.none, s.set p { s.entries p with state := .sleeping, chan := some (.other c) })
    else none
  | .wakeup c => some (.none, wakeup1 (some (.other c)) s)
  | .kill p w =>
    if (s.entries p).state = .running ∧ (s.entries p).stage = .free then some (kill w s) else none
  | .allocproc p =>
    if (s.entries p).state = .running ∧ (s.entries p).stage = .free then
      match allocproc s with
      | some (np, t) => some (.none, t.set p { t.entries p with stage := .forked np })
      | none => some (.minusOne, s)
    else none
  | .adopt p =>
    match (s.entries p).state, (s.entries p).stage with
    | .running, .forked np =>
      let t := s.set np { s.entries np with parent := some p }
      some (.none, t.set p { t.entries p with stage := .adopted np })
    | _, _ => none
  | .publish p =>
    match (s.entries p).state, (s.entries p).stage with
    | .running, .adopted np =>
      let t := s.set np { s.entries np with state := .runnable }
      some (.none, t.set p { t.entries p with stage := .free })
    | _, _ => none
  | .exit p =>
    -- init does not get here: exit panics
    if (s.entries p).state = .running ∧ (s.entries p).stage = .free ∧ p ≠ s.initproc then
      some (.none, exit p s)
    else none
  | .wait p =>
    if (s.entries p).state = .running ∧
        ((s.entries p).stage = .free ∨ (s.entries p).stage = .waiting) then
      some (wait p s)
    else none
  | .trap p =>
    -- the default case of trap, in user space: the process misbehaved
    if (s.entries p).state = .running ∧ (s.entries p).stage = .free then
      some (.none, s.set p { s.entries p with killed := true })
    else none

def Step (s : Table) (label : Label) (out : Out) (t : Table) : Prop := step s label = some (out, t)

def vacant : Entry := ⟨.unused, 0, none, false, none, .free, 0⟩

/-- After userinit: init is RUNNABLE with pid 1. -/
def boot : Table :=
  { entries := Function.update (fun _ => vacant) 0 ⟨.runnable, 1, none, false, none, .free, 0⟩
    nextpid := 2
    initproc := 0
    births := 1 }

def Entry.alive (e : Entry) : Prop :=
  e.state = .sleeping ∨ e.state = .runnable ∨ e.state = .running

/-- The stage says that the process is making `q` its child. -/
def Stage.claims (stage : Stage) (q : Fin NPROC) : Prop := stage = .forked q ∨ stage = .adopted q

/-- What holds of the table whenever ptable.lock is free. -/
structure Inv (s : Table) : Prop where
  initAlive : (s.entries s.initproc).alive
  initParent : (s.entries s.initproc).parent = none
  ownParent : ∀ q, (s.entries q).parent ≠ some q
  unused : ∀ q, (s.entries q).state = .unused → (s.entries q).pid = 0 ∧ (s.entries q).parent = none
  parents : ∀ q p, (s.entries q).parent = some p → (s.entries p).alive
  family : ∀ q, q ≠ s.initproc → (s.entries q).alive ∨ (s.entries q).state = .zombie →
    (s.entries q).parent ≠ none
  waits : ∀ p q, (s.entries p).state = .sleeping → (s.entries p).chan = some (.proc p) →
    (s.entries q).parent = some p → (s.entries q).state ≠ .zombie
  claimed : ∀ p q, (s.entries p).stage.claims q → (s.entries q).state = .embryo
  adopted : ∀ p q, (s.entries p).stage = .adopted q → (s.entries q).parent = some p
  claimedOnce : ∀ p r q, (s.entries p).stage.claims q → (s.entries r).stage.claims q → p = r
  idle : ∀ p, ¬(s.entries p).alive → (s.entries p).stage = .free
  born : ∀ q, (s.entries q).state ≠ .unused → (s.entries q).birth < s.births
  apart : ∀ q r, (s.entries q).state ≠ .unused → (s.entries r).state ≠ .unused →
    (s.entries q).birth = (s.entries r).birth → q = r

theorem inv_boot : Inv boot := by
  have others : ∀ q : Fin NPROC, q ≠ 0 → boot.entries q = vacant := by
    intro q other
    simp [boot, other]
  have first : boot.entries 0 = ⟨.runnable, 1, none, false, none, .free, 0⟩ := by
    simp [boot]
  have init : boot.initproc = 0 := rfl
  have births : boot.births = 1 := rfl
  constructor <;> grind [Entry.alive, Stage.claims, vacant]

variable {s t : Table} {p q : Fin NPROC}

/-- A section that changes one entry, and neither its parent, nor its stage, nor
which process it is. -/
theorem Inv.set_alive (inv : Inv s) {e : Entry} (was : (s.entries p).alive) (is : e.alive)
    (parent : e.parent = (s.entries p).parent) (stage : e.stage = (s.entries p).stage)
    (birth : e.birth = (s.entries p).birth)
    (chan : e.state = .sleeping → e.chan = some (.proc p) →
      (s.entries p).state = .sleeping ∧ (s.entries p).chan = some (.proc p)) :
    Inv (s.set p e) := by
  obtain ⟨⟩ := inv
  constructor <;> grind [Entry.alive, Stage.claims]

/-- What wakeup and kill can do to an entry. -/
structure Woken (e e' : Entry) : Prop where
  pid : e'.pid = e.pid
  parent : e'.parent = e.parent
  chan : e'.chan = e.chan
  stage : e'.stage = e.stage
  birth : e'.birth = e.birth
  state : e'.state = e.state ∨ e.state = .sleeping ∧ e'.state = .runnable

theorem Inv.woken (inv : Inv s) (init : t.initproc = s.initproc) (births : t.births = s.births)
    (woken : ∀ q, Woken (s.entries q) (t.entries q)) : Inv t := by
  obtain ⟨⟩ := inv
  constructor <;> grind [Entry.alive, Stage.claims, Woken]

theorem wakeup1_woken (chan : Option Chan) (s : Table) (q : Fin NPROC) :
    Woken (s.entries q) ((wakeup1 chan s).entries q) := by
  unfold wakeup1
  constructor <;> grind

theorem kill_woken (w : Word) (s : Table) (q : Fin NPROC) :
    Woken (s.entries q) ((kill w s).2.entries q) := by
  unfold kill
  cases s.find fun e => e.pid = w with
  | none => exact ⟨rfl, rfl, rfl, rfl, rfl, .inl rfl⟩
  | some r => constructor <;> grind

theorem kill_rest (w : Word) (s : Table) :
    (kill w s).2.initproc = s.initproc ∧ (kill w s).2.births = s.births := by
  unfold kill
  split <;> exact ⟨rfl, rfl⟩

theorem Table.find_some {test : Entry → Bool} (found : s.find test = some q) :
    test (s.entries q) = true :=
  @List.find?_some _ (fun q => test (s.entries q)) _ _ found

theorem Table.find_none {test : Entry → Bool} (missing : s.find test = none) (q : Fin NPROC) :
    test (s.entries q) = false := by
  have fails := List.find?_eq_none.mp missing q (List.mem_finRange q)
  simpa using fails

theorem allocproc_some {np : Fin NPROC} (got : allocproc s = some (np, t)) :
    (s.entries np).state = .unused ∧
      t = { s with nextpid := s.nextpid + 1, births := s.births + 1 }.set np
        { s.entries np with state := .embryo, pid := s.nextpid, birth := s.births } := by
  unfold allocproc at got
  obtain ⟨np', found, same⟩ := Option.map_eq_some_iff.mp got
  obtain ⟨rfl, rfl⟩ := Prod.mk.injEq .. ▸ same
  exact ⟨by simpa using Table.find_some found, rfl⟩

/-- A section of fork changes the caller and its child only. -/
structure Forks (p np : Fin NPROC) (caller child : Entry) (s t : Table) : Prop where
  init : t.initproc = s.initproc
  apart : np ≠ p
  caller : t.entries p = caller
  child : t.entries np = child
  others : ∀ r, r ≠ p → r ≠ np → t.entries r = s.entries r

theorem Forks.of_set (s : Table) {np : Fin NPROC} (child : Entry) (stage : Stage) (apart : np ≠ p) :
    Forks p np { s.entries p with stage := stage } child s
      ((s.set np child).set p { (s.set np child).entries p with stage := stage }) := by
  constructor <;> grind

theorem Inv.allocproc (inv : Inv s) {np : Fin NPROC} (running : (s.entries p).state = .running)
    (vacant : (s.entries np).state = .unused) (births : t.births = s.births + 1)
    (forks : Forks p np { s.entries p with stage := .forked np }
      { s.entries np with state := .embryo, pid := s.nextpid, birth := s.births } s t) : Inv t := by
  obtain ⟨⟩ := forks
  obtain ⟨⟩ := inv
  constructor <;> grind [Entry.alive, Stage.claims]

theorem Inv.mine (inv : Inv s) {np : Fin NPROC} (claims : (s.entries p).stage.claims np)
    (r : Fin NPROC) (other : r ≠ p) :
    (s.entries r).stage ≠ .forked np ∧ (s.entries r).stage ≠ .adopted np :=
  ⟨fun stage => other (inv.claimedOnce r p np (.inl stage) claims),
    fun stage => other (inv.claimedOnce r p np (.inr stage) claims)⟩

theorem Inv.adopt (inv : Inv s) {np : Fin NPROC} (running : (s.entries p).state = .running)
    (stage : (s.entries p).stage = .forked np) (births : t.births = s.births)
    (forks : Forks p np { s.entries p with stage := .adopted np }
      { s.entries np with parent := some p } s t) : Inv t := by
  have embryo := inv.claimed p np (.inl stage)
  have mine := inv.mine (.inl stage)
  have idle := inv.idle np (by simp [Entry.alive, embryo])
  obtain ⟨⟩ := forks
  obtain ⟨⟩ := inv
  constructor <;> grind [Entry.alive, Stage.claims]

theorem Inv.publish (inv : Inv s) {np : Fin NPROC} (running : (s.entries p).state = .running)
    (stage : (s.entries p).stage = .adopted np) (births : t.births = s.births)
    (forks : Forks p np { s.entries p with stage := .free }
      { s.entries np with state := .runnable } s t) : Inv t := by
  have embryo := inv.claimed p np (.inr stage)
  have mine := inv.mine (.inr stage)
  have idle := inv.idle np (by simp [Entry.alive, embryo])
  have parent := inv.adopted p np stage
  obtain ⟨⟩ := forks
  obtain ⟨⟩ := inv
  constructor <;> grind [Entry.alive, Stage.claims]

/-- What one round of exit's loop, or several, can do. -/
structure Abandoned (p : Fin NPROC) (s t : Table) : Prop where
  init : t.initproc = s.initproc
  births : t.births = s.births
  pid : ∀ q, (t.entries q).pid = (s.entries q).pid
  stage : ∀ q, (t.entries q).stage = (s.entries q).stage
  chan : ∀ q, (t.entries q).chan = (s.entries q).chan
  birth : ∀ q, (t.entries q).birth = (s.entries q).birth
  killed : ∀ q, (t.entries q).killed = (s.entries q).killed
  state : ∀ q, (t.entries q).state = (s.entries q).state ∨
    (s.entries q).state = .sleeping ∧ (t.entries q).state = .runnable
  parent : ∀ q, (t.entries q).parent = (s.entries q).parent ∨
    (s.entries q).parent = some p ∧ (t.entries q).parent = some s.initproc
  woken : ∀ q, (s.entries q).parent = some p → (t.entries q).parent = some s.initproc →
    (s.entries q).state = .zombie → p ≠ s.initproc →
    (t.entries s.initproc).chan = some (.proc s.initproc) →
    (t.entries s.initproc).state ≠ .sleeping

theorem Abandoned.refl (p : Fin NPROC) (s : Table) : Abandoned p s s := by
  constructor <;> grind

theorem Abandoned.trans {u : Table} (first : Abandoned p s t) (second : Abandoned p t u) :
    Abandoned p s u := by
  obtain ⟨⟩ := first
  obtain ⟨⟩ := second
  constructor <;> grind

theorem abandonChild_abandoned (p q : Fin NPROC) (s : Table) :
    Abandoned p s (abandonChild p s q) := by
  unfold abandonChild wakeup1
  constructor <;> grind

theorem abandonChild_parent (p q : Fin NPROC) (s : Table) (other : p ≠ s.initproc) :
    ((abandonChild p s q).entries q).parent ≠ some p := by
  unfold abandonChild wakeup1
  grind

theorem foldl_abandoned (children : List (Fin NPROC)) (s : Table) :
    Abandoned p s (children.foldl (abandonChild p) s) := by
  induction children generalizing s with
  | nil => exact .refl p s
  | cons q rest ih => exact (abandonChild_abandoned p q s).trans (ih _)

/-- The loop visits every entry, so nobody is left with the exiting process as parent. -/
theorem foldl_parent (children : List (Fin NPROC)) (s : Table) (other : p ≠ s.initproc)
    (visited : q ∈ children) : ((children.foldl (abandonChild p) s).entries q).parent ≠ some p := by
  induction children generalizing s with
  | nil => exact absurd visited List.not_mem_nil
  | cons r rest ih =>
    have head := abandonChild_abandoned p r s
    rcases List.mem_cons.mp visited with rfl | later
    · have gone := abandonChild_parent p q s other
      have kept := (@foldl_abandoned p rest (abandonChild p s q)).parent q
      rw [List.foldl_cons]
      grind
    · exact ih _ (by rw [head.init]; exact other) later

/-- The parent is woken first, while its child is not yet a ZOMBIE. -/
theorem wakeup1_parent (s : Table) (child : (s.entries p).parent = some q)
    (sleeping : ((wakeup1 ((s.entries p).parent.map .proc) s).entries q).state = .sleeping) :
    ((wakeup1 ((s.entries p).parent.map .proc) s).entries q).chan ≠ some (.proc q) := by
  unfold wakeup1 at sleeping ⊢
  grind

theorem Inv.abandon (inv : Inv s) (running : (s.entries p).state = .running)
    (free : (s.entries p).stage = .free) (other : p ≠ s.initproc)
    (parent : ∀ q, (s.entries p).parent = some q → (s.entries q).state = .sleeping →
      (s.entries q).chan ≠ some (.proc q))
    (loop : Abandoned p s t) (left : ∀ q, (t.entries q).parent ≠ some p) :
    Inv (t.set p { t.entries p with state := .zombie }) := by
  obtain ⟨⟩ := loop
  obtain ⟨⟩ := inv
  constructor <;> grind [Entry.alive, Stage.claims]

theorem Inv.exit (inv : Inv s) (running : (s.entries p).state = .running)
    (free : (s.entries p).stage = .free) (other : p ≠ s.initproc) : Inv (exit p s) := by
  have woken := wakeup1_woken ((s.entries p).parent.map .proc) s
  have early : Inv (wakeup1 ((s.entries p).parent.map .proc) s) := inv.woken rfl rfl woken
  unfold ProcTable.exit
  refine early.abandon ?_ ?_ other ?_ (foldl_abandoned _ _)
    fun q => foldl_parent _ _ other (List.mem_finRange q)
  · have kept := (woken p).state
    grind
  · rw [(woken p).stage, free]
  · intro q child
    rw [(woken p).parent] at child
    exact wakeup1_parent s child

/-- wait takes the first ZOMBIE among the caller's children, if there is one. -/
theorem wait_reaps (found : (s.find fun e => e.parent = some p ∧ e.state = .zombie) = some q)
    (running : (s.entries p).state = .running) :
    (s.entries q).parent = some p ∧ (s.entries q).state = .zombie ∧ q ≠ p := by
  have test := Table.find_some found
  simp only [decide_eq_true_eq] at test
  refine ⟨test.1, test.2, ?_⟩
  rintro rfl
  simp [running] at test

theorem Inv.reap (inv : Inv s) (child : (s.entries q).parent = some p)
    (zombie : (s.entries q).state = .zombie) (births : t.births = s.births)
    (running : (s.entries p).state = .running)
    (reaps : Forks p q { s.entries p with stage := .free }
      { s.entries q with state := .unused, pid := 0, parent := none, killed := false } s t) :
    Inv t := by
  have idle := inv.idle q (by simp [Entry.alive, zombie])
  obtain ⟨⟩ := reaps
  obtain ⟨⟩ := inv
  constructor <;> grind [Entry.alive, Stage.claims]

/-- The caller leaves wait, or sleeps in it because no child is a ZOMBIE. -/
theorem Inv.set_waiter (inv : Inv s) {e : Entry} (running : (s.entries p).state = .running)
    (after : e.stage = .free ∨ e.stage = .waiting) (is : e.alive)
    (parent : e.parent = (s.entries p).parent) (birth : e.birth = (s.entries p).birth)
    (none : e.state = .sleeping → ∀ q, (s.entries q).parent = some p →
      (s.entries q).state ≠ .zombie) :
    Inv (s.set p e) := by
  obtain ⟨⟩ := inv
  constructor <;> grind [Entry.alive, Stage.claims]

theorem Inv.wait (inv : Inv s) (running : (s.entries p).state = .running) : Inv (wait p s).2 := by
  unfold ProcTable.wait
  cases found : s.find fun e => e.parent = some p ∧ e.state = .zombie with
  | some q =>
    obtain ⟨child, zombie, apart⟩ := wait_reaps found running
    exact inv.reap child zombie rfl running (.of_set s _ _ apart)
  | none =>
    have calm : ∀ q, (s.entries q).parent = some p → (s.entries q).state ≠ .zombie := by
      intro q child zombie
      have test := Table.find_none found q
      simp [child, zombie] at test
    dsimp only
    split
    · exact inv.set_waiter running (.inl rfl) (.inr (.inr running)) rfl rfl fun _ => calm
    · exact inv.set_waiter running (.inr rfl) (.inl rfl) rfl rfl fun _ => calm

theorem Inv.step (inv : Inv s) {label : Label} {out : Out} (taken : Step s label out t) :
    Inv t := by
  unfold Step ProcTable.step at taken
  cases label with
  | schedule p =>
    dsimp only at taken
    split at taken <;> cases taken
    rename_i runnable
    exact inv.set_alive (.inr (.inl runnable)) (.inr (.inr rfl)) rfl rfl rfl nofun
  | yield p =>
    dsimp only at taken
    split at taken <;> cases taken
    rename_i running
    exact inv.set_alive (.inr (.inr running)) (.inr (.inl rfl)) rfl rfl rfl nofun
  | sleep p c =>
    dsimp only at taken
    split at taken <;> cases taken
    rename_i running
    exact inv.set_alive (.inr (.inr running.1)) (.inl rfl) rfl rfl rfl nofun
  | wakeup c =>
    cases taken
    exact inv.woken rfl rfl (wakeup1_woken _ s)
  | kill p w =>
    dsimp only at taken
    split at taken
    · have woken := kill_woken w s
      rw [Option.some.inj taken] at woken
      obtain ⟨init, births⟩ := kill_rest w s
      rw [Option.some.inj taken] at init births
      exact inv.woken init births woken
    · cases taken
  | allocproc p =>
    dsimp only at taken
    split at taken
    · rename_i ready
      split at taken <;> cases taken
      · rename_i np u got
        obtain ⟨unused, rfl⟩ := allocproc_some got
        have apart : np ≠ p := by
          rintro rfl
          simp [ready.1] at unused
        refine inv.allocproc ready.1 unused rfl ?_
        constructor <;> grind
      · exact inv
    · cases taken
  | adopt p =>
    dsimp only at taken
    split at taken <;> cases taken
    rename_i running stage
    have embryo := inv.claimed _ _ (.inl stage)
    exact inv.adopt running stage rfl (.of_set s _ _ (by rintro rfl; simp [running] at embryo))
  | publish p =>
    dsimp only at taken
    split at taken <;> cases taken
    rename_i running stage
    have embryo := inv.claimed _ _ (.inr stage)
    exact inv.publish running stage rfl (.of_set s _ _ (by rintro rfl; simp [running] at embryo))
  | exit p =>
    dsimp only at taken
    split at taken <;> cases taken
    rename_i ready
    exact inv.exit ready.1 ready.2.1 ready.2.2
  | wait p =>
    dsimp only at taken
    split at taken
    · rename_i ready
      have same := Option.some.inj taken
      have after := inv.wait ready.1
      rw [same] at after
      exact after
    · cases taken
  | trap p =>
    dsimp only at taken
    split at taken <;> cases taken
    rename_i ready
    exact inv.set_alive (.inr (.inr ready.1)) (.inr (.inr ready.1)) rfl rfl rfl
      fun asleep chan => ⟨asleep, chan⟩

end Xv6Cow.ProcTable
