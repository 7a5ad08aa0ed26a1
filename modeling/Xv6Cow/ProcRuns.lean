import Xv6Cow.ProcTable

/- What holds in every run of the process table: the tree of parents, one wait for
each child, and which process a kill reaches. -/
namespace Xv6Cow.ProcTable

open Runs

variable {s t : Table} {p q : Fin NPROC} {label : Label} {out : Out} {trace : List (Label × Out)}

/-- What a section can do to the process that an entry holds. -/
inductive Fate (label : Label) (out : Out) (births : Nat) (q : Fin NPROC) (e e' : Entry) : Prop
  | kept (used : e'.state = .unused ↔ e.state = .unused) (pid : e'.pid = e.pid)
      (birth : e'.birth = e.birth) (killed : e'.killed = e.killed)
  | hit (p : Fin NPROC) (call : label = .kill p e.pid) (returns : out = .zero)
      (used : e'.state = .unused ↔ e.state = .unused) (pid : e'.pid = e.pid)
      (birth : e'.birth = e.birth)
  | trapped (call : label = .trap q) (running : e.state = .running) (used : e'.state = .running)
      (pid : e'.pid = e.pid) (birth : e'.birth = e.birth)
  | born (before : e.state = .unused) (birth : e'.birth = births) (killed : e'.killed = e.killed)
  | reaped (zombie : e.state = .zombie) (after : e'.state = .unused) (killed : e'.killed = false)

theorem Fate.same (e : Entry) (births : Nat) : Fate label out births q e e :=
  .kept .rfl rfl rfl rfl

/-- The entry that kill finds is the first one with that pid. -/
theorem kill_cases (w : Word) (s : Table) :
    (∃ q, s.find (fun e => e.pid = w) = some q ∧ (s.entries q).pid = w ∧ (kill w s).1 = .zero ∧
      ((kill w s).2.entries q).killed = true ∧
      (((kill w s).2.entries q).state = .unused ↔ (s.entries q).state = .unused) ∧
      ∀ r, r ≠ q → (kill w s).2.entries r = s.entries r) ∨
    ((∀ q, (s.entries q).pid ≠ w) ∧ kill w s = (.minusOne, s)) := by
  cases found : s.find fun e => e.pid = w with
  | some q =>
    have pid := Table.find_some found
    left
    refine ⟨q, rfl, by simpa using pid, ?_⟩
    unfold kill
    rw [found]
    refine ⟨rfl, ?_⟩
    grind
  | none =>
    right
    refine ⟨fun q => by simpa using Table.find_none found q, ?_⟩
    unfold kill
    rw [found]

theorem wakeup1_fate (chan : Option Chan) (s : Table) (q : Fin NPROC) (births : Nat) :
    Fate label out births q (s.entries q) ((wakeup1 chan s).entries q) := by
  unfold wakeup1
  grind [Fate]

theorem wakeup1_killed (chan : Option Chan) (s : Table) (q : Fin NPROC) :
    ((wakeup1 chan s).entries q).killed = (s.entries q).killed := by
  unfold wakeup1
  grind

theorem exit_fate (running : (s.entries p).state = .running) (q : Fin NPROC) (births : Nat) :
    Fate label out births q (s.entries q) ((exit p s).entries q) := by
  have early := wakeup1_woken ((s.entries p).parent.map .proc) s q
  have killed := wakeup1_killed ((s.entries p).parent.map .proc) s q
  have loop := @foldl_abandoned p (List.finRange NPROC) (wakeup1 ((s.entries p).parent.map .proc) s)
  unfold exit
  dsimp only
  generalize wakeup1 ((s.entries p).parent.map .proc) s = woken at *
  generalize (List.finRange NPROC).foldl (abandonChild p) woken = orphaned at *
  obtain ⟨⟩ := early
  obtain ⟨⟩ := loop
  apply Fate.kept <;> grind

theorem wait_fate (running : (s.entries p).state = .running) (q : Fin NPROC) (births : Nat) :
    Fate label out births q (s.entries q) ((wait p s).2.entries q) := by
  unfold wait
  cases found : s.find fun e => e.parent = some p ∧ e.state = .zombie with
  | some r =>
    obtain ⟨child, zombie, apart⟩ := wait_reaps found running
    grind [Fate]
  | none => grind [Fate]

theorem step_fate (inv : Inv s) (taken : Step s label out t) (q : Fin NPROC) :
    Fate label out s.births q (s.entries q) (t.entries q) := by
  unfold Step step at taken
  cases label with
  | schedule p => grind [Fate]
  | yield p => grind [Fate]
  | sleep p c => grind [Fate]
  | wakeup c =>
    cases taken
    exact wakeup1_fate _ s q _
  | kill p w =>
    dsimp only at taken
    split at taken
    · rcases kill_cases w s with ⟨r, _, pid, zero, killed, used, others⟩ | ⟨_, nothing⟩
      · have woken := kill_woken w s q
        rw [Option.some.inj taken] at zero used others woken
        by_cases target : q = r
        · subst target
          exact .hit p (by rw [pid]) zero used woken.pid woken.birth
        · rw [others q target]
          exact .same _ _
      · rw [nothing] at taken
        cases taken
        exact .same _ _
    · cases taken
  | allocproc p =>
    dsimp only at taken
    split at taken
    · split at taken <;> cases taken
      · rename_i np u got
        obtain ⟨unused, rfl⟩ := allocproc_some got
        grind [Fate]
      · exact .same _ _
    · cases taken
  | adopt p => grind [Fate]
  | publish p =>
    dsimp only at taken
    split at taken <;> cases taken
    rename_i running stage
    have embryo := inv.claimed _ _ (.inr stage)
    grind [Fate]
  | exit p =>
    dsimp only at taken
    split at taken <;> cases taken
    rename_i ready
    exact exit_fate ready.1 q _
  | wait p =>
    dsimp only at taken
    split at taken
    · rename_i ready
      have fate := @wait_fate s p (.wait p) out ready.1 q s.births
      rw [Option.some.inj taken] at fate
      exact fate
    · cases taken
  | trap p => grind [Fate]

/-! ## The tree and the waits -/

structure TreeOk (s : Table) : Prop where
  parents : ∀ q, q ≠ s.initproc →
    (s.entries q).state ∈ [ProcState.runnable, .running, .sleeping, .zombie] →
    ∃ p, (s.entries q).parent = some p ∧
      (s.entries p).state ≠ .unused ∧ (s.entries p).state ≠ .zombie
  waiters : ∀ p, (s.entries p).state = .sleeping → (s.entries p).chan = some (.proc p) →
    ∀ q, (s.entries q).parent = some p → (s.entries q).state ≠ .zombie

theorem Inv.treeOk (inv : Inv s) : TreeOk s := by
  constructor
  · intro q other used
    have child : (s.entries q).parent ≠ none := by
      apply inv.family q other
      unfold Entry.alive
      grind
    obtain ⟨p, parent⟩ := Option.ne_none_iff_exists'.mp child
    have alive := inv.parents q p parent
    unfold Entry.alive at alive
    grind
  · exact fun p sleeping chan q => inv.waits p q sleeping chan

/-- The processes that wait has returned, in order. -/
def reapedIn (trace : List (Label × Out)) : List Nat :=
  trace.filterMap fun call => match call.2 with
    | .reaped _ birth => some birth
    | _ => none

theorem reaped_child {w : Word} {b : Nat} (taken : Step s label (.reaped w b) t) :
    ∃ p q, label = .wait p ∧ (s.entries q).parent = some p ∧ (s.entries q).state = .zombie ∧
      (s.entries q).pid = w ∧ (s.entries q).birth = b ∧ (t.entries q).state = .unused := by
  unfold Step step at taken
  cases label with
  | wait p =>
    dsimp only at taken
    split at taken
    · rename_i ready
      have same := Option.some.inj taken
      unfold wait at same
      split at same
      · rename_i q found
        obtain ⟨child, zombie, apart⟩ := wait_reaps found ready.1
        grind
      · grind
    · cases taken
  | kill p w' =>
    dsimp only at taken
    split at taken
    · unfold kill at taken
      grind
    · cases taken
  | schedule p => grind
  | yield p => grind
  | sleep p c => grind
  | wakeup c => grind
  | allocproc p => grind
  | adopt p => grind
  | publish p => grind
  | exit p => grind
  | trap p => grind

theorem wait_minusOne (taken : Step s (.wait p) .minusOne t) :
    (∀ q, (s.entries q).parent ≠ some p) ∨ (s.entries p).killed = true := by
  unfold Step step at taken
  dsimp only at taken
  split at taken
  · have same := Option.some.inj taken
    unfold wait at same
    split at same
    · cases same
    · split at same
      · rename_i reason
        refine reason.imp_left fun childless q => ?_
        simpa using Table.find_none childless q
      · cases same
  · cases taken

theorem wait_births (p : Fin NPROC) (s : Table) : (wait p s).2.births = s.births := by
  unfold wait
  grind

theorem exit_births (p : Fin NPROC) (s : Table) : (exit p s).births = s.births := by
  have loop := @foldl_abandoned p (List.finRange NPROC) (wakeup1 ((s.entries p).parent.map .proc) s)
  have early : (wakeup1 ((s.entries p).parent.map .proc) s).births = s.births := rfl
  unfold exit
  rw [Table.set_births, loop.births, early]

theorem Step.births_le (taken : Step s label out t) : s.births ≤ t.births := by
  unfold Step step at taken
  cases label with
  | kill p w =>
    dsimp only at taken
    split at taken
    · have rest := (kill_rest w s).2
      rw [Option.some.inj taken] at rest
      exact rest.ge
    · cases taken
  | allocproc p =>
    dsimp only at taken
    split at taken
    · split at taken <;> cases taken
      · rename_i got
        obtain ⟨_, rfl⟩ := allocproc_some got
        exact Nat.le_succ _
      · exact le_rfl
    · cases taken
  | exit p =>
    dsimp only at taken
    split at taken <;> cases taken
    exact (exit_births p s).ge
  | wait p =>
    dsimp only at taken
    split at taken
    · have rest := wait_births p s
      rw [Option.some.inj taken] at rest
      exact rest.ge
    · cases taken
  | wakeup c =>
    cases taken
    exact le_rfl
  | schedule p => grind
  | yield p => grind
  | sleep p c => grind
  | adopt p => grind
  | publish p => grind
  | trap p => grind

/-- A process that wait returns was there at the start of the run or was born in
it, and is not returned again. -/
theorem reapedIn_run (run : Run Step s trace t) (inv : Inv s) :
    (reapedIn trace).Nodup ∧ ∀ b ∈ reapedIn trace,
      (∃ q, (s.entries q).state ≠ .unused ∧ (s.entries q).birth = b) ∨ s.births ≤ b := by
  induction run with
  | nil => exact ⟨List.nodup_nil, fun b member => absurd member List.not_mem_nil⟩
  | @cons s u t label out rest first later ih =>
    obtain ⟨once, origin⟩ := ih (inv.step first)
    have fate := step_fate inv first
    have grows := Step.births_le first
    have earlier : ∀ b ∈ reapedIn rest,
        (∃ q, (s.entries q).state ≠ .unused ∧ (s.entries q).birth = b) ∨ s.births ≤ b := by
      intro b member
      rcases origin b member with ⟨q, used, birth⟩ | later
      · cases fate q <;> grind
      · exact .inr (grows.trans later)
    cases out with
    | reaped w b =>
      obtain ⟨p, q, -, -, zombie, -, birth, gone⟩ := reaped_child first
      have used : (s.entries q).state ≠ .unused := by simp [zombie]
      have fresh : b ∉ reapedIn rest := by
        intro member
        have old := inv.born q used
        rcases origin b member with ⟨r, used', birth'⟩ | later
        · have same := inv.apart q r used
          cases fate r <;> grind
        · omega
      refine ⟨List.nodup_cons.mpr ⟨fresh, once⟩, ?_⟩
      rintro b' (_ | ⟨_, member⟩)
      · exact .inl ⟨q, used, birth⟩
      · exact earlier b' member
    | none => exact ⟨once, earlier⟩
    | zero => exact ⟨once, earlier⟩
    | minusOne => exact ⟨once, earlier⟩

/-- In every run of fork, exit, wait, kill and the scheduler the tree of processes is
in order, wait returns a child's pid, no process twice, and -1 only to a caller that
has no children or was killed. -/
theorem process_tree (run : Run Step boot trace s) :
    TreeOk s ∧ (reapedIn trace).Nodup ∧
      (∀ p w b t, Step s (.wait p) (.reaped w b) t → ∃ q, (s.entries q).parent = some p ∧
        (s.entries q).state = .zombie ∧ (s.entries q).pid = w ∧ (s.entries q).birth = b) ∧
      ∀ p t, Step s (.wait p) .minusOne t →
        (∀ q, (s.entries q).parent ≠ some p) ∨ (s.entries p).killed = true := by
  have inv : Inv s := run.invariant (fun inv taken => inv.step taken) inv_boot
  refine ⟨inv.treeOk, (reapedIn_run run inv_boot).1, ?_, fun p t => wait_minusOne⟩
  intro p w b t taken
  obtain ⟨p', q, call, child, zombie, pid, birth, -⟩ := reaped_child taken
  cases call
  exact ⟨q, child, zombie, pid, birth⟩

/-- init forks, sleeps in wait, and is woken by the exit of its child. -/
def waitsForChild : List Label :=
  [.schedule 0, .allocproc 0, .adopt 0, .publish 0, .wait 0, .schedule 1, .exit 1, .schedule 0,
    .wait 0]

theorem process_tree_child : ∃ trace s, (exec step boot waitsForChild) = some (trace, s) ∧
    reapedIn trace = [1] ∧ TreeOk s := by
  have outs : (exec step boot waitsForChild).map (fun done => reapedIn done.1) = some [1] := by
    decide +kernel
  obtain ⟨⟨trace, s⟩, done, reaped⟩ := Option.map_eq_some_iff.mp outs
  exact ⟨trace, s, done, reaped, (process_tree (Run.of_exec done)).1⟩

/-! ## The target of kill -/

/-- The first entry with that pid is UNUSED. -/
def Stray (s : Table) (w : Word) : Prop :=
  ∃ q, (s.entries q).state = .unused ∧ (s.entries q).pid = w ∧ ∀ r < q, (s.entries r).pid ≠ w

/-- kill finds a process, if there is one with that pid, and touches nothing else. -/
structure KillOk (s : Table) (w : Word) : Prop where
  finds : (kill w s).1 = .zero ↔ ∃ q, (s.entries q).state ≠ .unused ∧ (s.entries q).pid = w
  only : (kill w s).1 = .zero → ∃ q, (s.entries q).state ≠ .unused ∧ (s.entries q).pid = w ∧
    ((kill w s).2.entries q).killed = true ∧ ∀ r, r ≠ q → (kill w s).2.entries r = s.entries r
  fails : (kill w s).1 ≠ .zero → (kill w s).2 = s

theorem Table.find_first {test : Entry → Bool} (found : s.find test = some q) (r : Fin NPROC)
    (before : r < q) : test (s.entries r) = false := by
  obtain ⟨-, i, inside, here, earlier⟩ := List.find?_eq_some_iff_getElem.mp found
  have place : i = q.val := by
    rw [← here]
    simp
  have fails := earlier r.val (by omega)
  simpa using fails

theorem Stray.found {w : Word} (stray : Stray s w) :
    ∃ q, s.find (fun e => e.pid = w) = some q ∧ (s.entries q).state = .unused := by
  obtain ⟨q, unused, pid, first⟩ := stray
  rcases kill_cases w s with ⟨r, found, pid', -⟩ | ⟨none, -⟩
  · have after : ¬r < q := fun before => first r before pid'
    have before : ¬q < r := by
      intro before
      have fails := Table.find_first found q before
      simp [pid] at fails
    obtain rfl : r = q := le_antisymm (not_lt.mp before) (not_lt.mp after)
    exact ⟨r, found, unused⟩
  · exact absurd pid (none q)

theorem killOk_of_not_stray {w : Word} (aimed : ¬Stray s w) : KillOk s w := by
  rcases kill_cases w s with ⟨q, found, pid, zero, killed, -, others⟩ | ⟨none, nothing⟩
  · have used : (s.entries q).state ≠ .unused := by
      intro unused
      refine aimed ⟨q, unused, pid, fun r before => ?_⟩
      simpa using Table.find_first found r before
    exact ⟨⟨fun _ => ⟨q, used, pid⟩, fun _ => zero⟩, fun _ => ⟨q, used, pid, killed, others⟩,
      fun failed => absurd zero failed⟩
  · constructor <;> rw [nothing]
    · exact ⟨nofun, fun ⟨q, _, pid⟩ => absurd pid (none q)⟩
    · exact nofun
    · exact fun _ => rfl

theorem not_killOk_of_stray {w : Word} (stray : Stray s w)
    (nobody : ∀ q, (s.entries q).state ≠ .unused → (s.entries q).pid ≠ w) : ¬KillOk s w := by
  intro ok
  obtain ⟨q, found, -⟩ := stray.found
  rcases kill_cases w s with ⟨r, -, -, zero, -⟩ | ⟨none, -⟩
  · obtain ⟨r, used, pid⟩ := ok.finds.mp zero
    exact nobody r used pid
  · exact none q (by simpa using Table.find_some found)

/-- The steps of a run in which no kill goes to an entry without a process. -/
def Aimed (s : Table) (label : Label) (out : Out) (t : Table) : Prop :=
  Step s label out t ∧ ∀ p w, label = .kill p w → ¬Stray s w

def Fresh (s : Table) : Prop := ∀ q, (s.entries q).state = .unused → (s.entries q).killed = false

/-- The process in entry `q` of `t` was killed by its pid during the run. -/
def KilledIn (s : Table) (trace : List (Label × Out)) (t : Table) (q : Fin NPROC) : Prop :=
  ∃ before p after u, trace = before ++ (.kill p (t.entries q).pid, .zero) :: after ∧
    Run Step s before u ∧ (u.entries q).state ≠ .unused ∧
    (u.entries q).birth = (t.entries q).birth

/-- The process in entry `q` of `t` trapped unexpectedly during the run. -/
def TrappedIn (s : Table) (trace : List (Label × Out)) (t : Table) (q : Fin NPROC) : Prop :=
  ∃ before after u, trace = before ++ (.trap q, .none) :: after ∧ Run Step s before u ∧
    (u.entries q).state = .running ∧ (u.entries q).birth = (t.entries q).birth

theorem Step.trap_out (taken : Step s (.trap p) out t) : out = .none := by
  unfold Step step at taken
  dsimp only at taken
  split at taken <;> cases taken
  rfl

theorem Step.kill_target {w : Word} (taken : Step s (.kill p w) out t) :
    (∃ r, s.find (fun e => e.pid = w) = some r ∧ ∀ q, q ≠ r → t.entries q = s.entries q) ∨
      t = s := by
  unfold Step step at taken
  dsimp only at taken
  split at taken
  · rcases kill_cases w s with ⟨r, found, -, -, -, -, others⟩ | ⟨-, nothing⟩
    · rw [Option.some.inj taken] at others
      exact .inl ⟨r, found, others⟩
    · rw [nothing] at taken
      cases taken
      exact .inr rfl
  · cases taken

theorem Aimed.fresh (inv : Inv s) (fresh : Fresh s) (aimed : Aimed s label out t) : Fresh t := by
  obtain ⟨taken, aim⟩ := aimed
  intro q unused
  cases step_fate inv taken q with
  | kept used _ _ killed => exact killed.trans (fresh q (used.mp unused))
  | born before _ killed => exact killed.trans (fresh q before)
  | reaped _ _ killed => exact killed
  | trapped _ _ running =>
    rw [unused] at running
    cases running
  | hit p call _ used =>
    subst call
    rcases taken.kill_target with ⟨r, found, others⟩ | rfl
    · by_cases target : q = r
      · subst target
        refine absurd ⟨q, used.mp unused, rfl, fun r before => ?_⟩ (aim p _ rfl)
        simpa using Table.find_first found r before
      · rw [others q target] at unused ⊢
        exact fresh q unused
    · exact fresh q unused

/-- A killed process was killed before the run, or by its pid during it, or it trapped. -/
theorem killed_run (run : Run Aimed s trace t) (inv : Inv s) (fresh : Fresh s) (q : Fin NPROC)
    (used : (t.entries q).state ≠ .unused) (killed : (t.entries q).killed = true) :
    ((s.entries q).state ≠ .unused ∧ (s.entries q).killed = true ∧
      (s.entries q).birth = (t.entries q).birth ∧ (s.entries q).pid = (t.entries q).pid) ∨
    KilledIn s trace t q ∨ TrappedIn s trace t q := by
  induction run with
  | nil => exact .inl ⟨used, killed, rfl, rfl⟩
  | @cons s u t label out rest first later ih =>
    rcases ih (inv.step first.1) (first.fresh inv fresh) used killed with
      ⟨used', killed', birth, pid⟩ | ⟨before, p, after, v, split, run, used', birth⟩ |
      ⟨before, after, v, split, run, running, birth⟩
    · cases step_fate inv first.1 q with
      | kept live samePid sameBirth same =>
        refine .inl ⟨fun unused => used' (live.mpr unused), same ▸ killed', ?_, ?_⟩
        · rw [← sameBirth, birth]
        · rw [← samePid, pid]
      | hit p call returns live samePid sameBirth =>
        subst call returns
        rw [← samePid, pid] at first ⊢
        exact .inr (.inl ⟨[], p, rest, s, rfl, .nil, fun unused => used' (live.mpr unused),
          sameBirth.symm.trans birth⟩)
      | trapped call running _ _ sameBirth =>
        subst call
        obtain rfl := first.1.trap_out
        exact .inr (.inr ⟨[], rest, s, rfl, .nil, running, sameBirth.symm.trans birth⟩)
      | born empty _ same =>
        rw [same, fresh q empty] at killed'
        cases killed'
      | reaped _ gone => exact absurd gone used'
    · refine .inr (.inl ⟨(label, out) :: before, p, after, v, ?_, .cons first.1 run, used', birth⟩)
      rw [split, List.cons_append]
    · refine .inr (.inr ⟨(label, out) :: before, after, v, ?_, .cons first.1 run, running, birth⟩)
      rw [split, List.cons_append]

/-- In every reachable table kill is right about every pid but 0, and about 0 unless
the first entry with pid 0 is UNUSED; then it returns 0 for no process at all. In
every run without such a kill, a process is killed only by its pid after it was made, or by
a trap of its own. -/
theorem kill_hits_target (run : Run Step boot trace s) :
    (∀ w, (¬Stray s w → KillOk s w) ∧ (Stray s w → w = 0) ∧
      (Stray s w → (∀ q, (s.entries q).state ≠ .unused → (s.entries q).pid ≠ w) → ¬KillOk s w)) ∧
    (Run Aimed boot trace s → ∀ q, (s.entries q).state ≠ .unused →
      (s.entries q).killed = true → KilledIn boot trace s q ∨ TrappedIn boot trace s q) := by
  have inv : Inv s := run.invariant (fun inv taken => inv.step taken) inv_boot
  constructor
  · intro w
    refine ⟨killOk_of_not_stray, ?_, not_killOk_of_stray⟩
    rintro ⟨q, unused, pid, -⟩
    rw [← pid, (inv.unused q unused).1]
  · intro aimed q used killed
    have calm : ∀ q, (boot.entries q).killed = false := by
      intro q
      by_cases first : q = 0
      · subst first
        rfl
      · simp [boot, first, vacant]
    rcases killed_run aimed inv_boot (fun q _ => calm q) q used killed with ⟨-, early, -⟩ | during
    · rw [calm q] at early
      cases early
    · exact during

/-- init kills its child by its pid. -/
def killsChild : List Label :=
  [.schedule 0, .allocproc 0, .adopt 0, .publish 0, .kill 0 2]

theorem kill_hits_target_child : ∃ trace s, exec step boot killsChild = some (trace, s) ∧
    (s.entries 1).killed = true ∧ KillOk s 2 := by
  have ends : (exec step boot killsChild).map (fun done => (done.2.entries 1).killed) =
      some true := by decide +kernel
  obtain ⟨⟨trace, s⟩, done, killed⟩ := Option.map_eq_some_iff.mp ends
  have ok := (kill_hits_target (Run.of_exec done)).1 2
  refine ⟨trace, s, done, killed, ok.1 fun stray => ?_⟩
  exact absurd (ok.2.1 stray) (by decide)

/-- init calls kill(0) and forks. -/
def killsNobody : List Label := [.schedule 0, .kill 0 0, .allocproc 0, .adopt 0, .publish 0]

/-- kill(0) returns 0, and the next child is killed before anyone has named it. -/
theorem kill_zero_kills_child : ∃ trace s, exec step boot killsNobody = some (trace, s) ∧
    trace.map Prod.snd = [.none, .zero, .none, .none, .none] ∧
    (∀ q, (boot.entries q).state ≠ .unused → (boot.entries q).pid ≠ 0) ∧
    (s.entries 1).state = .runnable ∧ (s.entries 1).pid = 2 ∧ (s.entries 1).killed = true := by
  have ends : (exec step boot killsNobody).map (fun done =>
      (done.1.map Prod.snd, (done.2.entries 1).state, (done.2.entries 1).pid,
        (done.2.entries 1).killed)) =
      some ([.none, .zero, .none, .none, .none], .runnable, 2, true) := by decide +kernel
  obtain ⟨⟨trace, s⟩, done, facts⟩ := Option.map_eq_some_iff.mp ends
  simp only [Prod.mk.injEq] at facts
  refine ⟨trace, s, done, facts.1, ?_, facts.2⟩
  decide +kernel

end Xv6Cow.ProcTable
