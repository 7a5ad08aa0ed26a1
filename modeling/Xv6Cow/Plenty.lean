import Xv6Cow.Progress

/- Runs from boot in which the free list never runs empty. With copy-on-write they
show the processes what they show without it, and the reference counts and the free
list are exact all along. -/
namespace Xv6Cow

open Function (update_self update_of_ne)
open Prog (bind_of_ok)
open Runs (Run)

/-! ## Copy-on-write against eager copies -/

/-- The steps that are compared. -/
def Plain : Label → Prop
  | .fork _ | .read _ _ | .write _ _ _ | .sbrk _ _ | .exit _ | .wait _ => True
  | _ => False

/-- A step without pressure of the machine with copy-on-write. -/
def CowStep (s : Kernel) (label : Label) (out : Out) (t : Kernel) : Prop :=
  Step fork s label out t ∧ Ample s t ∧ Plain label

/-- A step without pressure of the machine that copies every page at fork. -/
def EagerStep (s : Kernel) (label : Label) (out : Out) (t : Kernel) : Prop :=
  Step forkEager s label out t ∧ Ample s t ∧ Plain label

/-- What the tasks do at a compared step. -/
def Tasks.next (a : Tasks) : Label → Out × Tasks
  | .fork p => a.fork p
  | .read p va => a.read p va
  | .write p va b => a.write p va b
  | .sbrk p n => a.sbrk p n
  | .exit p => a.exit p
  | .wait p => a.wait p
  | _ => (.nothing, a)

theorem Plain.next {label : Label} {a b : Tasks} {out : Out} (plain : Plain label)
    (moves : a.Next out b label) : (out, b) = a.next label := by
  cases label with
  | fork p => exact moves
  | read p va => exact moves
  | write p va byte => exact moves
  | sbrk p n => exact moves
  | exit p => exact moves
  | wait p => exact moves
  | _ => exact plain.elim

theorem Plain.not_kalloc {label : Label} (plain : Plain label) : label ≠ .kalloc := by
  rintro rfl
  exact plain

/-- The processes of a state, without the machinery behind them. -/
def Presents (s : Kernel) (a : Tasks) : Prop := ∃ g, Roomy firstPool ∅ g s ∧ Shows g s a

variable {s t u : Kernel} {label : Label} {out : Out} {a : Tasks}

theorem Presents.step
    (keep : ∀ {g}, Roomy firstPool ∅ g s → ∃ loan' h, (label ≠ .kalloc → loan' = ∅) ∧
      Roomy firstPool loan' h t ∧ ∀ a, Shows g s a → ∃ b, a.Next out b label ∧ Shows h t b)
    (plain : Plain label) (presents : Presents s a) :
    out = (a.next label).1 ∧ Presents t (a.next label).2 := by
  obtain ⟨g, roomy, shows⟩ := presents
  obtain ⟨loan', h, same, roomy', goes⟩ := keep roomy
  obtain rfl := same plain.not_kalloc
  obtain ⟨b, moves, shows'⟩ := goes a shows
  have here := plain.next moves
  rw [← here]
  exact ⟨rfl, h, roomy', shows'⟩

theorem CowStep.presents (step : CowStep s label out t) (presents : Presents s a) :
    out = (a.next label).1 ∧ Presents t (a.next label).2 :=
  presents.step (fun roomy => ample_step_cow roomy step.1 step.2.1) step.2.2

theorem EagerStep.presents (step : EagerStep s label out t) (presents : Presents s a) :
    out = (a.next label).1 ∧ Presents t (a.next label).2 :=
  presents.step (fun roomy => ample_step_eager roomy step.1 step.2.1) step.2.2

/-- The tasks that a state with these address spaces shows. -/
def Ghost.tasks (g : Ghost) (s : Kernel) : Tasks where
  table := fun p => ⟨(s.ptable p).state, (s.ptable p).pid, (s.ptable p).parent, (s.ptable p).killed,
    (s.ptable p).sz, g.space (s.ptable p).pgdir⟩
  nextpid := s.nextpid
  initproc := s.initproc

theorem Ghost.shows_tasks (g : Ghost) (s : Kernel) : Shows g s (g.tasks s) :=
  ⟨rfl, rfl, fun _ => ⟨rfl, rfl, rfl, rfl, fun _ => rfl, fun _ _ _ => rfl⟩⟩

theorem boot_presents {mem : Nat → Page} {disk : Nat → Block} {done : Unit}
    (booted : boot (powerOn mem disk) = .ok (done, s)) : ∃ a, Presents s a := by
  obtain ⟨g, k, d, q, t, again, facts⟩ := boot_ok mem disk
  rw [booted] at again
  cases again
  exact ⟨g.tasks s, g, facts.roomy, g.shows_tasks s⟩

/-- A process and the memory it sees: for each page whether the user may access it, and
its bytes. -/
def View (s : Kernel) (p : Fin NPROC) (v : Nat) : Option (Bool × Page) :=
  spaceOf s (s.ptable p).pgdir v

theorem Presents.view (presents : Presents s a) {p : Fin NPROC} (live : (s.ptable p).live = true)
    {v : Nat} (user : v < NUPAGE) : View s p v = (a.table p).pages v := by
  obtain ⟨g, roomy, shows⟩ := presents
  rw [(shows.task p).pages live v user]
  exact roomy.sound.settled.rep.space (roomy.sound.settled.inside live) user

theorem Presents.user (presents : Presents s a) {p : Fin NPROC} {va : Nat}
    (live : (s.ptable p).live = true) (below : va < (s.ptable p).sz) : va / PGSIZE < NUPAGE := by
  obtain ⟨g, roomy, -⟩ := presents
  exact roomy.sound.settled.user live below

/-- The user can access the pages that the view says: no page is on the disk. -/
theorem Presents.legal (presents : Presents s a) {p : Fin NPROC} {va : Nat}
    (live : (s.ptable p).live = true) (user : va / PGSIZE < NUPAGE) :
    Legal s p va ↔ ∃ page, View s p (va / PGSIZE) = some (true, page) := by
  obtain ⟨g, roomy, -⟩ := presents
  have memory := roomy.sound.settled.rep.unswapped roomy.young roomy.still
    (roomy.sound.settled.inside live) user
  unfold Legal View spaceOf
  rw [memory]
  generalize pteOf s.mem (s.ptable p).pgdir (va / PGSIZE) = w at memory
  unfold accessible pageAt
  cases present : has w PTE_P with
  | true => simp
  | false =>
    rw [isSwapped, present] at memory
    simp only [Bool.not_false, Bool.true_and] at memory
    simp [memory]

/-- The same steps can be tried in two states that show the same. -/
theorem Presents.allowed (first : Presents s a) (second : Presents t a) (plain : Plain label)
    (allowed : Allowed s label) : Allowed t label := by
  have runs : ∀ {p}, (s.ptable p).canRun = true → (t.ptable p).canRun = true := by
    intro p
    obtain ⟨_, -, shows⟩ := first
    obtain ⟨_, -, shows'⟩ := second
    unfold Proc.canRun
    rw [← (shows.task p).state, ← (shows'.task p).state]
    exact id
  have access : ∀ {p va}, (s.ptable p).canRun = true ∧ va < (s.ptable p).sz ∧ Legal s p va →
      (t.ptable p).canRun = true ∧ va < (t.ptable p).sz ∧ Legal t p va := by
    rintro p va ⟨running, below, legal⟩
    have live := canRun_live running
    have live' := canRun_live (runs running)
    have user := first.user live below
    refine ⟨runs running, ?_, ?_⟩
    · obtain ⟨_, -, shows⟩ := first
      obtain ⟨_, -, shows'⟩ := second
      rw [← (shows'.task p).sz live', (shows.task p).sz live]
      exact below
    · rw [second.legal live' user, second.view live' user, ← first.view live user]
      exact (first.legal live user).mp legal
  cases label with
  | fork p => exact runs allowed
  | read p va => exact access allowed
  | write p va b => exact access allowed
  | sbrk p n => exact runs allowed
  | exit p => exact runs allowed
  | wait p => exact runs allowed
  | _ => exact plain.elim

/-- A write changes the memory of the process that writes, and of no other. -/
theorem CowStep.write_private {p q : Fin NPROC} {va : Nat} {b : Byte} (presents : Presents s a)
    (step : CowStep s (.write p va b) out t) (other : q ≠ p) (live : (s.ptable q).live = true)
    {v : Nat} (user : v < NUPAGE) : View t q v = View s q v := by
  obtain ⟨-, after⟩ := step.presents presents
  have same : (a.next (.write p va b)).2.table q = a.table q := update_of_ne other _ _
  have live' : (t.ptable q).live = true := by
    obtain ⟨_, -, shows⟩ := presents
    obtain ⟨_, -, shows'⟩ := after
    have state := (shows'.task q).state
    rw [same, (shows.task q).state] at state
    unfold Proc.live at live ⊢
    rw [← state]
    exact live
  rw [after.view live' user, same, presents.view live user]

/-- Copy-on-write shows the processes what eager copies show them: the same steps have the
same results, every process ends with the same memory, and the same steps can follow. A
write shows up in no other process. -/
theorem cow_refines_eager {mem : Nat → Page} {disk : Nat → Block} {done : Unit}
    (booted : boot (powerOn mem disk) = .ok (done, s)) {trace trace' : List (Label × Out)}
    (run : Run CowStep s trace t) (run' : Run EagerStep s trace' u)
    (labels : trace.map Prod.fst = trace'.map Prod.fst) :
    trace = trace' ∧
      (∀ p, (t.ptable p).live = true → (u.ptable p).live = true ∧
        (u.ptable p).sz = (t.ptable p).sz ∧
        ∀ v, v < NUPAGE → View u p v = View t p v) ∧
      (∀ label, Plain label → (Allowed t label ↔ Allowed u label)) ∧
      ∀ p va b out w, CowStep t (.write p va b) out w → ∀ q, q ≠ p → (t.ptable q).live = true →
        ∀ v, v < NUPAGE → View w q v = View t q v := by
  obtain ⟨a, presents⟩ := boot_presents booted
  have imitate : ∀ {s label out t a}, Presents s a → CowStep s label out t →
      out = (a.next label).1 ∧ Presents t (a.next label).2 := fun shown step => step.presents shown
  have imitate' : ∀ {s label out t a}, Presents s a → EagerStep s label out t →
      out = (a.next label).1 ∧ Presents t (a.next label).2 := fun shown step => step.presents shown
  obtain ⟨outs, b, ends, ends'⟩ := Run.agree imitate imitate' run run' presents presents labels
  refine ⟨?_, ?_, ?_, ?_⟩
  · exact (List.zip_of_prod labels outs).trans (List.zip_of_prod rfl rfl).symm
  · intro p live
    obtain ⟨live', sz⟩ : (u.ptable p).live = true ∧ (u.ptable p).sz = (t.ptable p).sz := by
      obtain ⟨_, -, shows⟩ := ends
      obtain ⟨_, -, shows'⟩ := ends'
      have live' : (u.ptable p).live = true := by
        unfold Proc.live at live ⊢
        rw [← (shows'.task p).state, (shows.task p).state]
        exact live
      exact ⟨live', by rw [← (shows'.task p).sz live', (shows.task p).sz live]⟩
    exact ⟨live', sz, fun v user => by rw [ends'.view live' user, ends.view live user]⟩
  · intro label plain
    exact ⟨ends.allowed ends' plain, ends'.allowed ends plain⟩
  · intro p va b out w step q other live v user
    exact step.write_private ends other live user

theorem ample_of_log (same : t.log = s.log) : Ample s t := by
  intro e evicted
  unfold Evicted at evicted
  rw [same, since_self] at evicted
  cases evicted

theorem Booted.runs {disk : Nat → Block} {g : Ghost} {k d q : Nat} (facts : Booted disk g k d q s) :
    (s.ptable 0).canRun = true ∧ (s.ptable 0).sz = PGSIZE ∧ (s.ptable 0).pgdir = d := by
  rw [facts.ptable, update_self]
  exact ⟨rfl, rfl, rfl⟩

theorem Booted.accessible {disk : Nat → Block} {g : Ghost} {k d q : Nat}
    (facts : Booted disk g k d q s) :
      Xv6Cow.accessible (pteOf s.mem (s.ptable 0).pgdir 0) = true := by
  have word := userWord_map facts.frame
  rw [facts.runs.2.2, facts.entry, Xv6Cow.accessible, word.present, word.user]
  rfl

theorem Booted.free {disk : Nat → Block} {g : Ghost} {k d q : Nat} (facts : Booted disk g k d q s) :
    firstUnused s = some 1 := by
  unfold firstUnused
  rw [facts.ptable]
  rfl

theorem Booted.present {disk : Nat → Block} {g : Ghost} {k d q : Nat}
    (facts : Booted disk g k d q s) :
    ∀ u, u < pagesOf (s.ptable 0).sz → has (pteOf s.mem (s.ptable 0).pgdir u) PTE_P = true := by
  intro u low
  rw [facts.runs.2.1] at low
  obtain rfl : u = 0 := Nat.lt_one_iff.mp low
  exact (Bool.and_eq_true_iff.mp facts.accessible).1

theorem Booted.fork_room {disk : Nat → Block} {g : Ghost} {k d q : Nat}
    (facts : Booted disk g k d q s) :
    ∃ k' d' t used, fork 0 s = .ok (some s.nextpid, t) ∧ s.freelist = used ++ t.freelist ∧
      used.length = 12 ∧
      (∃ mem refcnt free num, t = { s with
        mem := mem, pageToRefcnt := refcnt, freelist := free, numFreePages := num
        ptable := Function.update s.ptable 1 (forked s 0 1 d' k'), nextpid := s.nextpid + 1 }) ∧
      (∀ i, tablePage t.mem d i = tablePage s.mem d i) ∧ tablePage t.mem d' (pdx 0) ≠ none ∧
      pteOf t.mem d' 0 = sharedWord (userWord q) ∧ pteOf t.mem d 0 = userWord q &&& ~~~PTE_W := by
  obtain ⟨runs, size, pgdir⟩ := facts.runs
  have sound := facts.roomy.sound
  have one : pagesOf (s.ptable 0).sz = 1 := by
    rw [size]
    decide
  obtain ⟨k', d', t, used, forked, list, count, shape, tables, shares⟩ :=
    Xv6Cow.fork_room sound.settled sound.quiet (canRun_live runs) (sound.loose _) facts.free
      facts.present (by rw [one, facts.room]; decide)
  rw [one] at count shares
  rw [pgdir] at tables shares
  obtain ⟨there, entry', entry⟩ := shares 0 (by decide)
  rw [facts.entry] at entry entry'
  exact ⟨k', d', t, used, forked, list, count, shape, tables, there, entry', entry⟩

/-- The task can run and has `page` where `va` is. -/
structure Ready (a : Tasks) (p : Fin NPROC) (va : Nat) (page : Page) : Prop where
  state : (a.table p).state = .runnable
  below : va < (a.table p).sz
  there : (a.table p).pages (va / PGSIZE) = some (true, page)

theorem Ready.write {p : Fin NPROC} {va : Nat} {page : Page} (b : Byte)
    (ready : Ready a p va page) :
    Ready (a.write p va b).2 p va (page.setByte (va % PGSIZE) b) := by
  have same : (a.write p va b).2.table p =
    { a.table p with pages := (a.table p).pages.setByte va b } := update_self _ _ _
  refine ⟨?_, ?_, ?_⟩ <;> rw [same]
  · exact ready.state
  · exact ready.below
  · change (if va / PGSIZE = va / PGSIZE then _ else _) = _
    rw [if_pos rfl, ready.there]
    rfl

theorem Ready.write_other {p r : Fin NPROC} {va : Nat} {page : Page} (b : Byte)
    (ready : Ready a r va page) (other : r ≠ p) : Ready (a.write p va b).2 r va page := by
  have same : (a.write p va b).2.table r = a.table r := update_of_ne other _ _
  exact ⟨same ▸ ready.state, same ▸ ready.below, same ▸ ready.there⟩

theorem Ready.byte {p : Fin NPROC} {va : Nat} {page : Page} (ready : Ready a p va page) :
    (a.read p va).1 = .byte (some (page.byte (va % PGSIZE))) := by
  change Out.byte (((a.table p).pages (va / PGSIZE)).map _) = _
  rw [ready.there]
  rfl

section Accesses

variable {p : Fin NPROC} {va : Nat} {page : Page} (presents : Presents s a)
  (ready : Ready a p va page)
include presents ready

theorem Presents.accessible : (s.ptable p).canRun = true ∧ va < (s.ptable p).sz ∧
    va / PGSIZE < NUPAGE ∧
    Xv6Cow.accessible (pteOf s.mem (s.ptable p).pgdir (va / PGSIZE)) = true := by
  have runs : (s.ptable p).canRun = true := by
    obtain ⟨_, -, shows⟩ := presents
    rw [Proc.canRun, ← (shows.task p).state, ready.state]
  have live := canRun_live runs
  have below : va < (s.ptable p).sz := by
    obtain ⟨_, -, shows⟩ := presents
    rw [← (shows.task p).sz live]
    exact ready.below
  have user := presents.user live below
  refine ⟨runs, below, user, ?_⟩
  have legal := (presents.legal live user).mpr ⟨page, (presents.view live user).trans ready.there⟩
  obtain ⟨g, roomy, -⟩ := presents
  have settled := roomy.sound.settled
  refine legal.resolve_right ?_
  rw [settled.rep.unswapped roomy.young roomy.still (settled.inside live) user]
  exact Bool.false_ne_true

theorem Presents.write (forks : Fin NPROC → K (Option Nat)) (b : Byte) (room : s.freelist ≠ []) :
    ∃ t, Step forks s (.write p va b) (.flag true) t ∧ t.log = s.log := by
  obtain ⟨runs, below, user, access⟩ := presents.accessible ready
  obtain ⟨g, roomy, -⟩ := presents
  have sound := roomy.sound
  obtain ⟨t, written, log⟩ := userWrite_room b sound.settled.rep sound.quiet
    (sound.settled.inside (canRun_live runs)) user (sound.thaws _ _) access room
  refine ⟨t, ⟨⟨runs, below, Or.inl access⟩, ?_⟩, log⟩
  unfold perform
  exact bind_of_ok written

theorem Presents.read (forks : Fin NPROC → K (Option Nat)) :
    ∃ value t, Step forks s (.read p va) (.byte value) t ∧ t.log = s.log := by
  obtain ⟨runs, below, user, access⟩ := presents.accessible ready
  obtain ⟨g, roomy, -⟩ := presents
  have settled := roomy.sound.settled
  obtain ⟨b, mem, loaded⟩ := userRead_room settled.rep (settled.inside (canRun_live runs)) user
    access
  refine ⟨some b, { s with mem := mem }, ⟨⟨runs, below, Or.inl access⟩, ?_⟩, rfl⟩
  unfold perform
  exact bind_of_ok loaded

end Accesses

/-- One process writes to a page and reads it, and another one reads its own. -/
theorem Presents.write_read {forks : Fin NPROC → K (Option Nat)} {p r : Fin NPROC} {va : Nat}
    {page : Page} (b : Byte)
    (imitate : ∀ {s label out t a}, Presents s a → Step forks s label out t → Ample s t →
      Plain label → out = (a.next label).1 ∧ Presents t (a.next label).2)
    (presents : Presents s a) (first : Ready a p va page) (second : Ready a r va page)
    (other : r ≠ p) (room : s.freelist ≠ []) :
    ∃ t, Run (fun s label out t => Step forks s label out t ∧ Ample s t ∧ Plain label) s
      [(.write p va b, .flag true), (.read p va, .byte (some b)),
        (.read r va, .byte (some (page.byte (va % PGSIZE))))] t := by
  obtain ⟨s₁, written, log⟩ := presents.write first forks b room
  obtain ⟨-, presents₁⟩ := imitate presents written (ample_of_log log) trivial
  obtain ⟨value, s₂, own, log₁⟩ := presents₁.read (first.write b) forks
  obtain ⟨out, presents₂⟩ := imitate presents₁ own (ample_of_log log₁) trivial
  rw [show ((a.next (.write p va b)).2.next (.read p va)).1 = _ from (first.write b).byte,
    Page.byte_setByte _ _ _ _ (Nat.mod_lt _ (by decide)), if_pos rfl] at out
  obtain ⟨value', s₃, theirs, log₂⟩ := presents₂.read (second.write_other b other) forks
  obtain ⟨out', -⟩ := imitate presents₂ theirs (ample_of_log log₂) trivial
  rw [show (((a.next (.write p va b)).2.next (.read p va)).2.next (.read r va)).1 = _ from
    (second.write_other b other).byte] at out'
  rw [out] at own
  rw [out'] at theirs
  exact ⟨s₃, .cons ⟨written, ample_of_log log, trivial⟩ (.cons ⟨own, ample_of_log log₁, trivial⟩
    (.cons ⟨theirs, ample_of_log log₂, trivial⟩ .nil))⟩

/-- After boot the first process forks, the child writes a byte of the page they had in
common, and both read it: in both machines the child sees 7 and the parent its own code. -/
theorem cow_refines_eager_fork : ∃ s t u,
    boot (powerOn (fun _ => zeroPage) (fun _ _ => 0#32)) = .ok ((), s) ∧
    Run CowStep s [(.fork 0, .pid (some 2)), (.write 1 0 7, .flag true),
      (.read 1 0, .byte (some 7)), (.read 0 0, .byte (some (initPage.byte 0)))] t ∧
    Run EagerStep s [(.fork 0, .pid (some 2)), (.write 1 0 7, .flag true),
      (.read 1 0, .byte (some 7)), (.read 0 0, .byte (some (initPage.byte 0)))] u ∧
    ∀ p, (t.ptable p).live = true → ∀ v, v < NUPAGE → View u p v = View t p v := by
  obtain ⟨g, k, d, q, s, booted, facts⟩ := boot_ok (fun _ => zeroPage) (fun _ _ => 0#32)
  obtain ⟨runs, size, pgdir⟩ := facts.runs
  have sound := facts.roomy.sound
  have presents : Presents s (g.tasks s) := ⟨g, facts.roomy, g.shows_tasks s⟩
  have two : s.nextpid = 2 := facts.nextpid
  have one : pagesOf (s.ptable 0).sz = 1 := by
    rw [size]
    decide
  -- what the tasks are after the fork
  have child : ((g.tasks s).next (.fork 0)).2.table =
      Function.update (g.tasks s).table 1 ⟨.runnable, s.nextpid, some 0, (s.ptable 1).killed,
        (s.ptable 0).sz, g.space (s.ptable 0).pgdir⟩ := by
    change ((g.tasks s).fork 0).2.table = _
    unfold Tasks.fork
    rw [show (g.tasks s).first (fun task => task.state = .unused) = some 1 from facts.free]
    rfl
  have content : g.space (s.ptable 0).pgdir (0 / PGSIZE) = some (true, initPage) := by
    rw [pgdir]
    exact facts.space
  have below : 0 < (s.ptable 0).sz := by
    rw [size]
    decide
  have ready : Ready ((g.tasks s).next (.fork 0)).2 1 0 initPage := by
    refine ⟨?_, ?_, ?_⟩ <;> rw [child, update_self]
    · exact below
    · exact content
  have ready' : Ready ((g.tasks s).next (.fork 0)).2 0 0 initPage := by
    refine ⟨?_, ?_, ?_⟩ <;> rw [child, update_of_ne (by decide)]
    · change (s.ptable 0).state = .runnable
      rw [facts.ptable, update_self]
      rfl
    · exact below
    · exact content
  obtain ⟨k', d', t, used, forked, list, count, ⟨mem, refcnt, free, num, shape⟩, -⟩ :=
    facts.fork_room
  have first : CowStep s (.fork 0) (.pid (some 2)) t := by
    refine ⟨⟨runs, ?_⟩, ample_of_log (by rw [shape]), trivial⟩
    rw [← two]
    unfold perform
    exact bind_of_ok forked
  have room : t.freelist ≠ [] := by
    intro empty
    have whole := congrArg List.length list
    rw [facts.room, empty, List.append_nil, count] at whole
    cases whole
  obtain ⟨u, copied, log, length⟩ := forkEager_room sound.settled sound.quiet (canRun_live runs)
    facts.free facts.present (by rw [one, facts.room]; decide)
  have first' : EagerStep s (.fork 0) (.pid (some 2)) u := by
    refine ⟨⟨runs, ?_⟩, ample_of_log log, trivial⟩
    rw [← two]
    unfold perform
    exact bind_of_ok copied
  have room' : u.freelist ≠ [] := by
    intro empty
    rw [facts.room, empty, one] at length
    cases length
  obtain ⟨t', rest⟩ := (first.presents presents).2.write_read 7
    (fun shown step ample plain => CowStep.presents ⟨step, ample, plain⟩ shown) ready ready'
    (by decide) room
  obtain ⟨u', rest'⟩ := (first'.presents presents).2.write_read 7
    (fun shown step ample plain => EagerStep.presents ⟨step, ample, plain⟩ shown) ready ready'
    (by decide) room'
  refine ⟨s, t', u', booted, .cons first rest, .cons first' rest', fun p live => ?_⟩
  exact ((cow_refines_eager booted (.cons first rest) (.cons first' rest') rfl).2.1 p live).2.2

/-! ## Every page is accounted for -/

/-- A step without pressure. What other parts of the kernel take with kalloc alone is left
out: nothing says whose it is. -/
def AmpleStep (s : Kernel) (label : Label) (out : Out) (t : Kernel) : Prop :=
  Step fork s label out t ∧ Ample s t ∧ label ≠ .kalloc

/-- Pages the kernel itself uses: directories and page tables, kernel stacks and pipes.
A zombie still has its directory and its stack. -/
def KernelPage (s : Kernel) (q : Nat) : Prop :=
  (∃ d ∈ directories s.kpgdir s.ptable, d = q ∨ ∃ i, tablePage s.mem d i = some q) ∨
    (∃ p, (s.ptable p).live = true ∧ (s.ptable p).kstack = q) ∨ ∃ pipe ∈ s.pipes, pipe.page = q

/-- The number of present user entries that map page `q`, over all page tables. -/
def mappings (s : Kernel) (q : Nat) : Nat := frames (directories s.kpgdir s.ptable) s.mem q

/-- The counts and the free list are exact. -/
structure Accounted (s : Kernel) : Prop where
  counted : ∀ q, 0 < mappings s q → s.pageToRefcnt q = mappings s q
  mem_free : ∀ q, q ∈ s.freelist ↔ q ∈ firstPool ∧ mappings s q = 0 ∧ ¬ KernelPage s q
  nodup : s.freelist.Nodup
  numFree : s.freelist.length = s.numFreePages

theorem Settled.mem_pins {g : Ghost} (settled : Settled ∅ g s) (q : Nat) :
    q ∈ pins g s.mem ↔ KernelPage s q := by
  unfold pins KernelPage
  rw [Set.mem_ofPred_eq, settled.census.held, ← settled.census.dirs]
  constructor
  · rintro (inside | ⟨d, inside, i, table⟩ | stack | pipe | loaned)
    · exact Or.inl ⟨q, inside, Or.inl rfl⟩
    · exact Or.inl ⟨d, inside, Or.inr ⟨i, table⟩⟩
    · exact Or.inr (Or.inl stack)
    · exact Or.inr (Or.inr pipe)
    · exact loaned.elim
  · rintro (⟨d, inside, rfl | table⟩ | stack | pipe)
    · exact Or.inl inside
    · exact Or.inr (Or.inl ⟨d, inside, table⟩)
    · exact Or.inr (Or.inr (Or.inl stack))
    · exact Or.inr (Or.inr (Or.inr (Or.inl pipe)))

theorem Roomy.accounted {g : Ghost} (roomy : Roomy firstPool ∅ g s) : Accounted s := by
  have settled := roomy.sound.settled
  have rep := settled.rep
  have dirs : frames g.dirs s.mem = mappings s := by
    unfold mappings
    rw [settled.census.dirs]
  refine ⟨?_, ?_, rep.exact.nodup, rep.numFree.symm⟩
  · intro q positive
    rw [← dirs] at positive ⊢
    have loose : q ∉ pins g s.mem := fun pinned =>
      Nat.ne_of_gt positive (rep.entries.frames_pinned pinned)
    have used := uses_unpinned loose
    rw [← used] at positive ⊢
    obtain ⟨⟨d, v⟩, member, maps⟩ := RefCount.count_pos_iff.mp (used ▸ positive)
    obtain ⟨inside, user⟩ := mem_sites.mp member
    exact rep.exact.counted q (rep.entries.frame inside user maps).1 positive
  · intro q
    rw [rep.exact.mem_free, roomy.pool, ← settled.mem_pins, ← dirs]
    refine and_congr_right (fun _ => ?_)
    by_cases pinned : q ∈ pins g s.mem
    · rw [uses_pinned pinned]
      exact ⟨nofun, fun both => absurd pinned both.2⟩
    · rw [uses_unpinned pinned]
      exact ⟨fun zero => ⟨zero, pinned⟩, And.left⟩

/-- In every run without pressure no page is freed while it is mapped and none is lost. -/
theorem refcounts_exact {mem : Nat → Page} {disk : Nat → Block} {done : Unit}
    (booted : boot (powerOn mem disk) = .ok (done, s)) {trace : List (Label × Out)}
    (run : Run AmpleStep s trace t) : Accounted t := by
  obtain ⟨g, k, d, q, r, again, facts⟩ := boot_ok mem disk
  rw [booted] at again
  cases again
  have start : ∃ g, Roomy firstPool ∅ g s := ⟨g, facts.roomy⟩
  have keep : ∀ {s label out t}, (∃ g, Roomy firstPool ∅ g s) → AmpleStep s label out t →
      ∃ g, Roomy firstPool ∅ g t := by
    rintro s label out t ⟨g, roomy⟩ ⟨step, ample, other⟩
    obtain ⟨loan', h, same, roomy', -⟩ := ample_step_cow roomy step ample
    obtain rfl := same other
    exact ⟨h, roomy'⟩
  obtain ⟨h, roomy⟩ := run.invariant (I := fun s => ∃ g, Roomy firstPool ∅ g s) keep start
  exact roomy.accounted

theorem Settled.shared {loan : Set Nat} {g : Ghost} {p r : Fin NPROC} {x v : Nat}
    (settled : Settled loan g s) (live : (s.ptable p).live = true)
    (live' : (s.ptable r).live = true) (other : p ≠ r) (user : v < NUPAGE)
    (maps : frameOf (pteOf s.mem (s.ptable p).pgdir v) = some x)
    (maps' : frameOf (pteOf s.mem (s.ptable r).pgdir v) = some x) :
    1 < frames g.dirs s.mem x := by
  by_contra few
  have same := RefCount.count_unique (Nat.not_lt.mp few)
    (mem_sites.mpr ⟨settled.inside live, user⟩) (mem_sites.mpr ⟨settled.inside live', user⟩)
    maps maps'
  exact other (settled.census.alone live live' (Prod.mk.inj same).1)

theorem userWord_shared {q : Nat} (small : q < NPHYS) :
    frameOf (userWord q &&& ~~~PTE_W) = some q ∧ frameOf (sharedWord (userWord q)) = some q := by
  have word := userWord_map small
  have present : has (userWord q &&& ~~~PTE_W) PTE_P = true :=
    (has_andNot_P _).trans word.present
  have shares := @mapWord q (pteFlags (userWord q) &&& ~~~PTE_W) (small.trans (by decide))
    (low_and (low_pteFlags _))
  refine ⟨?_, ?_⟩
  · rw [frameOf_present present, ppn_andNot low_W, word.frame]
  · rw [sharedWord, word.frame, frameOf_present shares.present, shares.frame]

/-- After the first fork the page of the first process is counted twice. -/
theorem refcounts_exact_fork : ∃ s t q,
    boot (powerOn (fun _ => zeroPage) (fun _ _ => 0#32)) = .ok ((), s) ∧
    AmpleStep s (.fork 0) (.pid (some 2)) t ∧ Accounted t ∧
    frameOf (pteOf t.mem (t.ptable 0).pgdir 0) = some q ∧
    frameOf (pteOf t.mem (t.ptable 1).pgdir 0) = some q ∧ 2 ≤ t.pageToRefcnt q := by
  obtain ⟨g, k, d, q, s, booted, facts⟩ := boot_ok (fun _ => zeroPage) (fun _ _ => 0#32)
  obtain ⟨runs, -, pgdir⟩ := facts.runs
  obtain ⟨k', d', t, used, forked, -, -, ⟨mem, refcnt, free, num, shape⟩, -, -, entry', entry⟩ :=
    facts.fork_room
  have two : s.nextpid = 2 := facts.nextpid
  have step : AmpleStep s (.fork 0) (.pid (some 2)) t := by
    refine ⟨⟨runs, ?_⟩, ample_of_log (by rw [shape]), nofun⟩
    rw [← two]
    unfold perform
    exact bind_of_ok forked
  have accounted := refcounts_exact booted (.cons step .nil)
  have parent : t.ptable 0 = s.ptable 0 := by
    rw [shape]
    dsimp only
    rw [update_of_ne (by decide)]
  have born : t.ptable 1 = Xv6Cow.forked s 0 1 d' k' := by
    rw [shape]
    dsimp only
    rw [update_self]
  obtain ⟨maps, maps'⟩ := userWord_shared facts.frame
  rw [← entry, ← pgdir, ← parent] at maps
  rw [← entry', show d' = (t.ptable 1).pgdir by rw [born]; rfl] at maps'
  obtain ⟨loan, h, -, roomy, -⟩ := ample_step_cow facts.roomy step.1 step.2.1
  have settled := roomy.sound.settled
  have many := settled.shared (v := 0) (by rw [parent]; exact canRun_live runs)
    (by rw [born]; rfl) (by decide) (by decide) maps maps'
  rw [settled.census.dirs] at many
  refine ⟨s, t, q, booted, step, accounted, maps, maps', ?_⟩
  rw [accounted.counted q (Nat.zero_lt_of_lt many)]
  exact Int.ofNat_le.mpr many

end Xv6Cow
