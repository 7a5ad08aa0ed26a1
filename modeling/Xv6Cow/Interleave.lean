import Xv6Cow.SlotOwners

/- swap_out in steps. It sleeps for every block it writes, and other processes run
meanwhile. -/
namespace Xv6Cow

open Function (update_self update_of_ne)
open Prog (read update)
open Runs (Run)

/-- One round of write_page_to_swap's loop. The bytes are those the page has now. -/
def swapBlock (job : SwapJob) (n : Nat) : K Unit := do
  let s ← read
  let page ← loadPage job.frame
  if FSSIZE ≤ (s.swapSlots job.slot).blockno + n then panic "incorrect blockno"
  else update (fun s => { s with
    disk := Function.update s.disk ((s.swapSlots job.slot).blockno + n) (pageBlock page n) })

/-- The kernel and the calls of swap_out in progress, with the number of blocks each has
written. -/
structure Conf where
  kernel : Kernel
  jobs : List (SwapJob × Nat)

inductive Act where
  | call (label : Label)
  /-- kalloc has found no page: swap_out chooses the victim and takes a slot. -/
  | enter
  | block
  /-- The last block is written: the page is freed and the entry rewritten. -/
  | leave

inductive Moves : Conf → Act → Out → Conf → Prop
  | call {k k' : Kernel} {jobs : List (SwapJob × Nat)} {label : Label} {out : Out}
      (step : Step fork k label out k') : Moves ⟨k, jobs⟩ (.call label) out ⟨k', jobs⟩
  | enter {k k' : Kernel} {jobs : List (SwapJob × Nat)} {job : SwapJob} (empty : k.freelist = [])
      (taken : swapReserve k = .ok (job, k')) :
        Moves ⟨k, jobs⟩ .enter .nothing ⟨k', (job, 0) :: jobs⟩
  | block {k k' : Kernel} {before after : List (SwapJob × Nat)} {job : SwapJob} {n : Nat}
    (more : n < BPPAGE)
      (stored : swapBlock job n k = .ok ((), k')) :
      Moves ⟨k, before ++ (job, n) :: after⟩ .block .nothing ⟨k', before ++ (job, n + 1) :: after⟩
  | leave {k k' : Kernel} {before after : List (SwapJob × Nat)} {job : SwapJob}
      (finished : swapFinish job k = .ok ((), k')) :
      Moves ⟨k, before ++ (job, BPPAGE) :: after⟩ .leave .nothing ⟨k', before ++ after⟩

/-- What the processes should see: the steps of swap_out are nothing to them. -/
def Act.Next (a : Tasks) (act : Act) (out : Out) (b : Tasks) : Prop :=
  match act with
  | .call label => a.Next out b label
  | _ => b = a

/-- A step leaves the entry at `ptr` to the swap_out that is after it: it does not go
through the page tables the entry is in, and neither writes to its page nor faults there.
It may read it. -/
def KeepsOff (k : Kernel) (ptr : PtePtr) (label : Label) : Prop :=
  (∀ p, Works k p label → ∀ i, tablePage k.mem (k.ptable p).pgdir i ≠ some ptr.page) ∧
    match label with
    | .write p va _ => tablePage k.mem (k.ptable p).pgdir (pdx (va / PGSIZE)) = some ptr.page →
        ptx (va / PGSIZE) ≠ ptr.index
    | .fault p va => tablePage k.mem (k.ptable p).pgdir (pdx (va / PGSIZE)) = some ptr.page →
        ptx (va / PGSIZE) ≠ ptr.index
    | _ => True

/-- The entries that are being swapped out. -/
def Conf.busy (c : Conf) : List PtePtr := c.jobs.map (fun x => x.1.ptr)

/-- A clean step that keeps away from the entries that are being swapped out: it does not
work on them, does not evict them and does not start to swap them out once more. -/
def Apart (c : Conf) (act : Act) (out : Out) (c' : Conf) : Prop :=
  Moves c act out c' ∧ match act with
    | .call label => Clean c.kernel label c'.kernel ∧ ∀ ptr ∈ c.busy,
        KeepsOff c.kernel ptr label ∧ ∀ e, Evicted c.kernel c'.kernel e → e.ptr ≠ ptr
    | .enter => ∀ job n, c'.jobs = (job, n) :: c.jobs → job.live = true ∧ job.ptr ∉ c.busy
    | _ => True

variable {loan : Set Nat} {g h : Ghost} {s t : Kernel} {c c' : Conf} {a : Tasks}

/-! ## Processes that a step does not work on -/

def Stays (q : Fin NPROC) (s t : Kernel) : Prop :=
  (s.ptable q).live = true → (t.ptable q).live = true ∧ (t.ptable q).pgdir = (s.ptable q).pgdir

theorem stays_of_calm {q : Fin NPROC} (calm : Calm s t) : Stays q s t :=
  fun live => ⟨(calm.live q).trans live, calm.pgdir q⟩

theorem stays_covers {p q : Fin NPROC} (other : q ≠ p) : Covers p (Stays q) := by
  refine ⟨fun first second live => ?_, stays_of_calm, fun s proc _ live => ?_,
    fun same _ live => ?_⟩
  · obtain ⟨live', dir⟩ := first live
    obtain ⟨live'', dir'⟩ := second live'
    exact ⟨live'', dir'.trans dir⟩
  · unfold setProc
    dsimp only
    rw [update_of_ne other]
    exact ⟨live, rfl⟩
  · rw [same]
    exact ⟨live, rfl⟩

theorem stays_rss {p q : Fin NPROC} {proc : Proc}
    (same : RssOnly (Function.update s.ptable p proc) t.ptable) (other : q ≠ p) : Stays q s t := by
  intro live
  obtain ⟨rss, entry⟩ := same q
  rw [entry, update_of_ne other]
  exact ⟨live, rfl⟩

theorem Step.stays {label : Label} {out : Out} {q : Fin NPROC} (step : Step fork s label out t)
    (live : (s.ptable q).live = true) (idle : ¬ Works s q label) :
    (t.ptable q).live = true ∧ (t.ptable q).pgdir = (s.ptable q).pgdir := by
  obtain ⟨allowed, success⟩ := step
  have apart : ∀ r : Fin NPROC, r ≠ r + 1 := by decide
  cases label with
  | fork p =>
    obtain ⟨child, forked, -⟩ := perform_ok success
    rcases forkWith_ok copyuvmCow_calm (canRun_live allowed) forked with
      ⟨-, -, rfl⟩ | ⟨np, k, u, d, w, free, -, -, -, -, table, -⟩
    · exact ⟨live, rfl⟩
    · exact stays_rss table (firstUnused_ne free live).symm live
  | read p va =>
    obtain ⟨value, done, -⟩ := perform_ok success
    exact stays_of_calm (userRead_calm _ _ _ _ _ done) live
  | write p va b =>
    obtain ⟨value, done, -⟩ := perform_ok success
    exact stays_of_calm (userWrite_calm _ _ _ _ _ _ done) live
  | fault p va =>
    obtain ⟨value, done, -⟩ := perform_ok success
    exact stays_of_calm (handlePageFault_calm _ _ _ _ _ done) live
  | sbrk p n =>
    obtain ⟨value, done, -⟩ := perform_ok success
    exact growproc_steps (stays_covers idle) n _ _ _ done live
  | exec p file argv =>
    obtain ⟨value, done, -⟩ := perform_ok success
    exact exec_steps (stays_covers idle) file argv _ _ _ done live
  | exit p =>
    obtain ⟨value, done, -⟩ := perform_ok success
    obtain ⟨-, rfl⟩ := exit_ok_iff.mp done
    refine ⟨?_, exited_field (fun _ _ => rfl) (fun _ _ => rfl) q⟩
    unfold exited
    dsimp only
    split
    · rfl
    · split <;> exact live
  | wait p =>
    obtain ⟨value, done, -⟩ := perform_ok success
    unfold wait at done
    rw [Prog.read_bind] at done
    split at done
    · rename_i r found
      rw [Prog.bind_ok_iff] at done
      obtain ⟨_, u, reaped, rest⟩ := done
      obtain ⟨-, rfl⟩ := Prog.pure_ok_iff.mp rest
      exact stays_rss (reap_table reaped).1 (fun here => idle (here ▸ found)) live
    · rw [Prog.ite_apply] at done
      split at done <;> obtain ⟨-, rfl⟩ := Prog.pure_ok_iff.mp done <;> exact ⟨live, rfl⟩
  | pipealloc room =>
    obtain ⟨value, done, -⟩ := perform_ok success
    exact pipealloc_steps (stays_covers (apart q)) room _ _ _ done live
  | pipeclose k writable =>
    obtain ⟨value, done, -⟩ := perform_ok success
    exact pipeclose_steps (stays_covers (apart q)) k writable _ _ _ done live
  | kalloc =>
    obtain ⟨value, done, -⟩ := perform_ok success
    exact stays_of_calm (kalloc_calm _ _ _ done) live
  | bwrite blockno data =>
    obtain ⟨value, done, -⟩ := perform_ok success
    obtain rfl := Prog.update_ok_iff.mp done
    exact ⟨live, rfl⟩

/-! ## Entries that are being swapped out -/

theorem update_ne_none {α β : Type} [DecidableEq α] {f : α → Option β} {x y : α} {z : Option β}
    (other : y ≠ x) (here : Function.update f x z y ≠ none) : f y ≠ none := by
  rwa [update_of_ne other] at here

theorem Rep.refreeze (rep : Rep g s) (frozen : PtePtr → Option (Nat × Nat × Word))
    (holds : ∀ {ptr d v w}, frozen ptr = some (d, v, w) →
      d ∈ g.dirs ∧ tablePage s.mem d (pdx v) = some ptr.page ∧
        SameEntry w (s.mem ptr.page ptr.index) ∧ has w PTE_P = true ∧ has w PTE_U = true) :
    Rep { g with frozen := frozen, base := s.log, aged := true } s := by
  obtain ⟨layout, entries, exact', numFree, slots, space, procs, -⟩ := rep
  refine ⟨⟨layout.pool_bounds, layout.pins_pool, layout.table_unique, layout.table_not_dir,
    layout.table_not_held, layout.dir_not_held, layout.held_bytes, holds⟩,
    ⟨entries.shape, entries.frame, entries.exclusive, entries.kernel, entries.place⟩, exact',
    numFree, ⟨slots.block, slots.untouched, slots.named, slots.taken, slots.reserved, ?_, nofun⟩,
    space, procs, List.suffix_rfl⟩
  intro d v t e _ _ _ _ found
  dsimp only at found
  rw [since_self] at found
  cases found

theorem Rep.frozen_page (rep : Rep g s) {ptr : PtePtr} {d v : Nat} {w : Word}
    (frozen : g.frozen ptr = some (d, v, w)) (index : ptr.index = ptx v) (user : v < NUPAGE) :
    SameEntry w (pteOf s.mem d v) ∧ g.space d v = some (true, s.mem (ppn w)) := by
  obtain ⟨inside, table, same, present, access⟩ := rep.layout.frozen frozen
  have entry : pteOf s.mem d v = s.mem ptr.page ptr.index := by rw [pteOf_of_table table, index]
  rw [← entry] at same
  refine ⟨same, ?_⟩
  rw [rep.space_present inside user (same.present.trans present), same.ppn, has_U,
    same.bit (by decide), ← has_U, access]

/-- The swap_out `job` has written `n` blocks of its page, as the page is now. -/
structure Underway (g : Ghost) (k : Kernel) (job : SwapJob) (n : Nat) : Prop where
  entry : ∃ d v w, g.frozen job.ptr = some (d, v, w) ∧ v < NUPAGE ∧ job.ptr.index = ptx v ∧
    ppn w = job.frame ∧ pteFlags w = job.perm ∧ has w PTE_A = false
  slot : ∃ page, g.reserved job.slot = some (job.perm, page) ∧
    ∀ i : Fin 1024, i.val / 128 < n → page i = k.mem job.frame i

theorem Underway.keep {job : SwapJob} {n : Nat} (underway : Underway g s job n) (rep : Rep g s)
    (rep' : Rep h t) (frozen : h.frozen job.ptr = g.frozen job.ptr)
    (reserved : h.reserved job.slot = g.reserved job.slot)
    (space : ∀ {d v w}, g.frozen job.ptr = some (d, v, w) → job.ptr.index = ptx v → v < NUPAGE →
      h.space d v = g.space d v) : Underway h t job n := by
  obtain ⟨⟨d, v, w, here, user, index, frame, perm, idle⟩, page, taken, blocks⟩ := underway
  have bytes : t.mem job.frame = s.mem job.frame := by
    have before := (rep.frozen_page here index user).2
    have after := (rep'.frozen_page (frozen.trans here) index user).2
    rw [space here index user, before] at after
    rw [← frame]
    exact (Prod.mk.inj (Option.some.inj after)).2.symm
  refine ⟨⟨d, v, w, frozen.trans here, user, index, frame, perm, idle⟩, page, reserved.trans taken,
    fun i low => ?_⟩
  rw [bytes]
  exact blocks i low

/-- The machine between two steps: every swap_out in progress has frozen its entry and
reserved its slot, and nothing else is frozen or reserved. -/
structure Paused (g : Ghost) (c : Conf) : Prop where
  base : g.base = c.kernel.log
  underway : ∀ job n, (job, n) ∈ c.jobs → Underway g c.kernel job n
  frozen : ∀ ptr, g.frozen ptr ≠ none → ptr ∈ c.busy
  reserved : ∀ i, g.reserved i ≠ none → i ∈ c.jobs.map (fun x => x.1.slot)
  entries : c.busy.Nodup
  slots : (c.jobs.map (fun x => x.1.slot)).Nodup

/-- The state of the machine stands for the tasks `a`. -/
def Between (c : Conf) (a : Tasks) : Prop :=
  ∃ loan g, Settled loan g c.kernel ∧ Shows g c.kernel a ∧ Paused g c

theorem Paused.thawed (paused : Paused g c) {ptr : PtePtr} (idle : ptr ∉ c.busy) :
    g.frozen ptr = none := by
  by_contra frozen
  exact idle (paused.frozen ptr frozen)

theorem Paused.spared {label : Label} (paused : Paused g c) (settled : Settled loan g c.kernel)
    (away : ∀ ptr ∈ c.busy, KeepsOff c.kernel ptr label) : Spared g c.kernel label := by
  have thawed : ∀ {p : Fin NPROC} {v : Nat}, (∀ ptr ∈ c.busy,
      tablePage c.kernel.mem (c.kernel.ptable p).pgdir (pdx v) = some ptr.page →
        ptx v ≠ ptr.index) → g.Thawed c.kernel.mem (c.kernel.ptable p).pgdir v := by
    intro p v away x table
    exact paused.thawed (fun busy => away _ busy table rfl)
  refine ⟨fun p works ptr x frozen => ?_, ?_⟩
  · obtain ⟨v, w⟩ := x
    obtain ⟨-, table, -⟩ := settled.rep.layout.frozen frozen
    refine (away ptr (paused.frozen ptr ?_)).1 p works _ table
    rw [frozen]
    exact Option.some_ne_none _
  · cases label with
    | write p va b => exact thawed (fun ptr busy => (away ptr busy).2)
    | fault p va => exact thawed (fun ptr busy => (away ptr busy).2)
    | _ => trivial

theorem Settled.owner (settled : Settled loan g s) {d v : Nat} (inside : d ∈ g.dirs)
    (user : v < NUPAGE) (there : g.space d v ≠ none) :
    ∃ q, (s.ptable q).live = true ∧ (s.ptable q).pgdir = d := by
  rw [settled.census.dirs, mem_directories] at inside
  rcases inside with rfl | owner
  · exact absurd (settled.census.blank v user) there
  · exact owner

theorem KeepsOff.page_kept {label : Label} {out : Out} {b : Tasks} {ptr : PtePtr} {d v : Nat}
    {w : Word} (settled : Settled loan g s) (shows : Shows g s a) (shows' : Shows h t b)
    (step : Step fork s label out t) (next : a.Next out b label) (away : KeepsOff s ptr label)
    (frozen : g.frozen ptr = some (d, v, w)) (index : ptr.index = ptx v) (user : v < NUPAGE) :
    h.space d v = g.space d v := by
  obtain ⟨inside, table, -⟩ := settled.rep.layout.frozen frozen
  have content := (settled.rep.frozen_page frozen index user).2
  obtain ⟨q, live, rfl⟩ := settled.owner inside user (by rw [content]; exact Option.some_ne_none _)
  obtain ⟨live', dir⟩ := step.stays live (fun works => away.1 q works _ table)
  have unchanged : ¬ Changes q v label := by
    cases label with
    | write p va b =>
      rintro ⟨rfl, rfl⟩
      exact away.2 table index.symm
    | sbrk p n => exact fun here => away.1 q here.symm _ table
    | exec p file argv => exact fun here => away.1 q here.symm _ table
    | _ => exact id
  have used : ∀ {proc : Proc}, proc.live = true → proc.state ≠ .unused := by
    intro proc alive unused
    unfold Proc.live at alive
    rw [unused] at alive
    cases alive
  have kept := next.page_kept unchanged (by rw [(shows.task q).state]; exact used live)
    (by rw [(shows'.task q).state]; exact used live')
  rw [(shows.task q).pages live v user, (shows'.task q).pages live' v user, dir] at kept
  exact kept

theorem Between.call {k k' : Kernel} {jobs : List (SwapJob × Nat)} {label : Label} {out : Out}
    (between : Between ⟨k, jobs⟩ a) (step : Step fork k label out k') (clean : Clean k label k')
    (apart : ∀ ptr ∈ Conf.busy ⟨k, jobs⟩,
      KeepsOff k ptr label ∧ ∀ e, Evicted k k' e → e.ptr ≠ ptr) :
    ∃ b, a.Next out b label ∧ Between ⟨k', jobs⟩ b := by
  obtain ⟨loan, g, settled, shows, paused⟩ := between
  have spared := paused.spared settled (fun ptr busy => (apart ptr busy).1)
  have quiet : Quiet g k'.log := by
    intro e evicted
    rw [paused.base] at evicted
    refine ⟨clean.victims e evicted, ?_, paused.thawed (fun busy => (apart _ busy).2 e evicted rfl)⟩
    rw [settled.stays]
    exact (Option.some_ne_none _).symm
  obtain ⟨loan', -, h, settled', follows, goes⟩ := step_goes settled quiet step spared clean.handled
    (fun p child here live forked =>
      fork_goes settled live (spared.1 p (by rw [here]; rfl)) forked quiet (clean.spares p here))
  obtain ⟨b, next, shows'⟩ := goes a shows
  -- the history starts anew
  have rep := settled'.rep.refreeze h.frozen settled'.rep.layout.frozen
  obtain ⟨settled'', showing⟩ := goes_calm settled' (Calm.refl k') rep rfl rfl rfl settled'.stays
  refine ⟨b, next, loan', _, settled'', showing b shows', rfl, fun job n member => ?_,
    fun ptr frozen => paused.frozen ptr ?_, fun i reserved => paused.reserved i ?_, paused.entries,
    paused.slots⟩
  · have busy : job.ptr ∈ Conf.busy ⟨k, jobs⟩ := List.mem_map_of_mem member
    exact (paused.underway job n member).keep settled.rep rep (congrFun follows.frozen _)
      (congrFun follows.reserved _) (fun frozen index user =>
        (apart _ busy).1.page_kept (h := h) settled shows shows' step next frozen index user)
  · rw [← follows.frozen]
    exact frozen
  · rw [← follows.reserved]
    exact reserved

/-- swap_out chooses an entry that is not being swapped out, freezes it and takes a slot. -/
theorem Between.enter {k k' : Kernel} {jobs : List (SwapJob × Nat)} {job : SwapJob}
    (between : Between ⟨k, jobs⟩ a) (taken : swapReserve k = .ok (job, k'))
    (live : job.live = true) (idle : job.ptr ∉ Conf.busy ⟨k, jobs⟩) :
    Between ⟨k', (job, 0) :: jobs⟩ a := by
  obtain ⟨loan, g, settled, shows, paused⟩ := between
  obtain ⟨u, chosen, found, -, lives, frame, perm, rfl⟩ := swapReserve_ok taken
  obtain ⟨bound, free⟩ := firstFree_some found
  have calm := finalPage_calm _ _ _ chosen
  have alive : (k.ptable job.victim).live = true := by
    rw [← calm.live, ← lives]
    exact live
  obtain ⟨rep, -, -, v, candidate⟩ := finalPage_spec settled.rep alive
    (by rw [settled.stays]; exact (Option.some_ne_none _).symm) chosen
  have inside : (u.ptable job.victim).pgdir ∈ g.dirs := by
    rw [calm.pgdir]
    exact settled.inside alive
  have index : job.ptr.index = ptx v := congrArg PtePtr.index candidate.index
  have entry : pteOf u.mem (u.ptable job.victim).pgdir v = u.mem job.ptr.page job.ptr.index := by
    rw [pteOf_of_table candidate.table, index]
  have unreserved := (rep.slots.idle bound free).1
  have taken' := rep.reserve bound free (u.mem job.ptr.page job.ptr.index)
  have frozen := taken'.refreeze (Function.update g.frozen job.ptr
      (some ((u.ptable job.victim).pgdir, v, u.mem job.ptr.page job.ptr.index))) (by
    intro ptr d v' w here
    by_cases same : ptr = job.ptr
    · subst same
      rw [update_self] at here
      cases here
      exact ⟨inside, candidate.table, SameEntry.refl _, entry ▸ candidate.present,
        entry ▸ candidate.accessible⟩
    · rw [update_of_ne same] at here
      exact rep.layout.frozen here)
  have calm' : Calm k (reserved u job.slot (u.mem job.ptr.page job.ptr.index)) :=
    calm.trans (calm_fields u _ _ _ _ _ _)
  obtain ⟨settled', showing⟩ := goes_calm settled calm' frozen rfl rfl rfl settled.stays
  have others : ∀ {x}, x ∈ jobs → x.1.ptr ≠ job.ptr ∧ x.1.slot ≠ job.slot := by
    intro x member
    refine ⟨fun same => idle (same ▸ List.mem_map_of_mem member), fun same => ?_⟩
    obtain ⟨page, pending, -⟩ := (paused.underway x.1 x.2 member).slot
    rw [same, unreserved] at pending
    cases pending
  refine ⟨loan, _, settled', showing a shows, rfl, ?_, ?_, ?_, ?_, ?_⟩
  · intro job' n member
    rcases List.mem_cons.mp member with here | older
    · cases here
      refine ⟨⟨_, v, _, update_self _ _ _, candidate.user, index, frame.symm, perm.symm,
        entry ▸ candidate.idle⟩, diskPage u.disk (SWAPBASE + job.slot * BPPAGE), ?_, nofun⟩
      rw [perm]
      exact update_self _ _ _
    · obtain ⟨otherPtr, otherSlot⟩ := others older
      exact (paused.underway job' n older).keep settled.rep frozen
        (update_of_ne otherPtr _ _) (update_of_ne otherSlot _ _)
        (fun _ _ _ => rfl)
  · intro ptr here
    by_cases same : ptr = job.ptr
    · rw [same]
      exact List.mem_cons_self
    · refine List.mem_cons_of_mem _ (paused.frozen ptr ?_)
      exact update_ne_none same here
  · intro i here
    by_cases same : i = job.slot
    · rw [same]
      exact List.mem_cons_self
    · refine List.mem_cons_of_mem _ (paused.reserved i ?_)
      exact update_ne_none same here
  · exact List.nodup_cons.mpr ⟨idle, paused.entries⟩
  · refine List.nodup_cons.mpr ⟨fun member => ?_, paused.slots⟩
    obtain ⟨x, older, same⟩ := List.mem_map.mp member
    exact (others older).2 same

theorem swapBlock_ok {job : SwapJob} {n : Nat} (success : swapBlock job n s = .ok ((), t)) :
    (s.swapSlots job.slot).blockno + n < FSSIZE ∧ t = { s with
      disk := Function.update s.disk ((s.swapSlots job.slot).blockno + n)
        (pageBlock (s.mem job.frame) n) } := by
  unfold swapBlock at success
  rw [Prog.read_bind, Prog.bind_ok_iff] at success
  obtain ⟨page, r, loaded, rest⟩ := success
  obtain ⟨-, rfl, rfl⟩ := loadPage_ok_iff.mp loaded
  obtain ⟨inside, rest⟩ := Prog.refuse_ok_iff.mp rest
  exact ⟨Nat.lt_of_not_le inside, Prog.update_ok_iff.mp rest⟩

theorem diskPage_block {disk : Nat → Block} {b n : Nat} (page : Page) (i : Fin 1024) :
    diskPage (Function.update disk (b + n) (pageBlock page n)) b i =
      if i.val / 128 = n then page i else diskPage disk b i := by
  unfold diskPage
  split
  · rename_i here
    rw [here, update_self]
    unfold pageBlock
    congr 1
    apply Fin.ext
    have := i.isLt
    dsimp only
    omega
  · rename_i other
    rw [update_of_ne (by omega)]

theorem Between.block {k k' : Kernel} {before after : List (SwapJob × Nat)} {job : SwapJob}
    {n : Nat} (between : Between ⟨k, before ++ (job, n) :: after⟩ a) (few : n < BPPAGE)
    (stored : swapBlock job n k = .ok ((), k')) :
    Between ⟨k', before ++ (job, n + 1) :: after⟩ a := by
  obtain ⟨loan, g, settled, shows, paused⟩ := between
  obtain ⟨-, rfl⟩ := swapBlock_ok stored
  obtain ⟨entry, page, pending, blocks⟩ := paused.underway job n
    (List.mem_append_right _ List.mem_cons_self)
  obtain ⟨bound, -, content⟩ := settled.rep.slots.reserved pending
  rw [settled.rep.slots.block bound]
  have stores := settled.rep.writeDisk (Function.update k.disk
      (SWAPBASE + job.slot * BPPAGE + n) (pageBlock (k.mem job.frame) n)) pending (by
    intro j _ other
    refine diskPage_congr (fun i small => update_of_ne ?_ _ _)
    rw [BPPAGE_eq] at *
    omega)
  obtain ⟨settled', showing⟩ := goes_calm settled (calm_fields k _ _ _ _ _ _) stores rfl rfl rfl
    settled.stays
  have slots := paused.slots
  rw [List.map_append, List.map_cons, List.nodup_middle, List.nodup_cons] at slots
  have names :
    ∀ {α : Type} (f : SwapJob → α), (before ++ (job, n + 1) :: after).map (fun x => f x.1) =
      (before ++ (job, n) :: after).map (fun x => f x.1) := by
    intro α f
    rw [List.map_append, List.map_append, List.map_cons, List.map_cons]
  refine ⟨loan, _, settled', showing a shows, paused.base, ?_, ?_, ?_, ?_, ?_⟩
  · intro job' m member
    rcases List.mem_cons.mp (List.perm_middle.mem_iff.mp member) with here | older
    · cases here
      refine ⟨entry, _, update_self _ _ _, fun i low => ?_⟩
      rw [diskPage_block]
      split
      · rfl
      · rw [content]
        exact blocks i (by omega)
    · have other : job'.slot ≠ job.slot := by
        intro same
        refine slots.1 ?_
        rw [← List.map_append, ← same]
        exact List.mem_map_of_mem (f := fun x => x.1.slot) older
      have was := List.perm_middle.mem_iff.mpr (List.mem_cons_of_mem (job, n) older)
      exact (paused.underway job' m was).keep settled.rep stores rfl
        (update_of_ne other _ _) (fun _ _ _ => rfl)
  · intro ptr here
    unfold Conf.busy
    rw [names SwapJob.ptr]
    exact paused.frozen ptr here
  · intro i here
    rw [names SwapJob.slot]
    refine paused.reserved i ?_
    by_cases same : i = job.slot
    · rw [same, pending]
      exact Option.some_ne_none _
    · exact update_ne_none same here
  · unfold Conf.busy
    rw [names SwapJob.ptr]
    exact paused.entries
  · rw [names SwapJob.slot]
    exact paused.slots

theorem swapFinished_setWord {job : SwapJob} (w : Word) (apart : job.frame ≠ job.ptr.page) :
    swapFinished { s with mem := setWord s.mem job.ptr w } job = swapFinished s job := by
  have frame : setWord s.mem job.ptr w job.frame = s.mem job.frame := setWord_of_ne apart
  have twice : ∀ (m : Nat → Page) (x : Word),
      setWord (setWord m job.ptr w) job.ptr x = setWord m job.ptr x := by
    intro m x
    unfold setWord
    rw [update_self, Function.update_idem, Function.update_idem]
  have past : ∀ page : Page, Function.update (setWord s.mem job.ptr w) job.frame page =
      setWord (Function.update s.mem job.frame page) job.ptr w := by
    intro page
    unfold setWord
    rw [update_of_ne apart.symm, Function.update_comm apart]
  unfold swapFinished kfreed
  dsimp only
  rw [frame]
  split
  · dsimp only
    rw [twice]
  · unfold pushFree
    dsimp only
    rw [past, twice]

theorem Between.leave {k k' : Kernel} {before after : List (SwapJob × Nat)} {job : SwapJob}
    (between : Between ⟨k, before ++ (job, BPPAGE) :: after⟩ a)
    (finished : swapFinish job k = .ok ((), k')) : Between ⟨k', before ++ after⟩ a := by
  obtain ⟨loan, g, settled, shows, paused⟩ := between
  obtain ⟨-, -, -, rfl⟩ := swapFinish_ok_iff.mp finished
  have rep := settled.rep
  obtain ⟨⟨d, v, w, here, user, index, frame, perm, idle⟩, page, pending, blocks⟩ :=
    paused.underway job BPPAGE (List.mem_append_right _ List.mem_cons_self)
  obtain ⟨inside, table, -, present, access⟩ := rep.layout.frozen here
  have ptr : job.ptr = ⟨job.ptr.page, ptx v⟩ := by rw [← index]
  have same := (rep.frozen_page here index user).1
  have mapped := same.present.trans present
  have apart : job.frame ≠ job.ptr.page := by
    rw [← frame, ← same.ppn]
    exact rep.frame_ne_table inside table inside user mapped
  have whole : page = k.mem job.frame := by
    funext i
    refine blocks i ?_
    have := i.isLt
    rw [BPPAGE_eq]
    omega
  -- a read may have set PTE_A since swap_out chose the entry
  have rewrites := rep.layout.rewrites (Keeps.refl g k.mem) inside (user_lt user) table w
  have reset := rep.reflag inside user table (w := w) (fun _ _ => Eq.symm same) mapped present
    same.ppn.symm (fun writable => by
      rw [← same.ppn]
      exact rep.entries.exclusive inside user mapped (same.writable.trans writable))
  rw [Ghost.setSpace_self (by rw [(rep.frozen_page here index user).2, access]), ← ptr] at reset
  rw [← ptr] at rewrites
  have thawed := reset.refreeze (Function.update g.frozen job.ptr none) (by
    intro ptr' d' v' w' still
    by_cases own : ptr' = job.ptr
    · rw [own, update_self] at still
      cases still
    · rw [update_of_ne own] at still
      exact reset.layout.frozen still)
  have entry : pteOf (setWord k.mem job.ptr w) d v = w := rewrites.here
  have freed := thawed.finish job (t := job.ptr.page) inside user
    ((rewrites.table inside _).trans table) (by rw [← ptr]; exact update_self _ _ _)
    (by rw [entry]; exact present)
    (by
      rw [entry]
      exact ⟨low_pteFlags w, (has_pteFlags low_P w).trans present,
        (has_pteFlags low_U w).trans access, (has_pteFlags low_A w).trans idle⟩)
    ptr (by rw [entry, frame]) (by rw [entry, perm])
    (by
      dsimp only
      rw [setWord_of_ne apart, ← whole]
      exact pending)
  rw [swapFinished_setWord w apart] at freed
  have final := freed.refreeze (Function.update g.frozen job.ptr none) freed.layout.frozen
  obtain ⟨settled', showing⟩ := goes_calm settled (swapFinished_calm k job) final rfl rfl rfl
    settled.stays
  have entries := paused.entries
  have slots := paused.slots
  unfold Conf.busy at entries
  rw [List.map_append, List.map_cons, List.nodup_middle, List.nodup_cons, ← List.map_append]
    at entries slots
  have rest : ∀ {α : Type} {f : SwapJob × Nat → α} {y : α},
      y ∈ (before ++ (job, BPPAGE) :: after).map f → y ≠ f (job, BPPAGE) →
        y ∈ (before ++ after).map f := fun member other =>
    (List.mem_cons.mp ((List.perm_middle.map _).mem_iff.mp member)).resolve_left other
  refine ⟨loan, _, settled', showing a shows, rfl, ?_, ?_, ?_, entries.2, slots.2⟩
  · intro job' n member
    have otherPtr : job'.ptr ≠ job.ptr := fun equal =>
      entries.1 (equal ▸ List.mem_map_of_mem (f := fun x => x.1.ptr) member)
    have otherSlot : job'.slot ≠ job.slot := fun equal =>
      slots.1 (equal ▸ List.mem_map_of_mem (f := fun x => x.1.slot) member)
    have was := List.perm_middle.mem_iff.mpr (List.mem_cons_of_mem (job, BPPAGE) member)
    exact (paused.underway job' n was).keep rep final (update_of_ne otherPtr _ _)
      (update_of_ne otherSlot _ _) (fun _ _ _ => rfl)
  · intro ptr' still
    have other : ptr' ≠ job.ptr := by
      rintro rfl
      exact still (update_self _ _ _)
    exact rest (paused.frozen ptr' (update_ne_none other still)) other
  · intro i still
    have other : i ≠ job.slot := by
      rintro rfl
      exact still (update_self _ _ _)
    exact rest (paused.reserved i (update_ne_none other still)) other

theorem Between.step {act : Act} {out : Out} (between : Between c a) (step : Apart c act out c') :
    ∃ b, Act.Next a act out b ∧ Between c' b := by
  obtain ⟨moves, apart⟩ := step
  cases moves with
  | call taken => exact between.call taken apart.1 apart.2
  | enter empty taken =>
    obtain ⟨live, idle⟩ := apart _ _ rfl
    exact ⟨a, rfl, between.enter taken live idle⟩
  | block few stored => exact ⟨a, rfl, between.block few stored⟩
  | leave finished => exact ⟨a, rfl, between.leave finished⟩

/-- Memory is full, and swap_out has chosen page 0 of the only process. Page `v` is in frame
`f v`, and `r` is the state once slot 0 is taken. -/
structure Chosen (d x : Nat) (f : Nat → Nat) (s : Kernel) (job : SwapJob) (r : Kernel) : Prop where
  reachable : Reachable CleanStep s
  free : s.freelist = []
  taken : swapReserve s = .ok (job, r)
  chosen : job = ⟨0, true, ⟨x, ptx 0⟩, 0, f 0, pteFlags (userWord (f 0))⟩
  shape : ∃ ptable slots, r = { s with ptable := ptable, swapSlots := slots }
  slot : r.swapSlots 0 = ⟨false, pteFlags (userWord (f 0)), SWAPBASE, 0⟩
  proc : (r.ptable 0).canRun = true ∧ (r.ptable 0).sz = 721 * PGSIZE ∧ (r.ptable 0).pgdir = d
  dir : d < NPHYS
  table : tablePage s.mem d 0 = some x
  small : x < NPHYS
  apart : d ≠ x
  entry : ∀ v, v < 721 → pteOf s.mem d v = userWord (f v)
  frame : ∀ v, v < 721 → f v < NPHYS ∧ f v ≠ d ∧ f v ≠ x
  once : ∀ v, v < 721 → f v = f 0 → v = 0
  low : firstPage ≤ f 0
  count : s.pageToRefcnt (f 0) = 1

/-- The memory after a store to the first byte of page `v`, which is in frame `q`. -/
def storedAt (m : Nat → Page) (x v q : Nat) (b : Byte) : Nat → Page :=
  Function.update (setWord m ⟨x, ptx v⟩ (userWord q ||| (PTE_A ||| PTE_D))) q ((m q).setByte 0 b)

section Chosen

variable {d x : Nat} {f : Nat → Nat} {job : SwapJob} {r w : Kernel}

/-- The process stores a byte to its page `v` before swap_out has finished: the entry is
present and writable, page 0 included. -/
theorem Chosen.write {v : Nat} (chosen : Chosen d x f s job r) (b : Byte) (below : v < 721)
    (mem : w.mem = s.mem) (ptable : w.ptable = r.ptable) :
    Step fork w (.write 0 (v * PGSIZE) b) (.flag true)
      { w with mem := storedAt s.mem x v (f v) b } := by
  obtain ⟨runs, size, pgdir⟩ := chosen.proc
  obtain ⟨small, -, notTable⟩ := chosen.frame v below
  have word := userWord_map small
  have page : v * PGSIZE / PGSIZE = v := Nat.mul_div_cancel _ (by decide)
  have offset : v * PGSIZE % PGSIZE = 0 := Nat.mul_mod_left _ _
  have table : tablePage w.mem (w.ptable 0).pgdir (pdx v) = some x := by
    rw [ptable, pgdir, mem, pdx_small (by omega)]
    exact chosen.table
  have entry : pteOf w.mem (w.ptable 0).pgdir v = userWord (f v) := by
    rw [ptable, pgdir, mem]
    exact chosen.entry v below
  have stored := userStore_room (p := 0) (q := f v) (x := x) (v * PGSIZE) b
    (by rw [ptable, pgdir]; exact chosen.dir) (by rw [page]; exact table) chosen.small
    (by rw [page]; exact entry)
    (by unfold writable; rw [word.present, word.user, word.writable]; rfl) word.frame small notTable
  rw [page, offset, mem] at stored
  refine ⟨⟨?_, ?_, Or.inl ?_⟩, ?_⟩
  · rw [ptable]
    exact runs
  · rw [ptable, size]
    exact Nat.mul_lt_mul_of_pos_right below (by decide)
  · rw [page, entry, accessible, word.present, word.user]
    rfl
  · unfold perform userWrite
    refine Prog.bind_of_ok ((Prog.bind_of_ok stored).trans ?_)
    rfl

theorem Chosen.enter (chosen : Chosen d x f s job r) :
    Apart ⟨s, []⟩ .enter .nothing ⟨r, [(job, 0)]⟩ := by
  refine ⟨.enter chosen.free chosen.taken, fun job' n here => ?_⟩
  cases here
  rw [chosen.chosen]
  exact ⟨rfl, List.not_mem_nil⟩

theorem Chosen.finish {k : Kernel} (chosen : Chosen d x f s job r) :
    swapFinish job k = .ok ((), swapFinished k job) := by
  refine swapFinish_ok_iff.mpr ⟨?_, ?_, ?_, rfl⟩
  · rw [chosen.chosen]
    exact chosen.low
  · rw [chosen.chosen]
    exact (chosen.frame 0 (by decide)).1
  · rw [chosen.chosen]
    exact chosen.small

theorem blocks_run {k : Kernel} (disk : Nat → Block) {n j : Nat} (high : job.frame < NPHYS)
    (fits : (k.swapSlots job.slot).blockno + BPPAGE ≤ FSSIZE) (few : n + j ≤ BPPAGE)
    (sofar : k.disk = writeBlocks disk (k.swapSlots job.slot).blockno (k.mem job.frame) n) :
    Run Apart ⟨k, [(job, n)]⟩ (List.replicate j (.block, .nothing)) ⟨{ k with
      disk := writeBlocks disk (k.swapSlots job.slot).blockno (k.mem job.frame) (n + j) },
      [(job, n + j)]⟩ := by
  induction j generalizing n k with
  | zero =>
    rw [Nat.add_zero, ← sofar]
    exact .nil
  | succ j ih =>
    have stored : swapBlock job n k = .ok ((), { k with
        disk := writeBlocks disk (k.swapSlots job.slot).blockno (k.mem job.frame) (n + 1) }) := by
      unfold swapBlock
      rw [Prog.read_bind, Prog.bind_of_ok (loadPage_ok_iff.mpr ⟨high, rfl, rfl⟩),
        if_neg (by omega), writeBlocks, ← sofar]
      rfl
    rw [List.replicate_succ, show n + (j + 1) = n + 1 + j by omega]
    exact .cons ⟨@Moves.block _ _ [] [] job n (by omega) stored, trivial⟩
      (ih (n := n + 1) (k := { k with disk := _ }) fits (by omega) rfl)

theorem Chosen.blocks {k : Kernel} {n j : Nat} (chosen : Chosen d x f s job r)
    (few : n + j ≤ BPPAGE) (slots : k.swapSlots = r.swapSlots) (page : k.mem (f 0) = s.mem (f 0))
    (sofar : k.disk = writeBlocks s.disk SWAPBASE (s.mem (f 0)) n) :
    Run Apart ⟨k, [(job, n)]⟩ (List.replicate j (.block, .nothing))
      ⟨{ k with disk := writeBlocks s.disk SWAPBASE (s.mem (f 0)) (n + j) }, [(job, n + j)]⟩ := by
  have frame : job.frame = f 0 := by rw [chosen.chosen]
  have number : (k.swapSlots job.slot).blockno = SWAPBASE := by
    rw [slots, chosen.chosen]
    exact congrArg SwapSlot.blockno chosen.slot
  have run := blocks_run (k := k) (n := n) (j := j) s.disk
    (by rw [frame]; exact (chosen.frame 0 (by decide)).1) (by rw [number]; decide) few
    (by rw [number, frame, page, sofar])
  rw [number, frame, page] at run
  exact run

end Chosen

theorem Run.whole {trace : List (Label × Out)} (run : Run CleanStep s trace t) :
    Run Apart ⟨s, []⟩ (trace.map (fun x => (.call x.1, x.2))) ⟨t, []⟩ := by
  induction run with
  | nil => exact .nil
  | cons first _ ih => exact .cons ⟨.call first.1, first.2, nofun⟩ ih

end Xv6Cow
