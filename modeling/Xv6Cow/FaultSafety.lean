import Xv6Cow.Scenario

/- What the fault handler does with accesses it should refuse. It looks at PTE_P and the
reference count only, so it refuses nothing: it grants, copies or reads a slot. -/
namespace Xv6Cow

open Function (update_self update_of_ne)
open Prog (read update halt bind_of_ok read_bind)

variable {s t u : Kernel} {p : Fin NPROC} {va : Nat}

/-- The address is not that of a user page: no page table, an empty entry, or an entry
that is not for the user. -/
def Illegal (s : Kernel) (p : Fin NPROC) (va : Nat) : Prop :=
  let w := pteOf s.mem (s.ptable p).pgdir (va / PGSIZE)
  tablePage s.mem (s.ptable p).pgdir (pdx (va / PGSIZE)) = none ∨
    (has w PTE_P = false ∧ has w PTE_SW = false) ∨ (has w PTE_P = true ∧ has w PTE_U = false)

/-- The fault changes no memory, no count and no slot, reads no slot, and the process is
marked killed. -/
def Rejected (s : Kernel) (p : Fin NPROC) (va : Nat) : Prop :=
  ∃ t, trapPageFault p va s = .ok ((), t) ∧ t.mem = s.mem ∧ t.pageToRefcnt = s.pageToRefcnt ∧
    t.swapSlots = s.swapSlots ∧ (∀ b, Event.swapRead b ∉ since s.log t.log) ∧
    (t.ptable p).killed = true

/-- The faults that happen to be harmless: the process, not init, was killed before, and
its entry maps a page that is not shared, writable already. -/
structure Tame (s : Kernel) (p : Fin NPROC) (va : Nat) : Prop where
  killed : (s.ptable p).killed = true
  other : s.initproc ≠ some p
  dir : (s.ptable p).pgdir < NPHYS
  table : ∃ x < NPHYS, tablePage s.mem (s.ptable p).pgdir (pdx (va / PGSIZE)) = some x
  present : has (pteOf s.mem (s.ptable p).pgdir (va / PGSIZE)) PTE_P = true
  writable : has (pteOf s.mem (s.ptable p).pgdir (va / PGSIZE)) PTE_W = true
  frame : ppn (pteOf s.mem (s.ptable p).pgdir (va / PGSIZE)) < NPHYS
  alone : s.pageToRefcnt (ppn (pteOf s.mem (s.ptable p).pgdir (va / PGSIZE))) ≤ 1

theorem exit_ok_iff {done : Unit} :
    exit p s = .ok (done, t) ↔ s.initproc ≠ some p ∧ t = exited s p := by
  unfold exit panic
  rw [read_bind, Prog.refuse_ok_iff, Prog.update_ok_iff]

theorem exited_killed (s : Kernel) (p : Fin NPROC) :
    ((exited s p).ptable p).killed = (s.ptable p).killed := by
  unfold exited
  dsimp only
  rw [if_pos rfl]
  split <;> rfl

theorem trapPageFault_ok {done : Unit} (success : trapPageFault p va s = .ok (done, t)) :
    ∃ u, handlePageFault p va s = .ok ((), u) ∧ (u.ptable p).killed = (s.ptable p).killed ∧
      (((s.ptable p).killed = true ∧ s.initproc ≠ some p ∧ t = exited u p) ∨
        ((s.ptable p).killed = false ∧ t = u)) := by
  unfold trapPageFault at success
  rw [Prog.bind_ok_iff] at success
  obtain ⟨_, u, handled, rest⟩ := success
  have calm := handlePageFault_calm _ _ _ _ _ handled
  obtain ⟨rss, same⟩ := calm.proc p
  have killed : (u.ptable p).killed = (s.ptable p).killed := by rw [same]
  refine ⟨u, handled, killed, ?_⟩
  rw [read_bind, Prog.ite_apply, killed] at rest
  split at rest
  · rename_i dead
    obtain ⟨other, final⟩ := exit_ok_iff.mp rest
    exact Or.inl ⟨dead, by rw [← calm.initproc]; exact other, final⟩
  · rename_i alive
    obtain ⟨-, rfl⟩ := Prog.pure_ok_iff.mp rest
    exact Or.inr ⟨by simpa using alive, rfl⟩

/-- Evictions use slots up, and kalloc gives none back. -/
theorem kalloc_freeSlots {q : Nat} (success : kalloc s = .ok (q, u)) : freeSlots u ≤ freeSlots s :=
  kalloc_induction (motive := fun s _ u => freeSlots u ≤ freeSlots s) (fun _ _ _ _ => Nat.le_refl _)
    (fun _ _ _ _ _ evicted _ less => less.trans (swapOut_freeSlots evicted).le) success

theorem kalloc_of_slots {q : Nat} (success : kalloc s = .ok (q, u))
    (same : u.swapSlots = s.swapSlots) : ∃ rest, s.freelist = q :: rest ∧ u = popFree s q rest := by
  cases list : s.freelist with
  | cons x rest =>
    rw [kalloc_cons list] at success
    cases success
    exact ⟨rest, rfl, rfl⟩
  | nil =>
    rw [kalloc_nil list] at success
    obtain ⟨_, r, evicted, rest⟩ := Prog.bind_ok_iff.mp success
    have less := (kalloc_freeSlots rest).trans_lt (swapOut_freeSlots evicted)
    unfold freeSlots at less
    rw [same] at less
    exact absurd less (Nat.lt_irrefl _)

/-- cow_page always leaves a trace: a slot taken or a count lowered. -/
theorem cowPage_changes {ptr : PtePtr} {done : Unit} (success : cowPage ptr s = .ok (done, t))
    (shared : 1 < s.pageToRefcnt (ppn (s.mem ptr.page ptr.index)))
    (refcnt : t.pageToRefcnt = s.pageToRefcnt) (slots : t.swapSlots = s.swapSlots) : False := by
  obtain ⟨q, u, allocated, rfl⟩ := cowPage_ok success
  obtain ⟨rest, list, rfl⟩ := kalloc_of_slots allocated slots
  -- the count goes down, or it was set to 1 by kalloc first and goes down from there
  have lowered := congrFun refcnt (ppn (s.mem ptr.page ptr.index))
  change Function.update (Function.update s.pageToRefcnt q 1)
    (ppn (s.mem ptr.page ptr.index)) _ _ = _
    at lowered
  rw [update_self] at lowered
  change Function.update s.pageToRefcnt q 1 (ppn (s.mem ptr.page ptr.index)) - 1 = _ at lowered
  by_cases here : ppn (s.mem ptr.page ptr.index) = q
  · rw [here, update_self] at lowered
    rw [here] at shared
    omega
  · rw [update_of_ne here] at lowered
    omega

theorem presentFault_ok {ptr : PtePtr} {w : Word} {done : Unit}
    (success : presentFault ptr w s = .ok (done, t)) :
    ppn w < NPHYS ∧
      ((1 < s.pageToRefcnt (ppn w) ∧ cowPage ptr s = .ok (done, t)) ∨
        (s.pageToRefcnt (ppn w) ≤ 1 ∧ ptr.page < NPHYS ∧
          t = { s with mem := setWord s.mem ptr (w ||| PTE_W) })) := by
  unfold presentFault at success
  rw [Prog.bind_ok_iff] at success
  obtain ⟨count, u, loaded, rest⟩ := success
  obtain ⟨small, rfl, rfl⟩ := loadRefcnt_ok_iff.mp loaded
  refine ⟨small, ?_⟩
  rw [Prog.ite_apply] at rest
  split at rest
  · rename_i shared
    exact Or.inl ⟨shared, rest⟩
  · rename_i alone
    obtain ⟨inside, rfl⟩ := storeWord_ok_iff.mp rest
    exact Or.inr ⟨Int.not_lt.mp alone, inside, rfl⟩

theorem swapIn_reads {ptr : PtePtr} {done : Unit} (success : swapIn p ptr s = .ok (done, t)) :
    ∃ b, Event.swapRead b ∈ since s.log t.log := by
  obtain ⟨q, u, allocated, -, -, rfl⟩ := swapIn_ok success
  refine ⟨ppn (u.mem ptr.page ptr.index), ?_⟩
  change _ ∈ since s.log (Event.swapRead _ :: u.log)
  rw [since_cons (kalloc_calm _ _ _ allocated).log]
  exact List.mem_cons_self

theorem has_or_W (w : Word) : has (w ||| PTE_W) PTE_W = true := by
  rw [has_W, BitVec.getLsbD_or, Bool.or_eq_true]
  exact Or.inr rfl

theorem or_W_of_has {w : Word} (writable : has w PTE_W = true) : w ||| PTE_W = w := by
  rw [has_W] at writable
  apply BitVec.eq_of_getLsbD_eq
  intro i small
  rw [BitVec.getLsbD_or]
  by_cases here : i = 1
  · rw [here, writable]
    rfl
  · have clear : PTE_W.getLsbD i = false := by
      rw [show PTE_W = BitVec.twoPow 32 1 from rfl, BitVec.getLsbD_twoPow]
      simp [Ne.symm here]
    rw [clear, Bool.or_false]

theorem Rejected.tame (rejected : Rejected s p va) : Tame s p va := by
  obtain ⟨t, trapped, mem, refcnt, slots, silent, killed⟩ := rejected
  obtain ⟨u, handled, same, final⟩ := trapPageFault_ok trapped
  have after : u.mem = s.mem ∧ u.pageToRefcnt = s.pageToRefcnt ∧ u.swapSlots = s.swapSlots ∧
      u.log = t.log ∧ (s.ptable p).killed = true ∧ s.initproc ≠ some p := by
    rcases final with ⟨dead, other, rfl⟩ | ⟨alive, rfl⟩
    · exact ⟨mem, refcnt, slots, rfl, dead, other⟩
    · rw [same, alive] at killed
      cases killed
  obtain ⟨mem', refcnt', slots', log', dead, other⟩ := after
  have dir : (s.ptable p).pgdir < NPHYS := by
    unfold handlePageFault at handled
    rw [read_bind, Prog.bind_ok_iff] at handled
    obtain ⟨pte, r, walked, -⟩ := handled
    exact (walkpgdirNoAlloc_ok_iff.mp walked).1
  obtain ⟨x, table, ⟨present, fault⟩ | ⟨-, fault⟩⟩ := handlePageFault_ok handled
  · have entry := pteOf_of_table table
    obtain ⟨frame, ⟨shared, copied⟩ | ⟨alone, inside, rfl⟩⟩ := presentFault_ok fault
    · rw [entry] at shared
      exact (cowPage_changes copied shared refcnt' slots').elim
    · refine ⟨dead, other, dir, ⟨x, inside, table⟩, present, ?_, frame, alone⟩
      have here := congrFun (congrFun mem' x) (ptx (va / PGSIZE))
      change setWord s.mem ⟨x, ptx (va / PGSIZE)⟩ _ x (ptx (va / PGSIZE)) = _ at here
      rw [setWord_self s.mem ⟨x, ptx (va / PGSIZE)⟩, ← entry] at here
      rw [← here]
      exact has_or_W _
  · obtain ⟨b, read⟩ := swapIn_reads fault
    rw [log'] at read
    exact (silent b read).elim

theorem Tame.rejected (tame : Tame s p va) : Rejected s p va := by
  obtain ⟨x, inside, table⟩ := tame.table
  have entry := pteOf_of_table table
  have handled : handlePageFault p va s = .ok ((), s) := by
    unfold handlePageFault
    rw [read_bind, bind_of_ok (walk_of_table tame.dir table)]
    dsimp only
    rw [bind_of_ok (loadWord_ok_iff.mpr ⟨inside, entry, rfl⟩), if_pos tame.present]
    unfold presentFault
    rw [bind_of_ok (loadRefcnt_ok_iff.mpr ⟨tame.frame, rfl, rfl⟩),
      if_neg (Int.not_lt.mpr tame.alone), or_W_of_has tame.writable]
    refine storeWord_ok_iff.mpr ⟨inside, ?_⟩
    rw [entry]
    unfold setWord
    rw [Function.update_eq_self, Function.update_eq_self]
  refine ⟨exited s p, ?_, rfl, rfl, rfl, ?_, ?_⟩
  · unfold trapPageFault
    rw [bind_of_ok handled, read_bind, if_pos tame.killed]
    exact exit_ok_iff.mpr ⟨tame.other, rfl⟩
  · intro b read
    change _ ∈ since s.log s.log at read
    rw [since_self] at read
    cases read
  · rw [exited_killed]
    exact tame.killed

/-- A fault at an illegal address is rejected only if it is tame. -/
theorem illegal_fault_iff (s : Kernel) (p : Fin NPROC) (va : Nat) :
    (Illegal s p va → Rejected s p va) ↔ (Illegal s p va → Tame s p va) :=
  ⟨fun rejects illegal => (rejects illegal).tame, fun tame illegal => (tame illegal).rejected⟩

/-- The first process, right after boot, accesses the page above its memory. -/
theorem illegal_fault_accepted : ∃ s va,
    boot (powerOn (fun _ => zeroPage) (fun _ _ => 0#32)) = .ok ((), s) ∧ va = (s.ptable 0).sz ∧
      Illegal s 0 va ∧ ¬ Rejected s 0 va := by
  obtain ⟨g, k, d, q, s, booted, facts⟩ := boot_ok (fun _ => zeroPage) (fun _ _ => 0#32)
  obtain ⟨runs, size, -⟩ := facts.runs
  have settled := facts.roomy.sound.settled
  have live := canRun_live runs
  refine ⟨s, PGSIZE, booted, size.symm, Or.inr (Or.inl ?_), ?_⟩
  · have empty := settled.census.ends live 1 (by rw [size]; decide) (by decide)
    rw [show PGSIZE / PGSIZE = 1 from rfl,
      settled.rep.vacant (settled.inside live) (by decide) empty]
    decide
  · intro rejected
    have killed := rejected.tame.killed
    rw [facts.ptable, update_self] at killed
    cases killed

/-! ## The bookkeeping of swap-in -/

theorem swapOut_leaves {done : Unit} (success : swapOut s = .ok (done, t)) :
    ∃ e, t.log = .evict e :: s.log ∧ (∀ x, x ≠ e.frame → t.pageToRefcnt x = s.pageToRefcnt x) ∧
      ∀ j, j ≠ e.slot → t.swapSlots j = s.swapSlots j := by
  obtain ⟨job, v, r, reserve, shape, -, -, -, -, rfl⟩ := swapOut_ok success
  obtain ⟨y, chosen, -, -, -, -, -, rfl⟩ := swapReserve_ok reserve
  obtain ⟨mem, ptable, rfl⟩ := finalPage_memProc chosen
  have log : r.log = s.log := by rw [shape]; rfl
  have counts : r.pageToRefcnt = s.pageToRefcnt := by rw [shape]; rfl
  refine ⟨⟨job.victim, job.live, job.ptr, job.frame, job.slot, job.perm, r.mem job.frame,
    decide (r.pageToRefcnt job.frame ≤ 1)⟩, ?_, fun x other => ?_, fun j other => ?_⟩
  · rw [← log]
    exact congrArg (List.cons _) (kfreed_log _ _)
  · rw [← counts]
    unfold swapFinished kfreed
    dsimp only
    split
    · exact update_of_ne other _ _
    · rfl
  · rw [shape]
    simp only [swapFinished, kfreed_swapSlots, written, reserved, update_of_ne other]

/-- kalloc changes the counts of the page it returns and of the pages it evicts, and the
slots it evicts them to. -/
theorem kalloc_leaves {q : Nat} (success : kalloc s = .ok (q, u)) :
    u.pageToRefcnt q = 1 ∧
      (∀ x, x ≠ q → (∀ e, Evicted s u e → e.frame ≠ x) → u.pageToRefcnt x = s.pageToRefcnt x) ∧
      ∀ j, (∀ e, Evicted s u e → e.slot ≠ j) → u.swapSlots j = s.swapSlots j := by
  refine kalloc_induction (motive := fun s q u => u.pageToRefcnt q = 1 ∧
      (∀ x, x ≠ q → (∀ e, Evicted s u e → e.frame ≠ x) → u.pageToRefcnt x = s.pageToRefcnt x) ∧
      ∀ j, (∀ e, Evicted s u e → e.slot ≠ j) → u.swapSlots j = s.swapSlots j) ?_ ?_ success
  · intro s q rest list
    exact ⟨update_self _ _ _, fun x other _ => update_of_ne other _ _, fun _ _ => rfl⟩
  · rintro s t q r empty evicted allocated ⟨one, counts, slots⟩
    have newer := (kalloc_calm _ _ _ allocated).log
    obtain ⟨e, log, count, slot⟩ := swapOut_leaves evicted
    have older : s.log <:+ t.log := by
      rw [log]
      exact List.suffix_cons _ _
    have own : Evicted s r e := by
      refine Evicted.after ?_ older newer
      unfold Evicted
      rw [log, since_cons (List.suffix_refl _)]
      exact List.mem_cons_self
    refine ⟨one, fun x other spared => ?_, fun j spared => ?_⟩
    · rw [counts x other (fun e later => spared e (later.before older newer))]
      exact count x (fun here => spared e own here.symm)
    · rw [slots j (fun e later => spared e (later.before older newer))]
      exact slot j (fun here => spared e own here.symm)

/-- Swap-in changes its own count and slot only: the page it gets counts 1, and of the
other pages and slots only those change that kalloc's evictions used. -/
def OwnOnly (s : Kernel) (p : Fin NPROC) (va : Nat) : Prop :=
  ∃ q u t, kalloc s = .ok (q, u) ∧ handlePageFault p va s = .ok ((), t) ∧ t.pageToRefcnt q = 1 ∧
    (∀ x, x ≠ q → (∀ e, Evicted s t e → e.frame ≠ x) → t.pageToRefcnt x = s.pageToRefcnt x) ∧
    ∀ j, j ≠ slotOf (pteOf s.mem (s.ptable p).pgdir (va / PGSIZE)) →
      (∀ e, Evicted s t e → e.slot ≠ j) → t.swapSlots j = s.swapSlots j

/-- The block number that the entry holds, taken for a page number, names a page of the
table that nobody counts: not the page that kalloc returns, and of count 0 unless it is
evicted now. -/
def Uncounted (s : Kernel) (p : Fin NPROC) (va : Nat) : Prop :=
  let b := ppn (pteOf s.mem (s.ptable p).pgdir (va / PGSIZE))
  b < NPHYS ∧ ∃ q u, kalloc s = .ok (q, u) ∧ b ≠ q ∧
    (s.pageToRefcnt b = 0 ∨ ∃ e, Evicted s u e ∧ e.frame = b)

/-- What swap-in finds after its kalloc: the entry still names its slot, and the slot's
count is 0, since nothing ever sets it. -/
theorem swapIn_finds {g : Ghost} {d v q x : Nat} (rep : Rep g s) (inside : d ∈ g.dirs)
    (user : v < NUPAGE) (swapped : isSwapped (pteOf s.mem d v) = true)
    (table : tablePage s.mem d (pdx v) = some x) (allocated : kalloc s = .ok (q, u))
    (quiet : Quiet g u.log) :
    ppn (u.mem x (ptx v)) = ppn (pteOf s.mem d v) ∧
      swapIndex (ppn (pteOf s.mem d v)) = slotOf (pteOf s.mem d v) ∧
      slotOf (pteOf s.mem d v) < NPAGE ∧
      (u.swapSlots (slotOf (pteOf s.mem d v))).refcntToDisk = 0 ∧ q < NPHYS := by
  obtain ⟨fresh, taken, evicts⟩ := kalloc_spec rep allocated quiet
  obtain ⟨bound, named, -⟩ := rep.slots.slot inside user swapped
  have similar := evicts.stays_swapped inside user swapped
  have slot := kalloc_slot allocated (rep.slots.busy inside user swapped bound named).1
  have held : (g.hold q (u.mem q)).held q = some (u.mem q) := update_self _ _ _
  refine ⟨?_, ?_, bound, ?_, ?_⟩
  · rw [← pteOf_of_table (evicts.table inside table)]
    exact similar.ppn
  · rw [named, swapIndex_block bound, slotOf_block named]
  · rw [slot]
    exact rep.slots.untouched bound
  · have pinned : q ∈ pins (g.hold q (u.mem q)) u.mem := mem_pins_hold.mpr (Or.inl rfl)
    exact (taken.layout.pool_bounds _ (taken.layout.pins_pool _ pinned)).2

theorem swappedIn_leaves {ptr : PtePtr} {q : Nat} (u : Kernel) (p : Fin NPROC) :
    (swappedIn u p ptr q).pageToRefcnt = Function.update u.pageToRefcnt
        (ppn (u.mem ptr.page ptr.index))
        (u.swapSlots (swapIndex (ppn (u.mem ptr.page ptr.index)))).refcntToDisk ∧
      (∀ j, j ≠ swapIndex (ppn (u.mem ptr.page ptr.index)) →
        (swappedIn u p ptr q).swapSlots j = u.swapSlots j) ∧
      ∀ s e, s.log <:+ u.log → (Evicted s (swappedIn u p ptr q) e ↔ Evicted s u e) := by
  refine ⟨rfl, fun j other => update_of_ne other _ _, fun s e older => ?_⟩
  unfold Evicted
  change _ ∈ since s.log (Event.swapRead _ :: u.log) ↔ _
  rw [since_cons older, List.mem_cons]
  exact ⟨fun member => member.resolve_left nofun, Or.inr⟩

theorem swapIn_room {ptr : PtePtr} {q : Nat} (allocated : kalloc s = .ok (q, u))
    (inside : ptr.page < NPHYS) (page : q < NPHYS) (small : ppn (u.mem ptr.page ptr.index) < NPHYS)
    (index : swapIndex (ppn (u.mem ptr.page ptr.index)) < NPAGE) :
    swapIn p ptr s = .ok ((), swappedIn u p ptr q) := by
  have block : ¬ FSSIZE < ppn (u.mem ptr.page ptr.index) + BPPAGE := by
    rw [NPHYS_eq] at small
    rw [BPPAGE_eq, FSSIZE]
    omega
  have fetched : ∀ r : Kernel, readPageFromSwap (ppn (u.mem ptr.page ptr.index)) q r = .ok ((),
      { r with
        mem := Function.update r.mem q (diskPage r.disk (ppn (u.mem ptr.page ptr.index)))
        log := .swapRead (ppn (u.mem ptr.page ptr.index)) :: r.log }) := by
    intro r
    unfold readPageFromSwap
    rw [if_neg block, read_bind,
      bind_of_ok (storePage_ok_iff.mpr ⟨page, rfl⟩ : _ = Except.ok ((), _))]
    rfl
  unfold swapIn
  rw [bind_of_ok allocated, addRss, updateProc, Prog.update_bind,
    bind_of_ok (loadWord_ok_iff.mpr ⟨inside, rfl, rfl⟩)]
  refine (bind_of_ok (fetched _)).trans ?_
  refine (bind_of_ok (loadSlot_ok_iff.mpr ⟨index, rfl, rfl⟩)).trans ?_
  refine (bind_of_ok (storeRefcnt_ok_iff.mpr ⟨small, rfl⟩ : _ = Except.ok ((), _))).trans ?_
  refine (bind_of_ok (storeWord_ok_iff.mpr ⟨inside, rfl⟩ : _ = Except.ok ((), _))).trans ?_
  exact storeSlot_ok_iff.mpr ⟨index, rfl⟩

/-- A fault on a swapped page returns if kalloc does and the block number is one that
page_to_refcnt has an entry for. -/
theorem handlePageFault_swapped {g : Ghost} {q x : Nat} (rep : Rep g s)
    (inside : (s.ptable p).pgdir ∈ g.dirs) (user : va / PGSIZE < NUPAGE)
    (swapped : isSwapped (pteOf s.mem (s.ptable p).pgdir (va / PGSIZE)) = true)
    (table : tablePage s.mem (s.ptable p).pgdir (pdx (va / PGSIZE)) = some x)
    (allocated : kalloc s = .ok (q, u)) (quiet : Quiet g u.log)
    (small : ppn (pteOf s.mem (s.ptable p).pgdir (va / PGSIZE)) < NPHYS) :
    handlePageFault p va s = .ok ((), swappedIn u p ⟨x, ptx (va / PGSIZE)⟩ q) := by
  obtain ⟨entry, index, bound, -, page⟩ :=
    swapIn_finds rep inside user swapped table allocated quiet
  have inside' := rep.table_lt inside table
  unfold handlePageFault
  rw [read_bind, bind_of_ok (walk_of_table (rep.dir_lt inside) table)]
  dsimp only
  rw [bind_of_ok (loadWord_ok_iff.mpr ⟨inside', rfl, rfl⟩), ← pteOf_of_table table,
    if_neg (by rw [absent_of_swapped swapped]; decide)]
  exact swapIn_room allocated inside' page (by rw [entry]; exact small)
    (by rw [entry, index]; exact bound)

theorem swapIn_own_iff {g : Ghost} (rep : Rep g s) (inside : (s.ptable p).pgdir ∈ g.dirs)
    (user : va / PGSIZE < NUPAGE)
    (swapped : isSwapped (pteOf s.mem (s.ptable p).pgdir (va / PGSIZE)) = true)
    (quiet : ∀ {q u}, kalloc s = .ok (q, u) → Quiet g u.log) :
    OwnOnly s p va ↔ Uncounted s p va := by
  obtain ⟨x, table⟩ := table_of_pteOf (ne_zero_of_swapped swapped)
  constructor
  · rintro ⟨q, u, t, allocated, handled, one, counts, -⟩
    obtain ⟨y, table', ⟨present, -⟩ | ⟨-, fault⟩⟩ := handlePageFault_ok handled
    · rw [absent_of_swapped swapped] at present
      cases present
    rw [table] at table'
    cases table'
    obtain ⟨q', u', again, small, -, rfl⟩ := swapIn_ok fault
    rw [allocated] at again
    cases again
    obtain ⟨entry, index, -, zero, -⟩ := swapIn_finds rep inside user swapped table allocated
      (quiet allocated)
    obtain ⟨refcnt, -, events⟩ := @swappedIn_leaves ⟨x, ptx (va / PGSIZE)⟩ q u p
    dsimp only at small refcnt events
    rw [entry] at small
    rw [entry, index, zero] at refcnt
    have hit : (swappedIn u p ⟨x, ptx (va / PGSIZE)⟩ q).pageToRefcnt
        (ppn (pteOf s.mem (s.ptable p).pgdir (va / PGSIZE))) = 0 := by
      rw [refcnt, update_self]
    have other : ppn (pteOf s.mem (s.ptable p).pgdir (va / PGSIZE)) ≠ q := by
      intro here
      rw [here, one] at hit
      cases hit
    refine ⟨small, q, u, allocated, other, ?_⟩
    by_cases evicted :
      ∃ e, Evicted s u e ∧ e.frame = ppn (pteOf s.mem (s.ptable p).pgdir (va / PGSIZE))
    · exact Or.inr evicted
    · refine Or.inl ?_
      rw [← counts _ other, hit]
      intro e later here
      exact evicted ⟨e, (events s e (kalloc_calm _ _ _ allocated).log).mp later, here⟩
  · rintro ⟨small, q, u, allocated, other, unused⟩
    obtain ⟨entry, index, -, zero, -⟩ := swapIn_finds rep inside user swapped table allocated
      (quiet allocated)
    obtain ⟨one, counts, slots⟩ := kalloc_leaves allocated
    obtain ⟨refcnt, rest, events⟩ := @swappedIn_leaves ⟨x, ptx (va / PGSIZE)⟩ q u p
    dsimp only at refcnt rest events
    rw [entry, index] at refcnt rest
    rw [zero] at refcnt
    have older := (kalloc_calm _ _ _ allocated).log
    refine ⟨q, u, swappedIn u p ⟨x, ptx (va / PGSIZE)⟩ q, allocated,
      handlePageFault_swapped rep inside user swapped table allocated (quiet allocated) small, ?_,
      fun y apart spared => ?_, fun j apart spared => ?_⟩
    · rw [refcnt, update_of_ne (Ne.symm other)]
      exact one
    · rw [refcnt]
      by_cases here : y = ppn (pteOf s.mem (s.ptable p).pgdir (va / PGSIZE))
      · rw [here, update_self]
        rcases unused with nobody | ⟨e, evicted, frame⟩
        · exact nobody.symm
        · exact absurd (frame.trans here.symm) (spared e ((events s e older).mpr evicted))
      · rw [update_of_ne here]
        exact counts y apart (fun e evicted => spared e ((events s e older).mpr evicted))
    · rw [rest j apart]
      exact slots j (fun e evicted => spared e ((events s e older).mpr evicted))

theorem Sound.quiet_kalloc {loan : Set Nat} {g : Ghost} {q : Nat} (sound : Sound loan g s)
    (allocated : kalloc s = .ok (q, u)) (victims : ∀ e, Evicted s u e → e.live = true) :
    Quiet g u.log :=
  sound.quiet_after (kalloc_calm _ _ _ allocated).log victims

/-- In every state that clean steps reach, swap-in keeps to its own bookkeeping exactly if
the block number names no counted page. -/
theorem swap_in_own_bookkeeping (reachable : Reachable CleanStep s)
    (runs : (s.ptable p).canRun = true) (below : va < (s.ptable p).sz)
    (swapped : isSwapped (pteOf s.mem (s.ptable p).pgdir (va / PGSIZE)) = true)
    (victims : ∀ q u, kalloc s = .ok (q, u) → ∀ e, Evicted s u e → e.live = true) :
    OwnOnly s p va ↔ Uncounted s p va := by
  obtain ⟨loan, g, sound⟩ := reachable.sound
  have live := canRun_live runs
  exact swapIn_own_iff sound.settled.rep (sound.settled.inside live) (sound.settled.user live below)
    swapped (fun allocated => sound.quiet_kalloc allocated (victims _ _ allocated))

namespace Full

variable {d kstack n k : Nat} {f : Nat → Nat}

theorem isSwapped (full : Full d kstack f n k s) {v : Nat} (low : v < k) (bound : k ≤ NPAGE) :
    Xv6Cow.isSwapped (pteOf s.mem (s.ptable 0).pgdir v) = true ∧
      ppn (pteOf s.mem (s.ptable 0).pgdir v) = SWAPBASE + v * BPPAGE := by
  have pgdir : (s.ptable 0).pgdir = d := by rw [full.proc]
  rw [pgdir, full.swapped v low]
  have small : SWAPBASE + v * BPPAGE < NVPAGE := by
    rw [NPAGE_eq] at bound
    rw [SWAPBASE_eq, BPPAGE_eq, NVPAGE_eq]
    omega
  exact (swapEntry_word small).2

theorem canRun (full : Full d kstack f n k s) : (s.ptable 0).canRun = true ∧
    (s.ptable 0).sz = n * PGSIZE := by
  rw [full.proc]
  exact ⟨rfl, rfl⟩

theorem victims (full : Full d kstack f n k s) (small : n ≤ 1024) (more : k + 1 < n)
    (bound : k < NPAGE) {q : Nat} (allocated : Xv6Cow.kalloc s = .ok (q, u)) (e : Eviction)
    (evicted : Evicted s u e) : q = f k ∧ e.live = true ∧ e.frame = f k := by
  obtain ⟨x, t, -, taken, pressed⟩ := full.kalloc small more bound
  rw [allocated] at taken
  cases taken
  obtain ⟨mem, refcnt, disk, num, shape⟩ := pressed.shape
  unfold Evicted at evicted
  rw [shape] at evicted
  change _ ∈ since s.log (Event.evict _ :: s.log) at evicted
  rw [since_cons (List.suffix_refl _), since_self, List.mem_singleton] at evicted
  cases evicted
  exact ⟨rfl, full.live, (userWord_map (full.frames k (Nat.le_refl k) (by omega))).frame⟩

end Full

theorem swap_in_own_bookkeeping_first : ∃ s, (s.ptable 0).canRun = true ∧
    isSwapped (pteOf s.mem (s.ptable 0).pgdir 0) = true ∧ (OwnOnly s 0 0 ↔ Uncounted s 0 0) := by
  obtain ⟨d, kstack, f, s, full, -⟩ := full_more 1 (by decide)
  have swapped := (full.isSwapped (v := 0) (by decide) (by decide)).1
  refine ⟨s, full.canRun.1, swapped, ?_⟩
  refine swap_in_own_bookkeeping full.reachable full.canRun.1 (by rw [full.canRun.2]; decide)
    swapped ?_
  intro q u allocated e evicted
  exact (full.victims (by decide) (by decide) (by decide) allocated e evicted).2.1

/-- Page 35 is in slot 35, whose first block has number 282; so has the page of memory
behind page 719, and the count of that page is overwritten with 0. -/
theorem swap_in_breaks_count : ∃ s va, Reachable (Step fork) s ∧ (s.ptable 0).canRun = true ∧
    va < (s.ptable 0).sz ∧ isSwapped (pteOf s.mem (s.ptable 0).pgdir (va / PGSIZE)) = true ∧
    ¬ OwnOnly s 0 va := by
  obtain ⟨d, kstack, f, s, full, frames⟩ := full_more 36 (by decide)
  obtain ⟨g, sound⟩ := full.sound
  have page : 35 * PGSIZE / PGSIZE = 35 := by rw [PGSIZE_eq]
  obtain ⟨swapped, block⟩ := full.isSwapped (v := 35) (by decide) (by decide)
  have inside := full.inside sound
  have pgdir : (s.ptable 0).pgdir = d := by rw [full.proc]
  refine ⟨s, 35 * PGSIZE, full.reachable.any, full.canRun.1, ?_, ?_, ?_⟩
  · rw [full.canRun.2, PGSIZE_eq]
    decide
  · rw [page]
    exact swapped
  · rw [swapIn_own_iff sound.settled.rep (by rw [pgdir]; exact inside) (by rw [page]; decide)
      (by rw [page]; exact swapped) (fun allocated => sound.quiet_kalloc allocated (fun e evicted =>
        (full.victims (by decide) (by decide) (by decide) allocated e evicted).2.1))]
    rintro ⟨-, q, u, allocated, -, unused⟩
    rw [page, block] at unused
    have word := userWord_map (full.frames 719 (by decide) (by decide))
    have entry := full.present 719 (by decide) (by decide)
    have counted := Full.refcnt_alone sound.settled.rep inside (v := 719) (by decide)
      (by rw [entry]; exact word.present) (by rw [entry, word.writable]; decide)
    rw [entry, word.frame, frames 719 (by decide) (by decide)] at counted
    rcases unused with nobody | ⟨e, evicted, frame⟩
    · have same : SWAPBASE + 35 * BPPAGE = 1001 - 719 := rfl
      rw [same, counted] at nobody
      cases nobody
    · have gone := (full.victims (by decide) (by decide) (by decide) allocated e evicted).2.2
      rw [frame, frames 36 (by decide) (by decide)] at gone
      exact absurd gone (by decide)

end Xv6Cow
