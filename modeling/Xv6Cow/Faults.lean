import Xv6Cow.Copying

/- Page faults and user accesses. A fault leaves every address space as it was; it
only moves the page, to a private copy or back from its slot. -/
namespace Xv6Cow

open Function (update_self update_of_ne)
open Prog (bind_ok_iff read_bind pure_ok_iff)

variable {g h : Ghost} {s t : Kernel} {d v x : Nat} {p : Fin NPROC} {done : Unit}

/-- The same picture, but that a page may have been lost to the allocator. -/
def Forgets (g h : Ghost) : Prop := h = g ∨ ∃ q, h = g.leak q

theorem forgets_forgo (g : Ghost) (q n : Nat) : Forgets g (g.forgo q n) := by
  unfold Ghost.forgo
  split
  · exact Or.inr ⟨q, rfl⟩
  · exact Or.inl rfl

theorem Forgets.fields (forgets : Forgets g h) :
    h.dirs = g.dirs ∧ h.held = g.held ∧ h.reserved = g.reserved ∧ h.frozen = g.frozen ∧
      h.base = g.base ∧ h.leaving = g.leaving ∧ h.space = g.space := by
  rcases forgets with rfl | ⟨q, rfl⟩
  · exact ⟨rfl, rfl, rfl, rfl, rfl, rfl, rfl⟩
  · exact ⟨rfl, rfl, rfl, rfl, rfl, rfl, rfl⟩

/-- No eviction took the entry at `ptr`. -/
def Unevicted (s t : Kernel) (ptr : PtePtr) : Prop := ∀ e, Evicted s t e → e.ptr ≠ ptr

theorem Evolves.unevicted {dirs : Finset Nat} (evolves : Evolves dirs s t) (inside : d ∈ dirs)
    (user : v < NUPAGE) (table : tablePage s.mem d (pdx v) = some x)
    (unevicted : Unevicted s t ⟨x, ptx v⟩) : SameEntry (pteOf s.mem d v) (pteOf t.mem d v) := by
  rcases evolves.entry inside user with same | ⟨-, -, y, e, found, ptr, evicted⟩
  · exact same
  · rw [table] at found
    cases found
    exact absurd ptr (unevicted e evicted)

theorem Evolves.frames_still {dirs : Finset Nat} (evolves : Evolves dirs s t)
    (still : ∀ e, ¬ Evicted s t e) (q : Nat) : frames dirs t.mem q = frames dirs s.mem q := by
  apply RefCount.count_congr
  rintro ⟨e, u⟩ site
  obtain ⟨inside, user⟩ := mem_sites.mp site
  rcases evolves.entry inside user with same | ⟨-, -, y, event, -, -, evicted⟩
  · exact same.frame
  · exact absurd evicted (still event)

/-! ## cow_page -/

theorem cowWord {q : Nat} (small : q < NVPAGE) (w : Word) (present : has w PTE_P = true) :
    has (pageWord q ||| pteFlags w ||| PTE_W) PTE_P = true ∧
      has (pageWord q ||| pteFlags w ||| PTE_W) PTE_W = true ∧
      has (pageWord q ||| pteFlags w ||| PTE_W) PTE_U = has w PTE_U ∧
      ppn (pageWord q ||| pteFlags w ||| PTE_W) = q := by
  rw [has_P] at present
  refine ⟨?_, ?_, ?_, ?_⟩
  · simp only [has_P, BitVec.getLsbD_or, pteFlags_bit, present, Nat.reduceLT, decide_true,
      Bool.and_self, Bool.or_true, Bool.true_or]
  · simp only [has_W, BitVec.getLsbD_or]
    rw [show PTE_W.getLsbD 1 = true from rfl, Bool.or_true]
  · simp only [has_U, BitVec.getLsbD_or, pteFlags_bit, pageWord_low q 2 (by decide), Nat.reduceLT,
      decide_true, Bool.and_true, Bool.false_or]
    rw [show PTE_W.getLsbD 2 = false from rfl, Bool.or_false]
  · rw [ppn_or low_W, ppn_pageWord_or small (low_pteFlags w)]

/-- The state cow_page leaves, after a kalloc that returned `q` in state `u`. -/
def cowed (u : Kernel) (ptr : PtePtr) (q : Nat) : Kernel :=
  let w := u.mem ptr.page ptr.index
  { u with
    mem := setWord (Function.update u.mem q (u.mem (ppn w))) ptr
      (pageWord q ||| pteFlags w ||| PTE_W)
    pageToRefcnt := Function.update u.pageToRefcnt (ppn w) (u.pageToRefcnt (ppn w) - 1) }

theorem cowPage_ok {ptr : PtePtr} (success : cowPage ptr s = .ok (done, t)) :
    ∃ q u, kalloc s = .ok (q, u) ∧ t = cowed u ptr q := by
  unfold cowPage at success
  rw [bind_ok_iff] at success
  obtain ⟨q, u, allocated, rest⟩ := success
  rw [bind_ok_iff] at rest
  obtain ⟨w, u', loaded, rest⟩ := rest
  obtain ⟨-, rfl, same⟩ := loadWord_ok_iff.mp loaded
  subst u'
  rw [bind_ok_iff] at rest
  obtain ⟨count, u', counted, rest⟩ := rest
  obtain ⟨-, rfl, same⟩ := loadRefcnt_ok_iff.mp counted
  subst u'
  rw [bind_ok_iff] at rest
  obtain ⟨_, u1, lowered, rest⟩ := rest
  obtain ⟨-, rfl⟩ := storeRefcnt_ok_iff.mp lowered
  rw [bind_ok_iff] at rest
  obtain ⟨page, u2, copied, rest⟩ := rest
  obtain ⟨-, rfl, rfl⟩ := loadPage_ok_iff.mp copied
  rw [bind_ok_iff] at rest
  obtain ⟨_, u3, stored, rest⟩ := rest
  obtain ⟨-, rfl⟩ := storePage_ok_iff.mp stored
  obtain ⟨-, rfl⟩ := storeWord_ok_iff.mp rest
  exact ⟨q, u, allocated, rfl⟩

theorem cowPage_spec (rep : Rep g s) (inside : d ∈ g.dirs) (user : v < NUPAGE)
    (table : tablePage s.mem d (pdx v) = some x) (thawed : g.frozen ⟨x, ptx v⟩ = none)
    (present : has (pteOf s.mem d v) PTE_P = true)
    (success : cowPage ⟨x, ptx v⟩ s = .ok (done, t)) (quiet : Quiet g t.log)
    (unevicted : Unevicted s t ⟨x, ptx v⟩) :
    ∃ n, Rep (g.forgo (ppn (pteOf s.mem d v)) n) t ∧
      ((∀ e, ¬ Evicted s t e) → n = frames g.dirs s.mem (ppn (pteOf s.mem d v))) ∧
      tablePage t.mem d (pdx v) = some x ∧
      has (pteOf t.mem d v) PTE_P = true ∧ has (pteOf t.mem d v) PTE_W = true := by
  obtain ⟨q, u, allocated, rfl⟩ := cowPage_ok success
  obtain ⟨fresh, taken, evicts⟩ := kalloc_spec rep allocated quiet
  have similar := evicts.toEvolves.unevicted inside user table unevicted
  have table' : tablePage u.mem d (pdx v) = some x := evicts.table inside table
  have mapped : has (pteOf u.mem d v) PTE_P = true := similar.present.trans present
  obtain ⟨page, copied⟩ : ∃ page, page = u.mem (ppn (pteOf u.mem d v)) := ⟨_, rfl⟩
  obtain ⟨r, after⟩ : ∃ r : Kernel, r = { u with mem := Function.update u.mem q page } := ⟨_, rfl⟩
  have mem : r.mem = Function.update u.mem q page := by rw [after]
  have clean := taken.refill page
  rw [← after] at clean
  have held : (g.hold q page).held q = some page := update_self _ _ _
  have keeps : Keeps g u.mem r.mem := by
    rw [mem]
    exact Keeps.page u.mem _ fresh.1 (taken.layout.held_apart (update_self _ _ _)).2
  have entry := keeps.entry inside (user_lt user)
  have table'' := (keeps.table inside (pdx v)).trans table'
  have bytes : r.mem (ppn (pteOf u.mem d v)) = page := by
    rw [mem, copied]
    exact update_of_ne
      (taken.frame_ne_held (update_self _ _ _) inside user mapped) _ _
  obtain ⟨wordP, wordW, wordU, wordFrame⟩ := cowWord (clean.held_lt held) (pteOf u.mem d v) mapped
  have final := clean.cow (w := pageWord q ||| pteFlags (pteOf u.mem d v) ||| PTE_W)
    (by rw [held, entry, bytes]) inside user table'' thawed (by rw [entry]; exact mapped) wordP
    wordFrame
    (by rw [entry]; exact wordU)
  have result : cowed u ⟨x, ptx v⟩ q =
      { r with
        mem := setWord r.mem ⟨x, ptx v⟩ (pageWord q ||| pteFlags (pteOf u.mem d v) ||| PTE_W)
        pageToRefcnt := Function.update r.pageToRefcnt (ppn (pteOf u.mem d v))
          (r.pageToRefcnt (ppn (pteOf u.mem d v)) - 1) } := by
    subst after copied
    rw [pteOf_of_table table']
    rfl
  rw [entry, Ghost.drop_hold page fresh.2, ← result] at final
  have rewrites := clean.layout.rewrites (Keeps.refl _ r.mem) inside (user_lt user) table''
    (pageWord q ||| pteFlags (pteOf u.mem d v) ||| PTE_W)
  have now : pteOf (cowed u ⟨x, ptx v⟩ q).mem d v =
      pageWord q ||| pteFlags (pteOf u.mem d v) ||| PTE_W := by
    rw [result]
    exact rewrites.here
  rw [similar.ppn] at final
  refine ⟨_, final, fun still => ?_, ?_, ?_, ?_⟩
  · rw [show (g.hold q page).dirs = g.dirs from rfl, keeps.frames_eq,
      evicts.toEvolves.frames_still still]
  · rw [result]
    exact (rewrites.table inside _).trans table''
  · rw [now]
    exact wordP
  · rw [now]
    exact wordW

/-! ## Swap-in -/

/-- The state the swap-in branch leaves, after a kalloc that returned `q` in `u`. -/
def swappedIn (u : Kernel) (p : Fin NPROC) (ptr : PtePtr) (q : Nat) : Kernel :=
  let w := u.mem ptr.page ptr.index
  let i := swapIndex (ppn w)
  let r := setProc u p { u.ptable p with rss := (u.ptable p).rss + BitVec.ofNat 32 PGSIZE }
  { r with
    mem := setWord (Function.update u.mem q (diskPage u.disk (ppn w))) ptr
      (pageWord q ||| (u.swapSlots i).pagePerm ||| PTE_P)
    pageToRefcnt := Function.update u.pageToRefcnt (ppn w) (u.swapSlots i).refcntToDisk
    swapSlots := Function.update u.swapSlots i { u.swapSlots i with isFree := true }
    log := .swapRead (ppn w) :: u.log }

theorem swapIn_ok {ptr : PtePtr} (success : swapIn p ptr s = .ok (done, t)) :
    ∃ q u, kalloc s = .ok (q, u) ∧ ppn (u.mem ptr.page ptr.index) < NPHYS ∧
      swapIndex (ppn (u.mem ptr.page ptr.index)) < NPAGE ∧ t = swappedIn u p ptr q := by
  unfold swapIn at success
  rw [bind_ok_iff] at success
  obtain ⟨q, u, allocated, rest⟩ := success
  rw [bind_ok_iff] at rest
  obtain ⟨_, u1, counted, rest⟩ := rest
  obtain rfl := Prog.update_ok_iff.mp counted
  rw [bind_ok_iff] at rest
  obtain ⟨w, u2, loaded, rest⟩ := rest
  obtain ⟨-, rfl, rfl⟩ := loadWord_ok_iff.mp loaded
  rw [bind_ok_iff] at rest
  obtain ⟨_, u3, fetched, rest⟩ := rest
  unfold readPageFromSwap at fetched
  obtain ⟨-, fetched⟩ := Prog.refuse_ok_iff.mp fetched
  rw [read_bind, bind_ok_iff] at fetched
  obtain ⟨_, u4, stored, noted⟩ := fetched
  obtain ⟨-, rfl⟩ := storePage_ok_iff.mp stored
  obtain rfl := Prog.update_ok_iff.mp noted
  rw [bind_ok_iff] at rest
  obtain ⟨slot, u5, found, rest⟩ := rest
  obtain ⟨bound, rfl, rfl⟩ := loadSlot_ok_iff.mp found
  rw [bind_ok_iff] at rest
  obtain ⟨_, u6, stored, rest⟩ := rest
  obtain ⟨inside, rfl⟩ := storeRefcnt_ok_iff.mp stored
  rw [bind_ok_iff] at rest
  obtain ⟨_, u7, stored, rest⟩ := rest
  obtain ⟨-, rfl⟩ := storeWord_ok_iff.mp stored
  obtain ⟨-, rfl⟩ := storeSlot_ok_iff.mp rest
  exact ⟨q, u, allocated, inside, bound, rfl⟩

theorem kalloc_slot {i q : Nat} {u : Kernel} (success : kalloc s = .ok (q, u))
    (busy : (s.swapSlots i).isFree = false) : u.swapSlots i = s.swapSlots i := by
  revert busy
  refine kalloc_induction (motive := fun s _ u =>
    (s.swapSlots i).isFree = false → u.swapSlots i = s.swapSlots i) ?_ ?_ success
  · intro s q rest _ _
    rfl
  · intro s u q r _ evicted _ ih busy
    have same : u.swapSlots i = s.swapSlots i := by
      obtain ⟨job, w, _, reserve, rfl, -, -, -, -, rfl⟩ := swapOut_ok evicted
      obtain ⟨w', chosen, found, -, -, -, -, rfl⟩ := swapReserve_ok reserve
      obtain ⟨mem, ptable, rfl⟩ := finalPage_memProc chosen
      have other : i ≠ job.slot := by
        rintro rfl
        rw [(firstFree_some found).2] at busy
        cases busy
      simp only [swapFinished, kfreed_swapSlots, written, reserved, update_of_ne other]
    rw [ih (by rw [same]; exact busy), same]

/-- The count that swap-in stores at the block number hits no page in use. -/
def Harmless (s : Kernel) (blockno : Nat) : Prop :=
  blockno < firstPage ∨ blockno ∈ s.freelist.tail

theorem Harmless.unused {q b : Nat} {u : Kernel} (harmless : Harmless s b)
    (allocated : kalloc s = .ok (q, u)) (taken : Rep h u) (pooled : b ∈ h.pool) :
    uses h u.mem b = 0 := by
  rcases harmless with low | free
  · exact absurd low (Nat.not_lt.mpr (taken.layout.pool_bounds b pooled).1)
  · cases list : s.freelist with
    | nil =>
      rw [list] at free
      cases free
    | cons head rest =>
      rw [kalloc_cons list] at allocated
      cases allocated
      rw [list] at free
      exact ((taken.exact.mem_free b).mp free).2

theorem absent_of_swapped {w : Word} (swapped : isSwapped w = true) : has w PTE_P = false := by
  unfold isSwapped at swapped
  simp only [Bool.and_eq_true, Bool.not_eq_true'] at swapped
  exact swapped.1

theorem swapIn_spec (rep : Rep g s) (inside : d ∈ g.dirs) (user : v < NUPAGE)
    (table : tablePage s.mem d (pdx v) = some x)
    (swapped : isSwapped (pteOf s.mem d v) = true)
    (harmless : Harmless s (ppn (pteOf s.mem d v)))
    (success : swapIn p ⟨x, ptx v⟩ s = .ok (done, t)) (quiet : Quiet g t.log) :
    Rep g t ∧ tablePage t.mem d (pdx v) = some x ∧ ∃ q, q < NVPAGE ∧ pteOf t.mem d v =
      pageWord q ||| (s.swapSlots (slotOf (pteOf s.mem d v))).pagePerm ||| PTE_P := by
  obtain ⟨q, u, allocated, -, -, rfl⟩ := swapIn_ok success
  have calm := kalloc_calm _ _ _ allocated
  obtain ⟨fresh, taken, evicts⟩ := kalloc_spec rep allocated
    (quiet.mono (rep.base.trans calm.log) (List.suffix_cons _ _))
  obtain ⟨bound, named, evictable⟩ := rep.slots.slot inside user swapped
  have thawed := rep.layout.thawed_of_absent table (absent_of_swapped swapped)
  have similar := evicts.stays_swapped inside user swapped
  have slot := kalloc_slot allocated (rep.slots.busy inside user swapped bound named).1
  obtain ⟨i, index⟩ : ∃ i, i = slotOf (pteOf s.mem d v) := ⟨_, rfl⟩
  rw [← index] at bound named evictable slot ⊢
  have swapped' : isSwapped (pteOf u.mem d v) = true := similar.swapped.trans swapped
  have named' : ppn (pteOf u.mem d v) = SWAPBASE + i * BPPAGE := similar.ppn.trans named
  have table' : tablePage u.mem d (pdx v) = some x := evicts.table inside table
  obtain ⟨page, fetched⟩ : ∃ page, page = diskPage u.disk (ppn (pteOf u.mem d v)) := ⟨_, rfl⟩
  -- The state just before the last three stores.
  obtain ⟨r, after⟩ : ∃ r : Kernel, r =
      { setProc { u with mem := Function.update u.mem q page } p
          { u.ptable p with rss := (u.ptable p).rss + BitVec.ofNat 32 PGSIZE } with
        log := .swapRead (ppn (pteOf u.mem d v)) :: u.log } := ⟨_, rfl⟩
  have mem : r.mem = Function.update u.mem q page := by rw [after]; rfl
  have clean := taken.refill page
  have ready := (clean.setRss p ((u.ptable p).rss + BitVec.ofNat 32 PGSIZE)).noteRead
    (ppn (pteOf u.mem d v))
  replace ready : Rep (g.hold q page) r := by rw [after]; exact ready
  have held : (g.hold q page).held q = some page := update_self _ _ _
  have keeps : Keeps g u.mem r.mem := by
    rw [mem]
    exact Keeps.page u.mem _ fresh.1 (taken.layout.held_apart (update_self _ _ _)).2
  have entry := keeps.entry inside (user_lt user)
  have table'' := (keeps.table inside (pdx v)).trans table'
  have slots : r.swapSlots = u.swapSlots := by rw [after]; rfl
  have disk : r.disk = u.disk := by rw [after]; rfl
  have word := mapWord (ready.held_lt held) evictable.low
  have final := ready.swapIn (i := i)
    (w := pageWord q ||| (s.swapSlots i).pagePerm ||| PTE_P)
    (by rw [held, entry, disk, fetched]) inside user table'' thawed
    (by rw [entry]; exact swapped') bound
    (by rw [entry]; exact named')
    (by
      intro pooled
      rw [entry, similar.ppn] at pooled ⊢
      have same := (Keeps.page (g := g.hold q (u.mem q)) u.mem page fresh.1
        (taken.layout.held_apart (update_self _ _ _)).2).uses_eq (ppn (pteOf s.mem d v))
      rw [mem]
      rw [← same.trans (harmless.unused allocated taken pooled)]
      refine uses_eq rfl ?_
      rw [mem_pins_hold, mem_pins_hold])
    word.present word.frame (by rw [slots, slot]; exact word.user) (s.swapSlots i).refcntToDisk
  have result : swappedIn u p ⟨x, ptx v⟩ q =
      { r with
        mem := setWord r.mem ⟨x, ptx v⟩ (pageWord q ||| (s.swapSlots i).pagePerm ||| PTE_P)
        pageToRefcnt := Function.update r.pageToRefcnt (ppn (pteOf u.mem d v))
          (s.swapSlots i).refcntToDisk
        swapSlots := Function.update r.swapSlots i { r.swapSlots i with isFree := true } } := by
    have number : swapIndex (ppn (pteOf u.mem d v)) = i := by rw [named', swapIndex_block bound]
    subst after fetched
    unfold swappedIn
    dsimp only
    rw [show u.mem x (ptx v) = pteOf u.mem d v from (pteOf_of_table table').symm, number, ← slot]
    rfl
  rw [entry, Ghost.drop_hold page fresh.2, ← result] at final
  have rewrites := ready.layout.rewrites (Keeps.refl _ r.mem) inside (user_lt user) table''
    (pageWord q ||| (s.swapSlots i).pagePerm ||| PTE_P)
  refine ⟨final, ?_, q, ready.held_lt held, ?_⟩
  · rw [result]
    exact (rewrites.table inside _).trans table''
  · rw [result]
    exact rewrites.here

/-! ## handle_page_fault -/

theorem Rep.presentFault_spec (rep : Rep g s) (inside : d ∈ g.dirs) (user : v < NUPAGE)
    (table : tablePage s.mem d (pdx v) = some x) (thawed : g.frozen ⟨x, ptx v⟩ = none)
    (present : has (pteOf s.mem d v) PTE_P = true)
    (success : presentFault ⟨x, ptx v⟩ (pteOf s.mem d v) s = .ok (done, t))
    (quiet : Quiet g t.log) (unevicted : Unevicted s t ⟨x, ptx v⟩) :
    ∃ h, Forgets g h ∧ ((∀ e, ¬ Evicted s t e) → h = g) ∧ Rep h t ∧
      tablePage t.mem d (pdx v) = some x ∧
      has (pteOf t.mem d v) PTE_P = true ∧ has (pteOf t.mem d v) PTE_W = true := by
  have counted := rep.kfreed_frame inside user present
  have positive := frames_pos inside user (frameOf_present present)
  unfold presentFault at success
  rw [bind_ok_iff] at success
  obtain ⟨count, s', loaded, rest⟩ := success
  obtain ⟨-, rfl, same⟩ := loadRefcnt_ok_iff.mp loaded
  subst s'
  rw [counted, Prog.ite_apply] at rest
  split at rest
  · rename_i several
    obtain ⟨n, rep', steady, table', present', writable⟩ := cowPage_spec rep inside user table
      thawed present rest quiet unevicted
    refine ⟨_, forgets_forgo g _ n, fun still => ?_, rep', table', present', writable⟩
    unfold Ghost.forgo
    rw [if_neg]
    rw [steady still]
    omega
  · rename_i single
    obtain ⟨-, rfl⟩ := storeWord_ok_iff.mp rest
    have kept : has (pteOf s.mem d v ||| PTE_W) PTE_P = true := by
      rw [has_P] at present
      rw [has_P, BitVec.getLsbD_or, present, Bool.true_or]
    have access : has (pteOf s.mem d v ||| PTE_W) PTE_U = has (pteOf s.mem d v) PTE_U := by
      rw [has_U, has_U, BitVec.getLsbD_or, show PTE_W.getLsbD 2 = false from rfl, Bool.or_false]
    have frame : ppn (pteOf s.mem d v ||| PTE_W) = ppn (pteOf s.mem d v) := ppn_or low_W
    have rewrites := rep.layout.rewrites (Keeps.refl g s.mem) inside (user_lt user) table
      (pteOf s.mem d v ||| PTE_W)
    have again := rep.reflag inside user table (Ghost.stable thawed) present kept frame
      (fun _ => by rw [frame]; omega)
    rw [Ghost.setSpace_self (by rw [rep.space_present inside user present, access, frame])] at again
    refine ⟨g, Or.inl rfl, fun _ => rfl, again, (rewrites.table inside _).trans table, ?_, ?_⟩
    · change has (pteOf (setWord s.mem _ _) d v) PTE_P = true
      rw [rewrites.here]
      exact kept
    · change has (pteOf (setWord s.mem _ _) d v) PTE_W = true
      rw [rewrites.here, has_W, BitVec.getLsbD_or, show PTE_W.getLsbD 1 = true from rfl,
        Bool.or_true]

theorem handlePageFault_ok {va : Nat} (success : handlePageFault p va s = .ok (done, t)) :
    ∃ x, tablePage s.mem (s.ptable p).pgdir (pdx (va / PGSIZE)) = some x ∧
      ((has (pteOf s.mem (s.ptable p).pgdir (va / PGSIZE)) PTE_P = true ∧
        presentFault ⟨x, ptx (va / PGSIZE)⟩ (pteOf s.mem (s.ptable p).pgdir (va / PGSIZE)) s =
          .ok (done, t)) ∨
       (has (pteOf s.mem (s.ptable p).pgdir (va / PGSIZE)) PTE_P = false ∧
        swapIn p ⟨x, ptx (va / PGSIZE)⟩ s = .ok (done, t))) := by
  unfold handlePageFault at success
  rw [read_bind] at success
  rcases walk_cases success with ⟨-, stopped⟩ | ⟨x, table, rest⟩
  · exact (Prog.halt_ok_iff.mp stopped).elim
  · replace rest := entry_loaded table rest
    rw [Prog.ite_apply] at rest
    refine ⟨x, table, ?_⟩
    split at rest
    · rename_i present
      exact Or.inl ⟨present, rest⟩
    · rename_i absent
      exact Or.inr ⟨Bool.eq_false_iff.mpr absent, rest⟩

/-- What a fault on page `v` of the process needs in order to be handled well: the
entry is not evicted on the way, and if it is swapped it names a block whose
number is no page in use. -/
structure FaultFine (s t : Kernel) (d v : Nat) : Prop where
  unevicted : ∀ x, tablePage s.mem d (pdx v) = some x → Unevicted s t ⟨x, ptx v⟩
  swapped : isSwapped (pteOf s.mem d v) = true → Harmless s (ppn (pteOf s.mem d v))

theorem handlePageFault_spec {va : Nat} (rep : Rep g s) (inside : (s.ptable p).pgdir ∈ g.dirs)
    (user : va / PGSIZE < NUPAGE) (thawed : g.Thawed s.mem (s.ptable p).pgdir (va / PGSIZE))
    (mapped : pteOf s.mem (s.ptable p).pgdir (va / PGSIZE) ≠ 0#32)
    (success : handlePageFault p va s = .ok (done, t)) (quiet : Quiet g t.log)
    (fine : FaultFine s t (s.ptable p).pgdir (va / PGSIZE)) :
    ∃ h, Forgets g h ∧ ((∀ e, ¬ Evicted s t e) → h = g) ∧ Rep h t ∧
      has (pteOf t.mem (s.ptable p).pgdir (va / PGSIZE)) PTE_P = true ∧
      (has (pteOf s.mem (s.ptable p).pgdir (va / PGSIZE)) PTE_P = true →
        has (pteOf t.mem (s.ptable p).pgdir (va / PGSIZE)) PTE_W = true) := by
  obtain ⟨x, table, ⟨present, handled⟩ | ⟨absent, handled⟩⟩ := handlePageFault_ok success
  · obtain ⟨h, forgets, still, rep', -, present', writable⟩ := rep.presentFault_spec inside user
      table (thawed x table) present handled quiet (fine.unevicted x table)
    exact ⟨h, forgets, still, rep', present', fun _ => writable⟩
  · have swapped : isSwapped (pteOf s.mem (s.ptable p).pgdir (va / PGSIZE)) = true := by
      by_contra plain
      exact mapped (rep.entries.shape inside user absent (Bool.eq_false_iff.mpr plain))
    obtain ⟨rep', -, q, small, word⟩ := swapIn_spec rep inside user table swapped
      (fine.swapped swapped) handled quiet
    refine ⟨g, Or.inl rfl, fun _ => rfl, rep', ?_, fun present => ?_⟩
    · rw [word]
      exact has_or_P _
    · rw [absent] at present
      cases present

/-! ## User accesses -/

theorem sameEntry_accessed (w : Word) : SameEntry w (w ||| PTE_A) := by
  unfold SameEntry
  rw [BitVec.or_assoc, BitVec.or_self]

/-- A flag outside P, W and U, set by the paging hardware. -/
structure Mark (f : Word) : Prop where
  low : Low f
  present : f.getLsbD 0 = false
  writable : f.getLsbD 1 = false
  user : f.getLsbD 2 = false

theorem Mark.flags {f : Word} (mark : Mark f) (w : Word) :
    has (w ||| f) PTE_P = has w PTE_P ∧ has (w ||| f) PTE_W = has w PTE_W ∧
      has (w ||| f) PTE_U = has w PTE_U ∧ ppn (w ||| f) = ppn w := by
  simp only [has_P, has_W, has_U, BitVec.getLsbD_or, mark.present, mark.writable, mark.user,
    Bool.or_false, ppn_or mark.low, and_self]

theorem Rep.mark {f : Word} (rep : Rep g s) (inside : d ∈ g.dirs) (user : v < NUPAGE)
    (table : tablePage s.mem d (pdx v) = some x)
    (stable : ∀ z, g.frozen ⟨x, ptx v⟩ = some z →
      SameEntry (pteOf s.mem d v) (pteOf s.mem d v ||| f))
    (present : has (pteOf s.mem d v) PTE_P = true) (mark : Mark f) :
    Rep g { s with mem := setWord s.mem ⟨x, ptx v⟩ (pteOf s.mem d v ||| f) } := by
  obtain ⟨markP, markW, markU, markFrame⟩ := mark.flags (pteOf s.mem d v)
  have again := rep.reflag inside user table stable present (markP.trans present) markFrame
    (fun writable => by
      rw [markFrame]
      exact rep.entries.exclusive inside user present (markW.symm.trans writable))
  rwa [Ghost.setSpace_self
    (by rw [rep.space_present inside user present, markU, markFrame])] at again

theorem Rep.storeMarked {f : Word} (rep : Rep g s) (inside : d ∈ g.dirs) (user : v < NUPAGE)
    (table : tablePage s.mem d (pdx v) = some x) (thawed : g.frozen ⟨x, ptx v⟩ = none)
    (present : has (pteOf s.mem d v) PTE_P = true) (writable : has (pteOf s.mem d v) PTE_W = true)
    (mark : Mark f) (page : Page) :
    Rep (g.setSpace d v (some (has (pteOf s.mem d v) PTE_U, page)))
      { s with
        mem := Function.update (setWord s.mem ⟨x, ptx v⟩ (pteOf s.mem d v ||| f))
          (ppn (pteOf s.mem d v)) page } := by
  obtain ⟨markP, markW, markU, markFrame⟩ := mark.flags (pteOf s.mem d v)
  have marked := rep.mark inside user table (Ghost.stable thawed) present mark
  obtain ⟨r, after⟩ : ∃ r : Kernel, r =
    { s with mem := setWord s.mem ⟨x, ptx v⟩ (pteOf s.mem d v ||| f) } := ⟨_, rfl⟩
  have entry : pteOf r.mem d v = pteOf s.mem d v ||| f := by
    rw [after]
    exact (rep.layout.rewrites (Keeps.refl g s.mem) inside (user_lt user) table _).here
  rw [← after] at marked
  have present' : has (pteOf r.mem d v) PTE_P = true := by rw [entry, markP, present]
  have writable' : has (pteOf r.mem d v) PTE_W = true := by rw [entry, markW, writable]
  have final := marked.store inside user present'
    (marked.entries.exclusive inside user present' writable') page
  rw [entry, markU, markFrame, after] at final
  exact final

/-- What the hardware demands of the entry for a load. -/
def accessible (w : Word) : Bool := has w PTE_P && has w PTE_U

/-- What it demands for a store. -/
def writable (w : Word) : Bool := has w PTE_P && has w PTE_U && has w PTE_W

theorem userLoad_ok {va : Nat} {out : Option Byte} (success : userLoad p va s = .ok (out, t)) :
    let w := pteOf s.mem (s.ptable p).pgdir (va / PGSIZE)
    (accessible w = false ∧ out = none ∧ t = s) ∨
      (accessible w = true ∧ ∃ x,
        tablePage s.mem (s.ptable p).pgdir (pdx (va / PGSIZE)) = some x ∧
        t = { s with mem := setWord s.mem ⟨x, ptx (va / PGSIZE)⟩ (w ||| PTE_A) } ∧
        out = some ((t.mem (ppn w)).byte (va % PGSIZE))) := by
  unfold userLoad at success
  rw [read_bind] at success
  rcases walk_cases success with ⟨absent, rest⟩ | ⟨x, table, rest⟩
  · obtain ⟨rfl, rfl⟩ := pure_ok_iff.mp rest
    refine Or.inl ⟨?_, rfl, rfl⟩
    rw [pteOf_of_none absent]
    decide
  · replace rest := entry_loaded table rest
    rw [Prog.ite_apply] at rest
    split at rest
    · rename_i allowed
      rw [bind_ok_iff] at rest
      obtain ⟨_, u, marked, rest⟩ := rest
      obtain ⟨-, rfl⟩ := storeWord_ok_iff.mp marked
      rw [bind_ok_iff] at rest
      obtain ⟨page, u, loaded, rest⟩ := rest
      obtain ⟨-, rfl, rfl⟩ := loadPage_ok_iff.mp loaded
      obtain ⟨rfl, rfl⟩ := pure_ok_iff.mp rest
      exact Or.inr ⟨allowed, x, table, rfl, rfl⟩
    · rename_i refused
      obtain ⟨rfl, rfl⟩ := pure_ok_iff.mp rest
      exact Or.inl ⟨Bool.eq_false_iff.mpr refused, rfl, rfl⟩

theorem userStore_ok {va : Nat} {b : Byte} {out : Bool}
    (success : userStore p va b s = .ok (out, t)) :
    let w := pteOf s.mem (s.ptable p).pgdir (va / PGSIZE)
    (writable w = false ∧ out = false ∧ t = s) ∨
      (writable w = true ∧ out = true ∧ ∃ x,
        tablePage s.mem (s.ptable p).pgdir (pdx (va / PGSIZE)) = some x ∧
        t = { s with
          mem := Function.update
            (setWord s.mem ⟨x, ptx (va / PGSIZE)⟩ (w ||| (PTE_A ||| PTE_D))) (ppn w)
            ((setWord s.mem ⟨x, ptx (va / PGSIZE)⟩ (w ||| (PTE_A ||| PTE_D)) (ppn w)).setByte
              (va % PGSIZE) b) }) := by
  unfold userStore at success
  rw [read_bind] at success
  rcases walk_cases success with ⟨absent, rest⟩ | ⟨x, table, rest⟩
  · obtain ⟨rfl, rfl⟩ := pure_ok_iff.mp rest
    refine Or.inl ⟨?_, rfl, rfl⟩
    rw [pteOf_of_none absent]
    decide
  · replace rest := entry_loaded table rest
    rw [Prog.ite_apply] at rest
    split at rest
    · rename_i allowed
      rw [bind_ok_iff] at rest
      obtain ⟨_, u, marked, rest⟩ := rest
      obtain ⟨-, rfl⟩ := storeWord_ok_iff.mp marked
      rw [bind_ok_iff] at rest
      obtain ⟨page, u, loaded, rest⟩ := rest
      obtain ⟨-, rfl, same⟩ := loadPage_ok_iff.mp loaded
      subst u
      rw [bind_ok_iff] at rest
      obtain ⟨_, u, stored, rest⟩ := rest
      obtain ⟨-, rfl⟩ := storePage_ok_iff.mp stored
      obtain ⟨rfl, rfl⟩ := pure_ok_iff.mp rest
      exact Or.inr ⟨allowed, rfl, x, table, rfl⟩
    · rename_i refused
      obtain ⟨rfl, rfl⟩ := pure_ok_iff.mp rest
      exact Or.inl ⟨Bool.eq_false_iff.mpr refused, rfl, rfl⟩

section Access

variable {va : Nat} (rep : Rep g s) (inside : (s.ptable p).pgdir ∈ g.dirs)
  (user : va / PGSIZE < NUPAGE)
include rep inside user

theorem userLoad_spec {out : Option Byte} (success : userLoad p va s = .ok (out, t)) :
    (accessible (pteOf s.mem (s.ptable p).pgdir (va / PGSIZE)) = false ∧ out = none ∧ t = s) ∨
      (Rep g t ∧ ∃ page, g.space (s.ptable p).pgdir (va / PGSIZE) = some (true, page) ∧
        out = some (page.byte (va % PGSIZE))) := by
  rcases userLoad_ok success with refused | ⟨allowed, x, table, rfl, rfl⟩
  · exact Or.inl refused
  · unfold accessible at allowed
    rw [Bool.and_eq_true] at allowed
    refine Or.inr ⟨rep.mark inside user table (fun _ _ => sameEntry_accessed _) allowed.1
        ⟨low_A, rfl, rfl, rfl⟩,
      s.mem (ppn (pteOf s.mem (s.ptable p).pgdir (va / PGSIZE))), ?_, ?_⟩
    · rw [rep.space_present inside user allowed.1, allowed.2]
    · congr 2
      exact setWord_of_ne (rep.frame_ne_table inside table inside user allowed.1)

theorem userStore_spec {b : Byte} {out : Bool}
    (thawed : g.Thawed s.mem (s.ptable p).pgdir (va / PGSIZE))
    (success : userStore p va b s = .ok (out, t)) :
    (writable (pteOf s.mem (s.ptable p).pgdir (va / PGSIZE)) = false ∧ out = false ∧ t = s) ∨
      (out = true ∧ ∃ page, g.space (s.ptable p).pgdir (va / PGSIZE) = some (true, page) ∧
        Rep (g.setSpace (s.ptable p).pgdir (va / PGSIZE)
          (some (true, page.setByte (va % PGSIZE) b))) t) := by
  rcases userStore_ok success with refused | ⟨allowed, rfl, x, table, rfl⟩
  · exact Or.inl refused
  · unfold writable at allowed
    simp only [Bool.and_eq_true] at allowed
    obtain ⟨⟨present, access⟩, write⟩ := allowed
    refine Or.inr ⟨rfl, s.mem (ppn (pteOf s.mem (s.ptable p).pgdir (va / PGSIZE))), ?_, ?_⟩
    · rw [rep.space_present inside user present, access]
    · rw [setWord_of_ne (rep.frame_ne_table inside table inside user present), ← access]
      exact rep.storeMarked inside user table (thawed x table) present write
        ⟨by decide, rfl, rfl, rfl⟩ _

/-- A legal access is to a page that is there or can be fetched. -/
def Legal (s : Kernel) (p : Fin NPROC) (va : Nat) : Prop :=
  accessible (pteOf s.mem (s.ptable p).pgdir (va / PGSIZE)) = true ∨
    isSwapped (pteOf s.mem (s.ptable p).pgdir (va / PGSIZE)) = true

theorem swappedIn_accessible {u : Kernel}
    (swapped : isSwapped (pteOf s.mem (s.ptable p).pgdir (va / PGSIZE)) = true)
    (again : Rep g u)
    (present : has (pteOf u.mem (s.ptable p).pgdir (va / PGSIZE)) PTE_P = true) :
    accessible (pteOf u.mem (s.ptable p).pgdir (va / PGSIZE)) = true := by
  have before := rep.space inside user
  have after := again.space inside user
  rw [spaceOf, pageAt_swapped swapped] at before
  rw [spaceOf, pageAt_present present, ← before] at after
  have access := (Prod.mk.inj (Option.some.inj after)).1
  rw [(rep.slots.slot inside user swapped).2.2.user] at access
  rw [accessible, present, access]
  rfl

theorem userRead_spec {out : Option Byte} (legal : Legal s p va)
    (success : userRead p va s = .ok (out, t)) (quiet : Quiet g t.log)
    (fine : FaultFine s t (s.ptable p).pgdir (va / PGSIZE)) :
    Rep g t ∧ ∃ page, g.space (s.ptable p).pgdir (va / PGSIZE) = some (true, page) ∧
      out = some (page.byte (va % PGSIZE)) := by
  unfold userRead at success
  rw [bind_ok_iff] at success
  obtain ⟨first, u, tried, rest⟩ := success
  rcases userLoad_spec rep inside user tried with ⟨refused, rfl, same⟩ | ⟨rep', page, space, rfl⟩
  · subst u
    dsimp only at rest
    rw [bind_ok_iff] at rest
    obtain ⟨_, u, handled, again⟩ := rest
    have swapped := legal.resolve_left (by rw [refused]; exact Bool.false_ne_true)
    have calm := handlePageFault_calm _ _ _ _ _ handled
    have newer := (userLoad_calm _ _ _ _ _ again).log
    obtain ⟨x, table, ⟨present, -⟩ | ⟨-, fetched⟩⟩ := handlePageFault_ok handled
    · rw [isSwapped_of_present present] at swapped
      cases swapped
    · obtain ⟨rep', -, q, -, word⟩ := swapIn_spec rep inside user table swapped
        (fine.swapped swapped) fetched (quiet.mono (rep.base.trans calm.log) newer)
      have access := swappedIn_accessible rep inside user swapped rep'
        (by rw [word]; exact has_or_P _)
      have pgdir := calm.pgdir p
      rw [← pgdir] at inside access ⊢
      rcases userLoad_spec rep' inside user again with ⟨refused, -⟩ | done
      · rw [access] at refused
        cases refused
      · exact done
  · dsimp only at rest
    obtain ⟨rfl, rfl⟩ := pure_ok_iff.mp rest
    exact ⟨rep', page, space, rfl⟩

theorem faultStore_present {b : Byte} {out : Bool}
    (thawed : g.Thawed s.mem (s.ptable p).pgdir (va / PGSIZE))
    (access : accessible (pteOf s.mem (s.ptable p).pgdir (va / PGSIZE)) = true)
    (success : faultStore p va b s = .ok (out, t)) (quiet : Quiet g t.log)
    (unevicted : ∀ x, tablePage s.mem (s.ptable p).pgdir (pdx (va / PGSIZE)) = some x →
      Unevicted s t ⟨x, ptx (va / PGSIZE)⟩) :
    out = true ∧ ∃ h page, Forgets g h ∧ ((∀ e, ¬ Evicted s t e) → h = g) ∧
      g.space (s.ptable p).pgdir (va / PGSIZE) = some (true, page) ∧
      Rep (h.setSpace (s.ptable p).pgdir (va / PGSIZE)
        (some (true, page.setByte (va % PGSIZE) b))) t := by
  unfold faultStore at success
  rw [bind_ok_iff] at success
  obtain ⟨_, u, handled, again⟩ := success
  have calm := handlePageFault_calm _ _ _ _ _ handled
  have newer := (userStore_calm _ _ _ _ _ _ again).log
  unfold accessible at access
  rw [Bool.and_eq_true] at access
  obtain ⟨x, table, ⟨present, treated⟩ | ⟨absent, -⟩⟩ := handlePageFault_ok handled
  · obtain ⟨h, forgets, still, rep', table', present', write⟩ := rep.presentFault_spec inside user
      table (thawed x table) present treated (quiet.mono (rep.base.trans calm.log) newer)
      (fun e evicted => unevicted x table e (evicted.after calm.log newer))
    obtain ⟨dirs, -, -, frozen, -, -, space⟩ := forgets.fields
    have inside' : (u.ptable p).pgdir ∈ h.dirs := by
      rw [calm.pgdir, dirs]
      exact inside
    have thawed' : h.Thawed u.mem (u.ptable p).pgdir (va / PGSIZE) := by
      intro y found
      rw [calm.pgdir, table'] at found
      cases found
      rw [frozen]
      exact thawed x table
    have outcome := userStore_spec rep' inside' user thawed' again
    rw [calm.pgdir, space] at outcome
    rcases outcome with ⟨refused, -⟩ | ⟨rfl, page, found, final⟩
    · have same := (rep'.space (dirs ▸ inside) user).trans (congrFun (congrFun space _) _)
      rw [rep.space_present inside user present, spaceOf, pageAt_present present'] at same
      have bit := (Prod.mk.inj (Option.some.inj same)).1
      rw [access.2] at bit
      rw [writable, present', bit, write] at refused
      cases refused
    · exact ⟨rfl, h, page, forgets, fun none => still (fun e evicted =>
        none e (evicted.after calm.log newer)), found, final⟩
  · rw [access.1] at absent
    cases absent

/-- The store after a page has come back from its slot: it succeeds, or the page is
accessible and only wants another fault. -/
theorem faultStore_swapped {b : Byte} {out : Bool}
    (swapped : isSwapped (pteOf s.mem (s.ptable p).pgdir (va / PGSIZE)) = true)
    (success : faultStore p va b s = .ok (out, t)) (quiet : Quiet g t.log)
    (harmless : Harmless s (ppn (pteOf s.mem (s.ptable p).pgdir (va / PGSIZE)))) :
    (out = true ∧ ∃ page, g.space (s.ptable p).pgdir (va / PGSIZE) = some (true, page) ∧
      Rep (g.setSpace (s.ptable p).pgdir (va / PGSIZE)
        (some (true, page.setByte (va % PGSIZE) b))) t) ∨
    (out = false ∧ Rep g t ∧
      accessible (pteOf t.mem (s.ptable p).pgdir (va / PGSIZE)) = true ∧
      tablePage t.mem (s.ptable p).pgdir (pdx (va / PGSIZE)) =
        tablePage s.mem (s.ptable p).pgdir (pdx (va / PGSIZE))) := by
  unfold faultStore at success
  rw [bind_ok_iff] at success
  obtain ⟨_, u, handled, again⟩ := success
  have calm := handlePageFault_calm _ _ _ _ _ handled
  have newer := (userStore_calm _ _ _ _ _ _ again).log
  obtain ⟨x, table, ⟨present, -⟩ | ⟨-, fetched⟩⟩ := handlePageFault_ok handled
  · rw [isSwapped_of_present present] at swapped
    cases swapped
  · obtain ⟨rep', table', q, -, word⟩ := swapIn_spec rep inside user table swapped harmless
      fetched (quiet.mono (rep.base.trans calm.log) newer)
    have access :=
      swappedIn_accessible rep inside user swapped rep' (by rw [word]; exact has_or_P _)
    have thawed : g.Thawed u.mem (u.ptable p).pgdir (va / PGSIZE) := by
      intro y found
      rw [calm.pgdir, table'] at found
      cases found
      exact rep.layout.thawed_of_absent table (absent_of_swapped swapped)
    have outcome := userStore_spec rep' (by rw [calm.pgdir]; exact inside) user thawed again
    rw [calm.pgdir] at outcome
    rcases outcome with ⟨-, rfl, same⟩ | done
    · subst t
      exact Or.inr ⟨rfl, rep', access, table'.trans table.symm⟩
    · exact Or.inl done

theorem userWrite_spec {b : Byte} {out : Bool}
    (thawed : g.Thawed s.mem (s.ptable p).pgdir (va / PGSIZE)) (legal : Legal s p va)
    (success : userWrite p va b s = .ok (out, t)) (quiet : Quiet g t.log)
    (fine : FaultFine s t (s.ptable p).pgdir (va / PGSIZE)) :
    out = true ∧ ∃ h page, Forgets g h ∧ ((∀ e, ¬ Evicted s t e) → h = g) ∧
      g.space (s.ptable p).pgdir (va / PGSIZE) = some (true, page) ∧
      Rep (h.setSpace (s.ptable p).pgdir (va / PGSIZE)
        (some (true, page.setByte (va % PGSIZE) b))) t := by
  unfold userWrite at success
  rw [bind_ok_iff] at success
  obtain ⟨first, u, tried, rest⟩ := success
  rcases userStore_spec rep inside user thawed tried with ⟨-, rfl, same⟩ | ⟨rfl, page, space, rep'⟩
  · subst u
    rw [Prog.ite_apply, if_neg Bool.false_ne_true, bind_ok_iff] at rest
    obtain ⟨second, u, faulted, rest⟩ := rest
    have calm := faultStore_calm _ _ _ _ _ _ faulted
    rw [Prog.ite_apply] at rest
    have newer : u.log <:+ t.log := by
      split at rest
      · rw [(pure_ok_iff.mp rest).2]
      · exact (faultStore_calm _ _ _ _ _ _ rest).log
    rcases legal with access | swapped
    · obtain ⟨rfl, h, page, forgets, still, found, final⟩ := faultStore_present rep inside user
        thawed access faulted (quiet.mono (rep.base.trans calm.log) newer)
        (fun x table e evicted => fine.unevicted x table e (evicted.after calm.log newer))
      rw [if_pos rfl] at rest
      obtain ⟨rfl, rfl⟩ := pure_ok_iff.mp rest
      exact ⟨rfl, h, page, forgets, still, found, final⟩
    · rcases faultStore_swapped rep inside user swapped faulted
        (quiet.mono (rep.base.trans calm.log) newer) (fine.swapped swapped) with
        ⟨rfl, page, found, final⟩ | ⟨rfl, rep', access, table⟩
      · rw [if_pos rfl] at rest
        obtain ⟨rfl, rfl⟩ := pure_ok_iff.mp rest
        exact ⟨rfl, g, page, Or.inl rfl, fun _ => rfl, found, final⟩
      · rw [if_neg Bool.false_ne_true] at rest
        rw [← calm.pgdir p] at inside access table
        have thawed' : g.Thawed u.mem (u.ptable p).pgdir (va / PGSIZE) := by
          intro y found
          rw [table, calm.pgdir] at found
          exact thawed y found
        have outcome := faultStore_present rep' inside user thawed' access rest quiet
          (fun x here e evicted => fine.unevicted x (by rw [← here, table, calm.pgdir]) e
            (evicted.before calm.log (faultStore_calm _ _ _ _ _ _ rest).log))
        rw [calm.pgdir] at outcome
        obtain ⟨rfl, h, page, forgets, still, found, final⟩ := outcome
        exact ⟨rfl, h, page, forgets, fun none => still (fun e evicted =>
          none e (evicted.before calm.log (faultStore_calm _ _ _ _ _ _ rest).log)), found, final⟩
  · rw [Prog.ite_apply, if_pos rfl] at rest
    obtain ⟨rfl, rfl⟩ := pure_ok_iff.mp rest
    exact ⟨rfl, g, page, Or.inl rfl, fun _ => rfl, space, rep'⟩

end Access

end Xv6Cow
