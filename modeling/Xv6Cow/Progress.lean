import Xv6Cow.Boot

/- With enough pages on the free list the system calls succeed, and what they leave is
known exactly. -/
namespace Xv6Cow

open Function (update_self update_of_ne)
open Prog (bind_of_ok read_bind)

variable {loan : Set Nat} {g : Ghost} {s t : Kernel} {p np : Fin NPROC}

/-! ## fork -/

/-- A new directory with the kernel's mappings; the others are as before. -/
theorem setupkvm_beside {pgdir : Nat} (rep : Rep g s) (quiet : Quiet g s.log)
    (source : pgdir ∈ g.dirs) (room : 10 ≤ s.freelist.length) :
    ∃ d u used, setupkvm s = .ok (d, u) ∧ used.length = 9 ∧ s.freelist = d :: used ++ u.freelist ∧
      (∃ mem refcnt free num, u = { s with
        mem := mem, pageToRefcnt := refcnt, freelist := free, numFreePages := num }) ∧
      pgdir ≠ d ∧ Rep (g.addDir d) u ∧ g.Loose d ∧
      (∀ i : Fin 1024, i.val < 512 → tablePage u.mem d i = none) ∧
      (∀ i, tablePage u.mem pgdir i = tablePage s.mem pgdir i) ∧
      ∀ v, pteOf u.mem pgdir v = pteOf s.mem pgdir v := by
  obtain ⟨d, u, used, made, count, list, ⟨mem₁, refcnt₁, free₁, num₁, shape₁⟩, kept, -, low, -⟩ :=
    setupkvm_room rep quiet room
  have log₁ : u.log = s.log := by rw [shape₁]
  obtain ⟨fresh, rep₁, evolves⟩ := setupkvm_spec rep made (by rw [log₁]; exact quiet)
  have apart : pgdir ≠ d := fun same => fresh.1 (same ▸ source)
  have loose : g.Loose d := Ghost.loose_of_fresh rep.layout fresh
  -- the source directory and its tables are not free pages, so they are as before
  have taken : ∀ {x}, x = d ∨ x ∈ used → x ∈ s.freelist := by
    rintro x (rfl | member) <;> rw [list]
    · exact List.mem_cons_self
    · exact List.mem_append_left _ (List.mem_cons_of_mem _ member)
  have same : ∀ {x}, x ∉ s.freelist → u.mem x = s.mem x := fun {x} outside =>
    kept (fun here => outside (taken (Or.inl here))) (fun member => outside (taken (Or.inr member)))
  have dir : u.mem pgdir = s.mem pgdir := same (fun free => (rep.free_apart free).2.2.1.1 source)
  have tables :
    ∀ i, tablePage u.mem pgdir i = tablePage s.mem pgdir i := fun i => tablePage_congr dir i
  have entries : ∀ v, pteOf u.mem pgdir v = pteOf s.mem pgdir v := fun v =>
    pteOf_congr dir
    (fun x table => same (fun free => (rep.free_apart free).2.2.2 pgdir source _ table))
  exact ⟨d, u, used, made, count, list, ⟨mem₁, refcnt₁, free₁, num₁, shape₁⟩, apart, rep₁, loose,
    low, tables, entries⟩

/-- copyuvm_cow needs a directory, its kernel page tables and page tables for the pages. -/
theorem copyuvmCow_room {pgdir sz : Nat} (rep : Rep g s) (quiet : Quiet g s.log)
    (source : pgdir ∈ g.dirs) (steady : g.Loose pgdir) (small : sz ≤ KERNBASE)
    (present : ∀ u, u < pagesOf sz → has (pteOf s.mem pgdir u) PTE_P = true)
    (room : 10 + tablesFor (pagesOf sz) ≤ s.freelist.length) :
    ∃ d t used, copyuvmCow pgdir sz np s = .ok (d, t) ∧ s.freelist = used ++ t.freelist ∧
      used.length = 10 + tablesFor (pagesOf sz) ∧
      (∃ mem refcnt free num, t = { s with
        mem := mem, pageToRefcnt := refcnt, freelist := free, numFreePages := num
        ptable := Function.update s.ptable np
          { s.ptable np with rss := (s.ptable np).rss + BitVec.ofNat 32 (pagesOf sz * PGSIZE) } }) ∧
      (∀ i, tablePage t.mem pgdir i = tablePage s.mem pgdir i) ∧
      ∀ u, u < pagesOf sz → tablePage t.mem d (pdx u) ≠ none ∧
        pteOf t.mem d u = sharedWord (pteOf s.mem pgdir u) ∧
        pteOf t.mem pgdir u = pteOf s.mem pgdir u &&& ~~~PTE_W := by
  obtain ⟨d, u, used, made, count, list, ⟨mem₁, refcnt₁, free₁, num₁, shape₁⟩, apart, rep₁, loose,
    blank, tables, entries⟩ := setupkvm_beside rep quiet source (by omega)
  have lacks := missing_start (pagesOf_le small) blank
  have log₁ : u.log = s.log := by rw [shape₁]
  have length := congrArg List.length list
  rw [List.length_append, List.length_cons, count] at length
  obtain ⟨t, more, copied, list', few, ⟨mem₂, refcnt₂, free₂, num₂, shape₂⟩, tables', inner, -,
      -⟩ :=
    cowLoop_room (p := np) (v := 0) (n := pagesOf sz) rep₁ (by rw [log₁]; exact quiet)
      (Finset.mem_insert_of_mem source) (Finset.mem_insert_self d g.dirs) apart loose steady
      (by rw [Nat.zero_add]; exact pagesOf_le small) (fun v _ _ => g.addDir_space d v)
      (fun v _ high => by rw [entries]; exact present v (by omega)) (by omega)
  refine ⟨d, t, d :: used ++ more, ?_, ?_, ?_, ⟨mem₂, refcnt₂, free₂, num₂, ?_⟩, ?_, ?_⟩
  · unfold copyuvmCow
    rw [bind_of_ok made, bind_of_ok copied]
    rfl
  · rw [list, list', List.append_assoc]
  · rw [List.length_append, List.length_cons, count]
    omega
  · rw [shape₂, shape₁]
  · exact fun i => (tables' i).trans (tables i)
  · intro v below
    rw [← entries]
    exact inner v (Nat.zero_le v) (by omega)

/-- The child that fork leaves: its rss goes up from what was left in the entry. -/
def forked (s : Kernel) (p np : Fin NPROC) (pgdir kstack : Nat) : Proc :=
  { child s p np pgdir kstack with
    rss := (s.ptable np).rss + BitVec.ofNat 32 (pagesOf (s.ptable p).sz * PGSIZE) }

theorem firstUnused_ne (free : firstUnused s = some np) (live : (s.ptable p).live = true) :
    np ≠ p := by
  rintro rfl
  unfold Proc.live at live
  rw [firstUnused_some free] at live
  cases live

theorem allocproc_free {k : Nat} {rest : List Nat} (settled : Settled loan g s)
    (free : firstUnused s = some np) (list : s.freelist = k :: rest) :
    ∃ r, allocproc s = .ok (some np, r) ∧ Rep (g.hold k (s.mem k)) r ∧
      r.ptable = Function.update s.ptable np
        { s.ptable np with state := .embryo, pid := s.nextpid, kstack := k } ∧
      ∃ refcnt num, r = { s with
        pageToRefcnt := refcnt, freelist := rest, numFreePages := num, ptable := r.ptable
        nextpid := s.nextpid + 1 } := by
  obtain ⟨r, after⟩ : ∃ r : Kernel, r = setProc (popFree (embryo s np) k rest) np
      { (popFree (embryo s np) k rest).ptable np with kstack := k } := ⟨_, rfl⟩
  have table : r.ptable = Function.update s.ptable np
      { s.ptable np with state := .embryo, pid := s.nextpid, kstack := k } := by
    rw [after]
    simp only [setProc, popFree, embryo, update_self, Function.update_idem]
  refine ⟨r, ?_, ?_, table, r.pageToRefcnt, r.numFreePages, ?_⟩
  · rw [allocproc_room free (kalloc_cons (s := embryo s np) list), ← after]
  · have taken := settled.rep.pop list
    refine taken.congr ?_ ?_ ?_ ?_ ?_ ?_ ?_ ?_
    all_goals first
      | rw [after]
        rfl
      | intro q alive stays
        rw [table] at alive ⊢
        by_cases here : q = np
        · rw [here, update_self] at alive
          cases alive
        · rw [update_of_ne here] at alive ⊢
          exact settled.rep.procs q alive stays
  · rw [after]
    rfl

theorem forkWith_run (copy : Nat → Nat → Fin NPROC → K Nat) {k d : Nat} {r u : Kernel}
    (other : p ≠ np) (allocated : allocproc s = .ok (some np, r))
    (table : r.ptable = Function.update s.ptable np
      { s.ptable np with state := .embryo, pid := s.nextpid, kstack := k })
    (copied : copy (s.ptable p).pgdir (s.ptable p).sz np r = .ok (d, u)) :
    forkWith copy p s = .ok (some s.nextpid, setProc u np { u.ptable np with
      pgdir := d, sz := (s.ptable p).sz, parent := some p, state := .runnable }) := by
  have same : r.ptable p = s.ptable p := by rw [table, update_of_ne other]
  have pid : (r.ptable np).pid = s.nextpid := by rw [table, update_self]
  unfold forkWith
  rw [bind_of_ok allocated]
  dsimp only
  rw [read_bind, same, bind_of_ok copied, updateProc, Prog.update_bind, pid]
  rfl

theorem fork_room (settled : Settled loan g s) (quiet : Quiet g s.log)
    (live : (s.ptable p).live = true) (steady : g.Loose (s.ptable p).pgdir)
    (free : firstUnused s = some np)
    (present : ∀ u, u < pagesOf (s.ptable p).sz →
      has (pteOf s.mem (s.ptable p).pgdir u) PTE_P = true)
    (room : 11 + tablesFor (pagesOf (s.ptable p).sz) ≤ s.freelist.length) :
    ∃ k d t used, fork p s = .ok (some s.nextpid, t) ∧ s.freelist = used ++ t.freelist ∧
      used.length = 11 + tablesFor (pagesOf (s.ptable p).sz) ∧
      (∃ mem refcnt free num, t = { s with
        mem := mem, pageToRefcnt := refcnt, freelist := free, numFreePages := num
        ptable := Function.update s.ptable np (forked s p np d k), nextpid := s.nextpid + 1 }) ∧
      (∀ i, tablePage t.mem (s.ptable p).pgdir i = tablePage s.mem (s.ptable p).pgdir i) ∧
      ∀ u, u < pagesOf (s.ptable p).sz → tablePage t.mem d (pdx u) ≠ none ∧
        pteOf t.mem d u = sharedWord (pteOf s.mem (s.ptable p).pgdir u) ∧
        pteOf t.mem (s.ptable p).pgdir u = pteOf s.mem (s.ptable p).pgdir u &&& ~~~PTE_W := by
  obtain ⟨k, rest, list⟩ := List.exists_cons_of_length_pos (l := s.freelist) (by omega)
  have other := (firstUnused_ne free live).symm
  obtain ⟨r, allocated, rep₁, table, refcnt₁, num₁, after⟩ := allocproc_free settled free list
  have same : r.ptable p = s.ptable p := by rw [table, update_of_ne other]
  have mem : r.mem = s.mem := by rw [after]
  have list₁ : r.freelist = rest := by rw [after]
  have log₁ : r.log = s.log := by rw [after]
  rw [list, List.length_cons] at room
  obtain ⟨d, u, used, copied, list', few, ⟨mem₂, refcnt₂, free₂, num₂, shape₂⟩, tables, entries⟩ :=
    @copyuvmCow_room _ _ np (s.ptable p).pgdir (s.ptable p).sz rep₁
      (by rw [log₁]; exact quiet) (settled.inside live) steady (settled.small live)
      (by rw [mem]; exact present) (by rw [list₁]; omega)
  rw [mem] at tables entries
  refine ⟨k, d, setProc u np { u.ptable np with
      pgdir := d, sz := (s.ptable p).sz, parent := some p, state := .runnable }, k :: used,
    ?_, ?_, ?_, ⟨mem₂, refcnt₂, free₂, num₂, ?_⟩, tables, entries⟩
  · exact forkWith_run _ other allocated table copied
  · rw [list, ← list₁, list']
    rfl
  · rw [List.length_cons]
    omega
  · unfold setProc
    rw [shape₂]
    dsimp only
    rw [update_self, Function.update_idem, table, update_self, Function.update_idem, after]
    rfl

/-! ## fork without copy-on-write -/

theorem copyLoop_room {pgdir d v n : Nat} (rep : Rep g s) (quiet : Quiet g s.log)
    (source : pgdir ∈ g.dirs)
    (inside : d ∈ g.dirs) (apart : pgdir ≠ d) (loose : g.Loose d) (fits : v + n ≤ NUPAGE)
    (vacant : ∀ u, v ≤ u → u < v + n → g.space d u = none)
    (present : ∀ u, v ≤ u → u < v + n → has (pteOf s.mem pgdir u) PTE_P = true)
    (room : n + (missing s.mem d v n).card ≤ s.freelist.length) :
    ∃ t used, copyLoop d pgdir n v s = .ok ((), t) ∧ Carves s t d used ∧
      used.length = n + (missing s.mem d v n).card := by
  induction n generalizing v g s with
  | zero => exact ⟨s, [], rfl, Carves.refl s d, rfl⟩
  | succ n ih =>
    have here := present v (Nat.le_refl v) (by omega)
    obtain ⟨x, table⟩ := table_of_pteOf (ne_zero_of_present here)
    obtain ⟨pooled, -⟩ := rep.entries.frame source (by omega) (frameOf_present here)
    have small := (rep.layout.pool_bounds _ pooled).2
    have word : s.mem x (ptx v) = pteOf s.mem pgdir v := (pteOf_of_table table).symm
    obtain ⟨q, rest, r, used, list, high, mapped, carves, count, there, others, -⟩ :=
      newPage_room (s.mem (ppn (pteOf s.mem pgdir v))) (pteFlags (pteOf s.mem pgdir v)) rep inside
        (by omega) (vacant v (Nat.le_refl v) (by omega)) (by
          split
          · rename_i absent
            have positive := missing_pos (n := n) absent
            omega
          · omega)
    have fewer := missing_succ (n := n) there others
    have first : ∀ m, copyLoop d pgdir (m + 1) v s = copyLoop d pgdir m (v + 1) r := by
      intro m
      have found : presentEntry pgdir v s = .ok ((⟨x, ptx v⟩, pteOf s.mem pgdir v), s) := by
        unfold presentEntry
        rw [bind_of_ok (walk_of_table (rep.dir_lt source) table)]
        dsimp only
        rw [bind_of_ok (loadWord_ok_iff.mpr ⟨rep.table_lt source table, word.symm, rfl⟩),
          if_pos here]
        rfl
      rw [copyLoop]
      refine (bind_of_ok found).trans ((bind_of_ok (kalloc_cons list)).trans ?_)
      refine (bind_of_ok (loadPage_ok_iff.mpr ⟨small, rfl, rfl⟩)).trans ?_
      refine (bind_of_ok (storePage_ok_iff.mpr ⟨high, rfl⟩ : _ = Except.ok ((), _))).trans ?_
      exact bind_of_ok ((mappages_page d v q _ _).trans mapped)
    have log : r.log = s.log := carves.log
    have rep' :=
      @copyLoop_spec _ _ _ _ _ _ _ 1 (g.space pgdir) rep source inside apart loose (by omega)
      (fun _ _ _ => rfl) (fun u low high => vacant u low (by omega)) ((first 0).trans rfl)
      (by rw [log]; exact quiet) (by
        intro e evicted
        rw [Evicted, log, since_self] at evicted
        cases evicted)
    have length := congrArg List.length carves.freelist
    rw [List.length_append, List.length_cons] at length
    obtain ⟨t, more, done, rest', count'⟩ :=
      ih (v := v + 1) rep' (by rw [log]; exact quiet) source inside
      loose (by omega)
      (by
        intro u low high
        change (if d = d ∧ v ≤ u ∧ u < v + 1 then _ else g.space d u) = none
        rw [if_neg (by omega)]
        exact vacant u (by omega) (by omega))
      (by
        intro u low high
        rw [(carves.others rep inside source apart).2 u]
        exact present u (by omega) (by omega))
      (by omega)
    refine ⟨t, q :: used ++ more, (first n).trans done, carves.trans rest', ?_⟩
    rw [List.length_append, List.length_cons]
    omega

theorem forkEager_room (settled : Settled loan g s) (quiet : Quiet g s.log)
    (live : (s.ptable p).live = true) (free : firstUnused s = some np)
    (present : ∀ u, u < pagesOf (s.ptable p).sz →
      has (pteOf s.mem (s.ptable p).pgdir u) PTE_P = true)
    (room : 11 + pagesOf (s.ptable p).sz + tablesFor (pagesOf (s.ptable p).sz) ≤
      s.freelist.length) :
    ∃ t, forkEager p s = .ok (some s.nextpid, t) ∧ t.log = s.log ∧
      t.freelist.length + (11 + pagesOf (s.ptable p).sz + tablesFor (pagesOf (s.ptable p).sz)) =
        s.freelist.length := by
  obtain ⟨k, rest, list⟩ := List.exists_cons_of_length_pos (l := s.freelist) (by omega)
  have other := (firstUnused_ne free live).symm
  have small := settled.small live
  obtain ⟨r, allocated, rep₁, table, refcnt₁, num₁, after⟩ := allocproc_free settled free list
  have mem : r.mem = s.mem := by rw [after]
  have list₁ : r.freelist = rest := by rw [after]
  have log₁ : r.log = s.log := by rw [after]
  rw [list, List.length_cons] at room
  obtain ⟨d, u, used, made, count, list₂, ⟨mem₂, refcnt₂, free₂, num₂, shape₂⟩, apart, rep₂, loose,
    blank, -, entries⟩ :=
    setupkvm_beside rep₁ (by rw [log₁]; exact quiet) (settled.inside live) (by rw [list₁]; omega)
  have log₂ : u.log = s.log := by rw [shape₂]; exact log₁
  have lacks := missing_start (pagesOf_le small) blank
  have length := congrArg List.length list₂
  rw [List.length_append, List.length_cons, count, list₁] at length
  obtain ⟨t, more, copied, carves, count'⟩ :=
    copyLoop_room (v := 0) (n := pagesOf (s.ptable p).sz) rep₂
    (by rw [log₂]; exact quiet) (Finset.mem_insert_of_mem (settled.inside live))
    (Finset.mem_insert_self d g.dirs)
    apart loose (by rw [Nat.zero_add]; exact pagesOf_le small) (fun v _ _ => g.addDir_space d v)
    (fun v _ high => by rw [entries, mem]; exact present v (by omega)) (by omega)
  have whole : copyuvm (s.ptable p).pgdir (s.ptable p).sz r = .ok (d, t) := by
    unfold copyuvm
    rw [bind_of_ok made, bind_of_ok copied]
    rfl
  refine ⟨_, forkWith_run (fun pgdir sz _ => copyuvm pgdir sz) other allocated table whole, ?_, ?_⟩
  · exact carves.log.trans log₂
  · have length' := congrArg List.length carves.freelist
    rw [List.length_append, count'] at length'
    change t.freelist.length + _ = _
    rw [list, List.length_cons]
    omega

/-! ## Accesses to pages in memory -/

theorem userRead_room {va : Nat} (rep : Rep g s)
    (inside : (s.ptable p).pgdir ∈ g.dirs) (user : va / PGSIZE < NUPAGE)
    (access : accessible (pteOf s.mem (s.ptable p).pgdir (va / PGSIZE)) = true) :
    ∃ b mem, userRead p va s = .ok (some b, { s with mem := mem }) := by
  have both := Bool.and_eq_true_iff.mp access
  obtain ⟨x, table⟩ := table_of_pteOf (ne_zero_of_present both.1)
  have entry := pteOf_of_table table
  obtain ⟨pooled, -⟩ := rep.entries.frame inside user (frameOf_present both.1)
  have small : ppn (pteOf s.mem (s.ptable p).pgdir (va / PGSIZE)) < NPHYS :=
    (rep.layout.pool_bounds _ pooled).2
  obtain ⟨m, marked⟩ : ∃ m, m = setWord s.mem ⟨x, ptx (va / PGSIZE)⟩
      (pteOf s.mem (s.ptable p).pgdir (va / PGSIZE) ||| PTE_A) := ⟨_, rfl⟩
  have loaded : userLoad p va s = .ok
      (some ((m (ppn (pteOf s.mem (s.ptable p).pgdir (va / PGSIZE)))).byte (va % PGSIZE)),
        { s with mem := m }) := by
    unfold userLoad
    rw [read_bind, bind_of_ok (walk_of_table (rep.dir_lt inside) table)]
    dsimp only
    rw [bind_of_ok (loadWord_ok_iff.mpr ⟨rep.table_lt inside table, entry, rfl⟩)]
    rw [if_pos (Bool.and_eq_true_iff.mpr both), bind_of_ok
      (storeWord_ok_iff.mpr ⟨rep.table_lt inside table, rfl⟩ : _ = Except.ok ((), _)),
      bind_of_ok (loadPage_ok_iff.mpr ⟨small, rfl, rfl⟩), marked]
    rfl
  unfold userRead
  exact ⟨_, m, bind_of_ok loaded⟩

theorem userStore_returns {va : Nat} (b : Byte) (rep : Rep g s)
    (inside : (s.ptable p).pgdir ∈ g.dirs) (user : va / PGSIZE < NUPAGE) :
    ∃ stored t, userStore p va b s = .ok (stored, t) ∧ t.log = s.log := by
  unfold userStore
  rw [read_bind]
  cases table : tablePage s.mem (s.ptable p).pgdir (pdx (va / PGSIZE)) with
  | none =>
    rw [bind_of_ok (walk_of_none (rep.dir_lt inside) table)]
    exact ⟨false, s, rfl, rfl⟩
  | some x =>
    have entry := pteOf_of_table table
    have within := rep.table_lt inside table
    rw [bind_of_ok (walk_of_table (rep.dir_lt inside) table)]
    dsimp only
    rw [bind_of_ok (loadWord_ok_iff.mpr ⟨within, entry, rfl⟩)]
    split
    · rename_i allowed
      have present := (Bool.and_eq_true_iff.mp (Bool.and_eq_true_iff.mp allowed).1).1
      obtain ⟨pooled, -⟩ := rep.entries.frame inside user (frameOf_present present)
      have small := (rep.layout.pool_bounds _ pooled).2
      rw [bind_of_ok (storeWord_ok_iff.mpr ⟨within, rfl⟩ : _ = Except.ok ((), _)),
        bind_of_ok (loadPage_ok_iff.mpr ⟨small, rfl, rfl⟩),
        bind_of_ok (storePage_ok_iff.mpr ⟨small, rfl⟩ : _ = Except.ok ((), _))]
      exact ⟨true, _, rfl, rfl⟩
    · exact ⟨false, s, rfl, rfl⟩

theorem presentFault_room {d v x : Nat} (rep : Rep g s) (inside : d ∈ g.dirs) (user : v < NUPAGE)
    (table : tablePage s.mem d (pdx v) = some x) (present : has (pteOf s.mem d v) PTE_P = true)
    (room : s.freelist ≠ []) :
    ∃ t, presentFault ⟨x, ptx v⟩ (pteOf s.mem d v) s = .ok ((), t) ∧ t.log = s.log := by
  have word : s.mem x (ptx v) = pteOf s.mem d v := (pteOf_of_table table).symm
  have within := rep.table_lt inside table
  obtain ⟨pooled, -⟩ := rep.entries.frame inside user (frameOf_present present)
  have small := (rep.layout.pool_bounds _ pooled).2
  unfold presentFault
  rw [bind_of_ok (loadRefcnt_ok_iff.mpr ⟨small, rfl, rfl⟩)]
  split
  · obtain ⟨q, rest, list⟩ := List.exists_cons_of_ne_nil room
    have high : q < NPHYS :=
      (rep.layout.pool_bounds _ ((rep.exact.mem_free q).mp (list ▸ List.mem_cons_self)).1).2
    refine ⟨cowed (popFree s q rest) ⟨x, ptx v⟩ q, ?_, rfl⟩
    unfold cowPage
    refine (bind_of_ok (kalloc_cons list)).trans ?_
    refine (bind_of_ok (loadWord_ok_iff.mpr ⟨within, word.symm, rfl⟩)).trans ?_
    refine (bind_of_ok (loadRefcnt_ok_iff.mpr ⟨small, rfl, rfl⟩)).trans ?_
    refine (bind_of_ok
      (storeRefcnt_ok_iff.mpr ⟨small, rfl⟩ : _ = Except.ok ((), _))).trans ?_
    refine (bind_of_ok (loadPage_ok_iff.mpr ⟨small, rfl, rfl⟩)).trans ?_
    refine (bind_of_ok
      (storePage_ok_iff.mpr ⟨high, rfl⟩ : _ = Except.ok ((), _))).trans ?_
    refine storeWord_ok_iff.mpr ⟨within, ?_⟩
    unfold cowed
    dsimp only [popFree]
    rw [word]
  · exact ⟨_, storeWord_ok_iff.mpr ⟨within, rfl⟩, rfl⟩

theorem userWrite_room {va : Nat} (b : Byte) (rep : Rep g s) (quiet : Quiet g s.log)
    (inside : (s.ptable p).pgdir ∈ g.dirs) (user : va / PGSIZE < NUPAGE)
    (thawed : g.Thawed s.mem (s.ptable p).pgdir (va / PGSIZE))
    (access : accessible (pteOf s.mem (s.ptable p).pgdir (va / PGSIZE)) = true)
    (room : s.freelist ≠ []) :
    ∃ t, userWrite p va b s = .ok (true, t) ∧ t.log = s.log := by
  obtain ⟨first, u, tried, log⟩ := userStore_returns b rep inside user
  unfold userWrite
  rw [bind_of_ok tried]
  cases first with
  | true => exact ⟨u, rfl, log⟩
  | false =>
    -- the first try changed nothing; the handler makes the entry writable for the second
    obtain ⟨-, -, rfl⟩ | ⟨impossible, -⟩ := userStore_spec rep inside user thawed tried
    · have present := (Bool.and_eq_true_iff.mp access).1
      obtain ⟨x, table⟩ := table_of_pteOf (ne_zero_of_present present)
      obtain ⟨r, treated, same⟩ := presentFault_room rep inside user table present room
      have handled : handlePageFault p va u = .ok ((), r) := by
        unfold handlePageFault
        rw [read_bind, bind_of_ok (walk_of_table (rep.dir_lt inside) table)]
        dsimp only
        rw [bind_of_ok (loadWord_ok_iff.mpr
          ⟨rep.table_lt inside table, pteOf_of_table table, rfl⟩), if_pos present]
        exact treated
      have still : ∀ {t}, t.log = u.log → ∀ e, ¬ Evicted u t e := by
        intro t log' e evicted
        rw [Evicted, log', since_self] at evicted
        cases evicted
      obtain ⟨h, -, unchanged, rep', -⟩ := rep.presentFault_spec inside user table
        (thawed x table) present treated (by rw [same]; exact quiet)
        (fun e evicted => absurd evicted (still same e))
      obtain rfl := unchanged (still same)
      have calm := handlePageFault_calm _ _ _ _ _ handled
      obtain ⟨second, t, again, log'⟩ := userStore_returns b rep' (p := p)
        (by rw [calm.pgdir]; exact inside) user
      have faulted : faultStore p va b u = .ok (second, t) := by
        unfold faultStore
        rw [bind_of_ok handled]
        exact again
      have whole : t.log = u.log := log'.trans same
      obtain ⟨rfl, -⟩ := faultStore_present rep inside user thawed access faulted
        (by rw [whole]; exact quiet) (fun _ _ e evicted => absurd evicted (still whole e))
      rw [if_neg Bool.false_ne_true, bind_of_ok faulted]
      exact ⟨t, rfl, whole⟩
    · cases impossible

end Xv6Cow
