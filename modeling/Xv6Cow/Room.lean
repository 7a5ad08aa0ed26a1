import Xv6Cow.PageTree

/- With enough pages on the free list the functions that build address spaces
succeed. They take pages from the front of the list and write to nothing but those
pages and the directory they are given. -/
namespace Xv6Cow

open Function (update_self update_of_ne)
open Prog (bind_of_ok)

variable {g : Ghost} {s t u : Kernel} {d v q : Nat} {perm : Word}

theorem Rep.dir_lt (rep : Rep g s) (inside : d ∈ g.dirs) : d < NPHYS :=
  (rep.layout.pool_bounds d (rep.layout.pins_pool d (Or.inl inside))).2

theorem Rep.table_lt (rep : Rep g s) (inside : d ∈ g.dirs) {i : Fin 1024} {x : Nat}
    (table : tablePage s.mem d i = some x) : x < NPHYS :=
  (rep.layout.pool_bounds x (rep.layout.pins_pool x (Or.inr (Or.inl ⟨d, inside, i, table⟩)))).2

theorem Rep.free_apart (rep : Rep g s) (free : q ∈ s.freelist) :
    firstPage ≤ q ∧ q < NPHYS ∧ g.Fresh q ∧ ∀ e ∈ g.dirs, ∀ i, tablePage s.mem e i ≠ some q := by
  obtain ⟨pooled, unpinned, -⟩ := rep.free_unused free
  obtain ⟨low, high⟩ := rep.layout.pool_bounds q pooled
  exact ⟨low, high, fresh_of_unpinned unpinned,
    fun e member i table => unpinned (Or.inr (Or.inl ⟨e, member, i, table⟩))⟩

theorem Rep.tree (rep : Rep g s) (inside : d ∈ g.dirs) : Tree s.mem d := by
  refine ⟨rep.dir_lt inside, fun table => ⟨rep.table_lt inside table, ?_⟩, ?_⟩
  · rintro rfl
    exact rep.layout.table_not_dir inside table inside
  · intro i j x found found'
    exact (rep.layout.table_unique inside inside found found').2

theorem Rep.spare (rep : Rep g s) (inside : d ∈ g.dirs) : Spare s d := by
  refine ⟨rep.exact.nodup, fun free => (rep.free_apart free).2.1, ?_, ?_⟩
  · intro free
    exact (rep.free_apart free).2.2.1.1 inside
  · intro i x table free
    exact (rep.free_apart free).2.2.2 d inside i table

theorem Rep.backed (rep : Rep g s) (inside : d ∈ g.dirs)
    (lo : Nat) {hi : Nat} (user : hi ≤ NUPAGE) :
    Backed s.mem d lo hi := by
  intro u _ high q maps
  obtain ⟨pooled, unpinned⟩ := rep.entries.frame inside (by omega) maps
  obtain ⟨bottom, top⟩ := rep.layout.pool_bounds q pooled
  refine ⟨bottom, top, ?_, fun i table => unpinned (Or.inr (Or.inl ⟨d, inside, i, table⟩))⟩
  rintro rfl
  exact unpinned (Or.inl inside)

theorem mapPage_room (rep : Rep g s) (inside : d ∈ g.dirs) (small : v < NVPAGE)
    (vacant : has (pteOf s.mem d v) PTE_P = false)
    (room : tablePage s.mem d (pdx v) = none → s.freelist ≠ []) :
    ∃ t used, mapPage d perm v q s = .ok ((), t) ∧ Carves s t d used ∧
      used.length = (if tablePage s.mem d (pdx v) = none then 1 else 0) ∧
      tablePage t.mem d (pdx v) ≠ none ∧
      (∀ i, i ≠ pdx v → tablePage t.mem d i = tablePage s.mem d i) ∧
      pteOf t.mem d v = pageWord q ||| perm ||| PTE_P ∧
      ∀ w, w < NVPAGE → w ≠ v → pteOf t.mem d w = pteOf s.mem d w := by
  obtain ⟨t, used, mapped, carves, -, -, count, table, tables, entries⟩ := @mapEntry_tree
    _ _ _ (pageWord q ||| perm ||| PTE_P) (rep.tree inside) (rep.spare inside) small vacant room
  refine ⟨t, used, mapped, carves, count, table, tables, ?_, ?_⟩
  · rw [entries v small, if_pos rfl]
  · intro w low other
    rw [entries w low, if_neg other]

/-- What mapping `n` kernel pages from `v` on does to a directory with no page table
beyond that of `v` there. -/
theorem mapLoop_room {n : Nat} (rep : Rep g s) (quiet : Quiet g s.log) (inside : d ∈ g.dirs)
    (loose : g.Loose d) (guard : has perm PTE_U = false) (high : NUPAGE ≤ v)
    (fits : v + (n + 1) ≤ NVPAGE)
    (vacant : ∀ w, v ≤ w → w < v + (n + 1) → has (pteOf s.mem d w) PTE_P = false)
    (ahead : ∀ i : Fin 1024, v / 1024 < i.val → i.val ≤ (v + n) / 1024 →
      tablePage s.mem d i = none)
    (room : (v + n) / 1024 - v / 1024 + (if tablePage s.mem d (pdx v) = none then 1 else 0) ≤
      s.freelist.length) :
    ∃ t used, mapLoop d perm (n + 1) v q s = .ok ((), t) ∧ Carves s t d used ∧ Rep g t ∧
      used.length = (v + n) / 1024 - v / 1024 +
        (if tablePage s.mem d (pdx v) = none then 1 else 0) ∧
      (∀ i : Fin 1024, v / 1024 ≤ i.val → i.val ≤ (v + n) / 1024 → tablePage t.mem d i ≠ none) ∧
      (∀ i : Fin 1024, i.val < v / 1024 ∨ (v + n) / 1024 < i.val →
        tablePage t.mem d i = tablePage s.mem d i) ∧
      ∀ w, w < NVPAGE → w < v ∨ v + n < w → pteOf t.mem d w = pteOf s.mem d w := by
  have small : v < NVPAGE := by omega
  obtain ⟨u, used, mapped, carves, count, table, tables, -, entries⟩ :=
    @mapPage_room g s d v q perm rep inside small (vacant v (Nat.le_refl v) (by omega))
      (by
        intro missing none
        rw [if_pos missing, none, List.length_nil] at room
        omega)
  have quiet' : Quiet g u.log := by rw [carves.log]; exact quiet
  have rep' := (mapPage_kernel rep inside loose high small guard mapped quiet').1
  induction n generalizing v q s u used with
  | zero =>
    refine ⟨u, used, ?_, carves, rep', ?_, ?_, ?_, ?_⟩
    · rw [mapLoop, bind_of_ok mapped]
      rfl
    · rw [count, Nat.add_zero, Nat.sub_self, Nat.zero_add]
    · intro i low high'
      rw [show i = pdx v from Fin.ext (by rw [pdx_val small]; omega)]
      exact table
    · intro i outside
      refine tables i ?_
      rintro rfl
      rw [pdx_val small, Nat.add_zero] at outside
      omega
    · intro w low outside
      exact entries w low (by omega)
  | succ n ih =>
    have small' : v + 1 < NVPAGE := by omega
    have next : ∀ i : Fin 1024, i ≠ pdx v → tablePage u.mem d i = tablePage s.mem d i := tables
    -- The page table of the next page is the one just used, or not there yet.
    have cases : (pdx (v + 1) = pdx v ∧ (v + 1) / 1024 = v / 1024) ∨
        (pdx (v + 1) ≠ pdx v ∧ (v + 1) / 1024 = v / 1024 + 1) := by
      rw [ne_eq, Fin.ext_iff, pdx_val small, pdx_val small']
      omega
    have need : (v + (n + 1)) / 1024 - v / 1024 = (v + 1 + n) / 1024 - (v + 1) / 1024 +
        (if tablePage u.mem d (pdx (v + 1)) = none then 1 else 0) := by
      rcases cases with ⟨same, quotient⟩ | ⟨other, quotient⟩
      · rw [same, if_neg table, quotient, Nat.add_zero]
        congr 2
        omega
      · have missing : tablePage u.mem d (pdx (v + 1)) = none := by
          rw [next _ other]
          apply ahead
          · rw [pdx_val small']
            omega
          · rw [pdx_val small']
            omega
        rw [if_pos missing]
        have : (v + (n + 1)) / 1024 = (v + 1 + n) / 1024 := by congr 1; omega
        omega
    have room' : (v + 1 + n) / 1024 - (v + 1) / 1024 +
        (if tablePage u.mem d (pdx (v + 1)) = none then 1 else 0) ≤ u.freelist.length := by
      rw [← need]
      have total := congrArg List.length carves.freelist
      rw [List.length_append, count] at total
      omega
    have vacant' : ∀ w, v + 1 ≤ w → w < v + 1 + (n + 1) → has (pteOf u.mem d w) PTE_P = false := by
      intro w low below
      rw [entries w (by omega) (by omega)]
      exact vacant w (by omega) (by omega)
    have ahead' : ∀ i : Fin 1024, (v + 1) / 1024 < i.val → i.val ≤ (v + 1 + n) / 1024 →
        tablePage u.mem d i = none := by
      intro i low below
      rw [next i (by rintro rfl; rw [pdx_val small] at low; omega)]
      refine ahead i (by omega) (Nat.le_trans below (Nat.le_of_eq (by congr 1; omega)))
    obtain ⟨r, more, mapped', carves', count', table', tables', -, entries'⟩ :=
      @mapPage_room g u d (v + 1) (q + 1) perm rep' inside small'
        (vacant' (v + 1) (Nat.le_refl _) (by omega))
        (by
          intro missing none
          rw [if_pos missing, none, List.length_nil] at room'
          omega)
    have quiet'' : Quiet g r.log := by rw [carves'.log]; exact quiet'
    obtain ⟨t, all, rest, carves'', final, total, there, outer, others⟩ := ih rep' quiet' (by omega)
      (by omega) vacant' ahead' room' small' r more mapped' carves' count' table' tables' entries'
      quiet'' (mapPage_kernel rep' inside loose (by omega) small' guard mapped' quiet'').1
    refine ⟨t, used ++ all, ?_, carves.trans carves'', final, ?_, ?_, ?_, ?_⟩
    · rw [mapLoop, bind_of_ok mapped]
      exact rest
    · rw [List.length_append, count, total, ← need]
      omega
    · intro i low high'
      by_cases first : i = pdx v
      · obtain ⟨x, found⟩ := Option.ne_none_iff_exists'.mp table
        rw [first, carves''.kept found]
        exact Option.some_ne_none x
      · have later : i.val ≠ v / 1024 := fun same => first (Fin.ext (by rw [pdx_val small, same]))
        refine there i (by omega) (Nat.le_trans high' (Nat.le_of_eq (by congr 1; omega)))
    · intro i outside
      have other : i ≠ pdx v := by
        rintro rfl
        rw [pdx_val small] at outside
        omega
      by_cases here : i.val = (v + 1) / 1024 ∧ i.val ≤ (v + 1 + n) / 1024
      · omega
      · rw [outer i (by omega), next i other]
    · intro w low outside
      rw [others w low (by omega), entries w low (by omega)]

/-! ## setupkvm -/

theorem mappages_eq {va size pa n : Nat} (pages : (va + size - 1) / PGSIZE - va / PGSIZE + 1 = n)
    (first : va / PGSIZE = v) (frame : pa / PGSIZE = q) :
    mappages d va size pa perm = mapLoop d perm n v q := by
  unfold mappages
  rw [pages, first, frame]

theorem kmap_eq : kmap = [⟨KERNBASE, 0, EXTMEM, PTE_W⟩, ⟨KERNLINK, EXTMEM, dataPa - EXTMEM, 0#32⟩,
    ⟨KERNBASE + dataPa, dataPa, PHYSTOP - dataPa, PTE_W⟩, ⟨DEVSPACE, DEVSPACE, 33554432, PTE_W⟩] :=
    rfl

theorem mapKernel_cons {k : KMap} {rest : List KMap} {va size pa : Nat}
    (row : k = ⟨va, pa, size, perm⟩) (mapped : mappages d va size pa perm s = .ok ((), t)) :
    mapKernel d (k :: rest) s = mapKernel d rest t := by
  subst row
  exact bind_of_ok mapped

/-- The kernel part of an address space takes nine page tables. -/
theorem mapKernel_room (rep : Rep g s) (quiet : Quiet g s.log) (inside : d ∈ g.dirs)
    (loose : g.Loose d) (empty : ∀ i, tablePage s.mem d i = none)
    (room : 9 ≤ s.freelist.length) :
    ∃ t used, mapKernel d kmap s = .ok ((), t) ∧ Carves s t d used ∧ used.length = 9 ∧
      (∀ i : Fin 1024, i.val < 512 → tablePage t.mem d i = none) ∧
      ∀ i : Fin 1024, 1016 ≤ i.val → tablePage t.mem d i ≠ none := by
  have vacant : ∀ w, has (pteOf s.mem d w) PTE_P = false := by
    intro w
    rw [pteOf_of_none (empty _)]
    decide
  have need : ∀ {r : Kernel} {w : Nat}, tablePage r.mem d (pdx w) ≠ none →
      (if tablePage r.mem d (pdx w) = none then 1 else 0) = 0 := fun there => if_neg there
  -- KERNBASE up to EXTMEM.
  obtain ⟨r₁, used₁, mapped₁, carves₁, rep₁, count₁, there₁, outer₁, entries₁⟩ :=
    @mapLoop_room g s d 524288 0 PTE_W 255 rep quiet inside loose (by decide) (by decide)
      (by decide) (fun w _ _ => vacant w) (fun i _ _ => empty i)
      (by rw [if_pos (empty _)]; omega)
  rw [if_pos (empty _)] at count₁
  have quiet₁ : Quiet g r₁.log := by rw [carves₁.log]; exact quiet
  have free₁ := congrArg List.length carves₁.freelist
  rw [List.length_append, count₁] at free₁
  -- The kernel's text and rodata, then its data and the rest of memory.
  have same₂ : pdx 524544 = pdx 524288 := by decide
  have table₁ : tablePage r₁.mem d (pdx 524288) ≠ none := there₁ _ (by decide) (by decide)
  obtain ⟨r₂, used₂, mapped₂, carves₂, rep₂, count₂, there₂, outer₂, entries₂⟩ :=
    @mapLoop_room g r₁ d 524544 256 0#32 8 rep₁ quiet₁ inside loose (by decide) (by decide)
      (by decide)
      (fun w low below => by
        rw [entries₁ w (by rw [NVPAGE_eq]; omega) (by omega)]
        exact vacant w)
      (fun i _ _ => by omega)
      (by rw [same₂, need table₁]; omega)
  rw [same₂, need table₁] at count₂
  have quiet₂ : Quiet g r₂.log := by rw [carves₂.log]; exact quiet₁
  have free₂ := congrArg List.length carves₂.freelist
  rw [List.length_append, count₂] at free₂
  have same₃ : pdx 524553 = pdx 524544 := by decide
  have table₂ : tablePage r₂.mem d (pdx 524544) ≠ none := there₂ _ (by decide) (by decide)
  obtain ⟨r₃, used₃, mapped₃, carves₃, rep₃, count₃, there₃, outer₃, entries₃⟩ :=
    @mapLoop_room g r₂ d 524553 265 PTE_W 758 rep₂ quiet₂ inside loose (by decide) (by decide)
      (by decide)
      (fun w low below => by
        rw [entries₂ w (by rw [NVPAGE_eq]; omega) (by omega),
          entries₁ w (by rw [NVPAGE_eq]; omega) (by omega)]
        exact vacant w)
      (fun i _ _ => by omega)
      (by rw [same₃, need table₂]; omega)
  rw [same₃, need table₂] at count₃
  have quiet₃ : Quiet g r₃.log := by rw [carves₃.log]; exact quiet₂
  have free₃ := congrArg List.length carves₃.freelist
  rw [List.length_append, count₃] at free₃
  -- The devices, from DEVSPACE on.
  have others : ∀ i : Fin 1024, i.val ≠ 512 → tablePage r₃.mem d i = none := by
    intro i other
    rw [outer₃ i (by omega), outer₂ i (by omega), outer₁ i (by omega)]
    exact empty i
  have missing : tablePage r₃.mem d (pdx 1040384) = none := others _ (by decide)
  obtain ⟨r₄, used₄, mapped₄, carves₄, rep₄, count₄, there₄, outer₄, entries₄⟩ :=
    @mapLoop_room g r₃ d 1040384 1040384 PTE_W 8191 rep₃ quiet₃ inside loose (by decide) (by decide)
      (by decide)
      (fun w low below => by
        rw [entries₃ w (by rw [NVPAGE_eq]; omega) (by omega),
          entries₂ w (by rw [NVPAGE_eq]; omega) (by omega),
          entries₁ w (by rw [NVPAGE_eq]; omega) (by omega)]
        exact vacant w)
      (fun i low _ => others i (by omega))
      (by rw [if_pos missing]; omega)
  rw [if_pos missing] at count₄
  refine ⟨r₄, used₁ ++ (used₂ ++ (used₃ ++ used₄)), ?_,
    carves₁.trans (carves₂.trans (carves₃.trans carves₄)), ?_, ?_, ?_⟩
  · have row₁ : mappages d KERNBASE EXTMEM 0 PTE_W s = .ok ((), r₁) := by
      rw [mappages_eq (n := 255 + 1) (v := 524288) (q := 0) (by decide) (by decide) (by decide)]
      exact mapped₁
    have row₂ : mappages d KERNLINK (dataPa - EXTMEM) EXTMEM 0#32 r₁ = .ok ((), r₂) := by
      rw [mappages_eq (n := 8 + 1) (v := 524544) (q := 256) (by decide) (by decide) (by decide)]
      exact mapped₂
    have row₃ :
        mappages d (KERNBASE + dataPa) (PHYSTOP - dataPa) dataPa PTE_W r₂ = .ok ((), r₃) := by
      rw [mappages_eq (n := 758 + 1) (v := 524553) (q := 265) (by decide) (by decide) (by decide)]
      exact mapped₃
    have row₄ : mappages d DEVSPACE 33554432 DEVSPACE PTE_W r₃ = .ok ((), r₄) := by
      rw [mappages_eq (n := 8191 + 1) (v := 1040384) (q := 1040384) (by decide) (by decide)
        (by decide)]
      exact mapped₄
    rw [kmap_eq, mapKernel_cons (k := ⟨KERNBASE, 0, EXTMEM, PTE_W⟩) rfl row₁,
      mapKernel_cons (k := ⟨KERNLINK, EXTMEM, dataPa - EXTMEM, 0#32⟩) rfl row₂,
      mapKernel_cons (k := ⟨KERNBASE + dataPa, dataPa, PHYSTOP - dataPa, PTE_W⟩) rfl row₃,
      mapKernel_cons (k := ⟨DEVSPACE, DEVSPACE, 33554432, PTE_W⟩) rfl row₄]
    rfl
  · simp only [List.length_append, count₁, count₂, count₃, count₄]
  · intro i low
    rw [outer₄ i (by omega)]
    exact others i (by omega)
  · intro i high
    exact there₄ i high (by omega)

/-- setupkvm takes ten pages: the directory and nine page tables. -/
theorem setupkvm_room (rep : Rep g s) (quiet : Quiet g s.log) (room : 10 ≤ s.freelist.length) :
    ∃ d t used, setupkvm s = .ok (d, t) ∧ used.length = 9 ∧
      s.freelist = d :: used ++ t.freelist ∧
      (∃ mem refcnt free n, t =
        { s with mem := mem, pageToRefcnt := refcnt, freelist := free, numFreePages := n }) ∧
      (∀ {x}, x ≠ d → x ∉ used → t.mem x = s.mem x) ∧
      (∀ {x}, x ≠ d → x ∉ used → t.pageToRefcnt x = s.pageToRefcnt x) ∧
      (∀ i : Fin 1024, i.val < 512 → tablePage t.mem d i = none) ∧
      (∀ i : Fin 1024, 1016 ≤ i.val → tablePage t.mem d i ≠ none) ∧
      ∀ i x, tablePage t.mem d i = some x → x ∈ used := by
  obtain ⟨d, rest, list⟩ : ∃ d rest, s.freelist = d :: rest := by
    cases list : s.freelist with
    | nil => rw [list] at room; cases room
    | cons d rest => exact ⟨d, rest, rfl⟩
  obtain ⟨low, high, fresh, unlinked⟩ := rep.free_apart (q := d)
    (by rw [list]; exact List.mem_cons_self)
  have taken := rep.pop list
  have clean := taken.refill zeroPage
  have adopted := clean.adopt (update_self _ _ _)
  rw [Ghost.drop_hold _ fresh.2] at adopted
  have loose : g.Loose d := Ghost.loose_of_fresh rep.layout fresh
  have blank : ∀ i, tablePage (Function.update s.mem d zeroPage) d i = none := by
    intro i
    rw [tablePage, update_self]
    exact if_neg (by decide : ¬ has 0#32 PTE_P = true)
  rw [list, List.length_cons] at room
  obtain ⟨t, used, mapped, carves, count, low', devices⟩ := mapKernel_room adopted quiet
    (Finset.mem_insert_self d g.dirs) loose blank (by change 9 ≤ rest.length; omega)
  refine ⟨d, t, used, ?_, count, ?_, ?_, ?_, ?_, low', devices, ?_⟩
  · unfold setupkvm
    rw [bind_of_ok (kalloc_cons list),
      bind_of_ok (storePage_ok_iff.mpr ⟨high, rfl⟩ : _ = Except.ok ((), _)),
      bind_of_ok mapped]
    rfl
  · rw [list, List.cons_append, ← carves.freelist]
    rfl
  · obtain ⟨mem, refcnt, free, n, rfl⟩ := carves.shape
    exact ⟨mem, refcnt, free, n, rfl⟩
  · intro x other outside
    rw [carves.mem other outside
      (fun i found => absurd ((blank i).symm.trans found) (Option.some_ne_none _).symm)]
    exact update_of_ne other _ _
  · intro x other outside
    rw [carves.refcnt outside]
    exact update_of_ne other _ _
  · intro i x found
    exact (carves.added found).resolve_left
      fun before => absurd ((blank i).symm.trans before) (Option.some_ne_none _).symm

/-! ## User pages -/

/-- The flags of a page fresh from the allocator. -/
def userWord (q : Nat) : Word := pageWord q ||| (PTE_W ||| PTE_U) ||| PTE_P

theorem userWord_map {q : Nat} (small : q < NPHYS) : MapWord q (PTE_W ||| PTE_U) (userWord q) :=
  mapWord (small.trans (by decide)) (low_or low_W low_U)

/-- A new user page takes a frame, and a page table where there is none. -/
theorem newPage_room (page : Page) (perm : Word) (rep : Rep g s) (inside : d ∈ g.dirs)
    (user : v < NUPAGE) (vacant : g.space d v = none)
    (room : (if tablePage s.mem d (pdx v) = none then 2 else 1) ≤ s.freelist.length) :
    ∃ q rest t used, s.freelist = q :: rest ∧ q < NPHYS ∧
      mapPage d perm v q
        { popFree s q rest with mem := Function.update s.mem q page } = .ok ((), t) ∧
      Carves s t d (q :: used) ∧
      used.length = (if tablePage s.mem d (pdx v) = none then 1 else 0) ∧
      tablePage t.mem d (pdx v) ≠ none ∧
      (∀ i, i ≠ pdx v → tablePage t.mem d i = tablePage s.mem d i) ∧
      pteOf t.mem d v = pageWord q ||| perm ||| PTE_P ∧
      ∀ w, w < NVPAGE → w ≠ v → pteOf t.mem d w = pteOf s.mem d w := by
  obtain ⟨q, rest, list⟩ : ∃ q rest, s.freelist = q :: rest := by
    cases list : s.freelist with
    | nil =>
      rw [list, List.length_nil] at room
      split at room <;> cases room
    | cons q rest => exact ⟨q, rest, rfl⟩
  obtain ⟨low, high, fresh, unlinked⟩ := rep.free_apart (q := q)
    (by rw [list]; exact List.mem_cons_self)
  have taken := rep.pop list
  have clean := taken.refill page
  have keeps : Keeps g s.mem (Function.update s.mem q page) :=
    Keeps.page s.mem page fresh.1 unlinked
  have tables : ∀ i, tablePage (Function.update s.mem q page) d i = tablePage s.mem d i :=
    fun i => keeps.table inside i
  have absent : has (pteOf (Function.update s.mem q page) d v) PTE_P = false := by
    rw [keeps.entry inside (user_lt user), rep.vacant inside user vacant]
    decide
  obtain ⟨t, used, mapped, carves, count, there, others, entry, entries⟩ :=
    @mapPage_room (g.hold q page)
      { popFree s q rest with mem := Function.update s.mem q page } d v q perm
      clean inside (user_lt user) absent (by
        intro missing
        dsimp only at missing
        rw [tables] at missing
        rw [if_pos missing, list, List.length_cons] at room
        intro empty
        change rest = [] at empty
        rw [empty] at room
        exact absurd room (by decide))
  refine ⟨q, rest, t, used, list, high, mapped, ?_, ?_, there, ?_, entry, ?_⟩
  · have start : Carves s { popFree s q rest with mem := Function.update s.mem q page } d [q] := by
      refine ⟨⟨_, _, _, _, rfl⟩, list, ?_, ?_, ?_, ?_⟩
      · intro x _ outside _
        exact update_of_ne (fun same => outside (List.mem_singleton.mpr same)) _ _
      · intro x outside
        exact update_of_ne (fun same => outside (List.mem_singleton.mpr same)) _ _
      · intro i x found
        exact (tables i).trans found
      · intro i x found
        exact Or.inl ((tables i).symm.trans found)
    exact start.trans carves
  · rw [count]
    exact congrArg (fun table => if table = none then 1 else 0) (tables (pdx v))
  · intro i other
    exact (others i other).trans (tables i)
  · intro w small other
    exact (entries w small other).trans (keeps.entry inside small)

/-- The state with `n` pages added to rss. -/
def raise (s : Kernel) (p : Fin NPROC) (n : Nat) : Kernel :=
  setProc s p { s.ptable p with rss := (s.ptable p).rss + BitVec.ofNat 32 (n * PGSIZE) }

theorem raise_zero (s : Kernel) (p : Fin NPROC) : raise s p 0 = s := by
  unfold raise setProc
  rw [show BitVec.ofNat 32 (0 * PGSIZE) = 0#32 from rfl, BitVec.add_zero, Function.update_eq_self]

theorem raise_raise (s : Kernel) (p : Fin NPROC) (m n : Nat) :
    raise (raise s p m) p n = raise s p (m + n) := by
  unfold raise setProc
  dsimp only
  rw [update_self, Function.update_idem, Nat.add_mul, BitVec.ofNat_add, ← BitVec.add_assoc]

theorem Carves.raised {used : List Nat} (carves : Carves s t d used) (p : Fin NPROC) (n : Nat) :
    Carves (raise s p n) (raise t p n) d used := by
  obtain ⟨mem, refcnt, free, num, rfl⟩ := carves.shape
  exact ⟨⟨mem, refcnt, free, num, rfl⟩, carves.freelist, carves.mem, carves.refcnt, carves.kept,
    carves.added⟩

/-- allocuvm's loop has added `n` pages from `v` on; `used` are the frames and the new page
tables. -/
structure Allocated (p : Fin NPROC) (d v n : Nat) (s t : Kernel) (used : List Nat) : Prop where
  carves : Carves (raise s p n) t d used
  others : ∀ w, w < NVPAGE → w < v ∨ v + n ≤ w → pteOf t.mem d w = pteOf s.mem d w
  frames : ∀ w, v ≤ w → w < v + n → ∃ q, q ∈ used ∧ q < NPHYS ∧ pteOf t.mem d w = userWord q
  budget : ∀ k, (missing t.mem d (v + n) k).card + used.length ≤ n +
    (missing s.mem d v (n + k)).card
  inOrder : (∀ u, v ≤ u → u < v + n → tablePage s.mem d (pdx u) ≠ none) → used.length = n ∧
    ∀ k, k < n → pteOf t.mem d (v + k) = userWord (s.freelist.getD k 0)

namespace Allocated

variable {p : Fin NPROC} {n : Nat} {used : List Nat}

theorem shape (done : Allocated p d v n s t used) : ∃ mem refcnt free num, t = { s with
    mem := mem, pageToRefcnt := refcnt, freelist := free, numFreePages := num
    ptable := Function.update s.ptable p
      { s.ptable p with rss := (s.ptable p).rss + BitVec.ofNat 32 (n * PGSIZE) } } :=
        done.carves.shape

theorem freelist (done : Allocated p d v n s t used) : s.freelist = used ++ t.freelist :=
  done.carves.freelist

theorem present (done : Allocated p d v n s t used) {w : Nat} (low : v ≤ w) (high : w < v + n) :
    has (pteOf t.mem d w) PTE_P = true := by
  obtain ⟨q, -, small, entry⟩ := done.frames w low high
  rw [entry]
  exact (userWord_map small).present

end Allocated

/-- allocuvm's loop takes a page a round, and one for each page table that is not there. -/
theorem allocLoop_room {p : Fin NPROC} {n : Nat} (rep : Rep g s) (quiet : Quiet g s.log)
    (inside : d ∈ g.dirs) (loose : g.Loose d) (fits : v + n ≤ NUPAGE)
    (vacant : ∀ u, v ≤ u → u < v + n → g.space d u = none)
    (room : n + (missing s.mem d v n).card ≤ s.freelist.length) :
    ∃ t used, allocLoop p d n v s = .ok ((), t) ∧ Allocated p d v n s t used := by
  induction n generalizing v g s with
  | zero =>
    refine ⟨s, [], rfl, ?_, fun _ _ _ => rfl, fun w low high => absurd high (by omega), fun k => ?_,
      fun _ => ⟨rfl, fun k small => absurd small (Nat.not_lt_zero k)⟩⟩
    · rw [raise_zero]
      exact Carves.refl s d
    · rw [Nat.zero_add, List.length_nil, Nat.add_zero, Nat.zero_add, Nat.add_zero]
  | succ n ih =>
    obtain ⟨q, rest, r, used, list, high, mapped, carves, count, there, others, entry, entries⟩ :=
      newPage_room zeroPage (PTE_W ||| PTE_U) rep inside (by omega)
      (vacant v (Nat.le_refl v) (by omega)) (by
        split
        · rename_i absent
          have positive := missing_pos (n := n) absent
          omega
        · omega)
    have allocated := kalloc_cons list
    have zeroed : storePage q zeroPage (popFree s q rest) = .ok ((), _) :=
      storePage_ok_iff.mpr ⟨high, rfl⟩
    obtain ⟨-, rep', -⟩ := newPage_spec rep inside (by omega) loose
      (vacant v (Nat.le_refl v) (by omega)) allocated zeroed mapped
      (by rw [carves.log]; exact quiet)
    have length := congrArg List.length carves.freelist
    rw [List.length_append, List.length_cons] at length
    have below : v < NVPAGE := by
      rw [NVPAGE_eq]
      rw [NUPAGE_eq] at fits
      omega
    have step :
        setProc r p { r.ptable p with rss := (r.ptable p).rss + BitVec.ofNat 32 PGSIZE } =
        raise r p 1 := by
      unfold raise
      rw [Nat.one_mul]
    obtain ⟨t, more, done, rest'⟩ := ih (v := v + 1) (s := raise r p 1)
      (rep'.setRss p _) (by change Quiet g r.log; rw [carves.log]; exact quiet) inside loose
      (by omega) (by
        intro u low high
        change (if d = d ∧ u = v then _ else g.space d u) = none
        rw [if_neg (by omega)]
        exact vacant u (by omega) (by omega)) (by
        change n + (missing r.mem d (v + 1) n).card ≤ r.freelist.length
        have fewer := missing_succ (n := n) there others
        omega)
    have first : pteOf t.mem d v = userWord q := by
      rw [rest'.others v below (by omega)]
      exact entry
    refine ⟨t, q :: used ++ more, ?_, ?_, ?_, ?_, ?_, ?_⟩
    · rw [allocLoop, bind_of_ok allocated, bind_of_ok zeroed]
      refine (bind_of_ok ((mappages_page d v q _ _).trans mapped)).trans ?_
      rw [addRss, updateProc, Prog.update_bind, step]
      exact done
    · have early := carves.raised p (1 + n)
      rw [← raise_raise r] at early
      rw [Nat.add_comm n 1]
      exact early.trans rest'.carves
    · intro w small apart
      rw [rest'.others w small (by omega)]
      exact entries w small (by omega)
    · intro w low high'
      by_cases here : w = v
      · rw [here]
        exact ⟨q, List.mem_append_left _ List.mem_cons_self, high, first⟩
      · obtain ⟨x, taken, small, word⟩ := rest'.frames w (by omega) (by omega)
        exact ⟨x, List.mem_append_right _ taken, small, word⟩
    · intro k
      have later := rest'.budget k
      have fewer := missing_succ (n := n + k) there others
      change (missing t.mem d (v + 1 + n) k).card + more.length ≤ n +
        (missing r.mem d (v + 1) (n + k)).card at later
      rw [List.length_append, List.length_cons, count, show v + (n + 1) = v + 1 + n by omega,
        show n + 1 + k = n + k + 1 by omega]
      omega
    · intro tables
      have alone : used = [] := by
        refine List.eq_nil_of_length_eq_zero ?_
        rw [count, if_neg (tables v (Nat.le_refl v) (by omega))]
      obtain ⟨count', frames⟩ := rest'.inOrder fun u low high' absent => by
        obtain ⟨x, found⟩ := Option.ne_none_iff_exists'.mp (tables u (by omega) (by omega))
        change tablePage r.mem d (pdx u) = none at absent
        rw [carves.kept found] at absent
        cases absent
      refine ⟨by rw [List.length_append, List.length_cons, alone, List.length_nil, count']; omega,
        fun k small => ?_⟩
      cases k with
      | zero =>
        rw [Nat.add_zero, first, list]
        rfl
      | succ k =>
        have tail :
        s.freelist = q :: r.freelist := by rw [carves.freelist, alone, List.singleton_append]
        rw [show v + (k + 1) = v + 1 + k by omega, frames k (by omega), tail]
        rfl

/-! ## Sharing pages -/

theorem Carves.others {used : List Nat} {e : Nat} (carves : Carves s t d used) (rep : Rep g s)
    (inside : d ∈ g.dirs) (member : e ∈ g.dirs) (apart : e ≠ d) :
    (∀ i, tablePage t.mem e i = tablePage s.mem e i) ∧ ∀ w, pteOf t.mem e w = pteOf s.mem e w := by
  have free : ∀ {x}, x ∈ used → x ∈ s.freelist := by
    intro x taken
    rw [carves.freelist]
    exact List.mem_append_left _ taken
  have same : t.mem e = s.mem e := carves.mem apart
    (fun taken => (rep.free_apart (free taken)).2.2.1.1 member)
    (fun i table => rep.layout.table_not_dir inside table member)
  have tables : ∀ i, tablePage t.mem e i = tablePage s.mem e i := fun i => tablePage_congr same i
  refine ⟨tables, fun w => ?_⟩
  cases table : tablePage s.mem e (pdx w) with
  | none => rw [pteOf_of_none table, pteOf_of_none ((tables _).trans table)]
  | some x =>
    rw [pteOf_of_table table, pteOf_of_table ((tables _).trans table)]
    refine congrFun (carves.mem ?_ ?_ ?_) _
    · rintro rfl
      exact rep.layout.table_not_dir member table inside
    · exact fun taken => (rep.free_apart (free taken)).2.2.2 e member _ table
    · exact fun i other => apart (rep.layout.table_unique member inside table other).1

/-- The entry a child gets for a page it shares. -/
def sharedWord (w : Word) : Word := pageWord (ppn w) ||| (pteFlags w &&& ~~~PTE_W) ||| PTE_P

theorem cowRound_room {p : Fin NPROC} {pgdir : Nat} (rep : Rep g s) (source : pgdir ∈ g.dirs)
    (inside : d ∈ g.dirs) (apart : pgdir ≠ d) (steady : g.Loose pgdir) (user : v < NUPAGE)
    (vacant : g.space d v = none) (present : has (pteOf s.mem pgdir v) PTE_P = true)
    (room : tablePage s.mem d (pdx v) = none → s.freelist ≠ []) :
    ∃ t used, (∀ n, cowLoop p d pgdir (n + 1) v s = cowLoop p d pgdir n (v + 1) t) ∧
      s.freelist = used ++ t.freelist ∧
      used.length = (if tablePage s.mem d (pdx v) = none then 1 else 0) ∧
      (∃ mem refcnt free num, t = { s with
        mem := mem, pageToRefcnt := refcnt, freelist := free, numFreePages := num
        ptable := Function.update s.ptable p
          { s.ptable p with rss := (s.ptable p).rss + BitVec.ofNat 32 PGSIZE } }) ∧
      (∀ i, tablePage t.mem pgdir i = tablePage s.mem pgdir i) ∧
      (∀ {i x}, tablePage s.mem d i = some x → tablePage t.mem d i = some x) ∧
      (∀ i, i ≠ pdx v → tablePage t.mem d i = tablePage s.mem d i) ∧
      tablePage t.mem d (pdx v) ≠ none ∧
      pteOf t.mem d v = sharedWord (pteOf s.mem pgdir v) ∧
      pteOf t.mem pgdir v = pteOf s.mem pgdir v &&& ~~~PTE_W ∧
      (∀ w, w < NVPAGE → w ≠ v → pteOf t.mem d w = pteOf s.mem d w) ∧
      ∀ w, w < NVPAGE → w ≠ v → pteOf t.mem pgdir w = pteOf s.mem pgdir w := by
  obtain ⟨x, table⟩ := table_of_pteOf (ne_zero_of_present present)
  have entry := pteOf_of_table table
  obtain ⟨pooled, -⟩ := rep.entries.frame source user (frameOf_present present)
  have high := (rep.layout.pool_bounds _ pooled).2
  obtain ⟨s₁, counted⟩ : ∃ s₁ : Kernel, s₁ = setProc s p
      { s.ptable p with rss := (s.ptable p).rss + BitVec.ofNat 32 PGSIZE } := ⟨_, rfl⟩
  have mem₁ : s₁.mem = s.mem := by rw [counted]; rfl
  have rep₁ : Rep g s₁ := by
    rw [counted]
    exact rep.setRss p _
  obtain ⟨rep₂, -, -, -, -⟩ := rep₁.protect source user steady (by rw [mem₁]; exact table)
    (by rw [mem₁]; exact present)
  rw [mem₁] at rep₂
  have rewrites :
    Rewrites g s.mem (setWord s.mem ⟨x, ptx v⟩ (pteOf s.mem pgdir v &&& ~~~PTE_W)) pgdir v
      (pteOf s.mem pgdir v &&& ~~~PTE_W) :=
    rep.layout.rewrites (Keeps.refl g s.mem) source (user_lt user) table _
  have blank : pteOf (setWord s.mem ⟨x, ptx v⟩ (pteOf s.mem pgdir v &&& ~~~PTE_W)) d v = 0#32 := by
    rw [rewrites.others inside (user_lt user) (fun both => apart both.1.symm)]
    exact rep.vacant inside user vacant
  obtain ⟨s₂, protected'⟩ : ∃ s₂ : Kernel, s₂ = { s₁ with
      mem := setWord s.mem ⟨x, ptx v⟩ (pteOf s.mem pgdir v &&& ~~~PTE_W) } := ⟨_, rfl⟩
  have mem₂ : s₂.mem = setWord s.mem ⟨x, ptx v⟩ (pteOf s.mem pgdir v &&& ~~~PTE_W) := by
    rw [protected']
  have free₂ : s₂.freelist = s.freelist := by
    rw [protected', counted]
    rfl
  rw [← protected'] at rep₂
  have missing : tablePage s₂.mem d (pdx v) = tablePage s.mem d (pdx v) := by
    rw [mem₂]
    exact rewrites.table inside _
  obtain ⟨s₃, used, mapped, carves, count, there, apart', here, entries⟩ :=
    @mapPage_room _ _ d v (ppn (pteOf s.mem pgdir v)) (pteFlags (pteOf s.mem pgdir v) &&& ~~~PTE_W)
      rep₂ inside (user_lt user) (by rw [mem₂, blank]; decide)
      (by rw [missing, free₂]; exact room)
  obtain ⟨tables, rest⟩ := carves.others rep₂ inside source apart
  refine ⟨{ s₃ with
      pageToRefcnt := Function.update s₃.pageToRefcnt (ppn (pteOf s.mem pgdir v))
        (s₃.pageToRefcnt (ppn (pteOf s.mem pgdir v)) + 1) }, used, ?_, ?_, ?_, ?_, ?_, ?_, ?_,
          there,
    here, ?_, ?_, ?_⟩
  · intro n
    rw [cowLoop, addRss, updateProc, Prog.update_bind]
    have found : presentEntry pgdir v s₁ = .ok ((⟨x, ptx v⟩, pteOf s.mem pgdir v), s₁) := by
      unfold presentEntry
      rw [bind_of_ok (walk_of_table (rep.dir_lt source) (by rw [mem₁]; exact table))]
      dsimp only
      have loaded : loadWord ⟨x, ptx v⟩ s₁ = .ok (pteOf s.mem pgdir v, s₁) :=
        loadWord_ok_iff.mpr ⟨rep.table_lt source table, by rw [mem₁]; exact entry, rfl⟩
      rw [bind_of_ok loaded, if_pos present]
      rfl
    have stored : storeWord ⟨x, ptx v⟩ (pteOf s.mem pgdir v &&& ~~~PTE_W) s₁ = .ok ((), s₂) := by
      refine storeWord_ok_iff.mpr ⟨rep.table_lt source table, ?_⟩
      rw [protected', mem₁]
    rw [counted] at found stored
    refine (bind_of_ok found).trans ?_
    refine (bind_of_ok stored).trans ?_
    refine (bind_of_ok ((mappages_page d v _ _ _).trans mapped)).trans ?_
    refine (bind_of_ok (loadRefcnt_ok_iff.mpr ⟨high, rfl, rfl⟩)).trans ?_
    exact bind_of_ok (storeRefcnt_ok_iff.mpr ⟨high, rfl⟩ : _ = Except.ok ((), _))
  · rw [← free₂]
    exact carves.freelist
  · rw [count, missing]
  · obtain ⟨mem, refcnt, free, num, rfl⟩ := carves.shape
    refine ⟨mem, Function.update refcnt (ppn (pteOf s.mem pgdir v))
      (refcnt (ppn (pteOf s.mem pgdir v)) + 1), free, num, ?_⟩
    rw [protected', counted]
    rfl
  · intro i
    refine (tables i).trans ?_
    rw [mem₂]
    exact rewrites.table source i
  · intro i y found
    refine carves.kept ?_
    rw [mem₂]
    exact (rewrites.table inside i).trans found
  · intro i other
    refine (apart' i other).trans ?_
    rw [mem₂]
    exact rewrites.table inside i
  · refine (rest v).trans ?_
    rw [mem₂]
    exact rewrites.here
  · intro w small other
    refine (entries w small other).trans ?_
    rw [mem₂]
    exact rewrites.others inside small (fun both => other both.2)
  · intro w small other
    refine (rest w).trans ?_
    rw [mem₂]
    exact rewrites.others source small (fun both => other both.2)

theorem cowLoop_room {p : Fin NPROC} {pgdir n : Nat} (rep : Rep g s) (quiet : Quiet g s.log)
    (source : pgdir ∈ g.dirs) (inside : d ∈ g.dirs) (apart : pgdir ≠ d) (loose : g.Loose d)
    (steady : g.Loose pgdir) (fits : v + n ≤ NUPAGE)
    (vacant : ∀ u, v ≤ u → u < v + n → g.space d u = none)
    (present : ∀ u, v ≤ u → u < v + n → has (pteOf s.mem pgdir u) PTE_P = true)
    (room : (missing s.mem d v n).card ≤ s.freelist.length) :
    ∃ t used, cowLoop p d pgdir n v s = .ok ((), t) ∧ s.freelist = used ++ t.freelist ∧
      used.length = (missing s.mem d v n).card ∧
      (∃ mem refcnt free num, t = { s with
        mem := mem, pageToRefcnt := refcnt, freelist := free, numFreePages := num
        ptable := Function.update s.ptable p
          { s.ptable p with rss := (s.ptable p).rss + BitVec.ofNat 32 (n * PGSIZE) } }) ∧
      (∀ i, tablePage t.mem pgdir i = tablePage s.mem pgdir i) ∧
      (∀ u, v ≤ u → u < v + n → tablePage t.mem d (pdx u) ≠ none ∧
        pteOf t.mem d u = sharedWord (pteOf s.mem pgdir u) ∧
        pteOf t.mem pgdir u = pteOf s.mem pgdir u &&& ~~~PTE_W) ∧
      (∀ {i x}, tablePage s.mem d i = some x → tablePage t.mem d i = some x) ∧
      ∀ w, w < NVPAGE → w < v ∨ v + n ≤ w → pteOf t.mem d w = pteOf s.mem d w ∧
        pteOf t.mem pgdir w = pteOf s.mem pgdir w := by
  induction n generalizing v g s with
  | zero =>
    refine ⟨s, [], rfl, rfl, rfl, ⟨s.mem, s.pageToRefcnt, s.freelist, s.numFreePages, ?_⟩,
      fun _ => rfl,
      fun u low high => absurd high (by omega), fun found => found, fun _ _ _ => ⟨rfl, rfl⟩⟩
    rw [show BitVec.ofNat 32 (0 * PGSIZE) = 0#32 from rfl, BitVec.add_zero, Function.update_eq_self]
  | succ n ih =>
    obtain ⟨r, used, first, list, count, ⟨mem₁, refcnt₁, free₁, num₁, shape₁⟩, tables, kept, rest',
      there,
      here, source', others, others'⟩ :=
      cowRound_room (p := p) rep source inside apart steady (by omega)
        (vacant v (Nat.le_refl v) (by omega)) (present v (Nat.le_refl v) (by omega))
        (nonempty_of_missing room)
    have fewer := missing_succ (n := n) there rest'
    have log₁ : r.log = s.log := by rw [shape₁]
    have rep₁ :=
      @cowLoop_spec _ _ _ _ _ _ _ _ 1 (g.space pgdir) rep source inside apart loose steady
      (by omega) (fun _ _ _ => rfl) (fun u low high => vacant u low (by omega))
      ((first 0).trans rfl) (by rw [log₁]; exact quiet) (by
        intro e evicted
        unfold Evicted at evicted
        rw [log₁, since_self] at evicted
        cases evicted)
    have length := congrArg List.length list
    rw [List.length_append] at length
    obtain ⟨t, more, rest, list', count', ⟨mem₂, refcnt₂, free₂, num₂, shape₂⟩, tables', inner,
      kept',
      outer⟩ := ih (v := v + 1) rep₁ (by rw [log₁]; exact quiet) source inside loose steady
      (by omega)
        (by
          intro u low high
          change (if d = d ∧ v ≤ u ∧ u < v + 1 then _ else g.space d u) = none
          rw [if_neg (by omega)]
          exact vacant u (by omega) (by omega))
        (by
          intro u low high
          rw [others' u (user_lt (by omega)) (by omega)]
          exact present u (by omega) (by omega))
        (by omega)
    refine ⟨t, used ++ more, (first n).trans rest, ?_, ?_, ⟨mem₂, refcnt₂, free₂, num₂, ?_⟩, ?_, ?_,
      fun found => kept' (kept found), ?_⟩
    · rw [list, list', List.append_assoc]
    · rw [List.length_append]
      omega
    · rw [shape₂, shape₁]
      dsimp only
      rw [update_self, Function.update_idem]
      dsimp only
      rw [BitVec.add_assoc, ← BitVec.ofNat_add, show PGSIZE + n * PGSIZE = (n + 1) * PGSIZE by
        rw [Nat.succ_mul, Nat.add_comm]]
    · exact fun i => (tables' i).trans (tables i)
    · intro u low high
      by_cases last : u = v
      · subst last
        obtain ⟨same, same'⟩ := outer u (user_lt (by omega)) (by omega)
        rw [same, same', here, source']
        refine ⟨fun absent => ?_, rfl, rfl⟩
        obtain ⟨x, found⟩ := Option.ne_none_iff_exists'.mp there
        rw [kept' found] at absent
        cases absent
      · rw [← others' u (user_lt (by omega)) last]
        exact inner u (by omega) (by omega)
    · intro w small outside
      obtain ⟨same, same'⟩ := outer w small (by omega)
      rw [same, same', others w small (by omega), others' w small (by omega)]
      exact ⟨rfl, rfl⟩

end Xv6Cow
