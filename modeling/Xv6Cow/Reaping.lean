import Xv6Cow.ForkSafety

/- wait and freevm get through: what they give back, and what they leave in the process
table. -/
namespace Xv6Cow

open Function (update_self update_of_ne)
open Prog (bind_of_ok read_bind)

variable {loan : Set Nat} {g : Ghost} {s t : Kernel} {d v : Nat} {p q : Fin NPROC}

/-- Pages have been given back and written over, and nothing else has happened. -/
def GivesBack (s t : Kernel) : Prop :=
  ∃ mem refcnt free num, t = { s with
    mem := mem, pageToRefcnt := refcnt, freelist := free, numFreePages := num } ∧
    s.freelist <:+ free

theorem GivesBack.refl (s : Kernel) : GivesBack s s :=
  ⟨s.mem, s.pageToRefcnt, s.freelist, s.numFreePages, rfl, List.suffix_refl _⟩

theorem GivesBack.trans {u : Kernel} (first : GivesBack s t) (second : GivesBack t u) :
    GivesBack s u := by
  obtain ⟨mem₁, refcnt₁, free₁, num₁, rfl, more₁⟩ := first
  obtain ⟨mem₂, refcnt₂, free₂, num₂, rfl, more₂⟩ := second
  exact ⟨mem₂, refcnt₂, free₂, num₂, rfl, more₁.trans more₂⟩

theorem release_suffix (pool : (Nat → Int) × List Nat) (q : Nat) :
    pool.2 <:+ (release pool q).2 := by
  unfold release
  split
  · exact List.suffix_refl _
  · exact List.suffix_cons q _

theorem foldl_release_suffix (frames : List Nat) (pool : (Nat → Int) × List Nat) :
    pool.2 <:+ (frames.foldl release pool).2 := by
  induction frames generalizing pool with
  | nil => exact List.suffix_refl _
  | cons q rest ih => exact (release_suffix pool q).trans (ih _)

theorem kfreed_givesBack (s : Kernel) (q : Nat) : GivesBack s (kfreed s q) := by
  obtain ⟨mem, refcnt, free, num, shape⟩ := kfreed_shape s q
  refine ⟨mem, refcnt, free, num, shape, ?_⟩
  have counts :
    (kfreed s q).freelist = (release s.counts q).2 := congrArg Prod.snd (kfreed_counts s q)
  have more := release_suffix s.counts q
  rw [← counts, shape] at more
  exact more

theorem Rep.kfree_held {k : Nat} {page : Page} (rep : Rep g s) (held : g.held k = some page) :
    kfree k s = .ok ((), kfreed s k) := by
  obtain ⟨low, high⟩ := rep.layout.pool_bounds k (rep.layout.pins_pool k (held_mem_pins held))
  exact kfree_ok_iff.mpr ⟨low, high, rfl⟩

theorem freeTables_room {m : Nat → Page} {k n : Nat} (layout : Layout g m) (inside : d ∈ g.dirs)
    (rep : Rep (g.retire d m k) s) (total : k + n = 1024) :
    ∃ t, freeTables d n k s = .ok ((), t) ∧ GivesBack s t ∧
      ∀ y, (∀ i, tablePage m d i ≠ some y) → SameAt s t y := by
  induction n generalizing k s with
  | zero => exact ⟨s, rfl, GivesBack.refl s, fun y _ => SameAt.refl s y⟩
  | succ n ih =>
    have index : (ptx k).val = k := by
      simp only [ptx]
      omega
    have mine : (g.retire d m k).held d = some (m d) := by
      simp only [Ghost.retire, true_or, ↓reduceIte]
    have bytes : s.mem d = m d := rep.layout.held_bytes mine
    have bound := (rep.layout.pool_bounds d (rep.layout.pins_pool d (held_mem_pins mine))).2
    have loaded : loadWord ⟨d, ptx k⟩ s = .ok (m d (ptx k), s) :=
      loadWord_ok_iff.mpr ⟨bound, by rw [bytes], rfl⟩
    have first : ∃ r, freeTable (m d (ptx k)) s = .ok ((), r) ∧ GivesBack s r ∧
        (∀ y, (∀ i, tablePage m d i ≠ some y) → SameAt s r y) ∧ Rep (g.retire d m (k + 1)) r := by
      unfold freeTable
      rw [Prog.ite_apply]
      split
      · rename_i present
        have table : tablePage m d (ptx k) = some (ppn (m d (ptx k))) :=
          tablePage_eq_some.mpr ⟨present, rfl⟩
        have held : (g.retire d m k).held (ppn (m d (ptx k))) = some (m (ppn (m d (ptx k)))) :=
          if_pos (Or.inr ⟨ptx k, Nat.le_of_eq index.symm, table⟩)
        have next := Ghost.retire_drop layout inside table
        rw [index] at next
        refine ⟨_, rep.kfree_held held, kfreed_givesBack s _, fun y apart => kfreed_sameAt s ?_, ?_⟩
        · rintro rfl
          exact apart _ table
        · rw [← next]
          exact rep.release held
      · rename_i absent
        have next := Ghost.retire_skip (g := g) (d := d) (m := m) (i := ptx k)
          (by rw [tablePage, if_neg absent])
        rw [index] at next
        refine ⟨s, rfl, GivesBack.refl s, fun y _ => SameAt.refl s y, ?_⟩
        rw [← next]
        exact rep
    obtain ⟨r, freed, back, same, rep'⟩ := first
    obtain ⟨t, rest, back', same'⟩ := ih rep' (by omega)
    refine ⟨t, ?_, back.trans back', fun y apart => (same y apart).trans (same' y apart)⟩
    rw [freeTables, bind_of_ok loaded, bind_of_ok freed]
    exact rest

/-- The part of freevm and freevm_proc after the user pages are gone. -/
theorem freeDir_room (rep : Rep g s) (inside : d ∈ g.dirs) (loose : g.Loose d)
    (empty : ∀ v, v < NUPAGE → g.space d v = none)
    (unused : ∀ p, (s.ptable p).live = true → g.leaving ≠ some p → (s.ptable p).pgdir ≠ d) :
    ∃ u t, freeTables d NPDENTRIES 0 s = .ok ((), u) ∧ kfree d u = .ok ((), t) ∧ GivesBack s t ∧
      t.freelist.head? = some d ∧ t.pageToRefcnt d = 1 ∧
      ∀ y, y ≠ d → (∀ i, tablePage s.mem d i ≠ some y) → SameAt s t y := by
  have retired := rep.retire inside loose
    (fun {v} user => rep.vacant inside user (empty v user)) unused
  obtain ⟨u, freed, back, same⟩ :=
    freeTables_room rep.layout inside retired (by rfl : 0 + NPDENTRIES = 1024)
  have last := freeTables_spec rep.layout inside retired (by rfl) freed
  have held : (g.retire d s.mem 1024).held d = some (s.mem d) := if_pos (Or.inl rfl)
  refine ⟨u, _, freed, last.kfree_held held, back.trans (kfreed_givesBack u d), ?_, ?_,
    fun y other apart => (same y apart).trans (kfreed_sameAt u other)⟩
  · rw [last.kfreed_held held]
    rfl
  · rw [last.kfreed_held held]
    exact last.refcnt_held held

/-- The user pages of a directory are released, and then the directory; freevm and freevm_proc
differ in what they do with swapped pages. -/
theorem teardown_room (swapped : PtePtr → K Unit) (rep : Rep g s) (inside : d ∈ g.dirs)
    (loose : g.Loose d) (clear : ∀ u, u < NUPAGE → isSwapped (pteOf s.mem d u) = false)
    (unused : ∀ p, (s.ptable p).live = true → g.leaving ≠ some p → (s.ptable p).pgdir ≠ d) :
    ∃ r u t, deallocLoop p swapped d NUPAGE 0 s = .ok ((), r) ∧
      freeTables d NPDENTRIES 0 r = .ok ((), u) ∧
      kfree d u = .ok ((), t) ∧ GivesBack (setProc s p { s.ptable p with
        rss := (s.ptable p).rss - BitVec.ofNat 32 ((framesIn s.mem d 0 NUPAGE).length * PGSIZE) })
        t ∧
      t.freelist.head? = some d ∧ t.pageToRefcnt d = 1 ∧
      ∀ y, y ≠ d → (∀ i, tablePage s.mem d i ≠ some y) → y ∉ framesIn s.mem d 0 NUPAGE →
      SameAt s t y := by
  obtain ⟨r, looped, released⟩ := deallocLoop_room (p := p) (v := 0) swapped rep inside
    (Nat.le_refl NUPAGE) (fun u _ high => clear u high)
  have rep' := deallocLoop_spec rep inside loose (Nat.le_refl _)
    (Or.inr (fun u _ high => clear u high)) looped
  obtain ⟨mem, refcnt, free, num, shape⟩ := released.shape
  have proc :
      ∀ q, (r.ptable q).live = (s.ptable q).live ∧ (r.ptable q).pgdir = (s.ptable q).pgdir := by
    intro q
    rw [shape]
    dsimp only
    by_cases here : q = p
    · rw [here, update_self]
      exact ⟨rfl, rfl⟩
    · rw [update_of_ne here]
      exact ⟨rfl, rfl⟩
  obtain ⟨u, t, tables, freed, back, head, one, same⟩ := freeDir_room rep' inside loose
    (fun v user => if_pos ⟨rfl, Nat.zero_le v, user⟩)
    (fun q live stays => by
      rw [(proc q).1] at live
      rw [(proc q).2]
      exact unused q live stays)
  refine ⟨r, u, t, looped, tables, freed, GivesBack.trans ⟨mem, refcnt, free, num, ?_, ?_⟩ back,
    head, one, ?_⟩
  · rw [shape]
    rfl
  · have counts : r.freelist = _ := congrArg Prod.snd released.counts
    have more := foldl_release_suffix (framesIn s.mem d 0 NUPAGE) s.counts
    rw [← counts, shape] at more
    exact more
  · intro y other apart outside
    exact (released.sameAt outside apart).trans
      (same y other fun i => by rw [released.table]; exact apart i)

theorem Rep.dir_pos (rep : Rep g s) (inside : d ∈ g.dirs) : d ≠ 0 := by
  have low := (rep.layout.pool_bounds d (rep.layout.pins_pool d (Or.inl inside))).1
  rw [firstPage_eq] at low
  omega

theorem freevmProc_room (rep : Rep g s) (inside : d ∈ g.dirs) (loose : g.Loose d)
    (clear : ∀ u, u < NUPAGE → isSwapped (pteOf s.mem d u) = false)
    (unused : ∀ p, (s.ptable p).live = true → g.leaving ≠ some p → (s.ptable p).pgdir ≠ d) :
    ∃ t, freevmProc p d s = .ok ((), t) ∧ GivesBack (setProc s p { s.ptable p with
      rss := (s.ptable p).rss - BitVec.ofNat 32 ((framesIn s.mem d 0 NUPAGE).length * PGSIZE) }) t ∧
      t.freelist.head? = some d := by
  obtain ⟨r, u, t, looped, tables, freed, back, head, -⟩ :=
    teardown_room (p := p) clearSlot rep inside loose clear unused
  refine ⟨t, ?_, back, head⟩
  unfold freevmProc deallocuvmProc
  rw [if_neg (rep.dir_pos inside), if_neg (by decide), show pagesOf 0 = 0 from rfl,
    show pagesOf KERNBASE = NUPAGE from rfl]
  refine (bind_of_ok (bind_of_ok looped)).trans ?_
  rw [bind_of_ok tables]
  exact freed

theorem freevm_room (rep : Rep g s) (inside : d ∈ g.dirs) (loose : g.Loose d)
    (clear : ∀ u, u < NUPAGE → isSwapped (pteOf s.mem d u) = false)
    (unused : ∀ p, (s.ptable p).live = true → g.leaving ≠ some p → (s.ptable p).pgdir ≠ d) :
    ∃ t, freevm p d s = .ok ((), t) ∧ GivesBack (setProc s p { s.ptable p with
      rss := (s.ptable p).rss - BitVec.ofNat 32 ((framesIn s.mem d 0 NUPAGE).length * PGSIZE) }) t ∧
      t.pageToRefcnt d = 1 ∧
      ∀ y, y ≠ d → (∀ i, tablePage s.mem d i ≠ some y) → y ∉ framesIn s.mem d 0 NUPAGE →
      SameAt s t y := by
  obtain ⟨r, u, t, looped, tables, freed, back, -, one, same⟩ :=
    teardown_room (p := p) dropSwapped rep inside loose clear unused
  refine ⟨t, ?_, back, one, same⟩
  unfold freevm deallocuvm
  rw [if_neg (rep.dir_pos inside), if_neg (by decide), show pagesOf 0 = 0 from rfl,
    show pagesOf KERNBASE = NUPAGE from rfl]
  refine (bind_of_ok (bind_of_ok looped)).trans ?_
  rw [bind_of_ok tables]
  exact freed

/-- The entry of a reaped process: what wait subtracts from rss is a page for the kernel
stack, which was never added, and one for each page the process still had. -/
def reapedProc (m : Nat → Page) (proc : Proc) : Proc :=
  { proc with
    kstack := 0, pid := 0, parent := none, killed := false, state := .unused
    rss := proc.rss - BitVec.ofNat 32 PGSIZE -
      BitVec.ofNat 32 ((framesIn m proc.pgdir 0 NUPAGE).length * PGSIZE) }

theorem reap_room (settled : Settled loan g s) (live : (s.ptable q).live = true)
    (loose : g.Loose (s.ptable q).pgdir) :
    ∃ t, reap q s = .ok ((), t) ∧ s.freelist <:+ t.freelist ∧
      t.freelist.head? = some (s.ptable q).pgdir ∧ ∃ mem refcnt free num slots, t = { s with
      mem := mem, pageToRefcnt := refcnt, freelist := free, numFreePages := num, swapSlots := slots
      ptable := Function.update s.ptable q (reapedProc s.mem (s.ptable q)) } := by
  have inside := settled.inside live
  obtain ⟨page, held⟩ := Option.ne_none_iff_exists'.mp
    ((settled.census.held (s.ptable q).kstack).mpr (Or.inl ⟨q, live, rfl⟩))
  have leaving := settled.rep.leave settled.stays q
  obtain ⟨u, cleared, wiped⟩ := clearZombie_room leaving inside loose
  obtain ⟨⟨content, emptied⟩, clear⟩ := clearZombie_spec leaving inside loose cleared
  obtain ⟨mem₁, slots, shape₁⟩ := wiped.shape
  have same : u.ptable = s.ptable := by rw [shape₁]
  have released := emptied.release held
  have keeps := emptied.release_keeps held
  obtain ⟨m, ready⟩ : ∃ m : Kernel, m = setProc (kfreed u (s.ptable q).kstack) q
      { u.ptable q with kstack := 0, rss := (u.ptable q).rss - BitVec.ofNat 32 PGSIZE } := ⟨_, rfl⟩
  have going : Rep ((({ g with leaving := some q } : Ghost).respace (s.ptable q).pgdir content).drop
      (s.ptable q).kstack) m := by
    rw [ready]
    exact released.setProc (fun _ stays => absurd rfl stays)
  have entries :
      ∀ v, v < NUPAGE → pteOf m.mem (s.ptable q).pgdir v = pteOf u.mem (s.ptable q).pgdir v := by
    intro v user
    rw [ready]
    exact keeps.entry inside (user_lt user)
  obtain ⟨r, torn, ⟨mem₂, refcnt₂, free₂, num₂, shape₂, more⟩, head⟩ :=
    freevmProc_room (p := q) going inside loose
    (fun v user => by
      rw [entries v user]
      exact clear v user)
    (by
      intro p living stays
      have other : p ≠ q := fun same => stays (by rw [same]; rfl)
      have entry : m.ptable p = s.ptable p := by
        rw [ready]
        refine (update_of_ne other _ _).trans ?_
        rw [kfreed_ptable, same]
      rw [entry] at living ⊢
      exact fun same => other (settled.census.alone living live same))
  have frames :
      framesIn m.mem (s.ptable q).pgdir 0 NUPAGE = framesIn s.mem (s.ptable q).pgdir 0 NUPAGE := by
    unfold framesIn
    apply List.filterMap_congr
    intro v member
    rw [List.mem_range'_1] at member
    rw [entries v (by omega)]
    exact wiped.frame v (user_lt (by omega))
  refine ⟨setProc r q { r.ptable q with pid := 0, parent := none, killed := false, state :=
    .unused }, ?_, ?_, head, mem₂, refcnt₂, free₂, num₂, slots, ?_⟩
  · unfold reap
    rw [read_bind, bind_of_ok cleared, bind_of_ok (emptied.kfree_held held), updateProc,
      Prog.update_bind, subRss, updateProc, Prog.update_bind]
    have steps : setProc (setProc (kfreed u (s.ptable q).kstack) q
        { (kfreed u (s.ptable q).kstack).ptable q with kstack := 0 }) q
        { (setProc (kfreed u (s.ptable q).kstack) q
          { (kfreed u (s.ptable q).kstack).ptable q with kstack := 0 }).ptable q with
          rss := ((setProc (kfreed u (s.ptable q).kstack) q
            { (kfreed u (s.ptable q).kstack).ptable q with kstack := 0 }).ptable q).rss -
              BitVec.ofNat 32 PGSIZE } = m := by
      rw [ready]
      simp only [setProc, update_self, Function.update_idem, kfreed_ptable]
    rw [steps, bind_of_ok torn]
    rfl
  · obtain ⟨mem₃, refcnt₃, free₃, num₃, shape₃, more₃⟩ := kfreed_givesBack u (s.ptable q).kstack
    have before : s.freelist <:+ m.freelist := by
      rw [ready, setProc, shape₃]
      rw [shape₁] at more₃
      exact more₃
    have after : r.freelist = free₂ := by rw [shape₂]
    change s.freelist <:+ r.freelist
    rw [after]
    exact before.trans more
  · obtain ⟨mem₃, refcnt₃, free₃, num₃, shape₃⟩ := kfreed_shape u (s.ptable q).kstack
    rw [frames] at shape₂
    rw [shape₂, ready, shape₃, shape₁]
    simp only [setProc, update_self, Function.update_idem, reapedProc]

theorem wait_room (settled : Settled loan g s) (found : zombieChild s p = some q)
    (loose : g.Loose (s.ptable q).pgdir) :
    ∃ t, wait p s = .ok (.reaped (s.ptable q).pid, t) ∧ s.freelist <:+ t.freelist ∧
      t.freelist.head? = some (s.ptable q).pgdir ∧ ∃ mem refcnt free num slots, t = { s with
      mem := mem, pageToRefcnt := refcnt, freelist := free, numFreePages := num, swapSlots := slots
      ptable := Function.update s.ptable q (reapedProc s.mem (s.ptable q)) } := by
  obtain ⟨t, reaped, more, head, shape⟩ :=
    reap_room settled (zombie_live (zombieChild_some found)) loose
  refine ⟨t, ?_, more, head, shape⟩
  unfold wait
  rw [read_bind, found]
  dsimp only
  rw [bind_of_ok reaped]
  rfl

/-! ## Steps that evict nothing -/

theorem CleanStep.of_log {label : Label} {out : Out} (step : Step fork s label out t)
    (log : t.log = s.log) (handled : Handled s t label) : CleanStep s label out t := by
  have still : ∀ e, ¬ Evicted s t e := ample_of_log log
  exact ⟨step, fun e evicted => absurd evicted (still e), handled, fun _ _ e evicted =>
    absurd evicted (still e)⟩

theorem length_freelist_lt (rep : Rep g s) : s.freelist.length < 900 := by
  have inside : s.freelist.toFinset ⊆ Finset.Ico firstPage NPHYS := by
    intro q member
    obtain ⟨low, high, -⟩ := rep.free_apart (List.mem_toFinset.mp member)
    exact Finset.mem_Ico.mpr ⟨low, high⟩
  have card := Finset.card_le_card inside
  rw [List.toFinset_card_of_nodup rep.exact.nodup, Nat.card_Ico, firstPage_eq, NPHYS_eq] at card
  omega

/-- A process takes all the memory there is, where its page table has room for it. -/
theorem grow_all {m : Nat} (reachable : Reachable CleanStep s) (runs : (s.ptable p).canRun = true)
    (size : (s.ptable p).sz = m * PGSIZE) (few : m ≤ 20)
    (table : tablePage s.mem (s.ptable p).pgdir 0 ≠ none) (some' : s.freelist ≠ []) :
    ∃ t, Reachable CleanStep t ∧ t.freelist = [] ∧ (∃ mem refcnt num, t = { s with
      mem := mem, pageToRefcnt := refcnt, freelist := [], numFreePages := num
      ptable := Function.update s.ptable p { s.ptable p with
        sz := (m + s.freelist.length) * PGSIZE
        rss := (s.ptable p).rss + BitVec.ofNat 32 (s.freelist.length * PGSIZE) } }) ∧
      (∀ w, w < m → pteOf t.mem (s.ptable p).pgdir w = pteOf s.mem (s.ptable p).pgdir w) ∧
      (∀ {i x}, tablePage s.mem (s.ptable p).pgdir i = some x →
        tablePage t.mem (s.ptable p).pgdir i = some x) ∧
      (∀ x, x ∉ s.freelist → t.pageToRefcnt x = s.pageToRefcnt x) ∧
      ∀ k, k < s.freelist.length →
        pteOf t.mem (s.ptable p).pgdir (m + k) = userWord (s.freelist.getD k 0) ∧
        t.mem (s.freelist.getD k 0) = zeroPage := by
  obtain ⟨loan, g, sound⟩ := reachable.sound
  have live := canRun_live runs
  have rep := sound.settled.rep
  have short := length_freelist_lt rep
  have tables : ∀ u, m ≤ u → u < m + s.freelist.length →
      tablePage s.mem (s.ptable p).pgdir (pdx u) ≠ none := by
    intro u _ high
    rw [pdx_small (by omega)]
    exact table
  have vacant : ∀ u, m ≤ u → u < m + s.freelist.length → g.space (s.ptable p).pgdir u = none := by
    intro u low high
    refine sound.settled.census.ends live u ?_ (by rw [NUPAGE_eq]; omega)
    rw [size, pagesOf, PGSIZE_eq]
    omega
  obtain ⟨r, used, looped, allocated⟩ :=
    allocLoop_room (p := p) (n := s.freelist.length)
    (v := m) rep sound.quiet (sound.settled.inside live)
      (sound.loose _) (by rw [NUPAGE_eq]; omega) vacant
      (by rw [missing_none tables, Finset.card_empty]; omega)
  obtain ⟨count, entries⟩ := allocated.inOrder tables
  obtain ⟨mem, refcnt, free, num, shape⟩ := allocated.shape
  have list := allocated.freelist
  obtain ⟨rep₁, -⟩ := allocLoop_spec rep (sound.settled.inside live) (sound.loose _)
    (by rw [NUPAGE_eq]; omega)
    vacant looped (by rw [shape]; exact sound.quiet)
  have empty : r.freelist = [] := by
    have whole := congrArg List.length list
    rw [List.length_append, count] at whole
    exact List.eq_nil_of_length_eq_zero (by omega)
  have grown :=
    growproc_pages (List.length_pos_of_ne_nil some') size (by rw [NUPAGE_eq]; omega) looped
  generalize after : setProc _ _ _ = t at grown
  have step := sbrk_step runs grown
  have clean := CleanStep.of_log step (by rw [← after, shape]; rfl) trivial
  refine ⟨t, reachable.step clean, ?_, ⟨mem, refcnt, num, ?_⟩, ?_, ?_, ?_, ?_⟩
  · rw [← after]
    exact empty
  · have none : free = [] := by
      rw [shape] at empty
      exact empty
    rw [← after, shape, none]
    simp only [setProc, update_self, Function.update_idem]
  · intro w low
    rw [← after]
    exact allocated.others w (by rw [NVPAGE_eq]; omega) (Or.inl low)
  · intro i x found
    rw [← after]
    exact allocated.carves.kept found
  · intro x outside
    rw [← after]
    exact allocated.carves.refcnt
      (fun member => outside (by rw [list]; exact List.mem_append_left _ member))
  · intro k low
    have entry := entries k low
    have frame' : s.freelist.getD k 0 < NPHYS := by
      rw [List.getD_eq_getElem?_getD, List.getElem?_eq_getElem low, Option.getD_some]
      exact (rep.free_apart (List.getElem_mem low)).2.1
    have word := userWord_map frame'
    have zero := rep₁.space (sound.settled.inside live)
      (show m + k < NUPAGE by rw [NUPAGE_eq]; omega)
    unfold spaceOf at zero
    rw [entry, pageAt_present word.present, word.frame] at zero
    have inner : (g.setRange (s.ptable p).pgdir m (m + s.freelist.length)
        blank).space (s.ptable p).pgdir (m + k) = some (true, zeroPage) :=
      if_pos ⟨rfl, by omega, by omega⟩
    rw [inner] at zero
    rw [← after]
    exact ⟨entry, (Prod.mk.inj (Option.some.inj zero)).2⟩

theorem exit_room (stays : s.initproc ≠ some p) : exit p s = .ok ((), exited s p) := by
  unfold exit
  rw [read_bind, if_neg stays]
  rfl

theorem zombieChild_of_only (zombie : (s.ptable q).state = .zombie)
    (mine : (s.ptable q).parent = some p)
    (only : ∀ r, (s.ptable r).state = .zombie → r = q) : zombieChild s p = some q := by
  cases found : zombieChild s p with
  | none =>
    unfold zombieChild at found
    rw [List.find?_eq_none] at found
    exact absurd (decide_eq_true ⟨mine, zombie⟩) (found q (List.mem_finRange q))
  | some r => rw [only r (zombieChild_some found)]

theorem wait_view {loan : Set Nat} {out : Out} {r : Fin NPROC} (sound : Sound loan g s)
    (step : CleanStep s (.wait p) out t) (found : zombieChild s p = some q) (other : r ≠ q)
    (live : (s.ptable r).live = true) (live' : (t.ptable r).live = true) (user : v < NUPAGE) :
    View t r v = View s r v := by
  obtain ⟨_, h, -, sound', -, goes⟩ := clean_step sound step.1 step.2
  obtain ⟨a, next, shows⟩ := goes _ (g.shows_tasks s)
  have first :
    (g.tasks s).first (fun task => task.parent = some p ∧ task.state = .zombie) = some q := found
  have table : a.table r = (g.tasks s).table r := by
    change (_, a) = Tasks.wait _ _ at next
    unfold Tasks.wait at next
    rw [first] at next
    rw [(Prod.mk.inj next).2]
    exact update_of_ne other _ _
  rw [sound'.view shows live' user, table, sound.view (g.shows_tasks s) live user]

/-! ## The first process and its child -/

/-- Right after boot the first process has forked: they share its page, frame `q`. -/
structure Forked (d kstack d' kstack' q : Nat) (np : Fin NPROC) (s : Kernel) : Prop where
  reachable : Reachable CleanStep s
  other : np ≠ 0
  ptable : s.ptable = Function.update (Function.update (fun _ => noProc) 0 (initProc d kstack 1)) np
    ⟨PGSIZE, BitVec.ofNat 32 PGSIZE, d', kstack', .runnable, 2, some 0, false⟩
  initproc : s.initproc = some 0
  length : s.freelist.length = 708
  slots : s.swapSlots = readySlots
  table : tablePage s.mem d 0 ≠ none
  table' : tablePage s.mem d' 0 ≠ none
  entry : pteOf s.mem d 0 = userWord q &&& ~~~PTE_W
  entry' : pteOf s.mem d' 0 = sharedWord (userWord q)
  frame : q < NPHYS
  log : s.log = []

theorem forked_start : ∃ d kstack d' kstack' q np r s, Reachable CleanStep r ∧
    CleanStep r (.fork 0) (.pid (some r.nextpid)) s ∧ Forked d kstack d' kstack' q np s := by
  obtain ⟨g, kstack, d, q, s, booted, facts⟩ := boot_ok (fun _ => zeroPage) (fun _ _ => 0#32)
  obtain ⟨runs, size, -⟩ := facts.runs
  obtain ⟨kstack', d', t, used, forked, list, count, ⟨mem, refcnt, free, num, shape⟩, tables, there,
    entry', entry⟩ := facts.fork_room
  rw [pdx_small (by decide)] at there
  have step : Step fork s (.fork 0) (.pid (some s.nextpid)) t := by
    refine ⟨runs, ?_⟩
    unfold perform
    exact bind_of_ok forked
  have start : Reachable CleanStep s := ⟨_, _, s, _, booted, .nil⟩
  have vacant : s.ptable 1 = noProc := by rw [facts.ptable, update_of_ne (by decide)]
  have clean := CleanStep.of_log step (by rw [shape]) trivial
  refine ⟨d, kstack, d', kstack', q, 1, s, t, start, clean, start.step clean, by decide, ?_, ?_, ?_,
    ?_, ?_, there, entry, entry', facts.frame, by rw [shape]; exact facts.log⟩
  · have born : Xv6Cow.forked s 0 1 d' kstack' =
        ⟨PGSIZE, BitVec.ofNat 32 PGSIZE, d', kstack', .runnable, 2, some 0, false⟩ := by
      unfold Xv6Cow.forked child
      rw [vacant, size, facts.nextpid]
      rfl
    rw [shape]
    dsimp only
    rw [born, facts.ptable]
  · rw [shape]
    exact facts.initproc
  · have whole := congrArg List.length list
    rw [facts.room, List.length_append, count] at whole
    omega
  · rw [shape]
    exact facts.swapSlots
  · rw [tables]
    have table := facts.table
    rw [pdx_small (by decide)] at table
    exact table

/-- The child exits and is waited for. Its entry is free again, but its rss is not 0. -/
theorem reaped_start :
    ∃ d kstack d' np s, Reachable CleanStep s ∧ np ≠ 0 ∧ s.freelist.head? = some d' ∧
    tablePage s.mem d 0 ≠ none ∧ s.log = [] ∧
    s.ptable = Function.update (Function.update (fun _ => noProc) 0 (initProc d kstack 1)) np
      ⟨PGSIZE, -(BitVec.ofNat 32 PGSIZE), d', 0, .unused, 0, none, false⟩ := by
  obtain ⟨d, kstack, d', kstack', q, np, -, s, -, -, forked⟩ := forked_start
  have other := forked.other
  have child :
      s.ptable np = ⟨PGSIZE, BitVec.ofNat 32 PGSIZE, d', kstack', .runnable, 2, some 0, false⟩ := by
    rw [forked.ptable, update_self]
  have parent : s.ptable 0 = initProc d kstack 1 := by
    rw [forked.ptable, update_of_ne (Ne.symm other), update_self]
  have rest : ∀ r, r ≠ 0 → r ≠ np → s.ptable r = noProc := by
    intro r first second
    rw [forked.ptable, update_of_ne second, update_of_ne first]
  -- exit: there is no child to hand over
  obtain ⟨u, left⟩ : ∃ u, u = exited s np := ⟨_, rfl⟩
  have exits : Step fork s (.exit np) .nothing u := by
    refine ⟨by change (s.ptable np).canRun = true; rw [child]; rfl, ?_⟩
    unfold perform
    rw [bind_of_ok (exit_room (p := np) (by
      rw [forked.initproc]
      exact fun same => other (Option.some.inj same).symm)), left]
    rfl
  have reachable := forked.reachable.step (CleanStep.of_log exits (by rw [left]; rfl) trivial)
  have childless : ∀ r, (s.ptable r).parent ≠ some np := by
    intro r
    by_cases first : r = 0
    · rw [first, parent]
      exact (Option.some_ne_none np).symm
    · by_cases second : r = np
      · rw [second, child]
        exact fun same => other (Option.some.inj same).symm
      · rw [rest r first second]
        exact (Option.some_ne_none np).symm
  have table : u.ptable = Function.update s.ptable np { s.ptable np with state := .zombie } := by
    funext r
    rw [left, exited]
    dsimp only
    rw [if_neg (childless r)]
    by_cases here : r = np
    · rw [if_pos here, here, update_self]
    · rw [if_neg here, update_of_ne here]
  have gone :
      u.ptable np = ⟨PGSIZE, BitVec.ofNat 32 PGSIZE, d', kstack', .zombie, 2, some 0, false⟩ := by
    rw [table, update_self, child]
  have stays :
    u.ptable 0 = initProc d kstack 1 := by rw [table, update_of_ne (Ne.symm other), parent]
  have found : zombieChild u 0 = some np := by
    refine zombieChild_of_only (by rw [gone]) (by rw [gone]) (fun r zombie => ?_)
    by_contra second
    by_cases first : r = 0
    · rw [first, stays] at zombie
      cases zombie
    · rw [table, update_of_ne second, rest r first second] at zombie
      cases zombie
  -- wait
  have mem : u.mem = s.mem := by rw [left]; rfl
  obtain ⟨loan, g, sound⟩ := reachable.sound
  obtain ⟨t, waited, -, head, mem', refcnt, free, num, slots, shape⟩ :=
    wait_room sound.settled found (sound.loose _)
  have waits : Step fork u (.wait 0) (.waited (.reaped (u.ptable np).pid)) t := by
    refine ⟨by change (u.ptable 0).canRun = true; rw [stays]; rfl, ?_⟩
    unfold perform
    exact bind_of_ok waited
  have clean := CleanStep.of_log waits (by rw [shape]) trivial
  have pgdir : (u.ptable np).pgdir = d' := by rw [gone]
  have alive : (u.ptable np).live = true := by
    rw [gone]
    rfl
  have frames : (framesIn u.mem d' 0 NUPAGE).length = 1 := by
    have shared : has (pteOf u.mem d' 0) PTE_P = true := by
      rw [mem, forked.entry', sharedWord, has_P, BitVec.getLsbD_or]
      exact Bool.or_true _
    have later : ∀ w, 1 ≤ w → w < NUPAGE → pteOf u.mem d' w = 0#32 := by
      intro w low high
      rw [← pgdir]
      refine sound.settled.rep.vacant (sound.settled.inside alive) high
        (sound.settled.census.ends alive w ?_ high)
      rw [gone]
      change pagesOf PGSIZE ≤ w
      rw [pagesOf, PGSIZE_eq]
      omega
    rw [framesIn_append u.mem d' (Nat.zero_le 1) (by decide), framesIn_blank later, List.append_nil,
      framesIn_present (fun w _ high => by rw [show w = 0 by omega]; exact shared), List.length_map,
      List.length_range']
  have after : t.ptable = Function.update u.ptable np
      ⟨PGSIZE, -(BitVec.ofNat 32 PGSIZE), d', 0, .unused, 0, none, false⟩ := by
    rw [shape]
    dsimp only
    rw [reapedProc, gone]
    dsimp only
    rw [frames, Nat.one_mul, BitVec.sub_self, BitVec.zero_sub]
  have stays' : t.ptable 0 = initProc d kstack 1 := by
    rw [after, update_of_ne (Ne.symm other), stays]
  refine ⟨d, kstack, d', np, t, reachable.step clean, other, ?_,
    ?_, by rw [shape, left]; exact forked.log, ?_⟩
  · rw [← pgdir]
    exact head
  -- the first process still sees its page, so its page table is still there
  · intro missing
    have same := wait_view (v := 0) sound clean found (Ne.symm other) (by rw [stays]; rfl)
      (by rw [stays']; rfl) (by decide)
    unfold View spaceOf at same
    rw [stays, stays'] at same
    change pageAt t (pteOf t.mem d 0) = pageAt u (pteOf u.mem d 0) at same
    rw [pteOf_of_none (by rw [pdx_small (by decide)]; exact missing), pageAt_zero, mem,
      forked.entry,
      pageAt_present] at same
    · cases same
    · exact (has_andNot_P _).trans (userWord_map forked.frame).present
  · rw [after, table, Function.update_idem, forked.ptable, Function.update_idem]

end Xv6Cow
