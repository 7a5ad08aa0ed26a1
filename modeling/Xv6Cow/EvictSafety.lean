import Xv6Cow.Exhaustion

/- Evictions in the middle of fork and of a copy-on-write fault. -/
namespace Xv6Cow

open Function (update_self update_of_ne)
open Prog (bind_of_ok)

variable {loan : Set Nat} {g : Ghost} {s t : Kernel} {p q : Fin NPROC} {v : Nat}

theorem CleanStep.fault_views {va : Nat} {out : Out} (sound : Sound loan g s)
    (step : CleanStep s (.fault p va) out t) (live : (s.ptable q).live = true) (user : v < NUPAGE) :
    View t q v = View s q v := by
  obtain ⟨_, h, -, sound', -, goes⟩ := clean_step sound step.1 step.2
  obtain ⟨a, next, shows⟩ := goes _ (g.shows_tasks s)
  have same : a = g.tasks s := next
  have live' : (t.ptable q).live = true := by
    have state := (shows.task q).state
    rw [same] at state
    unfold Proc.live at live ⊢
    rw [← state]
    exact live
  rw [sound'.view shows live' user, same, sound.view (g.shows_tasks s) live user]

/-! ## A page that goes out during its own fault -/

theorem swapOut_shared {i x : Nat} {w : Word} (picks : Picks s p v x i w)
    (shared : 1 < s.pageToRefcnt (ppn w)) :
    ∃ t e, swapOut s = .ok ((), t) ∧ e.live = (s.ptable p).live ∧ e.ptr = ⟨x, ptx v⟩ ∧
      e.perm = pteFlags w ∧ e.bytes = s.mem (ppn w) ∧ t = { s with
      mem := setWord s.mem ⟨x, ptx v⟩ (swapEntry (s.swapSlots i).blockno)
      pageToRefcnt := Function.update s.pageToRefcnt (ppn w) (s.pageToRefcnt (ppn w) - 1)
      disk := writeBlocks s.disk (s.swapSlots i).blockno (s.mem (ppn w)) BPPAGE
      swapSlots := Function.update s.swapSlots i { s.swapSlots i with
        isFree := false, pagePerm := pteFlags w }
      ptable := Function.update s.ptable p
        { s.ptable p with rss := (s.ptable p).rss - BitVec.ofNat 32 PGSIZE }
      log := .evict e :: s.log } := by
  obtain ⟨u, job, lowered, chosen, evicted⟩ := swapOut_at picks
  have counts : u.pageToRefcnt = s.pageToRefcnt := by rw [lowered]; rfl
  have frameOfJob : job.frame = ppn w := by rw [chosen]
  have kept : kfreed (written (reserved u i w) job) job.frame = { written (reserved u i w) job with
      pageToRefcnt := Function.update s.pageToRefcnt (ppn w) (s.pageToRefcnt (ppn w) - 1) } := by
    unfold kfreed
    rw [frameOfJob]
    change (if 1 < u.pageToRefcnt (ppn w) then _ else _) = _
    rw [counts, if_pos shared]
    change { written (reserved u i w) job with
      pageToRefcnt := Function.update u.pageToRefcnt (ppn w) (u.pageToRefcnt (ppn w) - 1) } = _
    rw [counts]
  refine ⟨_, ⟨job.victim, job.live, job.ptr, job.frame, job.slot, job.perm,
    (written (reserved u i w) job).mem job.frame,
    decide ((written (reserved u i w) job).pageToRefcnt job.frame ≤ 1)⟩, evicted,
    ?_, by rw [chosen],
    by rw [chosen], by rw [chosen, lowered]; rfl, ?_⟩
  · rw [chosen, lowered]
    unfold setProc
    dsimp only
    rw [update_self]
    rfl
  · unfold swapFinished
    rw [kept]
    subst chosen lowered
    simp only [written, reserved, setProc, update_self]

/-- The first process has all the memory there is, but shares its page 0, in frame `q`,
with its child. Pages 1 and 2 are in frames `f`
and `f'`. -/
structure Crowded (d x q f f' : Nat) (s : Kernel) : Prop where
  reachable : Reachable CleanStep s
  free : s.freelist = []
  canRun : (s.ptable 0).canRun = true
  pgdir : (s.ptable 0).pgdir = d
  size : (s.ptable 0).sz = 709 * PGSIZE
  rss : (s.ptable 0).rss = BitVec.ofNat 32 (708 * PGSIZE)
  others : ∀ r, r ≠ 0 → (s.ptable r).rss.toNat ≤ PGSIZE
  slots : s.swapSlots = readySlots
  table : tablePage s.mem d 0 = some x
  first : pteOf s.mem d 0 = userWord q &&& ~~~PTE_W
  second : pteOf s.mem d 1 = userWord f
  third : pteOf s.mem d 2 = userWord f'
  frame : q < NPHYS
  frame' : f < NPHYS
  frame'' : f' < NPHYS
  counted : 1 < s.pageToRefcnt q

theorem crowded_start : ∃ d x q f f' s, Crowded d x q f f' s := by
  obtain ⟨d, kstack, d', kstack', q, np, -, s, -, -, forked⟩ := forked_start
  have other := forked.other
  have parent : s.ptable 0 = initProc d kstack 1 := by
    rw [forked.ptable, update_of_ne (Ne.symm other), update_self]
  have child :
      s.ptable np = ⟨PGSIZE, BitVec.ofNat 32 PGSIZE, d', kstack', .runnable, 2, some 0, false⟩ := by
    rw [forked.ptable, update_self]
  have pgdir : (s.ptable 0).pgdir = d := by rw [parent]; rfl
  obtain ⟨loan, g, sound⟩ := forked.reachable.sound
  have rep := sound.settled.rep
  have word := userWord_map forked.frame
  have inside : d ∈ g.dirs := by
    rw [← pgdir]
    exact sound.settled.inside (by rw [parent]; rfl)
  obtain ⟨maps, maps'⟩ := userWord_shared forked.frame
  rw [← forked.entry, ← pgdir] at maps
  rw [← forked.entry', show d' = (s.ptable np).pgdir by rw [child]] at maps'
  have many := sound.settled.shared (v := 0) (by rw [parent]; rfl) (by rw [child]; rfl)
    (Ne.symm other) (by decide) maps maps'
  rw [pgdir] at maps
  obtain ⟨pooled, loose⟩ := rep.entries.frame inside (by decide) maps
  have used := uses_unpinned loose
  have counted : s.pageToRefcnt q = frames g.dirs s.mem q := by
    rw [rep.exact.counted q pooled (by rw [used]; omega), used]
  have unlisted : q ∉ s.freelist := by
    intro listed
    have unused := ((rep.exact.mem_free q).mp listed).2
    rw [used] at unused
    omega
  obtain ⟨t, reachable, empty, ⟨mem, refcnt, num, shape⟩, before, kept, counts, pages⟩ :=
    grow_all (m := 1)
    forked.reachable (by rw [parent]; rfl) (by rw [parent, Nat.one_mul]; rfl) (by decide)
    (by rw [pgdir]; exact forked.table) (by
      intro none
      have := forked.length
      rw [none] at this
      cases this)
  rw [pgdir] at before kept pages
  obtain ⟨x, table⟩ := Option.ne_none_iff_exists'.mp forked.table
  have stays : t.ptable 0 = { initProc d kstack 1 with
      sz := 709 * PGSIZE, rss := BitVec.ofNat 32 (708 * PGSIZE) } := by
    rw [shape]
    dsimp only
    rw [update_self, parent, forked.length]
    change Proc.mk _ (0#32 + _) _ _ _ _ _ _ = _
    rw [BitVec.zero_add]
  have listed : ∀ k, k < 708 → s.freelist.getD k 0 < NPHYS := by
    intro k low
    rw [← forked.length] at low
    rw [List.getD_eq_getElem?_getD, List.getElem?_eq_getElem low, Option.getD_some]
    exact (rep.free_apart (List.getElem_mem low)).2.1
  refine ⟨d, x, q, s.freelist.getD 0 0, s.freelist.getD 1 0, t, reachable,
    empty, by rw [stays]; rfl, by rw [stays]; rfl, by rw [stays],
    by rw [stays], fun r away => ?_, ?_, kept table, ?_, ?_, ?_, forked.frame, listed 0 (by decide),
    listed 1 (by decide), ?_⟩
  · rw [shape]
    dsimp only
    rw [update_of_ne away, forked.ptable]
    by_cases born : r = np
    · rw [born, update_self]
      change (BitVec.ofNat 32 PGSIZE).toNat ≤ PGSIZE
      decide
    · rw [update_of_ne born, update_of_ne away]
      decide
  · rw [shape]
    exact forked.slots
  · rw [before 0 (by decide), forked.entry]
  · exact (pages 0 (by rw [forked.length]; decide)).1
  · exact (pages 1 (by rw [forked.length]; decide)).1
  · rw [counts q unlisted, counted]
    exact Int.ofNat_lt.mpr many

theorem evictable_readonly (w : Word) : evictable (w &&& ~~~PTE_W) = evictable w := by
  unfold evictable
  rw [has_andNot_P, has_andNot_U, has_A, has_A, bit_andNot w rfl]

theorem word_of_first {m : Nat → Page} {d x u : Nat} (small : u < 1024)
    (table : tablePage m d 0 = some x) :
    m x (ptx u) = pteOf m d u := by
  rw [← pdx_small small] at table
  exact (pteOf_of_table table).symm

/-- Page 0 of the first process is evicted on the way from `s` to `t`. -/
def TakesFirst (x q : Nat) (s t : Kernel) : Prop :=
  ∃ e, Evicted s t e ∧ e.ptr = ⟨x, ptx 0⟩ ∧ e.perm = pteFlags (userWord q &&& ~~~PTE_W) ∧
  e.bytes = s.mem q

namespace Crowded

variable {d x q f f' : Nat}

theorem evicts (crowded : Crowded d x q f f' s) : ∃ t, swapOut s = .ok ((), t) ∧ Grows s t ∧
    (∀ e, Evicted s t e → e.live = true) ∧ TakesFirst x q s t ∧ t.freelist = [] ∧
    t.ptable = Function.update s.ptable 0
      { s.ptable 0 with rss := (s.ptable 0).rss - BitVec.ofNat 32 PGSIZE } ∧
    t.mem = setWord s.mem ⟨x, ptx 0⟩ (swapEntry SWAPBASE) ∧
    t.swapSlots = Function.update readySlots 0
      ⟨false, pteFlags (userWord q &&& ~~~PTE_W), SWAPBASE, 0⟩ := by
  obtain ⟨loan, g, sound⟩ := crowded.reachable.sound
  have rep := sound.settled.rep
  have live := canRun_live crowded.canRun
  have inside := sound.settled.inside live
  have table := crowded.table
  rw [← crowded.pgdir] at table
  have word := userWord_map crowded.frame
  have present : has (userWord q &&& ~~~PTE_W) PTE_P = true :=
    (has_andNot_P _).trans word.present
  have here : ppn (userWord q &&& ~~~PTE_W) = q := by rw [ppn_andNot low_W, word.frame]
  have entry : pteOf s.mem (s.ptable 0).pgdir 0 = userWord q &&& ~~~PTE_W := by
    rw [crowded.pgdir]
    exact crowded.first
  have pooled := (rep.entries.frame (v := 0) inside (by decide)
    (by rw [entry]; exact frameOf_present present)).1
  have slot : s.swapSlots 0 = ⟨true, 0#32, SWAPBASE, 0⟩ := by
    rw [crowded.slots, readySlots_of_lt (by decide), Nat.zero_mul, Nat.add_zero]
  have picks : Picks s 0 0 x 0 (userWord q &&& ~~~PTE_W) := by
    refine ⟨?_, rep.dir_lt inside, ?_, ?_, fun u low => absurd low (Nat.not_lt_zero u), entry, ?_,
      ?_, ?_, ?_, ?_⟩
    · refine victim_of_top (fun r away => ?_) ?_
      · have low := crowded.others r away
        rw [crowded.rss, BitVec.lt_def]
        refine Nat.lt_of_le_of_lt low ?_
        decide
      · rw [crowded.rss]
        decide
    · rw [crowded.size]
      decide
    · intro u low
      rw [pdx_small (by omega)]
      exact ⟨x, rep.table_lt inside table, table⟩
    · rw [evictable_readonly]
      exact evictable_userWord crowded.frame
    · rw [pdx_small (by decide)]
      exact table
    · exact firstFree_of_busy (by decide) (by rw [slot])
        (fun j less => absurd less (Nat.not_lt_zero j))
    · rw [slot]
      decide
    · rw [here]
      rw [here] at pooled
      exact rep.layout.pool_bounds _ pooled
  obtain ⟨t, e, evicted, alive, ptr, perm, bytes, shape⟩ := swapOut_shared picks
    (by rw [here]; exact crowded.counted)
  refine ⟨t, evicted, ?_, ?_, ⟨e, ?_, ptr, perm, by rw [bytes, here]⟩, ?_, ?_, ?_, ?_⟩
  · unfold Grows
    rw [shape]
    exact List.suffix_cons _ _
  · intro e' evicted'
    unfold Evicted at evicted'
    rw [shape] at evicted'
    change _ ∈ since s.log (Event.evict _ :: s.log) at evicted'
    rw [since_cons (List.suffix_refl _), since_self, List.mem_singleton] at evicted'
    cases evicted'
    rw [alive]
    exact live
  · unfold Evicted
    rw [shape]
    change _ ∈ since s.log (Event.evict _ :: s.log)
    rw [since_cons (List.suffix_refl _)]
    exact List.mem_cons_self
  · rw [shape]
    exact crowded.free
  · rw [shape]
  · rw [shape]
    dsimp only
    rw [slot]
  · rw [shape]
    dsimp only
    rw [slot, crowded.slots]

/-- The second one takes page 1, and kalloc returns its frame. The entry that cow_page
is about to read names the first swap slot. -/
theorem kalloc (crowded : Crowded d x q f f' s) : ∃ t, Xv6Cow.kalloc s = .ok (f, t) ∧ Grows s t ∧
    (∀ e, Evicted s t e → e.live = true) ∧ TakesFirst x q s t ∧ t.freelist = [] ∧
    t.ptable = Function.update s.ptable 0
      { s.ptable 0 with rss := BitVec.ofNat 32 (706 * PGSIZE) } ∧
    tablePage t.mem d 0 = some x ∧ pteOf t.mem d 0 = swapEntry SWAPBASE ∧
    pteOf t.mem d 1 = swapEntry (SWAPBASE + BPPAGE) ∧ pteOf t.mem d 2 = userWord f' ∧
    t.swapSlots = Function.update (Function.update readySlots 0
      ⟨false, pteFlags (userWord q &&& ~~~PTE_W), SWAPBASE, 0⟩) 1
      ⟨false, pteFlags (userWord f), SWAPBASE + BPPAGE, 0⟩ := by
  obtain ⟨loan, g, sound⟩ := crowded.reachable.sound
  have rep := sound.settled.rep
  have live := canRun_live crowded.canRun
  have inside := sound.settled.inside live
  rw [crowded.pgdir] at inside
  obtain ⟨u, evicted, grows, victims, ⟨e, first, itself⟩, empty, ptable, mem, slots⟩ :=
    crowded.evicts
  obtain ⟨rep', -⟩ := swapOut_spec rep evicted (sound.quiet_after grows victims)
  have rewrites :=
    rep.layout.rewrites (Keeps.refl g s.mem) inside (user_lt (by decide : 0 < NUPAGE))
    (by rw [pdx_small (by decide)]; exact crowded.table) (swapEntry SWAPBASE)
  rw [← mem] at rewrites
  have table : tablePage u.mem d 0 = some x := (rewrites.table inside 0).trans crowded.table
  have entry : pteOf u.mem d 1 = userWord f :=
    (rewrites.others inside (by decide) (fun both => absurd both.2 (by decide))).trans
      crowded.second
  have proc : u.ptable 0 = { s.ptable 0 with rss := BitVec.ofNat 32 (707 * PGSIZE) } := by
    rw [ptable, update_self, crowded.rss]
    rfl
  have pgdir : (u.ptable 0).pgdir = d := by rw [proc]; exact crowded.pgdir
  have word := userWord_map crowded.frame'
  obtain ⟨pooled, loose⟩ := rep'.entries.frame (v := 1) inside (by decide)
    (by rw [entry]; exact frameOf_present word.present)
  have alone := Full.refcnt_alone (v := 1) rep' inside (by decide)
    (by rw [entry]; exact word.present)
    (by rw [entry, word.writable]; decide)
  rw [entry, word.frame] at alone
  rw [word.frame] at pooled loose
  have slot : u.swapSlots 1 = ⟨true, 0#32, SWAPBASE + BPPAGE, 0⟩ := by
    rw [slots, update_of_ne (by decide), readySlots_of_lt (by decide), Nat.one_mul]
  have picks : Picks u 0 1 x 1 (userWord f) := by
    refine ⟨?_, ?_, ?_, ?_, ?_, ?_, ?_, ?_, ?_, ?_, ?_⟩
    · have big : (u.ptable 0).rss = BitVec.ofNat 32 (707 * PGSIZE) := by rw [proc]
      refine victim_of_top (fun r away => ?_) ?_
      · have low := crowded.others r away
        rw [big, BitVec.lt_def, ptable, update_of_ne away]
        refine Nat.lt_of_le_of_lt low ?_
        decide
      · rw [big]
        decide
    · rw [pgdir]
      exact rep'.dir_lt inside
    · rw [proc]
      change 1 < pagesOf (s.ptable 0).sz
      rw [crowded.size]
      decide
    · intro w low
      rw [pgdir, pdx_small (by omega)]
      exact ⟨x, rep'.table_lt inside table, table⟩
    · intro w low
      rw [pgdir, show w = 0 by omega, rewrites.here]
      exact evictable_swapEntry (by decide)
    · rw [pgdir, entry]
    · exact evictable_userWord crowded.frame'
    · rw [pgdir, pdx_small (by decide)]
      exact table
    · refine firstFree_of_busy (by decide) (by rw [slot]) (fun j less => ?_)
      rw [slots, show j = 0 by omega, update_self]
    · rw [slot]
      decide
    · rw [word.frame]
      exact rep'.layout.pool_bounds _ pooled
  have single : u.pageToRefcnt (ppn (userWord f)) ≤ 1 := by
    rw [word.frame, alone]
  obtain ⟨t, allocated, pressed⟩ := kalloc_pressed empty picks single
  obtain ⟨mem₁, refcnt₁, disk₁, num₁, shape₁⟩ := pressed.shape
  rw [word.frame] at allocated
  have rewrites' := rep'.layout.rewrites (Keeps.unpinned u.mem (freedPage []) loose) inside
    (user_lt (by decide : 1 < NUPAGE)) (by rw [pdx_small (by decide)]; exact table)
    (swapEntry (u.swapSlots 1).blockno)
  have moved := pressed.mem
  rw [word.frame] at moved
  rw [← moved] at rewrites'
  refine ⟨t, ?_, ?_, ?_, ⟨e, ?_, itself⟩, by rw [shape₁], ?_,
    (rewrites'.table inside 0).trans table, ?_, ?_, ?_,
    ?_⟩
  · rw [kalloc_nil crowded.free]
    exact (bind_of_ok evicted).trans allocated
  · unfold Grows at grows ⊢
    rw [shape₁]
    exact grows.trans (List.suffix_cons _ _)
  · intro e member
    unfold Evicted at member
    rw [shape₁] at member
    change _ ∈ since s.log (Event.evict _ :: u.log) at member
    rw [since_cons grows, List.mem_cons] at member
    rcases member with same | earlier
    · cases same
      rw [proc]
      exact live
    · exact victims e earlier
  · unfold Evicted at first ⊢
    rw [shape₁]
    change _ ∈ since s.log (Event.evict _ :: u.log)
    rw [since_cons grows]
    exact List.mem_cons_of_mem _ first
  · rw [shape₁]
    dsimp only
    rw [proc, ptable, Function.update_idem]
    dsimp only
    rw [show BitVec.ofNat 32 (707 * PGSIZE) - BitVec.ofNat 32 PGSIZE =
      BitVec.ofNat 32 (706 * PGSIZE) by decide]
  · exact (rewrites'.others inside (by decide) (fun both => absurd both.2 (by decide))).trans
      rewrites.here
  · rw [rewrites'.here, slot]
  · refine (rewrites'.others inside (by decide) (fun both => absurd both.2 (by decide))).trans ?_
    exact (rewrites.others inside (by decide) (fun both => absurd both.2 (by decide))).trans
      crowded.third
  · rw [shape₁]
    dsimp only
    rw [slot, slots]

/-- The fault evicts the page itself, and the entry cow_page stores is the new frame with
the flags of a swapped page. -/
structure Lost (d x q f f' : Nat) (s t : Kernel) : Prop where
  faulted : handlePageFault 0 0 s = .ok ((), t)
  victims : ∀ e, Evicted s t e → e.live = true
  itself : TakesFirst x q s t
  free : t.freelist = []
  ptable : t.ptable = Function.update s.ptable 0
    { s.ptable 0 with rss := BitVec.ofNat 32 (706 * PGSIZE) }
  table : tablePage t.mem d 0 = some x
  first : pteOf t.mem d 0 = pageWord f ||| pteFlags (swapEntry SWAPBASE) ||| PTE_W
  second : pteOf t.mem d 1 = swapEntry (SWAPBASE + BPPAGE)
  third : pteOf t.mem d 2 = userWord f'
  alone : t.pageToRefcnt f' = 1
  bounds : firstPage ≤ f' ∧ f' < NPHYS
  slots : t.swapSlots = Function.update (Function.update readySlots 0
    ⟨false, pteFlags (userWord q &&& ~~~PTE_W), SWAPBASE, 0⟩) 1
    ⟨false, pteFlags (userWord f), SWAPBASE + BPPAGE, 0⟩

theorem fault (crowded : Crowded d x q f f' s) : ∃ t, Lost d x q f f' s t := by
  obtain ⟨loan, g, sound⟩ := crowded.reachable.sound
  have rep := sound.settled.rep
  have inside := sound.settled.inside (canRun_live crowded.canRun)
  rw [crowded.pgdir] at inside
  obtain ⟨r, allocated, grows, victims, itself, empty, ptable, table, entry, second, third,
      slots⟩ :=
    crowded.kalloc
  obtain ⟨fresh, rep', -⟩ := kalloc_spec rep allocated (sound.quiet_after grows victims)
  have small := rep.table_lt inside crowded.table
  have walked : walkpgdirNoAlloc (s.ptable 0).pgdir (0 / PGSIZE) s = .ok (some ⟨x, ptx 0⟩, s) := by
    rw [crowded.pgdir]
    exact walk_of_table (rep.dir_lt inside)
      (by rw [Nat.zero_div, pdx_small (by decide)]; exact crowded.table)
  have word := userWord_map crowded.frame
  have present : has (userWord q &&& ~~~PTE_W) PTE_P = true :=
    (has_andNot_P _).trans word.present
  have here : ppn (userWord q &&& ~~~PTE_W) = q := by rw [ppn_andNot low_W, word.frame]
  have before : s.mem x (ptx 0) = userWord q &&& ~~~PTE_W := by
    rw [word_of_first (by decide) crowded.table]
    exact crowded.first
  have after : r.mem x (ptx 0) = swapEntry SWAPBASE := by
    rw [word_of_first (by decide) table]
    exact entry
  have block : ppn (swapEntry SWAPBASE) = SWAPBASE := (swapEntry_word (by decide)).2.2
  have loose : f ∉ pins ((g.hold f (r.mem f)).drop f) r.mem := fun inside =>
    ((mem_pins_drop rep'.layout (update_self _ _ _)).mp inside).1 rfl
  have keeps : Keeps (g.hold f (r.mem f)) r.mem (Function.update r.mem f (r.mem SWAPBASE)) :=
    Keeps.page r.mem (r.mem SWAPBASE) fresh.1
      (fun e member i found => loose (Or.inr (Or.inl ⟨e, member, i, found⟩)))
  have rewrites := rep'.layout.rewrites keeps inside
    (user_lt (by decide : 0 < NUPAGE)) (by rw [pdx_small (by decide)]; exact table)
    (pageWord f ||| pteFlags (swapEntry SWAPBASE) ||| PTE_W)
  have word' := userWord_map crowded.frame''
  have pooled := (rep'.entries.frame (v := 2) inside (by decide)
    (by rw [third]; exact frameOf_present word'.present)).1
  have alone := Full.refcnt_alone (v := 2) rep' inside (by decide)
    (by rw [third]; exact word'.present)
    (by rw [third, word'.writable]; decide)
  rw [third, word'.frame] at alone
  rw [word'.frame] at pooled
  have bounds := rep'.layout.pool_bounds _ pooled
  refine ⟨{ r with
    pageToRefcnt := Function.update r.pageToRefcnt SWAPBASE (r.pageToRefcnt SWAPBASE - 1)
    mem := setWord (Function.update r.mem f (r.mem SWAPBASE)) ⟨x, ptx 0⟩
      (pageWord f ||| pteFlags (swapEntry SWAPBASE) ||| PTE_W) }, ?_, victims, itself, empty,
        ptable, (rewrites.table inside 0).trans table, rewrites.here,
    (rewrites.others inside (by decide) (fun both => absurd both.2 (by decide))).trans second,
    (rewrites.others inside (by decide) (fun both => absurd both.2 (by decide))).trans third, ?_,
      bounds, slots⟩
  · unfold handlePageFault
    rw [Prog.read_bind, bind_of_ok walked]
    dsimp only
    rw [bind_of_ok (loadWord_ok_iff.mpr ⟨small, rfl, rfl⟩)]
    dsimp only
    rw [before, if_pos present]
    unfold presentFault
    rw [here, bind_of_ok (loadRefcnt_ok_iff.mpr ⟨crowded.frame, rfl, rfl⟩), if_pos crowded.counted]
    unfold cowPage
    rw [bind_of_ok allocated, bind_of_ok (loadWord_ok_iff.mpr ⟨small, rfl, rfl⟩)]
    dsimp only
    rw [after, block, bind_of_ok (loadRefcnt_ok_iff.mpr ⟨by decide, rfl, rfl⟩)]
    rw [bind_of_ok (storeRefcnt_ok_iff.mpr ⟨by decide, rfl⟩ : _ = Except.ok ((), _))]
    rw [bind_of_ok (loadPage_ok_iff.mpr ⟨by decide, rfl, rfl⟩)]
    rw [bind_of_ok (storePage_ok_iff.mpr ⟨crowded.frame', rfl⟩ : _ = Except.ok ((), _))]
    exact storeWord_ok_iff.mpr ⟨small, rfl⟩
  · change Function.update r.pageToRefcnt SWAPBASE _ f' = 1
    rw [update_of_ne (by rw [SWAPBASE_eq]; have := bounds.1; rw [firstPage_eq] at this; omega)]
    exact alone

theorem frame_bounds (crowded : Crowded d x q f f' s) : firstPage ≤ f ∧ f < NPHYS := by
  obtain ⟨loan, g, sound⟩ := crowded.reachable.sound
  have rep := sound.settled.rep
  have inside := sound.settled.inside (canRun_live crowded.canRun)
  rw [crowded.pgdir] at inside
  have word := userWord_map crowded.frame'
  have pooled := (rep.entries.frame (v := 1) inside (by decide)
    (by rw [crowded.second]; exact frameOf_present word.present)).1
  rw [word.frame] at pooled
  exact rep.layout.pool_bounds _ pooled

end Crowded

/-- The entry cow_page stores names a swap slot that nobody has taken. -/
theorem lostWord_bits {f : Nat} (low : firstPage ≤ f) (high : f < NPHYS) :
    has (pageWord f ||| pteFlags (swapEntry SWAPBASE) ||| PTE_W) PTE_P = false ∧
    has (pageWord f ||| pteFlags (swapEntry SWAPBASE) ||| PTE_W) PTE_SW = true ∧
    ppn (pageWord f ||| pteFlags (swapEntry SWAPBASE) ||| PTE_W) = f ∧
    34 ≤ slotOf (pageWord f ||| pteFlags (swapEntry SWAPBASE) ||| PTE_W) ∧
    slotOf (pageWord f ||| pteFlags (swapEntry SWAPBASE) ||| PTE_W) < 128 := by
  have flags : pteFlags (swapEntry SWAPBASE) = PTE_SW := by decide
  have page : ppn (pageWord f ||| pteFlags (swapEntry SWAPBASE) ||| PTE_W) = f := by
    rw [ppn_or low_W, ppn_or (low_pteFlags _), ppn_pageWord (high.trans (by decide))]
  rw [firstPage_eq] at low
  rw [NPHYS_eq] at high
  refine ⟨?_, ?_, page, ?_, ?_⟩
  · rw [flags, has_P, BitVec.getLsbD_or, BitVec.getLsbD_or, pageWord_low f 0 (by decide)]
    decide
  · rw [flags, has_SW, BitVec.getLsbD_or, BitVec.getLsbD_or, pageWord_low f _ (by decide)]
    decide
  · unfold slotOf
    rw [page, SWAPBASE_eq, BPPAGE_eq]
    omega
  · unfold slotOf
    rw [page, SWAPBASE_eq, BPPAGE_eq]
    omega

end Xv6Cow
