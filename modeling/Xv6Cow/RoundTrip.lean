import Xv6Cow.EvictSafety

/- Pages that go to a swap slot and come back. -/
namespace Xv6Cow

open Function (update_self update_of_ne)
open Prog (bind_of_ok)

variable {loan : Set Nat} {g : Ghost} {s t : Kernel} {p q : Fin NPROC} {v : Nat}

/-! ## What a step leaves to other processes -/

/-- The calls that change page `v` of process `q`. -/
def Changes (q : Fin NPROC) (v : Nat) : Label → Prop
  | .write p va _ => p = q ∧ va / PGSIZE = v
  | .sbrk p _ => p = q
  | .exec p _ _ => p = q
  | _ => False

theorem Tasks.Next.page_kept {a b : Tasks} {out : Out} {label : Label} (next : a.Next out b label)
    (unchanged : ¬ Changes q v label) (before : (a.table q).state ≠ .unused)
    (after : (b.table q).state ≠ .unused) : (b.table q).pages v = (a.table q).pages v := by
  cases label with
  | fork p =>
    change (_, b) = Tasks.fork _ _ at next
    unfold Tasks.fork at next
    cases found : a.first (fun task => task.state = .unused) with
    | none =>
      rw [found] at next
      rw [(Prod.mk.inj next).2]
    | some np =>
      rw [found] at next
      have free := List.find?_some found
      have other : q ≠ np := by
        rintro rfl
        exact before (of_decide_eq_true free)
      rw [(Prod.mk.inj next).2]
      exact congrFun (congrArg Task.pages (update_of_ne other _ _)) v
  | write p va byte =>
    rw [(Prod.mk.inj next).2]
    by_cases own : q = p
    · subst own
      refine (congrFun (congrArg Task.pages (update_self _ _ _)) v).trans ?_
      exact if_neg (fun here => unchanged ⟨rfl, here.symm⟩)
    · exact congrFun (congrArg Task.pages (update_of_ne own _ _)) v
  | sbrk p n =>
    rw [(Prod.mk.inj next).2]
    exact congrFun (congrArg Task.pages (update_of_ne (Ne.symm unchanged) _ _)) v
  | exec p file argv =>
    rcases next with ⟨-, same⟩ | ⟨sz, pages, -, same⟩
    · rw [same]
    · rw [same]
      exact congrFun (congrArg Task.pages (update_of_ne (Ne.symm unchanged) _ _)) v
  | exit p =>
    rw [(Prod.mk.inj next).2]
    dsimp only [Tasks.exit]
    split <;> split <;> rfl
  | wait p =>
    change (_, b) = Tasks.wait _ _ at next
    unfold Tasks.wait at next
    split at next
    · rename_i r _
      rw [(Prod.mk.inj next).2] at after ⊢
      by_cases here : q = r
      · change (Function.update a.table r Tasks.vacant q).state ≠ _ at after
        rw [here, update_self] at after
        exact absurd rfl after
      · exact congrFun (congrArg Task.pages (update_of_ne here _ _)) v
    · split at next <;> rw [(Prod.mk.inj next).2]
  | read p va => rw [show b = a from (Prod.mk.inj next).2]
  | fault p va => rw [show b = a from next]
  | pipealloc room => rw [show b = a from next]
  | pipeclose k writable => rw [show b = a from next]
  | kalloc => rw [show b = a from next]
  | bwrite blockno data => rw [show b = a from next]

/-- A process sees a page unchanged through every clean step that does not change it,
whether it is evicted or not. -/
theorem CleanStep.views_kept {label : Label} {out : Out} (sound : Sound loan g s)
    (step : CleanStep s label out t) (unchanged : ¬ Changes q v label)
    (live : (s.ptable q).live = true)
    (live' : (t.ptable q).live = true) (user : v < NUPAGE) : View t q v = View s q v := by
  obtain ⟨_, h, -, sound', -, goes⟩ := clean_step sound step.1 step.2
  obtain ⟨a, next, shows⟩ := goes _ (g.shows_tasks s)
  have used : ∀ {r : Kernel}, (r.ptable q).live = true → (r.ptable q).state ≠ .unused := by
    intro r alive unused
    unfold Proc.live at alive
    rw [unused] at alive
    cases alive
  rw [sound'.view shows live' user, sound.view (g.shows_tasks s) live user]
  refine next.page_kept unchanged (used live) ?_
  rw [(shows.task q).state]
  exact used live'

/-! ## The record of an eviction -/

/-- swap_out notes the eviction `e` in the log: the flags of the entry that final_page has
chosen, and the bytes of its page. -/
def Records (s t : Kernel) (e : Eviction) : Prop :=
  ∃ u, finalPage s = .ok ((e.victim, some e.ptr), u) ∧ t.log = .evict e :: u.log ∧
    e.live = (u.ptable e.victim).live ∧ e.perm = pteFlags (u.mem e.ptr.page e.ptr.index) ∧
    e.bytes = u.mem (ppn (u.mem e.ptr.page e.ptr.index))

theorem swapOut_records {done : Unit} (success : swapOut s = .ok (done, t)) :
    ∃ e, Records s t e := by
  obtain ⟨job, r, _, reserve, rfl, -, -, -, -, rfl⟩ := swapOut_ok success
  obtain ⟨u, chosen, -, -, live, frame, perm, rfl⟩ := swapReserve_ok reserve
  refine ⟨⟨job.victim, job.live, job.ptr, job.frame, job.slot, job.perm, u.mem job.frame,
    decide (u.pageToRefcnt job.frame ≤ 1)⟩, u, chosen, ?_, live, perm, by rw [frame]⟩
  unfold swapFinished kfreed
  split <;> rfl

/-- An entry that is swapped out is not evicted: final_page chooses present ones. -/
theorem kalloc_spares {d x f : Nat} (inside : d ∈ g.dirs) (user : v < NUPAGE)
    (success : kalloc s = .ok (f, t)) (rep : Rep g s) (quiet : Quiet g t.log)
    (swapped : isSwapped (pteOf s.mem d v) = true) (table : tablePage s.mem d (pdx v) = some x) :
    Unevicted s t ⟨x, ptx v⟩ := by
  revert rep quiet swapped table
  refine kalloc_induction (motive := fun s _ t => Rep g s → Quiet g t.log →
    isSwapped (pteOf s.mem d v) = true → tablePage s.mem d (pdx v) = some x →
    Unevicted s t ⟨x, ptx v⟩) ?_ ?_ success
  · intro s q rest list _ _ _ _ e evicted
    exact absurd evicted (ample_of_log rfl e)
  · intro s r q t empty evicted again ih rep quiet swapped table
    have older := (swapOut_calm _ _ _ evicted).log
    have newer := (kalloc_calm _ _ _ again).log
    have quiet' := quiet.mono (rep.base.trans older) newer
    obtain ⟨-, evicts⟩ := swapOut_spec rep evicted quiet'
    obtain ⟨e, u, chosen, log, live, -, -⟩ := swapOut_records evicted
    have calm := finalPage_calm _ _ _ chosen
    have own : ∀ {base : List Event}, base <:+ s.log →
        since base r.log = .evict e :: since base u.log := by
      intro base before
      rw [log, since_cons (before.trans calm.log)]
    obtain ⟨alive, stays, -⟩ := quiet' e (by rw [own rep.base]; exact List.mem_cons_self)
    rw [live, calm.live] at alive
    obtain ⟨-, evolves, same, w, candidate⟩ := finalPage_spec rep alive stays chosen
    have similar := evolves.stays_swapped inside user swapped
    rw [pteOf_of_table (evolves.table inside table)] at similar
    intro e' taken here
    unfold Evicted at taken
    rw [since_trans older newer, List.mem_append, own (List.suffix_refl _), same, since_self,
      List.mem_singleton] at taken
    rcases taken with later | first
    · exact ih (swapOut_spec rep evicted quiet').1 quiet
        ((evicts.stays_swapped inside user swapped).swapped.trans swapped)
        (evicts.table inside table)
        e' later here
    · cases first
      have index : e.ptr.index = ptx w := congrArg PtePtr.index candidate.index
      have present := candidate.present
      rw [pteOf_of_table candidate.table, ← index, here, similar.present,
        absent_of_swapped swapped] at present
      cases present


theorem Reachable.told (reachable : Reachable CleanStep s) :
    ∃ loan g, Sound loan g s ∧ g.base = [] ∧ g.aged = false := by
  obtain ⟨mem, disk, start, trace, booted, run⟩ := reachable
  obtain ⟨g, k, d, q, r, again, facts⟩ := boot_ok mem disk
  rw [booted] at again
  cases again
  refine run.invariant (I := fun s => ∃ loan g, Sound loan g s ∧ g.base = [] ∧ g.aged = false) ?_
    ⟨∅, g, facts.roomy.sound, facts.base, facts.roomy.young⟩
  rintro s label out t ⟨loan, g, sound, base, young⟩ ⟨step, clean⟩
  obtain ⟨loan', h, -, sound', follows, -⟩ := clean_step sound step clean
  exact ⟨loan', h, sound', follows.base.trans base, follows.aged.trans young⟩

theorem or_P_of_present {w : Word} (present : has w PTE_P = true) : w ||| PTE_P = w := by
  rw [has_P] at present
  apply BitVec.eq_of_getLsbD_eq
  intro i _
  rw [BitVec.getLsbD_or]
  by_cases first : i = 0
  · rw [first, present]
    rfl
  · rw [show PTE_P.getLsbD i =
      false by rw [show PTE_P = 1#32 from rfl, BitVec.getLsbD_one]; simp [first],
      Bool.or_false]

theorem since_nil (log : List Event) : since [] log = log := by
  rw [since, List.length_nil, Nat.sub_zero, List.take_length]

/-- A fault on a swapped page returns, and is clean, if kalloc finds a page. -/
theorem CleanStep.swapped_in {va f : Nat} {u : Kernel} (sound : Sound loan g s)
    (runs : (s.ptable p).canRun = true) (below : va < (s.ptable p).sz)
    (swapped : isSwapped (pteOf s.mem (s.ptable p).pgdir (va / PGSIZE)) = true)
    (harmless : Harmless s (ppn (pteOf s.mem (s.ptable p).pgdir (va / PGSIZE))))
    (allocated : kalloc s = .ok (f, u)) (victims : ∀ e, Evicted s u e → e.live = true) :
    ∃ t, CleanStep s (.fault p va) .nothing t := by
  have rep := sound.settled.rep
  have inside := sound.settled.inside (canRun_live runs)
  have user := sound.settled.user (canRun_live runs) below
  obtain ⟨x, table⟩ := table_of_pteOf (ne_zero_of_swapped swapped)
  have quiet := sound.quiet_kalloc allocated victims
  have small : ppn (pteOf s.mem (s.ptable p).pgdir (va / PGSIZE)) < NPHYS := by
    rcases harmless with low | free
    · rw [firstPage_eq] at low
      rw [NPHYS_eq]
      omega
    · exact (rep.free_apart (List.mem_of_mem_tail free)).2.1
  have handled := handlePageFault_swapped rep inside user swapped table allocated quiet small
  obtain ⟨-, -, events⟩ := @swappedIn_leaves ⟨x, ptx (va / PGSIZE)⟩ f u p
  have same := fun e => events s e (kalloc_calm _ _ _ allocated).log
  refine ⟨_, ⟨⟨runs, below, ne_zero_of_swapped swapped⟩, bind_of_ok handled⟩,
    fun e evicted => victims e ((same e).mp evicted),
    ⟨fun y found e evicted => ?_, fun _ => harmless⟩, nofun⟩
  rw [table] at found
  cases found
  exact kalloc_spares inside user allocated rep quiet swapped table e ((same e).mp evicted)

/-- In a clean run, a page that is in a slot has been put there by its last eviction: the
process still sees the bytes of that moment, a fault brings them back into memory with the
flags of that moment, and in between every step leaves it alone. -/
theorem swap_round_trip {va : Nat} (reachable : Reachable CleanStep s)
    (live : (s.ptable p).live = true) (below : va < (s.ptable p).sz)
    (swapped : isSwapped (pteOf s.mem (s.ptable p).pgdir (va / PGSIZE)) = true) :
    ∃ x e, tablePage s.mem (s.ptable p).pgdir (pdx (va / PGSIZE)) = some x ∧
      lastEviction s.log ⟨x, ptx (va / PGSIZE)⟩ = some e ∧
      View s p (va / PGSIZE) = some (has e.perm PTE_U, e.bytes) ∧
      (∀ u done t, swapOut u = .ok (done, t) → ∃ e, Records u t e) ∧
      ((s.ptable p).canRun = true →
        Harmless s (ppn (pteOf s.mem (s.ptable p).pgdir (va / PGSIZE))) →
        ∀ f u, kalloc s = .ok (f, u) → (∀ e, Evicted s u e → e.live = true) →
          ∃ t, CleanStep s (.fault p va) .nothing t) ∧
      (∀ out t, CleanStep s (.fault p va) out t →
        ∃ w, pteOf t.mem (s.ptable p).pgdir (va / PGSIZE) = w ∧ has w PTE_P = true ∧
          pteFlags w = e.perm ∧ t.mem (ppn w) = e.bytes) ∧
      ∀ label out t, CleanStep s label out t → ∀ q v, ¬ Changes q v label →
        (s.ptable q).live = true → (t.ptable q).live = true → v < NUPAGE →
        View t q v = View s q v := by
  obtain ⟨loan, g, sound, base, young⟩ := reachable.told
  have rep := sound.settled.rep
  have inside := sound.settled.inside live
  have user := sound.settled.user live below
  obtain ⟨x, table⟩ := table_of_pteOf (m := s.mem) (d := (s.ptable p).pgdir) (v := va / PGSIZE) (by
    intro zero
    rw [zero] at swapped
    exact absurd swapped (by decide))
  have dated := rep.slots.dated inside user swapped table young
  obtain ⟨e, found⟩ := Option.ne_none_iff_exists'.mp dated
  obtain ⟨perm, block, bytes⟩ := rep.slots.recorded inside user swapped table found
  obtain ⟨bound, named, evictable⟩ := rep.slots.slot inside user swapped
  have index : slotOf (pteOf s.mem (s.ptable p).pgdir (va / PGSIZE)) = e.slot := slotOf_block block
  rw [index] at evictable
  rw [base, since_nil] at found
  have before : View s p (va / PGSIZE) = some (has e.perm PTE_U, e.bytes) := by
    unfold View spaceOf
    rw [pageAt_swapped swapped, index, ← perm, block, bytes]
  refine ⟨x, e, table, found, before, fun u done t => swapOut_records,
    fun runs harmless f u allocated victims =>
    CleanStep.swapped_in sound runs below swapped harmless
      allocated victims, fun out t step => ?_,
        fun label out t step q v unchanged alive alive' inner =>
    step.views_kept sound unchanged alive alive' inner⟩
  obtain ⟨value, faulted, -⟩ := perform_ok step.1.2
  obtain ⟨y, table', ⟨present, -⟩ | ⟨absent, handled⟩⟩ := handlePageFault_ok faulted
  · rw [isSwapped_of_present present] at swapped
    cases swapped
  · rw [table] at table'
    cases table'
    have grows := perform_grows fork_grows _ s out t step.1.2
    obtain ⟨-, -, f, small, word⟩ := swapIn_spec rep inside user table swapped
      (step.2.handled.swapped swapped) handled (sound.quiet_after grows step.2.victims)
    rw [index, ← perm] at word
    rw [← perm] at evictable
    have present : has (pageWord f ||| e.perm ||| PTE_P) PTE_P = true := has_or_P _
    have flags : pteFlags (pageWord f ||| e.perm ||| PTE_P) = e.perm := by
      rw [BitVec.or_assoc, or_P_of_present evictable.present, pteFlags_pageWord_or evictable.low]
    refine ⟨_, word, present, flags, ?_⟩
    have after := step.fault_views sound live user
    rw [before] at after
    unfold View spaceOf at after
    have dir : (t.ptable p).pgdir = (s.ptable p).pgdir := by
      obtain ⟨rss, same⟩ := (handlePageFault_calm p va s value t faulted).proc p
      rw [same]
    rw [dir, word, pageAt_present present] at after
    exact (Prod.mk.inj (Option.some.inj after)).2

/-- The first process has one page in a slot and faults on it. -/
theorem swap_round_trip_first : ∃ s x e t w, isSwapped (pteOf s.mem (s.ptable 0).pgdir 0) = true ∧
    tablePage s.mem (s.ptable 0).pgdir (pdx 0) = some x ∧ lastEviction s.log ⟨x, ptx 0⟩ = some e ∧
    View s 0 0 = some (has e.perm PTE_U, e.bytes) ∧ CleanStep s (.fault 0 0) .nothing t ∧
    pteOf t.mem (s.ptable 0).pgdir 0 = w ∧ has w PTE_P = true ∧ pteFlags w = e.perm ∧
    t.mem (ppn w) = e.bytes := by
  obtain ⟨d, kstack, f, s, full, -⟩ := full_more 1 (by decide)
  obtain ⟨swapped, block⟩ := full.isSwapped (v := 0) (by decide) (by decide)
  obtain ⟨x, e, table, found, shows, -, returns, restores, -⟩ := swap_round_trip full.reachable
    (canRun_live full.canRun.1) (show 0 < (s.ptable 0).sz by rw [full.canRun.2]; decide) swapped
  obtain ⟨-, u, -, allocated, -⟩ := full.kalloc (by decide) (by decide) (by decide)
  obtain ⟨t, step⟩ :=
    returns full.canRun.1 (Or.inl (by rw [Nat.zero_div, block]; decide)) _ u allocated
    (fun e evicted => (full.victims (by decide) (by decide) (by decide) allocated e evicted).2.1)
  obtain ⟨w, entry, restored⟩ := restores _ t step
  exact ⟨s, x, e, t, w, swapped, table, found, shows, step, entry, restored⟩

/-! ## A page that does not come back -/

theorem swapIndex_eq {b : Nat} (low : SWAPBASE ≤ b) (high : b < NPHYS) :
    swapIndex b = (b - SWAPBASE) / BPPAGE := by
  unfold swapIndex
  rw [SWAPBASE_eq] at low ⊢
  rw [NPHYS_eq] at high
  rw [BPPAGE_eq]
  omega

/-- The next fault reads a slot that was never written, and takes its flags, which are none. -/
theorem Crowded.Lost.again {d x q f f' : Nat} (crowded : Crowded d x q f f' s)
    (lost : Crowded.Lost d x q f f' s t) : ∃ u, handlePageFault 0 0 t = .ok ((), u) ∧
      (u.ptable 0).pgdir = d ∧ pteOf u.mem d 0 = pageWord f' ||| 0#32 ||| PTE_P := by
  obtain ⟨loan, g, sound⟩ := crowded.reachable.sound
  have rep := sound.settled.rep
  have inside := sound.settled.inside (canRun_live crowded.canRun)
  rw [crowded.pgdir] at inside
  have dir := rep.dir_lt inside
  have small := rep.table_lt inside crowded.table
  have word := userWord_map crowded.frame''
  have loose := (rep.entries.frame (v := 2) inside (by decide)
    (by rw [crowded.third]; exact frameOf_present word.present)).2
  rw [word.frame] at loose
  have notDir : d ≠ f' := fun same => loose (Or.inl (same ▸ inside))
  have notTable : x ≠ f' := fun same => loose (Or.inr (Or.inl ⟨d, inside, 0, same ▸ crowded.table⟩))
  have apart : d ≠ x := fun same => rep.layout.table_not_dir inside crowded.table (same ▸ inside)
  obtain ⟨low, high⟩ := crowded.frame_bounds
  obtain ⟨absent, swapped, page, from34, to128⟩ := lostWord_bits low high
  have proc : t.ptable 0 = { s.ptable 0 with rss := BitVec.ofNat 32 (706 * PGSIZE) } := by
    rw [lost.ptable, update_self]
  have pgdir : (t.ptable 0).pgdir = d := by rw [proc]; exact crowded.pgdir
  have slot : t.swapSlots 2 = ⟨true, 0#32, SWAPBASE + 2 * BPPAGE, 0⟩ := by
    rw [lost.slots, update_of_ne (by decide), update_of_ne (by decide),
      readySlots_of_lt (by decide)]
  have picks : Picks t 0 2 x 2 (userWord f') := by
    refine ⟨?_, ?_, ?_, ?_, ?_, ?_, ?_, ?_, ?_, ?_, ?_⟩
    · have big : (t.ptable 0).rss = BitVec.ofNat 32 (706 * PGSIZE) := by rw [proc]
      refine victim_of_top (fun r away => ?_) ?_
      · have few := crowded.others r away
        rw [big, BitVec.lt_def, lost.ptable, update_of_ne away]
        refine Nat.lt_of_le_of_lt few ?_
        decide
      · rw [big]
        decide
    · rw [pgdir]
      exact dir
    · rw [proc]
      change 2 < pagesOf (s.ptable 0).sz
      rw [crowded.size]
      decide
    · intro w less
      rw [pgdir, pdx_small (by omega)]
      exact ⟨x, small, lost.table⟩
    · intro w less
      rw [pgdir]
      by_cases first : w = 0
      · rw [first, lost.first]
        unfold evictable
        rw [absent]
        rfl
      · rw [show w = 1 by omega, lost.second]
        exact evictable_swapEntry (by decide)
    · rw [pgdir, lost.third]
    · exact evictable_userWord crowded.frame''
    · rw [pgdir, pdx_small (by decide)]
      exact lost.table
    · refine firstFree_of_busy (by decide) (by rw [slot]) (fun j less => ?_)
      rw [lost.slots]
      by_cases first : j = 0
      · rw [first, update_of_ne (by decide), update_self]
      · rw [show j = 1 by omega, update_self]
    · rw [slot]
      decide
    · rw [word.frame]
      exact lost.bounds
  have single : t.pageToRefcnt (ppn (userWord f')) ≤ 1 := by
    rw [word.frame, lost.alone]
  obtain ⟨r, allocated, pressed⟩ := kalloc_pressed lost.free picks single
  obtain ⟨mem₁, refcnt₁, disk₁, num₁, shape₁⟩ := pressed.shape
  rw [word.frame] at allocated
  have moved := pressed.mem
  rw [word.frame] at moved
  have sameDir : r.mem d = t.mem d := by
    rw [moved, setWord_of_ne apart, update_of_ne notDir]
  have entry : r.mem x (ptx 0) = pageWord f ||| pteFlags (swapEntry SWAPBASE) ||| PTE_W := by
    rw [moved, setWord_eq_of_ne (fun _ => show ptx 0 ≠ ptx 2 by decide), update_of_ne notTable,
      word_of_first (by decide) lost.table, lost.first]
  have index : swapIndex (ppn (r.mem x (ptx 0))) =
      slotOf (pageWord f ||| pteFlags (swapEntry SWAPBASE) ||| PTE_W) := by
    rw [entry, page, swapIndex_eq (by rw [SWAPBASE_eq]; rw [firstPage_eq] at low; omega) high,
      slotOf, page]
  have perm : (r.swapSlots (swapIndex (ppn (r.mem x (ptx 0))))).pagePerm = 0#32 := by
    rw [index, shape₁]
    dsimp only
    rw [update_of_ne (by omega), lost.slots, update_of_ne (by omega),
      update_of_ne (by omega), readySlots_of_lt (by rw [NPAGE_eq]; omega)]
  have back : swapIn 0 ⟨x, ptx 0⟩ t = .ok ((), swappedIn r 0 ⟨x, ptx 0⟩ f') :=
    swapIn_room allocated small crowded.frame'' (by dsimp only; rw [entry, page]; exact high)
      (by dsimp only; rw [index, NPAGE_eq]; omega)
  refine ⟨swappedIn r 0 ⟨x, ptx 0⟩ f', ?_, ?_, ?_⟩
  · unfold handlePageFault
    rw [Prog.read_bind, bind_of_ok (walk_of_table (by rw [pgdir]; exact dir)
      (by rw [pgdir, Nat.zero_div, pdx_small (by decide)]; exact lost.table))]
    dsimp only
    rw [bind_of_ok (loadWord_ok_iff.mpr ⟨small, rfl, rfl⟩)]
    dsimp only
    rw [Nat.zero_div, word_of_first (by decide) lost.table, lost.first, absent,
      if_neg Bool.false_ne_true]
    exact back
  · unfold swappedIn setProc
    dsimp only
    rw [update_self, shape₁]
    dsimp only
    rw [update_self]
    exact pgdir
  · have table : tablePage (swappedIn r 0 ⟨x, ptx 0⟩ f').mem d (pdx 0) = some x := by
      rw [pdx_small (by decide), ← lost.table]
      refine tablePage_congr ?_ 0
      rw [← sameDir]
      exact (setWord_of_ne apart).trans (update_of_ne notDir _ _)
    rw [pteOf_of_table table]
    refine (setWord_self (Function.update r.mem f' (diskPage r.disk (ppn (r.mem x (ptx 0)))))
      ⟨x, ptx 0⟩ _).trans ?_
    dsimp only
    rw [perm]

/-- The first process shares a page with its child and writes to it when memory is full.
The page is evicted in the course of its own fault; the next fault brings back other
flags, so that the process can no longer access it. -/
theorem swapped_page_lost : ∃ s t u e, Reachable CleanStep s ∧
    Step fork s (.fault 0 0) .nothing t ∧ Evicted s t e ∧
    tablePage s.mem (s.ptable 0).pgdir (pdx 0) = some e.ptr.page ∧ e.ptr.index = ptx 0 ∧
    View s 0 0 = some (true, e.bytes) ∧ Step fork t (.fault 0 0) .nothing u ∧
    pteFlags (pteOf u.mem (u.ptable 0).pgdir 0) ≠ e.perm ∧ View u 0 0 ≠ View s 0 0 := by
  obtain ⟨d, x, q, f, f', s, crowded⟩ := crowded_start
  obtain ⟨t, lost⟩ := crowded.fault
  obtain ⟨u, again, dir, entry⟩ := lost.again crowded
  obtain ⟨e, evicted, ptr, perm, bytes⟩ := lost.itself
  have word := userWord_map crowded.frame
  have present : has (userWord q &&& ~~~PTE_W) PTE_P = true :=
    (has_andNot_P _).trans word.present
  have user : has (userWord q &&& ~~~PTE_W) PTE_U = true :=
    (has_andNot_U _).trans (word.user.trans (by decide))
  have before : View s 0 0 = some (true, e.bytes) := by
    unfold View spaceOf
    rw [crowded.pgdir, crowded.first, pageAt_present present, user, ppn_andNot low_W, word.frame,
      bytes]
  have none : has (pageWord f' ||| 0#32 ||| PTE_P) PTE_U = false := by
    rw [mapWord_user]
    decide
  refine ⟨s, t, u, e, crowded.reachable, ⟨⟨crowded.canRun, ?_, ?_⟩, ?_⟩, evicted, ?_, ?_, before,
    ⟨⟨?_, ?_, ?_⟩, ?_⟩, ?_, ?_⟩
  · rw [crowded.size]
    decide
  · rw [crowded.pgdir]
    change pteOf s.mem d 0 ≠ 0#32
    intro zero
    rw [← crowded.first, zero] at present
    exact absurd present (by decide)
  · unfold perform
    exact bind_of_ok lost.faulted
  · rw [crowded.pgdir, ptr, pdx_small (by decide)]
    exact crowded.table
  · rw [ptr]
  · rw [lost.ptable, update_self]
    exact crowded.canRun
  · rw [lost.ptable, update_self]
    change 0 < (s.ptable 0).sz
    rw [crowded.size]
    decide
  · rw [lost.ptable, update_self]
    change pteOf t.mem (s.ptable 0).pgdir 0 ≠ 0#32
    rw [crowded.pgdir, lost.first]
    intro zero
    have swapped := (lostWord_bits crowded.frame_bounds.1 crowded.frame_bounds.2).2.1
    rw [zero] at swapped
    exact absurd swapped (by decide)
  · unfold perform
    exact bind_of_ok again
  · rw [dir, entry, perm]
    intro same
    have bit := congrArg (fun w : Word => w.getLsbD 2) same
    rw [pteFlags_bit, pteFlags_bit, ← has_U, ← has_U, none, user] at bit
    exact absurd bit (by decide)
  · rw [before]
    unfold View spaceOf
    rw [dir, entry, pageAt_present (has_or_P _), none]
    intro same
    cases same

end Xv6Cow
