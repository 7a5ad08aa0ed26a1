import Xv6Cow.Primitives
import Xv6Cow.PageFault

/- The primitive changes that involve swap slots: reserving one, writing its
blocks, pointing an entry at it, and the way back. -/
namespace Xv6Cow

open Function (update_self update_of_ne)
open RefCount (count refs Exact)

variable {g : Ghost} {s : Kernel} {d v t q i : Nat} {w : Word}

/-! ## Block numbers -/

theorem slotBlock_lt (bound : i < NPAGE) : SWAPBASE + i * BPPAGE < NVPAGE := by
  simp only [NPAGE_eq, SWAPBASE_eq, BPPAGE_eq, NVPAGE_eq] at *
  omega

theorem slotBlock_inj {j : Nat} (same : SWAPBASE + i * BPPAGE = SWAPBASE + j * BPPAGE) : i = j := by
  simp only [SWAPBASE_eq, BPPAGE_eq] at same
  omega

theorem slotOf_block (named : ppn w = SWAPBASE + i * BPPAGE) : slotOf w = i := by
  unfold slotOf
  rw [named]
  simp only [SWAPBASE_eq, BPPAGE_eq]
  omega

theorem swapIndex_block (bound : i < NPAGE) : swapIndex (SWAPBASE + i * BPPAGE) = i := by
  unfold swapIndex
  simp only [NPAGE_eq, SWAPBASE_eq, BPPAGE_eq] at *
  omega

theorem swapEntry_word {b : Nat} (small : b < NVPAGE) :
    has (swapEntry b) PTE_P = false ∧ isSwapped (swapEntry b) = true ∧ ppn (swapEntry b) = b := by
  have bits : ∀ k, k < 12 → (pageWord b).getLsbD k = false := pageWord_low b
  have word : swapEntry b = (pageWord b ||| PTE_SW) &&& ~~~PTE_P := by
    have none : pteFlags (pageWord b) = 0#32 := by
      apply BitVec.eq_of_getLsbD_eq
      intro k _
      rw [pteFlags_bit]
      by_cases low : k < 12
      · simp [bits k low]
      · simp [low]
    simp only [swapEntry, none, BitVec.or_zero]
  have absent : has (swapEntry b) PTE_P = false := by
    rw [word, has_P]
    simp [PTE_P]
  refine ⟨absent, ?_, ?_⟩
  · rw [isSwapped, absent, word, has_SW]
    simp [PTE_SW, PTE_P]
  · rw [word, ppn_andNot (by decide), ppn_or (by decide), ppn_pageWord small]

theorem diskPage_congr {disk disk' : Nat → Block} {b : Nat}
    (same : ∀ k < BPPAGE, disk' (b + k) = disk (b + k)) : diskPage disk' b = diskPage disk b := by
  funext j
  unfold diskPage
  rw [same]
  have := j.isLt
  simp only [BPPAGE_eq]
  omega

theorem writeBlocks_of_ne {disk : Nat → Block} {b c : Nat} {page : Page} {n : Nat}
    (outside : ¬ (b ≤ c ∧ c < b + n)) : writeBlocks disk b page n c = disk c := by
  induction n with
  | zero => rfl
  | succ n ih =>
    rw [writeBlocks, update_of_ne (by omega)]
    exact ih (by omega)

theorem writeBlocks_at {disk : Nat → Block} {b k : Nat} {page : Page} {n : Nat} (inside : k < n) :
    writeBlocks disk b page n (b + k) = pageBlock page k := by
  induction n with
  | zero => omega
  | succ n ih =>
    rw [writeBlocks]
    by_cases last : k = n
    · rw [last, update_self]
    · rw [update_of_ne (by omega)]
      exact ih (by omega)

theorem diskPage_writeBlocks (disk : Nat → Block) (b : Nat) (page : Page) :
    diskPage (writeBlocks disk b page BPPAGE) b = page := by
  funext j
  have bound := j.isLt
  unfold diskPage
  rw [writeBlocks_at (by rw [BPPAGE_eq]; omega)]
  unfold pageBlock
  congr 1
  apply Fin.ext
  simp only
  omega

/-! ## Slots in use -/

theorem Slots.busy (slots : Slots g s) (inside : d ∈ g.dirs) (user : v < NUPAGE)
    (swapped : isSwapped (pteOf s.mem d v) = true) (bound : i < NPAGE)
    (named : ppn (pteOf s.mem d v) = SWAPBASE + i * BPPAGE) :
    (s.swapSlots i).isFree = false ∧ g.reserved i = none ∧
      owners g.dirs s.mem (SWAPBASE + i * BPPAGE) = 1 := by
  have positive : 0 < owners g.dirs s.mem (SWAPBASE + i * BPPAGE) :=
    RefCount.count_pos_iff.mpr ⟨(d, v), mem_sites.mpr ⟨inside, user⟩,
      blockOf_eq_some.mpr ⟨swapped, named⟩⟩
  have taken := slots.taken bound
  cases free : (s.swapSlots i).isFree with
  | true =>
    rw [free] at taken
    simp only [↓reduceIte] at taken
    omega
  | false =>
    rw [free] at taken
    simp only [Bool.false_eq_true, ↓reduceIte] at taken
    by_cases pending : g.reserved i = none
    · rw [if_pos pending] at taken
      exact ⟨rfl, pending, by omega⟩
    · rw [if_neg pending] at taken
      omega

theorem Slots.idle (slots : Slots g s) (bound : i < NPAGE) (free : (s.swapSlots i).isFree = true) :
    g.reserved i = none ∧ owners g.dirs s.mem (SWAPBASE + i * BPPAGE) = 0 := by
  have taken := slots.taken bound
  rw [free] at taken
  simp only [↓reduceIte] at taken
  by_cases pending : g.reserved i = none
  · exact ⟨pending, by omega⟩
  · rw [if_neg pending] at taken
    omega

namespace Ghost

def reserve (g : Ghost) (i : Nat) (content : Word × Page) : Ghost :=
  { g with reserved := Function.update g.reserved i (some content) }

def unreserve (g : Ghost) (i : Nat) : Ghost :=
  { g with reserved := Function.update g.reserved i none }

end Ghost

theorem Layout.slots {m : Nat → Page} {reserved : Nat → Option (Word × Page)}
    (layout : Layout g m) : Layout { g with reserved := reserved } m :=
  ⟨layout.pool_bounds, layout.pins_pool, layout.table_unique, layout.table_not_dir,
    layout.table_not_held, layout.dir_not_held, layout.held_bytes, layout.frozen⟩

theorem Entries.slots {m : Nat → Page} {reserved : Nat → Option (Word × Page)}
    (entries : Entries g m) : Entries { g with reserved := reserved } m :=
  ⟨entries.shape, entries.frame, entries.exclusive, entries.kernel, entries.place⟩

theorem Slots.slot (slots : Slots g s) (inside : d ∈ g.dirs) (user : v < NUPAGE)
    (swapped : isSwapped (pteOf s.mem d v) = true) :
    slotOf (pteOf s.mem d v) < NPAGE ∧
      ppn (pteOf s.mem d v) = SWAPBASE + slotOf (pteOf s.mem d v) * BPPAGE ∧
      Evictable (s.swapSlots (slotOf (pteOf s.mem d v))).pagePerm := by
  obtain ⟨i, bound, named, perm⟩ := slots.named inside user swapped
  rw [slotOf_block named]
  exact ⟨bound, named, perm⟩

theorem Slots.recorded_slot (slots : Slots g s) {e : Eviction} (inside : d ∈ g.dirs)
    (user : v < NUPAGE) (swapped : isSwapped (pteOf s.mem d v) = true)
    (table : tablePage s.mem d (pdx v) = some t)
    (last : lastEviction (since g.base s.log) ⟨t, ptx v⟩ = some e) :
    e.slot = slotOf (pteOf s.mem d v) := by
  obtain ⟨-, named, -⟩ := slots.recorded inside user swapped table last
  rw [slotOf_block named]

theorem Rep.reserve (rep : Rep g s) (bound : i < NPAGE) (free : (s.swapSlots i).isFree = true)
    (w : Word) :
    Rep (g.reserve i (pteFlags w, diskPage s.disk (SWAPBASE + i * BPPAGE))) (reserved s i w) := by
  obtain ⟨unreserved, unowned⟩ := rep.slots.idle bound free
  have other : ∀ {d v}, d ∈ g.dirs → v < NUPAGE → isSwapped (pteOf s.mem d v) = true →
      slotOf (pteOf s.mem d v) ≠ i := by
    intro d v inside user swapped same
    obtain ⟨small, named, -⟩ := rep.slots.slot inside user swapped
    have busy := (rep.slots.busy inside user swapped small named).1
    rw [same, free] at busy
    cases busy
  refine ⟨rep.layout.slots, rep.entries.slots, rep.exact, rep.numFree, ?_, ?_, rep.procs, rep.base⟩
  · refine ⟨?_, ?_, ?_, ?_, ?_, ?_, rep.slots.dated⟩
    · intro j small
      by_cases here : j = i
      · subst here
        simp only [reserved, update_self]
        exact rep.slots.block small
      · simp only [reserved, update_of_ne here]
        exact rep.slots.block small
    · intro j small
      by_cases here : j = i
      · subst here
        simp only [reserved, update_self]
        exact rep.slots.untouched small
      · simp only [reserved, update_of_ne here]
        exact rep.slots.untouched small
    · intro d v inside user swapped
      obtain ⟨small, named, perm⟩ := rep.slots.slot inside user swapped
      refine ⟨_, small, named, ?_⟩
      simp only [reserved, update_of_ne (other inside user swapped)]
      exact perm
    · intro j small
      by_cases here : j = i
      · subst here
        simp only [reserved, Ghost.reserve, update_self, reduceCtorEq, ↓reduceIte,
          unowned, Bool.false_eq_true]
      · simp only [reserved, Ghost.reserve, update_of_ne here]
        exact rep.slots.taken small
    · intro j perm page here
      by_cases same : j = i
      · subst same
        simp only [Ghost.reserve, update_self, Option.some.injEq, Prod.mk.injEq] at here
        simp only [reserved, update_self]
        exact ⟨bound, here.1, here.2⟩
      · simp only [Ghost.reserve, update_of_ne same] at here
        simp only [reserved, update_of_ne same]
        exact rep.slots.reserved here
    · intro d v t e inside user swapped table last
      have before := rep.slots.recorded inside user swapped table last
      have slot := rep.slots.recorded_slot inside user swapped table last
      have different : e.slot ≠ i := by
        rw [slot]
        exact other inside user swapped
      simp only [reserved, update_of_ne different]
      exact before
  · intro d v inside user
    refine Eq.trans ?_ (rep.space inside user)
    refine spaceOf_congr rfl (fun _ => rfl) ?_
    intro swapped
    simp only [reserved, update_of_ne (other inside user swapped), and_self]

/-- Writing blocks that belong to no slot, or to the reserved slot `i`. -/
theorem Rep.writeDisk (rep : Rep g s) {perm : Word} {old : Page} (disk : Nat → Block)
    (pending : g.reserved i = some (perm, old))
    (others : ∀ j < NPAGE, j ≠ i →
      diskPage disk (SWAPBASE + j * BPPAGE) = diskPage s.disk (SWAPBASE + j * BPPAGE)) :
    Rep (g.reserve i (perm, diskPage disk (SWAPBASE + i * BPPAGE))) { s with disk := disk } := by
  have same : ∀ {d v}, d ∈ g.dirs → v < NUPAGE → isSwapped (pteOf s.mem d v) = true →
      diskPage disk (ppn (pteOf s.mem d v)) = diskPage s.disk (ppn (pteOf s.mem d v)) := by
    intro d v inside user swapped
    obtain ⟨small, named, -⟩ := rep.slots.slot inside user swapped
    rw [named]
    apply others _ small
    rintro rfl
    rw [(rep.slots.busy inside user swapped small named).2.1] at pending
    cases pending
  refine ⟨rep.layout.slots, rep.entries.slots, rep.exact, rep.numFree, ?_, ?_, rep.procs, rep.base⟩
  · refine ⟨rep.slots.block, rep.slots.untouched, rep.slots.named, ?_, ?_, ?_, rep.slots.dated⟩
    · intro j small
      rw [← rep.slots.taken small]
      by_cases here : j = i
      · subst here
        simp only [Ghost.reserve, update_self, reduceCtorEq, ↓reduceIte, pending]
      · simp only [Ghost.reserve, update_of_ne here]
    · intro j flags page here
      by_cases mine : j = i
      · subst mine
        simp only [Ghost.reserve, update_self, Option.some.injEq, Prod.mk.injEq] at here
        obtain ⟨small, stored, -⟩ := rep.slots.reserved pending
        exact ⟨small, stored.trans here.1, here.2⟩
      · simp only [Ghost.reserve, update_of_ne mine] at here
        obtain ⟨small, stored, content⟩ := rep.slots.reserved here
        exact ⟨small, stored, (others j small mine).trans content⟩
    · intro d v t e inside user swapped table last
      obtain ⟨flags, named, bytes⟩ := rep.slots.recorded inside user swapped table last
      refine ⟨flags, named, ?_⟩
      rw [bytes, ← named]
      exact (same inside user swapped).symm
  · intro d v inside user
    refine Eq.trans ?_ (rep.space inside user)
    exact spaceOf_congr rfl (fun _ => rfl) (fun swapped => ⟨rfl, same inside user swapped⟩)

theorem has_pteFlags {flag : Word} (low : Low flag) (w : Word) :
    has (pteFlags w) flag = has w flag := by
  unfold has pteFlags
  rw [BitVec.and_assoc, BitVec.and_comm 0xFFF#32 flag]
  have masked := pteFlags_of_low low
  unfold pteFlags at masked
  rw [masked]

theorem low_P : Low PTE_P := by decide
theorem low_W : Low PTE_W := by decide
theorem low_U : Low PTE_U := by decide
theorem low_A : Low PTE_A := by decide
theorem pageAt_swapped {w : Word} (swapped : isSwapped w = true) :
    pageAt s w =
      some (has (s.swapSlots (slotOf w)).pagePerm PTE_U, diskPage s.disk (ppn w)) := by
  unfold isSwapped at swapped
  rw [Bool.and_eq_true, Bool.not_eq_true'] at swapped
  rw [pageAt, if_neg (by rw [swapped.1]; exact Bool.false_ne_true), if_pos swapped.2]

/-- The end of swap_out: the slot holds the page and its flags, the page is freed
and the entry names the slot. -/
theorem Rep.finish (rep : Rep g s) (job : SwapJob) (inside : d ∈ g.dirs) (user : v < NUPAGE)
    (table : tablePage s.mem d (pdx v) = some t) (thawed : g.frozen ⟨t, ptx v⟩ = none)
    (mapped : has (pteOf s.mem d v) PTE_P = true) (perm : Evictable (pteFlags (pteOf s.mem d v)))
    (ptr : job.ptr = ⟨t, ptx v⟩) (frame : job.frame = ppn (pteOf s.mem d v))
    (flags : job.perm = pteFlags (pteOf s.mem d v))
    (written : g.reserved job.slot = some (job.perm, s.mem job.frame)) :
    Rep (g.unreserve job.slot) (swapFinished s job) := by
  obtain ⟨bound, storedPerm, storedPage⟩ := rep.slots.reserved written
  have unowned : owners g.dirs s.mem (SWAPBASE + job.slot * BPPAGE) = 0 ∧
      (s.swapSlots job.slot).isFree = false := by
    have taken := rep.slots.taken bound
    rw [written] at taken
    simp only [reduceCtorEq, ↓reduceIte] at taken
    cases free : (s.swapSlots job.slot).isFree with
    | true =>
      rw [free] at taken
      simp only [↓reduceIte] at taken
      omega
    | false =>
      rw [free] at taken
      simp only [Bool.false_eq_true, ↓reduceIte] at taken
      exact ⟨by omega, rfl⟩
  obtain ⟨absent, swapped, named⟩ := swapEntry_word (slotBlock_lt bound)
  have blockno := rep.slots.block bound
  generalize entry : swapEntry (SWAPBASE + job.slot * BPPAGE) = w' at absent swapped named
  have dropped := rep.dropped inside user table thawed mapped absent
    (fun other => by rw [swapped] at other; cases other)
  have rewrites := dropped.rewrites
  have memory : (swapFinished s job).mem =
      setWord (kfreed s (ppn (pteOf s.mem d v))).mem ⟨t, ptx v⟩ w' := by
    simp only [swapFinished, frame, ptr, blockno, entry]
  have slotsSame : (swapFinished s job).swapSlots = s.swapSlots := kfreed_swapSlots s job.frame
  have diskSame : (swapFinished s job).disk = s.disk := kfreed_disk s job.frame
  have other : ∀ {e u}, e ∈ g.dirs → u < NUPAGE → isSwapped (pteOf s.mem e u) = true →
      ¬ (e = d ∧ u = v) := by
    rintro e u - - swapped' ⟨rfl, rfl⟩
    rw [isSwapped_of_present mapped] at swapped'
    cases swapped'
  have counted : ∀ b, owners g.dirs (swapFinished s job).mem b =
      owners g.dirs s.mem b + if SWAPBASE + job.slot * BPPAGE = b then 1 else 0 := by
    intro b
    have moved := rewrites.owners_eq inside user b
    rw [blockOf_present mapped, blockOf_swapped swapped, named] at moved
    simp only [reduceCtorEq, ↓reduceIte, Nat.add_zero, Option.some.injEq] at moved
    rw [memory]
    exact moved
  have log : (swapFinished s job).log = .evict ⟨job.victim, job.live, job.ptr, job.frame, job.slot,
      job.perm, s.mem job.frame, decide (s.pageToRefcnt job.frame ≤ 1)⟩ :: s.log := by
    simp only [swapFinished, kfreed_log]
  refine ⟨?_, ?_, ?_, ?_, ?_, ?_, ?_, ?_⟩
  · rw [memory]
    exact dropped.layout.slots
  · rw [memory]
    exact dropped.entries.slots
  · rw [memory]
    simp only [swapFinished, frame]
    exact dropped.exact
  · simp only [swapFinished, frame]
    exact dropped.numFree
  · refine ⟨?_, ?_, ?_, ?_, ?_, ?_, ?_⟩
    · rw [slotsSame]
      exact rep.slots.block
    · rw [slotsSame]
      exact rep.slots.untouched
    · intro e u member low swapped'
      rw [slotsSame, memory]
      rw [memory] at swapped'
      by_cases here : e = d ∧ u = v
      · obtain ⟨rfl, rfl⟩ := here
        refine ⟨job.slot, bound, by rw [rewrites.here, named], ?_⟩
        rw [storedPerm, flags]
        exact perm
      · rw [rewrites.others member (user_lt low) here] at swapped' ⊢
        exact rep.slots.named member low swapped'
    · intro j small
      change owners g.dirs _ _ + _ = _
      rw [counted, slotsSame]
      by_cases here : j = job.slot
      · subst here
        simp only [Ghost.unreserve, update_self, ↓reduceIte, unowned,
          Bool.false_eq_true]
      · have apart : SWAPBASE + job.slot * BPPAGE ≠ SWAPBASE + j * BPPAGE :=
          fun same => here (slotBlock_inj same).symm
        simp only [Ghost.unreserve, update_of_ne here, apart, ↓reduceIte, Nat.add_zero]
        exact rep.slots.taken small
    · intro j flags' page here
      rw [slotsSame, diskSame]
      by_cases mine : j = job.slot
      · subst mine
        simp only [Ghost.unreserve, update_self, reduceCtorEq] at here
      · simp only [Ghost.unreserve, update_of_ne mine] at here
        exact rep.slots.reserved here
    · intro e u t' ev member low swapped' found last
      change lastEviction (since g.base _) _ = _ at last
      rw [log, since_cons rep.base] at last
      rw [slotsSame, diskSame, memory]
      rw [memory] at swapped' found
      rw [rewrites.table member] at found
      by_cases here : e = d ∧ u = v
      · obtain ⟨rfl, rfl⟩ := here
        rw [table] at found
        cases found
        rw [← ptr, lastEviction_here] at last
        cases last
        exact ⟨storedPerm.symm, by rw [rewrites.here, named], storedPage.symm⟩
      · rw [rewrites.others member (user_lt low) here] at swapped' ⊢
        rw [lastEviction_other] at last
        · exact rep.slots.recorded member low swapped' found last
        · intro same
          simp only [ptr, PtePtr.mk.injEq] at same
          obtain ⟨rfl, sameEntry⟩ := same
          obtain ⟨rfl, sameDir⟩ := rep.layout.table_unique inside member table found
          exact here ⟨rfl, vpn_ext (user_lt low) (user_lt user) sameDir.symm sameEntry.symm⟩
    · intro e u t' member low swapped' found young
      change lastEviction (since g.base _) _ ≠ _
      rw [log, since_cons rep.base]
      rw [memory] at swapped' found
      rw [rewrites.table member] at found
      by_cases here : (⟨t, ptx v⟩ : PtePtr) = ⟨t', ptx u⟩
      · rw [← here, ← ptr, lastEviction_here]
        exact Option.some_ne_none _
      · rw [lastEviction_other (by rw [ptr]; exact here)]
        have other : ¬ (e = d ∧ u = v) := by
          rintro ⟨rfl, rfl⟩
          rw [table] at found
          cases found
          exact here rfl
        rw [rewrites.others member (user_lt low) other] at swapped'
        exact rep.slots.dated member low swapped' found young
  · have before : g.space d v = some (true, s.mem job.frame) := by
      rw [← rep.space inside user, spaceOf, pageAt_present mapped, frame]
      rw [show has (pteOf s.mem d v) PTE_U = true by
        rw [← has_pteFlags low_U]; exact perm.user]
    have now : pageAt (swapFinished s job) w' = some (true, s.mem job.frame) := by
      rw [pageAt_swapped swapped, slotsSame, diskSame, named, slotOf_block named, storedPerm, flags,
        perm.user, storedPage]
    intro e u member low
    have moved := rep.space_rewrite (r := swapFinished s job) (by rw [memory]; exact rewrites) now
      (by rw [memory]; exact dropped.frame)
      (fun _ _ _ _ => by rw [slotsSame, diskSame]; exact ⟨rfl, rfl⟩) member low
    rw [Ghost.setSpace_self before] at moved
    exact moved
  · intro p
    rw [show (swapFinished s job).ptable = s.ptable from kfreed_ptable s job.frame]
    exact rep.procs p
  · rw [log]
    exact rep.base.trans (List.suffix_cons _ _)

theorem Slots.giveBack {h : Ghost} {r : Kernel} (slots : Slots g s)
    (dirs : h.dirs = g.dirs) (reserved : h.reserved = g.reserved) (base : h.base = g.base)
    (aged : h.aged = g.aged)
    (inside : d ∈ g.dirs) (user : v < NUPAGE) (swapped : isSwapped (pteOf s.mem d v) = true)
    (bound : i < NPAGE) (named : ppn (pteOf s.mem d v) = SWAPBASE + i * BPPAGE)
    (rewrites : Rewrites g s.mem r.mem d v w) (gone : isSwapped w = false)
    (swapSlots : r.swapSlots = Function.update s.swapSlots i { s.swapSlots i with isFree := true })
    (disk : r.disk = s.disk) (log : r.log = s.log) : Slots h r := by
  obtain ⟨-, unreserved, once⟩ := slots.busy inside user swapped bound named
  have perm : ∀ j, (r.swapSlots j).pagePerm = (s.swapSlots j).pagePerm := by
    intro j
    rw [swapSlots]
    by_cases here : j = i
    · subst here
      rw [update_self]
    · rw [update_of_ne here]
  have still : ∀ {e u}, e ∈ g.dirs → u < NUPAGE → isSwapped (pteOf r.mem e u) = true →
      pteOf r.mem e u = pteOf s.mem e u := by
    intro e u member low swapped'
    by_cases here : e = d ∧ u = v
    · obtain ⟨rfl, rfl⟩ := here
      rw [rewrites.here, gone] at swapped'
      cases swapped'
    · exact rewrites.others member (user_lt low) here
  have counted : ∀ b, owners g.dirs r.mem b +
      (if SWAPBASE + i * BPPAGE = b then 1 else 0) = owners g.dirs s.mem b := by
    intro b
    have moved := rewrites.owners_eq inside user b
    have none : blockOf w = none := by
      rw [blockOf, if_neg (by rw [gone]; exact Bool.false_ne_true)]
    rw [blockOf_swapped swapped, named, none] at moved
    simpa only [reduceCtorEq, ↓reduceIte, Nat.add_zero, Option.some.injEq] using moved
  refine ⟨?_, ?_, ?_, ?_, ?_, ?_, ?_⟩
  · intro j small
    rw [swapSlots]
    by_cases here : j = i
    · subst here
      rw [update_self]
      exact slots.block small
    · rw [update_of_ne here]
      exact slots.block small
  · intro j small
    rw [swapSlots]
    by_cases here : j = i
    · subst here
      rw [update_self]
      exact slots.untouched small
    · rw [update_of_ne here]
      exact slots.untouched small
  · intro e u member low swapped'
    rw [dirs] at member
    have same := still member low swapped'
    rw [same] at swapped' ⊢
    obtain ⟨j, small, names, flags⟩ := slots.named member low swapped'
    exact ⟨j, small, names, by rw [perm]; exact flags⟩
  · intro j small
    have here := counted (SWAPBASE + j * BPPAGE)
    rw [dirs, reserved]
    by_cases same : j = i
    · subst same
      rw [if_pos rfl] at here
      simp only [swapSlots, update_self, ↓reduceIte, unreserved]
      omega
    · rw [if_neg (fun equal => same (slotBlock_inj equal).symm)] at here
      rw [swapSlots, update_of_ne same]
      rw [Nat.add_zero] at here
      rw [here]
      exact slots.taken small
  · intro j flags page here
    rw [reserved] at here
    rw [perm, disk]
    exact slots.reserved here
  · intro e u t' ev member low swapped' found last
    rw [dirs] at member
    rw [base, log] at last
    rw [rewrites.table member] at found
    rw [perm, disk]
    have same := still member low swapped'
    rw [same] at swapped' ⊢
    exact slots.recorded member low swapped' found last
  · intro e u t' member low swapped' found young
    rw [dirs] at member
    rw [base, log]
    rw [aged] at young
    rw [rewrites.table member] at found
    rw [still member low swapped'] at swapped'
    exact slots.dated member low swapped' found young

theorem Rep.clearSlot (rep : Rep g s) (inside : d ∈ g.dirs) (user : v < NUPAGE)
    (table : tablePage s.mem d (pdx v) = some t) (thawed : g.frozen ⟨t, ptx v⟩ = none)
    (swapped : isSwapped (pteOf s.mem d v) = true) (bound : i < NPAGE)
    (named : ppn (pteOf s.mem d v) = SWAPBASE + i * BPPAGE) :
    Rep (g.setSpace d v none)
      { s with
        mem := setWord s.mem ⟨t, ptx v⟩ 0#32
        swapSlots := Function.update s.swapSlots i { s.swapSlots i with isFree := true } } := by
  have rewrites : Rewrites g s.mem (setWord s.mem ⟨t, ptx v⟩ 0#32) d v 0#32 :=
    rep.layout.rewrites (Keeps.refl g s.mem) inside (user_lt user) table 0#32
  have counted : ∀ x, frames g.dirs (setWord s.mem ⟨t, ptx v⟩ 0#32) x = frames g.dirs s.mem x := by
    intro x
    have moved := rewrites.frames_eq inside user x
    rw [frameOf_swapped swapped, frameOf_zero] at moved
    omega
  refine ⟨(rep.layout.entry inside table thawed 0#32).setSpace, ?_, ?_, rep.numFree, ?_, ?_,
    rep.procs, rep.base⟩
  · refine rep.entries.rewrite rewrites inside user rfl (fun _ _ => rfl) ?_ ?_ ?_
    · intro x positive
      rw [counted] at positive
      change x ∈ g.pool ∧ x ∉ pins g _
      rw [rewrites.pins_eq]
      exact rep.entries.mapped positive
    · intro present
      exact absurd present (by decide)
    · intro e u x _ _ _ maps
      rw [frameOf_zero] at maps
      cases maps
  · refine rep.exact.congr ?_
    intro x
    refine uses_eq (counted x) ?_
    change x ∈ pins g _ ↔ _
    rw [rewrites.pins_eq]
  · exact rep.slots.giveBack rfl rfl rfl rfl inside user swapped bound named rewrites
      (by decide) rfl rfl rfl
  · refine rep.space_rewrite rewrites (pageAt_zero _) ?_ ?_
    · intro e u member low _ mapped
      exact setWord_of_ne (rep.frame_ne_table inside table member low mapped)
    · intro e u member low _ _
      refine ⟨?_, rfl⟩
      by_cases here : slotOf (pteOf s.mem e u) = i
      · simp only [here, update_self]
      · simp only [update_of_ne here]

/-- The end of a swap-in: the page read from the slot is mapped and the slot is
given back. The write to the count table is harmless if the block number is not
the number of a page in use. -/
theorem Rep.swapIn (rep : Rep g s)
    (held : g.held q = some (diskPage s.disk (ppn (pteOf s.mem d v))))
    (inside : d ∈ g.dirs) (user : v < NUPAGE) (table : tablePage s.mem d (pdx v) = some t)
    (thawed : g.frozen ⟨t, ptx v⟩ = none) (swapped : isSwapped (pteOf s.mem d v) = true)
    (bound : i < NPAGE) (named : ppn (pteOf s.mem d v) = SWAPBASE + i * BPPAGE)
    (harmless : ppn (pteOf s.mem d v) ∈ g.pool → uses g s.mem (ppn (pteOf s.mem d v)) = 0)
    (present : has w PTE_P = true) (frame : ppn w = q)
    (access : has w PTE_U = has (s.swapSlots i).pagePerm PTE_U) (count : Int) :
    Rep (g.drop q)
      { s with
        mem := setWord s.mem ⟨t, ptx v⟩ w
        pageToRefcnt := Function.update s.pageToRefcnt (ppn (pteOf s.mem d v)) count
        swapSlots := Function.update s.swapSlots i { s.swapSlots i with isFree := true } } := by
  have absent : has (pteOf s.mem d v) PTE_P = false := by
    by_contra other
    rw [Bool.not_eq_false] at other
    rw [isSwapped_of_present other] at swapped
    cases swapped
  have mapped := rep.mapped held inside user table thawed absent present frame
  have rewrites := mapped.rewrites
  have before : g.space d v = some (has w PTE_U, diskPage s.disk (ppn (pteOf s.mem d v))) := by
    rw [← rep.space inside user, spaceOf, pageAt_swapped swapped, slotOf_block named, access]
  refine ⟨mapped.layout, mapped.entries, ?_, rep.numFree, ?_, ?_, rep.procs, rep.base⟩
  · apply mapped.exact.scribble
    intro pooled
    have unused := harmless pooled
    have apart : ppn (pteOf s.mem d v) ≠ q := by
      intro same
      rw [same, uses_pinned (held_mem_pins held)] at unused
      omega
    have loose : ppn (pteOf s.mem d v) ∉ pins g s.mem := by
      intro pinned
      rw [uses_pinned pinned] at unused
      omega
    rw [uses_unpinned loose] at unused
    rw [uses_unpinned]
    · have moved := rewrites.frames_eq inside user (ppn (pteOf s.mem d v))
      rw [frameOf_swapped swapped, frameOf_present present, frame] at moved
      simp only [reduceCtorEq, ↓reduceIte, Nat.add_zero, Option.some.injEq, Ne.symm apart] at moved
      change frames g.dirs _ _ = 0
      omega
    · rw [pins_congr (g := g.drop q) rewrites.dir, mem_pins_drop rep.layout held]
      exact fun pinned => loose pinned.2
  · exact rep.slots.giveBack rfl rfl rfl rfl inside user swapped bound named rewrites
      (isSwapped_of_present present) rfl rfl rfl
  · intro e u member low
    refine Eq.trans (rep.space_rewrite rewrites (x := g.space d v) ?_
      (fun member low _ => mapped.frame member low) ?_ member low) ?_
    · rw [pageAt_present present, frame, before]
      refine congrArg (fun bytes => some (has w PTE_U, bytes)) (mapped.page.trans ?_)
      exact rep.layout.held_bytes held
    · intro e u member low _ _
      refine ⟨?_, rfl⟩
      by_cases here : slotOf (pteOf s.mem e u) = i
      · simp only [here, update_self]
      · simp only [update_of_ne here]
    · rw [Ghost.setSpace_self rfl]
      rfl

/-- The ghost after cow_page gives up page `q`: if no entry was left on it, it is
lost, for cow_page lowers the count without looking at it. -/
def Ghost.forgo (g : Ghost) (q remaining : Nat) : Ghost :=
  if remaining = 1 then g.leak q else g

theorem Ghost.forgo_dirs (g : Ghost) (q n : Nat) : (g.forgo q n).dirs = g.dirs := by
  unfold Ghost.forgo
  split <;> rfl

theorem Ghost.forgo_held (g : Ghost) (q n : Nat) : (g.forgo q n).held = g.held := by
  unfold Ghost.forgo
  split <;> rfl

theorem Ghost.forgo_reserved (g : Ghost) (q n : Nat) : (g.forgo q n).reserved = g.reserved := by
  unfold Ghost.forgo
  split <;> rfl

theorem Ghost.forgo_space (g : Ghost) (q n : Nat) : (g.forgo q n).space = g.space := by
  unfold Ghost.forgo
  split <;> rfl

theorem Ghost.forgo_aged (g : Ghost) (q n : Nat) : (g.forgo q n).aged = g.aged := by
  unfold Ghost.forgo
  split <;> rfl

theorem Ghost.forgo_base (g : Ghost) (q n : Nat) : (g.forgo q n).base = g.base := by
  unfold Ghost.forgo
  split <;> rfl

theorem Ghost.forgo_leaving (g : Ghost) (q n : Nat) : (g.forgo q n).leaving = g.leaving := by
  unfold Ghost.forgo
  split <;> rfl

theorem pins_forgo {m : Nat → Page} (n x : Nat) :
    x ∈ pins (g.forgo q n) m ↔ x ∈ pins g m := by
  simp only [pins, Ghost.forgo_dirs, Ghost.forgo_held]

theorem Layout.forgo {m : Nat → Page} (layout : Layout g m) (loose : q ∉ pins g m) (n : Nat) :
    Layout (g.forgo q n) m := by
  unfold Ghost.forgo
  split
  · refine ⟨?_, ?_, layout.table_unique, layout.table_not_dir, layout.table_not_held,
      layout.dir_not_held, layout.held_bytes, layout.frozen⟩
    · intro x inside
      exact layout.pool_bounds x (Finset.mem_of_mem_erase inside)
    · intro x pinned
      refine Finset.mem_erase.mpr ⟨?_, layout.pins_pool x pinned⟩
      rintro rfl
      exact loose pinned
  · exact layout

theorem Rep.cow (rep : Rep g s) (held : g.held q = some (s.mem (ppn (pteOf s.mem d v))))
    (inside : d ∈ g.dirs) (user : v < NUPAGE) (table : tablePage s.mem d (pdx v) = some t)
    (thawed : g.frozen ⟨t, ptx v⟩ = none) (mapped : has (pteOf s.mem d v) PTE_P = true)
    (present : has w PTE_P = true) (frame : ppn w = q)
    (access : has w PTE_U = has (pteOf s.mem d v) PTE_U) :
    Rep ((g.drop q).forgo (ppn (pteOf s.mem d v))
        (frames g.dirs s.mem (ppn (pteOf s.mem d v))))
      { s with
        mem := setWord s.mem ⟨t, ptx v⟩ w
        pageToRefcnt := Function.update s.pageToRefcnt (ppn (pteOf s.mem d v))
          (s.pageToRefcnt (ppn (pteOf s.mem d v)) - 1) } := by
  have maps := frameOf_present mapped
  obtain ⟨pooled, free⟩ := rep.entries.frame inside user maps
  have pinned : q ∈ pins g s.mem := held_mem_pins held
  have unmapped := rep.entries.frames_pinned pinned
  have positive : 0 < frames g.dirs s.mem (ppn (pteOf s.mem d v)) := frames_pos inside user maps
  have before : g.space d v = some (has w PTE_U, s.mem (ppn (pteOf s.mem d v))) := by
    rw [← rep.space inside user, spaceOf, pageAt_present mapped, access]
  have rewrites : Rewrites g s.mem (setWord s.mem ⟨t, ptx v⟩ w) d v w :=
    rep.layout.rewrites (Keeps.refl g s.mem) inside (user_lt user) table w
  have after : frameOf w = some q := by rw [frameOf_present present, frame]
  have aside := rep.frame_ne_table inside table inside user mapped
  generalize old : ppn (pteOf s.mem d v) = f at *
  have apart : f ≠ q := by
    rintro rfl
    exact free pinned
  have counted : ∀ x, frames g.dirs (setWord s.mem ⟨t, ptx v⟩ w) x + (if f = x then 1 else 0) =
      frames g.dirs s.mem x + if q = x then 1 else 0 := by
    intro x
    have moved := rewrites.frames_eq inside user x
    rw [maps, after] at moved
    simpa only [Option.some.injEq] using moved
  have pins_iff : ∀ x, x ∈ pins (g.drop q) (setWord s.mem ⟨t, ptx v⟩ w) ↔
      x ≠ q ∧ x ∈ pins g s.mem := by
    intro x
    rw [pins_congr (g := g.drop q) rewrites.dir, mem_pins_drop rep.layout held]
  have loose : f ∉ pins (g.drop q) (setWord s.mem ⟨t, ptx v⟩ w) := fun other =>
    free ((pins_iff f).mp other).2
  have fewer : uses (g.drop q) (setWord s.mem ⟨t, ptx v⟩ w) f = frames g.dirs s.mem f - 1 := by
    rw [uses_unpinned loose]
    have here := counted f
    rw [if_pos rfl, if_neg (Ne.symm apart)] at here
    change frames g.dirs _ _ = _
    omega
  have others : ∀ x, x ≠ f →
      uses (g.drop q) (setWord s.mem ⟨t, ptx v⟩ w) x = uses g s.mem x := by
    intro x other
    have here := counted x
    rw [if_neg (Ne.symm other), Nat.add_zero] at here
    by_cases same : x = q
    · subst same
      rw [if_pos rfl] at here
      rw [uses_pinned pinned, uses_unpinned (fun more => ((pins_iff x).mp more).1 rfl)]
      exact here
    · rw [if_neg (Ne.symm same), Nat.add_zero] at here
      exact uses_eq here ((pins_iff x).trans (and_iff_right same))
  have layout := (rep.layout.drop held).entry inside table thawed w
  refine ⟨layout.forgo loose _, ?_, ?_, rep.numFree, ?_, ?_, ?_, ?_⟩
  · refine rep.entries.rewrite rewrites inside user (Ghost.forgo_dirs _ _ _) ?_ ?_ ?_ ?_
    · intro absent
      rw [present] at absent
      cases absent
    · intro x more
      change 0 < frames g.dirs (setWord s.mem ⟨t, ptx v⟩ w) x at more
      have here := counted x
      rw [pins_forgo]
      have pool : x ∈ g.pool ∧ x ∉ pins (g.drop q) (setWord s.mem ⟨t, ptx v⟩ w) := by
        by_cases same : x = q
        · subst same
          exact ⟨rep.layout.pins_pool x pinned, fun other => ((pins_iff x).mp other).1 rfl⟩
        · rw [if_neg (Ne.symm same)] at here
          obtain ⟨pool, unpinned⟩ := rep.entries.mapped (x := x) (by omega)
          exact ⟨pool, fun other => unpinned ((pins_iff x).mp other).2⟩
      refine ⟨?_, pool.2⟩
      unfold Ghost.forgo
      split
      · rename_i last
        refine Finset.mem_erase.mpr ⟨?_, pool.1⟩
        rintro rfl
        rw [if_pos rfl, if_neg (Ne.symm apart)] at here
        omega
      · exact pool.1
    · intro _ _
      have here := counted q
      rw [if_neg apart, if_pos rfl] at here
      change frames g.dirs (setWord s.mem ⟨t, ptx v⟩ w) (ppn w) = 1
      rw [frame]
      omega
    · intro e u x member low _ maps' maps''
      rw [after] at maps'
      cases maps'
      exact absurd pinned (rep.entries.frame member low maps'').2
  · have same : ∀ n x, uses ((g.drop q).forgo f n) (setWord s.mem ⟨t, ptx v⟩ w) x =
        uses (g.drop q) (setWord s.mem ⟨t, ptx v⟩ w) x := by
      intro n x
      refine uses_eq ?_ (pins_forgo n x)
      rw [Ghost.forgo_dirs]
    by_cases last : frames g.dirs s.mem f = 1
    · have pool : ((g.drop q).forgo f (frames g.dirs s.mem f)).pool = g.pool.erase f := by
        rw [Ghost.forgo, if_pos last]
        rfl
      rw [pool]
      refine rep.exact.leak ?_ ?_ _
      · rw [uses_unpinned free, last]
      · intro x other
        exact (same _ x).trans (others x other)
    · have pool : ((g.drop q).forgo f (frames g.dirs s.mem f)).pool = g.pool := by
        rw [Ghost.forgo, if_neg last]
        rfl
      rw [pool]
      refine rep.exact.drop ?_ ?_ ?_
      · rw [uses_unpinned free]
        omega
      · rw [uses_unpinned free]
        exact (same _ f).trans fewer
      · intro x other
        exact (same _ x).trans (others x other)
  · refine rep.slots.keep (Ghost.forgo_dirs _ _ _) (Ghost.forgo_reserved _ _ _)
      (Ghost.forgo_base _ _ _)
      (Ghost.forgo_aged _ _ _) rfl rfl rfl (fun member i => rewrites.table member i) ?_
    intro e u member low
    by_cases here : e = d ∧ u = v
    · obtain ⟨rfl, rfl⟩ := here
      refine (congrArg blockOf rewrites.here).trans ?_
      rw [blockOf_present present, blockOf_present mapped]
    · exact congrArg blockOf (rewrites.others member (user_lt low) here)
  · intro e u member low
    rw [Ghost.forgo_dirs] at member
    rw [Ghost.forgo_space]
    refine Eq.trans (rep.space_rewrite rewrites (x := g.space d v) ?_ ?_ ?_ member low) ?_
    · rw [pageAt_present present, frame, before]
      refine congrArg (fun bytes => some (has w PTE_U, bytes)) ?_
      refine (setWord_of_ne ?_).trans (rep.layout.held_bytes held)
      rintro rfl
      exact (rep.layout.held_apart held).2 d inside _ table
    · intro e u member low _ mapped'
      exact setWord_of_ne (rep.frame_ne_table inside table member low mapped')
    · intro e u _ _ _ _
      exact ⟨rfl, rfl⟩
    · rw [Ghost.setSpace_self rfl]
      rfl
  · rw [Ghost.forgo_dirs, Ghost.forgo_leaving]
    exact rep.procs
  · rw [Ghost.forgo_base]
    exact rep.base

end Xv6Cow
