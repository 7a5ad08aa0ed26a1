import Xv6Cow.Boot

/- Allocation when the free list is empty, step by step: which page goes, and what the
state is afterwards. -/
namespace Xv6Cow

open Prog (bind_of_ok read_bind)

variable {g : Ghost} {s t : Kernel} {d v : Nat} {p : Fin NPROC}

/-- An entry that get_victim_page stops at. -/
def evictable (w : Word) : Bool := has w PTE_P && has w PTE_U && !has w PTE_A

theorem victimPageFrom_hit {n i x : Nat} (dir : d < NPHYS) (low : i ≤ v) (high : v < i + n)
    (tables : ∀ u, i ≤ u → u ≤ v → ∃ x < NPHYS, tablePage s.mem d (pdx u) = some x)
    (skip : ∀ u, i ≤ u → u < v → evictable (pteOf s.mem d u) = false)
    (hit : evictable (pteOf s.mem d v) = true) (here : tablePage s.mem d (pdx v) = some x) :
    victimPageFrom d n i s = .ok (some ⟨x, ptx v⟩, s) := by
  unfold evictable at skip hit
  induction n generalizing i with
  | zero => omega
  | succ n ih =>
    obtain ⟨y, small, table⟩ := tables i (Nat.le_refl i) low
    rw [victimPageFrom, bind_of_ok (walk_of_table dir table),
      bind_of_ok (derefPte_ok_iff.mpr ⟨_, rfl, small, rfl, rfl⟩)]
    dsimp only
    rw [← pteOf_of_table table]
    by_cases last : i = v
    · subst last
      rw [table] at here
      cases here
      rw [if_pos hit]
      rfl
    · rw [if_neg (Bool.eq_false_iff.mp (skip i (Nat.le_refl i) (by omega)))]
      exact ih (by omega) (by omega) (fun u above => tables u (by omega))
        (fun u above => skip u (by omega))

theorem victim_of_top (top : ∀ q, q ≠ p → (s.ptable q).rss < (s.ptable p).rss)
    (positive : 0#32 < (s.ptable p).rss) : getVictimProcess s = some p := by
  have loop : ∀ (order : List (Fin NPROC)) (best : Word × Option (Fin NPROC)),
      best = ((s.ptable p).rss, some p) ∨ (best.1 < (s.ptable p).rss ∧ p ∈ order) →
      order.foldl (victimStep s) best = ((s.ptable p).rss, some p) := by
    intro order
    induction order with
    | nil =>
      rintro best (rfl | ⟨-, member⟩)
      · rfl
      · cases member
    | cons q rest ih =>
      rintro best (rfl | ⟨less, member⟩)
      · refine ih _ (Or.inl ?_)
        by_cases here : q = p
        · subst here
          unfold victimStep
          dsimp only
          rw [if_neg (BitVec.lt_irrefl _), if_pos rfl, if_neg (Nat.lt_irrefl _)]
        · have smaller := top q here
          unfold victimStep
          dsimp only
          rw [if_neg (BitVec.lt_asymm smaller), if_neg (BitVec.ne_of_lt smaller)]
      · by_cases here : q = p
        · subst here
          refine ih _ (Or.inl ?_)
          unfold victimStep
          rw [if_pos less]
        · refine ih _ (Or.inr ⟨?_, (List.mem_cons.mp member).resolve_left (Ne.symm here)⟩)
          have smaller := top q here
          unfold victimStep
          dsimp only
          split
          · exact smaller
          · split
            · split
              · exact less
              · split <;> exact less
            · exact less
  have whole := loop (List.finRange NPROC) (0#32, none) (Or.inr ⟨positive, List.mem_finRange p⟩)
  unfold getVictimProcess
  rw [whole]

theorem firstFree_of_busy {i : Nat} (bound : i < NPAGE) (free : (s.swapSlots i).isFree = true)
    (busy : ∀ j, j < i → (s.swapSlots j).isFree = false) : firstFree s = some i := by
  unfold firstFree
  refine List.find?_range_eq_some.mpr ⟨free, List.mem_range.mpr bound, fun j less => ?_⟩
  rw [busy j less]
  rfl

/-- The victim is page `v` of process `p`, whose entry `w` is in page table `x`, and it goes
to slot `i`: the first page that was not accessed and the first free slot. -/
structure Picks (s : Kernel) (p : Fin NPROC) (v x i : Nat) (w : Word) : Prop where
  victim : getVictimProcess s = some p
  dir : (s.ptable p).pgdir < NPHYS
  below : v < pagesOf (s.ptable p).sz
  tables : ∀ u, u ≤ v → ∃ x < NPHYS, tablePage s.mem (s.ptable p).pgdir (pdx u) = some x
  skip : ∀ u, u < v → evictable (pteOf s.mem (s.ptable p).pgdir u) = false
  entry : pteOf s.mem (s.ptable p).pgdir v = w
  hit : evictable w = true
  here : tablePage s.mem (s.ptable p).pgdir (pdx v) = some x
  slot : firstFree s = some i
  block : (s.swapSlots i).blockno + BPPAGE ≤ FSSIZE
  frame : firstPage ≤ ppn w ∧ ppn w < NPHYS

theorem Picks.table_lt {i x : Nat} {w : Word} (picks : Picks s p v x i w) : x < NPHYS := by
  obtain ⟨y, small, same⟩ := picks.tables v (Nat.le_refl v)
  rw [picks.here] at same
  cases same
  exact small

theorem swapReserve_of_final {u : Kernel} {ptr : PtePtr} {i : Nat}
    (chosen : finalPage s = .ok ((p, some ptr), u))
    (slot : firstFree u = some i) (mapped : ptr.page < NPHYS) :
    swapReserve s = .ok (⟨p, (u.ptable p).live, ptr, i, ppn (u.mem ptr.page ptr.index),
      pteFlags (u.mem ptr.page ptr.index)⟩, reserved u i (u.mem ptr.page ptr.index)) := by
  have bound := (firstFree_some slot).1
  unfold swapReserve
  rw [bind_of_ok chosen]
  dsimp only
  rw [read_bind, slot]
  dsimp only
  rw [bind_of_ok (storeSlot_ok_iff.mpr ⟨bound, rfl⟩ : _ = Except.ok ((), _))]
  rw [bind_of_ok (loadWord_ok_iff.mpr ⟨mapped, rfl, rfl⟩)]
  rw [bind_of_ok (storeSlot_ok_iff.mpr ⟨bound, rfl⟩ : _ = Except.ok ((), _))]
  dsimp only
  rw [Function.update_idem]
  rfl

theorem swapOut_of_reserve {r : Kernel} {job : SwapJob} (taken : swapReserve s = .ok (job, r))
    (block : (r.swapSlots job.slot).blockno + BPPAGE ≤ FSSIZE)
    (frame : firstPage ≤ job.frame ∧ job.frame < NPHYS)
    (mapped : job.ptr.page < NPHYS) : swapOut s = .ok ((), swapFinished (written r job) job) := by
  have stored :
      writePageToSwap (r.swapSlots job.slot).blockno job.frame r = .ok ((), written r job) :=
    writePageToSwap_ok_iff.mpr ⟨frame.2, block, rfl⟩
  unfold swapOut
  rw [bind_of_ok taken, read_bind, bind_of_ok stored]
  exact swapFinish_ok_iff.mpr ⟨frame.1, frame.2, mapped, rfl⟩

theorem swapReserve_at {i x : Nat} {w : Word} (picks : Picks s p v x i w) :
    ∃ u job, u = setProc s p { s.ptable p with rss := (s.ptable p).rss - BitVec.ofNat 32 PGSIZE } ∧
      job = ⟨p, (u.ptable p).live, ⟨x, ptx v⟩, i, ppn w, pteFlags w⟩ ∧
      swapReserve s = .ok (job, reserved u i w) := by
  have small := picks.table_lt
  obtain ⟨u, lowered⟩ : ∃ u : Kernel, u = setProc s p
      { s.ptable p with rss := (s.ptable p).rss - BitVec.ofNat 32 PGSIZE } := ⟨_, rfl⟩
  have mem : u.mem = s.mem := by rw [lowered]; rfl
  have slots : u.swapSlots = s.swapSlots := by rw [lowered]; rfl
  have found : finalPage s = .ok ((p, some ⟨x, ptx v⟩), u) := by
    have searched : getVictimPage (s.ptable p) u = .ok (some ⟨x, ptx v⟩, u) := by
      have below := picks.below
      refine victimPageFrom_hit picks.dir (Nat.zero_le v) (by omega) ?_ ?_ ?_ ?_
      · rw [mem]
        exact fun u _ => picks.tables u
      · rw [mem]
        exact fun u _ => picks.skip u
      · rw [mem, picks.entry]
        exact picks.hit
      · rw [mem]
        exact picks.here
    unfold finalPage
    rw [read_bind, picks.victim]
    dsimp only
    rw [subRss, updateProc, Prog.update_bind]
    refine (bind_of_ok (by rw [← lowered]; exact searched)).trans ?_
    rfl
  have word : u.mem x (ptx v) = w := by
    rw [mem, ← pteOf_of_table picks.here]
    exact picks.entry
  have slot : firstFree u = some i := by
    have first := picks.slot
    unfold firstFree at first ⊢
    rw [slots]
    exact first
  have taken := swapReserve_of_final found slot small
  rw [word] at taken
  exact ⟨u, _, lowered, rfl, taken⟩

theorem swapOut_at {i x : Nat} {w : Word} (picks : Picks s p v x i w) :
    ∃ u job, u = setProc s p { s.ptable p with rss := (s.ptable p).rss - BitVec.ofNat 32 PGSIZE } ∧
      job = ⟨p, (u.ptable p).live, ⟨x, ptx v⟩, i, ppn w, pteFlags w⟩ ∧
      swapOut s = .ok ((), swapFinished (written (reserved u i w) job) job) := by
  obtain ⟨u, job, lowered, chosen, taken⟩ := swapReserve_at picks
  have slots : u.swapSlots = s.swapSlots := by rw [lowered]; rfl
  have blockno : ((reserved u i w).swapSlots i).blockno = (s.swapSlots i).blockno := by
    unfold reserved
    dsimp only
    rw [Function.update_self, slots]
  have slotOfJob : job.slot = i := by rw [chosen]
  have frameOfJob : job.frame = ppn w := by rw [chosen]
  have ptrOfJob : job.ptr = ⟨x, ptx v⟩ := by rw [chosen]
  refine ⟨u, job, lowered, chosen, swapOut_of_reserve taken ?_ ?_ ?_⟩
  · rw [slotOfJob, blockno]
    exact picks.block
  · rw [frameOfJob]
    exact picks.frame
  · rw [ptrOfJob]
    exact picks.table_lt

/-- The state after an eviction whose victim is page `v` of process `p`. -/
structure Pressed (s t : Kernel) (p : Fin NPROC) (ptr : PtePtr) (w : Word) (i : Nat) : Prop where
  shape : ∃ mem refcnt disk num, t = { s with
    mem := mem, pageToRefcnt := refcnt, freelist := [], numFreePages := num, disk := disk
    swapSlots := Function.update s.swapSlots i
      { s.swapSlots i with isFree := false, pagePerm := pteFlags w }
    ptable := Function.update s.ptable p
      { s.ptable p with rss := (s.ptable p).rss - BitVec.ofNat 32 PGSIZE }
    log := .evict ⟨p, (s.ptable p).live, ptr, ppn w, i, pteFlags w, s.mem (ppn w), true⟩ :: s.log }
  mem : t.mem = setWord (Function.update s.mem (ppn w) (freedPage [])) ptr
    (swapEntry (s.swapSlots i).blockno)
  refcnt : t.pageToRefcnt = Function.update s.pageToRefcnt (ppn w) 1
  disk : t.disk = writeBlocks s.disk (s.swapSlots i).blockno (s.mem (ppn w)) BPPAGE

theorem swapOut_pressed {i x : Nat} {w : Word} (empty : s.freelist = [])
    (picks : Picks s p v x i w) (alone : s.pageToRefcnt (ppn w) ≤ 1) :
    ∃ t, swapOut s = .ok ((), t) ∧ t.freelist = [ppn w] ∧
      Pressed s (popFree t (ppn w) []) p ⟨x, ptx v⟩ w i := by
  obtain ⟨u, job, lowered, chosen, evicted⟩ := swapOut_at picks
  have counts : u.pageToRefcnt = s.pageToRefcnt := by rw [lowered]; rfl
  have frameOfJob : job.frame = ppn w := by rw [chosen]
  have freed : kfreed (written (reserved u i w) job) job.frame =
      pushFree (written (reserved u i w) job) job.frame := by
    unfold kfreed
    refine if_neg ?_
    rw [frameOfJob]
    change ¬ 1 < u.pageToRefcnt (ppn w)
    rw [counts]
    exact Int.not_lt.mpr alone
  refine ⟨_, evicted, ?_, ?_⟩
  · unfold swapFinished
    rw [freed]
    change job.frame :: u.freelist = _
    rw [frameOfJob, lowered]
    change ppn w :: s.freelist = _
    rw [empty]
  · have count : decide (s.pageToRefcnt (ppn w) ≤ 1) = true := decide_eq_true alone
    unfold popFree swapFinished
    rw [freed]
    subst chosen lowered
    simp only [pushFree, written, reserved, setProc, Function.update_self, empty, count]
    exact ⟨⟨_, _, _, _, rfl⟩, rfl, rfl, rfl⟩

theorem kalloc_pressed {i x : Nat} {w : Word} (empty : s.freelist = [])
    (picks : Picks s p v x i w) (alone : s.pageToRefcnt (ppn w) ≤ 1) :
    ∃ t, kalloc s = .ok (ppn w, t) ∧ Pressed s t p ⟨x, ptx v⟩ w i := by
  obtain ⟨t, evicted, list, pressed⟩ := swapOut_pressed empty picks alone
  refine ⟨_, ?_, pressed⟩
  rw [kalloc_nil empty]
  exact (bind_of_ok evicted).trans (kalloc_cons list)

end Xv6Cow
