import Xv6Cow.Kernel
import Mathlib.Data.List.FinRange
import Mathlib.Data.List.Count

/- kalloc.c, the victim selection of proc.c, and the evicting half of pageswap.c.
The three call each other in a circle: kalloc runs swap_out when the free list is
empty, swap_out asks final_page for a victim and frees its page, and tries again. -/
namespace Xv6Cow

open Prog (read update halt bind_ok_iff read_bind pure_ok_iff halt_ok_iff update_ok_iff)

/-! ## Walking a page table -/

/-- PDX and PTX of the address whose page number is `v`. -/
def pdx (v : Nat) : Fin 1024 := ⟨v / 1024 % 1024, Nat.mod_lt _ (by decide)⟩
def ptx (v : Nat) : Fin 1024 := ⟨v % 1024, Nat.mod_lt _ (by decide)⟩

/-- walkpgdir(pgdir, va, 0). -/
def walkpgdirNoAlloc (pgdir v : Nat) : K (Option PtePtr) := do
  let pde ← loadWord ⟨pgdir, pdx v⟩
  if has pde PTE_P then pure (some ⟨ppn pde, ptx v⟩) else pure none

/-- How many pages a loop `for(i = 0; i < sz; i += PGSIZE)` visits. -/
def pagesOf (sz : Nat) : Nat := (sz + PGSIZE - 1) / PGSIZE

theorem pagesOf_mul (n : Nat) : pagesOf (n * PGSIZE) = n := by
  rw [pagesOf, PGSIZE_eq]
  omega

/-! ## Choosing a victim (proc.c) -/

/-- One round of the loop over ptable, on the pair `max_rss`, `v`. -/
def victimStep (s : Kernel) (best : Word × Option (Fin NPROC)) (p : Fin NPROC) :
    Word × Option (Fin NPROC) :=
  let rss := (s.ptable p).rss
  if best.1 < rss then (rss, some p)
  else if rss = best.1 then
    match best.2 with
    | none => (best.1, some p)
    | some v => if (s.ptable p).pid < (s.ptable v).pid then (best.1, some p) else best
  else best

/-- get_victim_process. The test for UNUSED slots is commented out in the source. -/
def getVictimProcess (s : Kernel) : Option (Fin NPROC) :=
  ((List.finRange NPROC).foldl (victimStep s) (0#32, none)).2

def victimPageFrom (pgdir : Nat) : Nat → Nat → K (Option PtePtr)
  | 0, _ => pure none
  | n + 1, i => do
    let pte ← walkpgdirNoAlloc pgdir i
    let w ← derefPte pte
    if has w PTE_P && has w PTE_U && !has w PTE_A then pure pte
    else victimPageFrom pgdir n (i + 1)

/-- get_victim_page: the first present user page that was not accessed. -/
def getVictimPage (v : Proc) : K (Option PtePtr) :=
  victimPageFrom v.pgdir (pagesOf v.sz) 0

/-- The body of flush_table's `if`, on an entry `w`. -/
def flushEntry (ptr : PtePtr) (w : Word) (ctr : Nat) : K Unit :=
  if ctr = 0 then storeWord ptr (w &&& ~~~PTE_A) else pure ()

def flushFrom (pgdir : Nat) : Nat → Nat → Nat → K Unit
  | 0, _, _ => pure ()
  | n + 1, i, ctr => do
    let pte ← walkpgdirNoAlloc pgdir i
    let w ← derefPte pte
    match pte, has w PTE_P && has w PTE_U && has w PTE_A with
    | some ptr, true => do
      flushEntry ptr w ctr
      flushFrom pgdir n (i + 1) ((ctr + 1) % 10)
    | _, _ => flushFrom pgdir n (i + 1) ctr

/-- flush_table: clears PTE_A on every tenth accessed page. -/
def flushTable (p : Proc) : K Unit := flushFrom p.pgdir (pagesOf p.sz) 0 0

/-- final_page. The victim is returned with the entry only for the history. -/
def finalPage : K (Fin NPROC × Option PtePtr) := do
  let s ← read
  match getVictimProcess s with
  | none => halt .nullDeref
  | some v => do
    subRss v
    let pte ← getVictimPage (s.ptable v)
    match pte with
    | some ptr => pure (v, some ptr)
    | none => do
      flushTable (s.ptable v)
      let pte ← getVictimPage (s.ptable v)
      pure (v, pte)

/-! ## Freeing a page (kalloc.c) -/

/-- A freed page: filled with ones, its first word the link to the next free page. -/
def freedPage (freelist : List Nat) : Page := fun i =>
  if i = 0 then
    match freelist with
    | [] => 0#32
    | next :: _ => pageWord next + BitVec.ofNat 32 KERNBASE
  else 0x01010101#32

/-- The part of kfree after its checks: the page goes on the free list. -/
def pushFree (s : Kernel) (q : Nat) : Kernel :=
  { s with
    mem := Function.update s.mem q (freedPage s.freelist)
    freelist := q :: s.freelist
    numFreePages := s.numFreePages + 1 }

/-- The state kfree leaves. -/
def kfreed (s : Kernel) (q : Nat) : Kernel :=
  if 1 < s.pageToRefcnt q then
    { s with pageToRefcnt := Function.update s.pageToRefcnt q (s.pageToRefcnt q - 1) }
  else pushFree s q

/-- kfree(P2V(q << PTXSHIFT)). -/
def kfree (q : Nat) : K Unit := do
  if q * PGSIZE < endPa ∨ PHYSTOP ≤ q * PGSIZE then panic "kfree"
  else do
    let count ← loadRefcnt q
    if 1 < count then storeRefcnt q (count - 1)
    else update (fun s => pushFree s q)

/-! ## The disk blocks of a slot (bio.c) -/

def FSSIZE : Nat := 10000

def pageBlock (page : Page) (k : Nat) : Block := fun j =>
  page ⟨(128 * k + j.val) % 1024, Nat.mod_lt _ (by decide)⟩

def writeBlocks (disk : Nat → Block) (blockno : Nat) (page : Page) : Nat → Nat → Block
  | 0 => disk
  | k + 1 => Function.update (writeBlocks disk blockno page k) (blockno + k) (pageBlock page k)

/-- The page that eight consecutive blocks hold. -/
def diskPage (disk : Nat → Block) (blockno : Nat) : Page := fun i =>
  disk (blockno + i.val / 128) ⟨i.val % 128, Nat.mod_lt _ (by decide)⟩

/-- write_page_to_swap(blockno, P2V(q << PTXSHIFT)). A block past the end of the
disk stops in idestart. -/
def writePageToSwap (blockno q : Nat) : K Unit := do
  let page ← loadPage q
  if FSSIZE < blockno + BPPAGE then panic "incorrect blockno"
  else update (fun s => { s with disk := writeBlocks s.disk blockno page BPPAGE })

/-- read_page_from_swap(blockno, P2V(q << PTXSHIFT)). -/
def readPageFromSwap (blockno q : Nat) : K Unit := do
  if FSSIZE < blockno + BPPAGE then panic "incorrect blockno"
  else do
    let s ← read
    storePage q (diskPage s.disk blockno)
    logEvent (.swapRead blockno)

/-! ## swap_out (pageswap.c) -/

/-- The entry swap_out leaves: `blockno << PTXSHIFT`, then the three updates. -/
def swapEntry (blockno : Nat) : Word :=
  let first := pageWord blockno
  ((first ||| pteFlags first) ||| PTE_SW) &&& ~~~PTE_P

/-- The variables of a call of swap_out between its steps. -/
structure SwapJob where
  victim : Fin NPROC
  live : Bool
  ptr : PtePtr
  slot : Nat
  frame : Nat
  perm : Word

/-- The first free slot, in the order of the loop. -/
def firstFree (s : Kernel) : Option Nat :=
  (List.range NPAGE).find? (fun i => (s.swapSlots i).isFree)

/-- swap_out up to the disk write: choose the victim, take a slot. -/
def swapReserve : K SwapJob := do
  let (victim, pte) ← finalPage
  let s ← read
  match firstFree s with
  | none => panic "Swap full\n"
  | some i => do
    storeSlot i { s.swapSlots i with isFree := false }
    match pte with
    | none => halt .nullDeref
    | some ptr => do
      let w ← loadWord ptr
      storeSlot i { s.swapSlots i with isFree := false, pagePerm := pteFlags w }
      pure ⟨victim, (s.ptable victim).live, ptr, i, ppn w, pteFlags w⟩

/-- swap_out after the disk write: free the page and rewrite the entry. -/
def swapFinish (job : SwapJob) : K Unit := do
  let s ← read
  kfree job.frame
  storeWord job.ptr (swapEntry (s.swapSlots job.slot).blockno)
  logEvent (.evict ⟨job.victim, job.live, job.ptr, job.frame, job.slot, job.perm,
    s.mem job.frame, decide (s.pageToRefcnt job.frame ≤ 1)⟩)

def swapOut : K Unit := do
  let job ← swapReserve
  let s ← read
  writePageToSwap (s.swapSlots job.slot).blockno job.frame
  swapFinish job

/-! ## What these leave alone -/

/-- Only memory and the process table differ. -/
def MemProc (s t : Kernel) : Prop := ∃ mem ptable, t = { s with mem := mem, ptable := ptable }

theorem MemProc.refl (s : Kernel) : MemProc s s := ⟨s.mem, s.ptable, rfl⟩

theorem MemProc.trans {s t u : Kernel} (first : MemProc s t) (second : MemProc t u) :
    MemProc s u := by
  obtain ⟨m, pt, rfl⟩ := first
  obtain ⟨m', pt', rfl⟩ := second
  exact ⟨m', pt', rfl⟩

theorem walkpgdirNoAlloc_ok_iff {pgdir v : Nat} {s t : Kernel} {pte : Option PtePtr} :
    walkpgdirNoAlloc pgdir v s = .ok (pte, t) ↔ pgdir < NPHYS ∧ t = s ∧
      pte = if has (s.mem pgdir (pdx v)) PTE_P then
        some ⟨ppn (s.mem pgdir (pdx v)), ptx v⟩ else none := by
  unfold walkpgdirNoAlloc
  rw [bind_ok_iff]
  constructor
  · rintro ⟨w, u, loaded, rest⟩
    obtain ⟨inside, rfl, rfl⟩ := loadWord_ok_iff.mp loaded
    rw [Prog.ite_apply] at rest
    split at rest
    · obtain ⟨rfl, rfl⟩ := pure_ok_iff.mp rest
      simp only [*, ↓reduceIte, and_self]
    · obtain ⟨rfl, rfl⟩ := pure_ok_iff.mp rest
      simp only [*, and_self, Bool.false_eq_true, ↓reduceIte]
  · rintro ⟨inside, rfl, rfl⟩
    refine ⟨_, _, loadWord_ok_iff.mpr ⟨inside, rfl, rfl⟩, ?_⟩
    rw [Prog.ite_apply]
    split <;> rfl

theorem victimPageFrom_state {pgdir n i : Nat} {s t : Kernel} {pte : Option PtePtr}
    (success : victimPageFrom pgdir n i s = .ok (pte, t)) : t = s := by
  induction n generalizing i with
  | zero => exact (pure_ok_iff.mp success).2
  | succ n ih =>
    rw [victimPageFrom, bind_ok_iff] at success
    obtain ⟨found, u, walked, rest⟩ := success
    obtain ⟨-, rfl, -⟩ := walkpgdirNoAlloc_ok_iff.mp walked
    rw [bind_ok_iff] at rest
    obtain ⟨w, u, loaded, rest⟩ := rest
    obtain ⟨-, -, -, -, rfl⟩ := derefPte_ok_iff.mp loaded
    rw [Prog.ite_apply] at rest
    split at rest
    · exact (pure_ok_iff.mp rest).2
    · exact ih rest

theorem getVictimPage_state {v : Proc} {s t : Kernel} {pte : Option PtePtr}
    (success : getVictimPage v s = .ok (pte, t)) : t = s := victimPageFrom_state success

theorem flushFrom_memProc {pgdir n i ctr : Nat} {s t : Kernel} {u : Unit}
    (success : flushFrom pgdir n i ctr s = .ok (u, t)) : MemProc s t := by
  induction n generalizing i ctr s with
  | zero =>
    rw [(pure_ok_iff.mp success).2]
    exact MemProc.refl s
  | succ n ih =>
    rw [flushFrom, bind_ok_iff] at success
    obtain ⟨found, u, walked, rest⟩ := success
    obtain ⟨-, rfl, -⟩ := walkpgdirNoAlloc_ok_iff.mp walked
    rw [bind_ok_iff] at rest
    obtain ⟨w, u, loaded, rest⟩ := rest
    obtain ⟨ptr, rfl, -, -, rfl⟩ := derefPte_ok_iff.mp loaded
    split at rest
    · rw [bind_ok_iff] at rest
      obtain ⟨_, u, stored, rest⟩ := rest
      unfold flushEntry at stored
      rw [Prog.ite_apply] at stored
      split at stored
      · obtain ⟨-, rfl⟩ := storeWord_ok_iff.mp stored
        exact MemProc.trans ⟨_, _, rfl⟩ (ih rest)
      · obtain ⟨-, rfl⟩ := pure_ok_iff.mp stored
        exact ih rest
    · exact ih rest

theorem finalPage_memProc {s t : Kernel} {found : Fin NPROC × Option PtePtr}
    (success : finalPage s = .ok (found, t)) : MemProc s t := by
  unfold finalPage at success
  rw [read_bind] at success
  split at success
  · exact (halt_ok_iff.mp success).elim
  · rw [bind_ok_iff] at success
    obtain ⟨_, u, lowered, rest⟩ := success
    have first : MemProc s u := by
      rw [update_ok_iff.mp lowered]
      exact ⟨_, _, rfl⟩
    rw [bind_ok_iff] at rest
    obtain ⟨pte, u', searched, rest⟩ := rest
    obtain rfl := getVictimPage_state searched
    split at rest
    · obtain ⟨-, rfl⟩ := pure_ok_iff.mp rest
      exact first
    · rw [bind_ok_iff] at rest
      obtain ⟨_, w, flushed, rest⟩ := rest
      rw [bind_ok_iff] at rest
      obtain ⟨_, w', searched, rest⟩ := rest
      obtain rfl := getVictimPage_state searched
      obtain ⟨-, rfl⟩ := pure_ok_iff.mp rest
      exact first.trans (flushFrom_memProc flushed)

/-- kfree succeeds on an allocatable page, and then either lowers the count or
puts the page on the free list. -/
theorem kfree_ok_iff {q : Nat} {s t : Kernel} {u : Unit} :
    kfree q s = .ok (u, t) ↔ firstPage ≤ q ∧ q < NPHYS ∧ t = kfreed s q := by
  have bounds : (q * PGSIZE < endPa ∨ PHYSTOP ≤ q * PGSIZE) ↔ ¬ (firstPage ≤ q ∧ q < NPHYS) := by
    simp only [PGSIZE_eq, PHYSTOP_eq, firstPage_eq, NPHYS_eq, endPa]
    omega
  unfold kfree kfreed
  rw [Prog.ite_apply]
  split
  · rename_i outside
    rw [show (panic "kfree" : K Unit) s = .error (.panic "kfree") from rfl]
    constructor
    · intro impossible
      cases impossible
    · rintro ⟨low, high, -⟩
      exact absurd ⟨low, high⟩ (bounds.mp outside)
  · rename_i inside
    rw [bounds, not_not] at inside
    rw [bind_ok_iff]
    constructor
    · rintro ⟨count, t', loaded, rest⟩
      obtain ⟨-, rfl, rfl⟩ := loadRefcnt_ok_iff.mp loaded
      refine ⟨inside.1, inside.2, ?_⟩
      rw [Prog.ite_apply] at rest
      split at rest
      · rename_i several
        rw [if_pos several]
        exact (storeRefcnt_ok_iff.mp rest).2
      · rename_i last
        rw [if_neg last]
        exact update_ok_iff.mp rest
    · rintro ⟨-, -, rfl⟩
      refine ⟨_, _, loadRefcnt_ok_iff.mpr ⟨inside.2, rfl, rfl⟩, ?_⟩
      rw [Prog.ite_apply]
      split
      · exact storeRefcnt_ok_iff.mpr ⟨inside.2, rfl⟩
      · rfl

theorem kfreed_swapSlots (s : Kernel) (q : Nat) : (kfreed s q).swapSlots = s.swapSlots := by
  unfold kfreed
  split <;> rfl

theorem firstFree_some {s : Kernel} {i : Nat} (found : firstFree s = some i) :
    i < NPAGE ∧ (s.swapSlots i).isFree = true := by
  unfold firstFree at found
  refine ⟨List.mem_range.mp (List.mem_of_find?_eq_some found), ?_⟩
  exact List.find?_some (p := fun j => (s.swapSlots j).isFree) found

/-- The state after the reservation of slot `i` for an entry `w`. -/
def reserved (s : Kernel) (i : Nat) (w : Word) : Kernel :=
  { s with
    swapSlots := Function.update s.swapSlots i
      { s.swapSlots i with isFree := false, pagePerm := pteFlags w } }

theorem swapReserve_ok {s t : Kernel} {job : SwapJob}
    (success : swapReserve s = .ok (job, t)) :
    ∃ u, finalPage s = .ok ((job.victim, some job.ptr), u) ∧ firstFree u = some job.slot ∧
      job.ptr.page < NPHYS ∧ job.live = (u.ptable job.victim).live ∧
      job.frame = ppn (u.mem job.ptr.page job.ptr.index) ∧
      job.perm = pteFlags (u.mem job.ptr.page job.ptr.index) ∧
      t = reserved u job.slot (u.mem job.ptr.page job.ptr.index) := by
  unfold swapReserve at success
  rw [bind_ok_iff] at success
  obtain ⟨⟨victim, pte⟩, u, chosen, success⟩ := success
  rw [read_bind] at success
  split at success
  · exact (halt_ok_iff.mp success).elim
  · rename_i i found
    rw [bind_ok_iff] at success
    obtain ⟨_, u1, stored, success⟩ := success
    obtain ⟨inside, rfl⟩ := storeSlot_ok_iff.mp stored
    split at success
    · exact (halt_ok_iff.mp success).elim
    · rename_i ptr
      rw [bind_ok_iff] at success
      obtain ⟨w, u2, loaded, success⟩ := success
      obtain ⟨mapped, rfl, rfl⟩ := loadWord_ok_iff.mp loaded
      rw [bind_ok_iff] at success
      obtain ⟨_, u3, stored, success⟩ := success
      obtain ⟨-, rfl⟩ := storeSlot_ok_iff.mp stored
      obtain ⟨rfl, rfl⟩ := pure_ok_iff.mp success
      refine ⟨u, chosen, found, mapped, rfl, rfl, rfl, ?_⟩
      simp only [reserved, Function.update_idem]

/-- The state after swap_out frees the page and rewrites the entry. -/
def swapFinished (s : Kernel) (job : SwapJob) : Kernel :=
  let t := kfreed s job.frame
  { t with
    mem := setWord t.mem job.ptr (swapEntry (s.swapSlots job.slot).blockno)
    log := .evict ⟨job.victim, job.live, job.ptr, job.frame, job.slot, job.perm,
      s.mem job.frame, decide (s.pageToRefcnt job.frame ≤ 1)⟩ :: t.log }

theorem swapFinish_ok_iff {s t : Kernel} {job : SwapJob} {u : Unit} :
    swapFinish job s = .ok (u, t) ↔ firstPage ≤ job.frame ∧ job.frame < NPHYS ∧
      job.ptr.page < NPHYS ∧ t = swapFinished s job := by
  unfold swapFinish
  rw [read_bind, bind_ok_iff]
  constructor
  · rintro ⟨_, t1, freed, success⟩
    obtain ⟨low, high, rfl⟩ := kfree_ok_iff.mp freed
    rw [bind_ok_iff] at success
    obtain ⟨_, t2, stored, success⟩ := success
    obtain ⟨mapped, rfl⟩ := storeWord_ok_iff.mp stored
    exact ⟨low, high, mapped, update_ok_iff.mp success⟩
  · rintro ⟨low, high, mapped, rfl⟩
    refine ⟨(), kfreed s job.frame, kfree_ok_iff.mpr ⟨low, high, rfl⟩, ?_⟩
    rw [Prog.bind_of_ok (storeWord_ok_iff.mpr ⟨mapped, rfl⟩ : _ = Except.ok ((), _))]
    rfl

theorem writePageToSwap_ok_iff {blockno q : Nat} {s t : Kernel} {u : Unit} :
    writePageToSwap blockno q s = .ok (u, t) ↔ q < NPHYS ∧ blockno + BPPAGE ≤ FSSIZE ∧
      t = { s with disk := writeBlocks s.disk blockno (s.mem q) BPPAGE } := by
  unfold writePageToSwap
  rw [bind_ok_iff]
  constructor
  · rintro ⟨page, t1, loaded, success⟩
    obtain ⟨inside, rfl, rfl⟩ := loadPage_ok_iff.mp loaded
    obtain ⟨fits, success⟩ := Prog.refuse_ok_iff.mp success
    exact ⟨inside, Nat.le_of_not_lt fits, update_ok_iff.mp success⟩
  · rintro ⟨inside, fits, rfl⟩
    refine ⟨_, _, loadPage_ok_iff.mpr ⟨inside, rfl, rfl⟩, ?_⟩
    rw [Prog.ite_apply, if_neg (by omega)]
    rfl

/-- The state after the eight blocks of a job are written. -/
def written (s : Kernel) (job : SwapJob) : Kernel :=
  { s with
    disk := writeBlocks s.disk (s.swapSlots job.slot).blockno (s.mem job.frame) BPPAGE }

theorem swapOut_ok {s t : Kernel} {u : Unit} (success : swapOut s = .ok (u, t)) :
    ∃ job v r, swapReserve s = .ok (job, v) ∧
      r = written v job ∧
      (v.swapSlots job.slot).blockno + BPPAGE ≤ FSSIZE ∧
      firstPage ≤ job.frame ∧ job.frame < NPHYS ∧ job.ptr.page < NPHYS ∧
      t = swapFinished r job := by
  unfold swapOut at success
  rw [bind_ok_iff] at success
  obtain ⟨job, v, reserve, success⟩ := success
  rw [read_bind, bind_ok_iff] at success
  obtain ⟨_, r, stored, finish⟩ := success
  obtain ⟨-, fits, rfl⟩ := writePageToSwap_ok_iff.mp stored
  obtain ⟨low, high, mapped, rfl⟩ := swapFinish_ok_iff.mp finish
  exact ⟨job, v, _, reserve, rfl, fits, low, high, mapped, rfl⟩

/-! ## kalloc -/

def freeSlots (s : Kernel) : Nat := (List.range NPAGE).countP (fun i => (s.swapSlots i).isFree)

private theorem countP_update {slots fresh : Nat → SwapSlot} {i : Nat} (order : List Nat)
    (nodup : order.Nodup) (member : i ∈ order) (was : (slots i).isFree = true)
    (now : (fresh i).isFree = false) (others : ∀ j, j ≠ i → fresh j = slots j) :
    order.countP (fun j => (fresh j).isFree) < order.countP (fun j => (slots j).isFree) := by
  induction order with
  | nil => cases member
  | cons head rest ih =>
    have apart := List.nodup_cons.mp nodup
    rcases List.mem_cons.mp member with rfl | member
    · have same : rest.countP (fun j => (fresh j).isFree) =
          rest.countP (fun j => (slots j).isFree) := by
        apply List.countP_congr
        intro j inside
        rw [others j (by rintro rfl; exact apart.1 inside)]
      rw [List.countP_cons, List.countP_cons, same, was, now]
      simp
    · have less := ih apart.2 member
      rw [List.countP_cons, List.countP_cons, others head (by rintro rfl; exact apart.1 member)]
      omega

/-- Each eviction uses up a slot, so kalloc's recursion ends. -/
theorem swapOut_freeSlots {s t : Kernel} {u : Unit} (success : swapOut s = .ok (u, t)) :
    freeSlots t < freeSlots s := by
  obtain ⟨job, v, r, reserve, rfl, -, -, -, -, rfl⟩ := swapOut_ok success
  obtain ⟨w, chosen, found, -, -, -, -, rfl⟩ := swapReserve_ok reserve
  obtain ⟨mem, ptable, rfl⟩ := finalPage_memProc chosen
  obtain ⟨inside, free⟩ := firstFree_some found
  apply countP_update (List.range NPAGE) List.nodup_range (List.mem_range.mpr inside) free
  · simp only [swapFinished, kfreed_swapSlots, written, reserved, Function.update_self]
  · intro j other
    simp only [swapFinished, kfreed_swapSlots, written, reserved, Function.update_of_ne other]

/-- Take the head of the free list. -/
def popFree (s : Kernel) (q : Nat) (rest : List Nat) : Kernel :=
  { s with
    freelist := rest
    numFreePages := s.numFreePages - 1
    pageToRefcnt := Function.update s.pageToRefcnt q 1 }

def kallocRun (s : Kernel) : Except Fault (Nat × Kernel) :=
  match s.freelist with
  | q :: rest => .ok (q, popFree s q rest)
  | [] =>
    match _outcome : swapOut s with
    | .error why => .error why
    | .ok (_, t) => kallocRun t
termination_by freeSlots s
decreasing_by exact swapOut_freeSlots _outcome

/-- kalloc; a page is returned by its number. It never returns 0: when the free
list is empty it evicts and starts over. -/
def kalloc : K Nat := ⟨kallocRun⟩

theorem kalloc_cons {s : Kernel} {q : Nat} {rest : List Nat} (list : s.freelist = q :: rest) :
    kalloc s = .ok (q, popFree s q rest) := by
  change kallocRun s = _
  rw [kallocRun]
  split
  · rename_i q' rest' list'
    rw [list] at list'
    cases list'
    rfl
  · rename_i empty
    rw [list] at empty
    cases empty

theorem kalloc_nil {s : Kernel} (empty : s.freelist = []) :
    kalloc s = (swapOut >>= fun _ => kalloc).run s := by
  change kallocRun s = _
  rw [kallocRun]
  split
  · rename_i list
    rw [empty] at list
    cases list
  · rw [Prog.bind_apply]
    split
    · rename_i why failed
      rw [failed]
    · rename_i u t success
      rw [success]
      rfl

theorem kalloc_induction {motive : Kernel → Nat → Kernel → Prop}
    (pop : ∀ s q rest, s.freelist = q :: rest → motive s q (popFree s q rest))
    (round : ∀ s t q r, s.freelist = [] → swapOut s = .ok ((), t) → kalloc t = .ok (q, r) →
      motive t q r → motive s q r)
    {s r : Kernel} {q : Nat} (success : kalloc s = .ok (q, r)) : motive s q r := by
  induction size : freeSlots s using Nat.strongRecOn generalizing s with
  | ind n ih =>
    cases list : s.freelist with
    | cons head rest =>
      rw [kalloc_cons list] at success
      cases success
      exact pop s q rest list
    | nil =>
      rw [kalloc_nil list, bind_ok_iff] at success
      obtain ⟨u, t, evicted, again⟩ := success
      exact round s t q r list evicted again
        (ih (freeSlots t) (size ▸ swapOut_freeSlots evicted) again rfl)

end Xv6Cow
