import Mathlib.Order.Interval.Finset.Nat
import Xv6Cow.Room
import Xv6Cow.Machine

/- The machine after main: what the free list, the first process and its address space
are, and that the invariants of the runs hold there. Up to swapinit the slots are in no
sensible state, but nothing is evicted before it, so nothing looks at them. -/
namespace Xv6Cow

open Function (update_self update_of_ne)
open Prog (read update halt bind_of_ok update_bind)

/-! ## Programs that do not look at the slots -/

/-- Unless it evicts, the program does the same whatever the slots are. -/
def Blind {α : Type} (prog : K α) : Prop :=
  ∀ s value t, prog s = .ok (value, t) → t.log = s.log → ∀ slots,
    prog { s with swapSlots := slots } = .ok (value, { t with swapSlots := slots })

variable {α β : Type} {s t : Kernel}

theorem blind_pure (value : α) : Blind (pure value : K α) := by
  intro s _ t success _ slots
  obtain ⟨rfl, rfl⟩ := Prog.pure_ok_iff.mp success
  rfl

theorem blind_halt (why : Fault) : Blind (halt why : K α) := by
  intro s value t success
  cases success

theorem blind_update {change : Kernel → Kernel}
    (same : ∀ s slots, change { s with swapSlots := slots } =
      { change s with swapSlots := slots }) : Blind (update change : K Unit) := by
  intro s _ t success _ slots
  obtain rfl := Prog.update_ok_iff.mp success
  rw [Prog.update_apply, same]

theorem blind_ite {c : Prop} [Decidable c] {first second : K α} (left : Blind first)
    (right : Blind second) : Blind (if c then first else second) := by
  split
  · exact left
  · exact right

theorem blind_bind {first : K α} {next : α → K β} (grows : Prog.Steps Grows first)
    (more : ∀ value, Prog.Steps Grows (next value)) (left : Blind first)
    (right : ∀ value, Blind (next value)) : Blind (first >>= next) := by
  intro s value t success same slots
  rw [Prog.bind_ok_iff] at success
  obtain ⟨x, u, done, rest⟩ := success
  -- the history is the same at the end, so it was the same in between
  have middle : u.log = s.log := by
    have before := grows _ _ _ done
    have after := more x _ _ _ rest
    unfold Grows at before after
    rw [same] at after
    exact after.eq_of_length_le before.length_le
  rw [bind_of_ok (left s x u done middle slots)]
  exact right x u value t rest (same.trans middle.symm) slots

theorem loadWord_blind (ptr : PtePtr) : Blind (loadWord ptr) := by
  intro s w t success _ slots
  obtain ⟨inside, rfl, rfl⟩ := loadWord_ok_iff.mp success
  exact loadWord_ok_iff.mpr ⟨inside, rfl, rfl⟩

theorem storeWord_blind (ptr : PtePtr) (w : Word) : Blind (storeWord ptr w) := by
  intro s _ t success _ slots
  obtain ⟨inside, rfl⟩ := storeWord_ok_iff.mp success
  exact storeWord_ok_iff.mpr ⟨inside, rfl⟩

theorem storePage_blind (q : Nat) (page : Page) : Blind (storePage q page) := by
  intro s _ t success _ slots
  obtain ⟨inside, rfl⟩ := storePage_ok_iff.mp success
  exact storePage_ok_iff.mpr ⟨inside, rfl⟩

theorem updateProc_blind (p : Fin NPROC) (change : Proc → Proc) : Blind (updateProc p change) :=
  blind_update (fun _ _ => rfl)

theorem swapOut_log {u : Unit} (success : swapOut s = .ok (u, t)) : t.log ≠ s.log := by
  obtain ⟨job, v, r, reserve, rfl, -, -, -, -, rfl⟩ := swapOut_ok success
  obtain ⟨w, chosen, -, -, -, -, -, rfl⟩ := swapReserve_ok reserve
  obtain ⟨mem, ptable, rfl⟩ := finalPage_memProc chosen
  intro same
  have longer := congrArg List.length same
  simp only [swapFinished, kfreed_log, written, reserved, List.length_cons] at longer
  omega

theorem kalloc_blind : Blind kalloc := by
  intro s q t success same slots
  cases list : s.freelist with
  | cons x rest =>
    rw [kalloc_cons list] at success
    cases success
    rw [← list]
    exact @kalloc_cons { s with swapSlots := slots } q rest list
  | nil =>
    rw [kalloc_nil list] at success
    obtain ⟨_, u, evicted, rest⟩ := Prog.bind_ok_iff.mp success
    have before := (swapOut_calm _ _ _ evicted).log
    have after := (kalloc_calm _ _ _ rest).log
    rw [same] at after
    exact absurd (after.eq_of_length_le before.length_le) (swapOut_log evicted)

theorem blind_step {first : K α} {next : α → K β} (calm : Prog.Steps Calm first)
    (more : ∀ value, Prog.Steps Calm (next value)) (left : Blind first)
    (right : ∀ value, Blind (next value)) : Blind (first >>= next) :=
  blind_bind (grows_of_calm calm) (fun value => grows_of_calm (more value)) left right

theorem walkpgdir_blind (d v : Nat) : Blind (walkpgdir d v) := by
  unfold walkpgdir
  refine blind_bind (grows_of_calm (loadWord_calm _)) (fun pde => ?_) (loadWord_blind _)
    (fun pde => ?_)
  · split
    · exact grows_of_calm (calm_pure _)
    · exact grows_of_calm (calm_bind kalloc_calm (fun _ => calm_bind (storePage_calm _ _)
        (fun _ => calm_bind (storeWord_calm _ _) (fun _ => calm_pure _))))
  · refine blind_ite (blind_pure _) ?_
    refine blind_step kalloc_calm (fun x => calm_bind (storePage_calm _ _) (fun _ =>
      calm_bind (storeWord_calm _ _) (fun _ => calm_pure _))) kalloc_blind (fun x => ?_)
    refine blind_step (storePage_calm _ _) (fun _ => calm_bind (storeWord_calm _ _)
      (fun _ => calm_pure _)) (storePage_blind _ _) (fun _ => ?_)
    exact blind_step (storeWord_calm _ _) (fun _ => calm_pure _) (storeWord_blind _ _)
      (fun _ => blind_pure _)

theorem mapPage_blind (d : Nat) (perm : Word) (v q : Nat) : Blind (mapPage d perm v q) := by
  unfold mapPage
  have stores : ∀ (pte : PtePtr) (w : Word), Prog.Steps Calm
      (if has w PTE_P then panic "remap" else storeWord pte (pageWord q ||| perm ||| PTE_P) :
        K Unit) := by
    intro pte w
    split
    · exact calm_panic _
    · exact storeWord_calm _ _
  refine blind_step (walkpgdir_calm _ _) (fun pte => calm_bind (loadWord_calm _) (stores pte))
    (walkpgdir_blind d v) (fun pte => ?_)
  refine blind_step (loadWord_calm _) (stores pte) (loadWord_blind _) (fun w => ?_)
  exact blind_ite (blind_halt _) (storeWord_blind _ _)

theorem mapLoop_blind (d : Nat) (perm : Word) (n v q : Nat) : Blind (mapLoop d perm n v q) := by
  induction n generalizing v q with
  | zero => exact blind_pure ()
  | succ n ih =>
    exact blind_step (mapPage_calm _ _ _ _) (fun _ =>
      mapLoop_calm _ _ _ _ _) (mapPage_blind _ _ _ _)
      (fun _ => ih _ _)

theorem mapKernel_blind (d : Nat) (rows : List KMap) : Blind (mapKernel d rows) := by
  induction rows with
  | nil => exact blind_pure ()
  | cons k rest ih =>
    exact blind_step (mappages_calm _ _ _ _ _) (fun _ => mapKernel_calm _ _)
      (mapLoop_blind _ _ _ _ _) (fun _ => ih)

theorem setupkvm_blind : Blind setupkvm := by
  unfold setupkvm
  refine blind_step kalloc_calm (fun d => calm_bind (storePage_calm _ _) (fun _ =>
    calm_bind (mapKernel_calm _ _) (fun _ => calm_pure _))) kalloc_blind (fun d => ?_)
  refine blind_step (storePage_calm _ _) (fun _ => calm_bind (mapKernel_calm _ _)
    (fun _ => calm_pure _)) (storePage_blind _ _) (fun _ => ?_)
  exact blind_step (mapKernel_calm _ _) (fun _ => calm_pure _) (mapKernel_blind _ _)
    (fun _ => blind_pure _)

theorem inituvm_blind (d : Nat) (init : Nat → Byte) (sz : Nat) : Blind (inituvm d init sz) := by
  unfold inituvm
  refine blind_ite (blind_halt _) ?_
  refine blind_step kalloc_calm (fun q => calm_bind (storePage_calm _ _) (fun _ =>
    calm_bind (mappages_calm _ _ _ _ _) (fun _ => storePage_calm _ _))) kalloc_blind (fun q => ?_)
  refine blind_step (storePage_calm _ _) (fun _ => calm_bind (mappages_calm _ _ _ _ _)
    (fun _ => storePage_calm _ _)) (storePage_blind _ _) (fun _ => ?_)
  exact blind_step (mappages_calm _ _ _ _ _) (fun _ => storePage_calm _ _) (mapLoop_blind _ _ _ _ _)
    (fun _ => storePage_blind _ _)

/-! ## Filling the free list -/

/-- freerange on pages nobody counts yet: they end up on the free list, the last one
on top. -/
theorem freerange_room {n q : Nat} (uncounted : s.pageToRefcnt = fun _ => 0) (low : firstPage ≤ q)
    (high : q + n ≤ NPHYS) :
    ∃ mem, freerange n q s = .ok ((), { s with
      mem := mem
      freelist := (List.range' q n).reverse ++ s.freelist
      numFreePages := s.numFreePages + n }) := by
  induction n generalizing q s with
  | zero => exact ⟨s.mem, rfl⟩
  | succ n ih =>
    have freed : kfree q s = .ok ((), pushFree s q) := by
      refine kfree_ok_iff.mpr ⟨low, by omega, ?_⟩
      rw [kfreed, uncounted]
      rfl
    have reset : storeRefcnt q 0 (pushFree s q) = .ok ((), pushFree s q) := by
      refine storeRefcnt_ok_iff.mpr ⟨by omega, ?_⟩
      have same : Function.update s.pageToRefcnt q 0 = s.pageToRefcnt := by
        rw [uncounted]
        exact Function.update_eq_self q _
      change pushFree s q = { pushFree s q with pageToRefcnt := Function.update s.pageToRefcnt q 0 }
      rw [same]
      rfl
    obtain ⟨mem, rest⟩ := @ih (pushFree s q) (q + 1) uncounted (by omega) (by omega)
    refine ⟨mem, ?_⟩
    rw [freerange, bind_of_ok freed, bind_of_ok reset, rest]
    refine congrArg Except.ok (congrArg (Prod.mk ()) ?_)
    simp only [pushFree, List.range'_succ, List.reverse_cons, List.append_assoc,
      List.singleton_append, Nat.add_assoc, Nat.add_comm 1 n]

/-- kinit1's pages: the free list main starts with. -/
def firstPages : List Nat := (List.range' firstPage (NPHYS - firstPage)).reverse

theorem kinit_first (mem : Nat → Page) (disk : Nat → Block) :
    ∃ filled, kinit endPa (4 * 1024 * 1024) (powerOn mem disk) = .ok ((), { powerOn mem disk with
      mem := filled
      freelist := firstPages
      numFreePages := NPHYS - firstPage }) := by
  obtain ⟨filled, done⟩ := @freerange_room (powerOn mem disk) (NPHYS - firstPage) firstPage rfl
    (Nat.le_refl _) (by decide)
  refine ⟨filled, ?_⟩
  have whole : kinit endPa (4 * 1024 * 1024) = freerange (NPHYS - firstPage) firstPage := rfl
  rw [whole, done]
  refine congrArg Except.ok (congrArg (Prod.mk ()) ?_)
  simp only [powerOn, firstPages, List.append_nil, Nat.zero_add]

theorem length_firstPages : firstPages.length = 743 := by
  rw [firstPages, List.length_reverse, List.length_range', firstPage_eq, NPHYS_eq]

/-- The pages main starts with, as a set. -/
def firstPool : Finset Nat := Finset.Ico firstPage NPHYS

theorem mem_firstPages {q : Nat} : q ∈ firstPages ↔ q ∈ firstPool := by
  simp only [firstPages, firstPool, List.mem_reverse, List.mem_range'_1, Finset.mem_Ico,
    firstPage_eq, NPHYS_eq]

/-! ## The first page of the first process -/

variable {g : Ghost} {d : Nat}

theorem Ghost.setSpace_setSpace (g : Ghost) (d v : Nat) (old new : Option (Bool × Page)) :
    (g.setSpace d v old).setSpace d v new = g.setSpace d v new := by
  unfold Ghost.setSpace
  congr 1
  funext e u
  dsimp only
  split <;> rfl

theorem inituvm_room {init : Nat → Byte} {sz : Nat} (rep : Rep g s) (inside : d ∈ g.dirs)
    (loose : g.Loose d) (quiet : Quiet g s.log) (vacant : g.space d 0 = none)
    (missing : tablePage s.mem d (pdx 0) = none) (short : sz < PGSIZE)
    (room : 2 ≤ s.freelist.length) :
    ∃ q t used, inituvm d init sz s = .ok ((), t) ∧ Carves s t d (q :: used) ∧ used.length = 1 ∧
      Rep (g.setSpace d 0 (some (true, zeroPage.patch 0 sz init))) t ∧
      tablePage t.mem d (pdx 0) ≠ none ∧ pteOf t.mem d 0 = userWord q := by
  obtain ⟨q, rest, r, used, list, high, mapped, carves, count, there, -, entry, -⟩ :=
    newPage_room (v := 0) zeroPage (PTE_W ||| PTE_U) rep inside (by decide) vacant
      (by rw [if_pos missing]; exact room)
  rw [if_pos missing] at count
  have allocated := kalloc_cons list
  have zeroed : storePage q zeroPage (popFree s q rest) = .ok ((), _) :=
    storePage_ok_iff.mpr ⟨high, rfl⟩
  obtain ⟨-, fresh, -⟩ := newPage_spec rep inside (by decide) loose vacant allocated zeroed mapped
    (by rw [carves.log]; exact quiet)
  have word : MapWord q (PTE_W ||| PTE_U) (pteOf r.mem d 0) := by
    rw [entry]
    exact userWord_map high
  have alone := fresh.entries.exclusive inside (by decide) word.present
    (word.writable.trans (by decide))
  have stored := fresh.store inside (by decide) word.present alone (zeroPage.patch 0 sz init)
  rw [word.user, word.frame, Ghost.setSpace_setSpace] at stored
  obtain ⟨pooled, unpinned⟩ := fresh.entries.frame inside (by decide) (frameOf_present word.present)
  rw [word.frame] at unpinned
  have keeps := Keeps.unpinned r.mem (zeroPage.patch 0 sz init) unpinned
  refine ⟨q, _, used, ?_, ?_, count, stored, ?_, ?_⟩
  · unfold inituvm
    rw [if_neg (Nat.not_le_of_lt short), bind_of_ok allocated, bind_of_ok zeroed]
    exact (bind_of_ok ((mappages_page d 0 q _ _).trans mapped)).trans
      (storePage_ok_iff.mpr ⟨high, rfl⟩)
  · exact carves.scribble List.mem_cons_self _ (fun i => keeps.table inside i)
  · exact fun absent => there ((keeps.table inside _).symm.trans absent)
  · exact (keeps.entry inside (by decide)).trans entry

/-! ## The kernel's own directory -/

/-- Nothing is in use yet. -/
def startGhost : Ghost where
  pool := firstPool
  dirs := ∅
  held := fun _ => none
  reserved := fun _ => none
  frozen := fun _ => none
  base := []
  aged := false
  leaving := none
  space := fun _ _ => none

/-- The slots as swapinit leaves them. -/
def readySlots : Nat → SwapSlot := fun i =>
  if i < NPAGE then ⟨true, 0#32, SWAPBASE + i * BPPAGE, 0⟩ else ⟨false, 0#32, 0, 0⟩

theorem readySlots_of_lt {i : Nat} (small : i < NPAGE) :
    readySlots i = ⟨true, 0#32, SWAPBASE + i * BPPAGE, 0⟩ := if_pos small

theorem start_rep (pages : s.freelist = firstPages) (count : s.numFreePages = NPHYS - firstPage)
    (slots : s.swapSlots = readySlots) (idle : ∀ p, (s.ptable p).live = false) :
    Rep startGhost s := by
  have unpinned : ∀ q, q ∉ pins startGhost s.mem := by
    rintro q (inside | ⟨d, inside, -⟩ | held)
    · exact Finset.notMem_empty q inside
    · exact Finset.notMem_empty d inside
    · exact held rfl
  have unmapped : ∀ m q, frames ∅ m q = 0 := by
    intro m q
    refine RefCount.count_eq_zero_iff.mpr ?_
    rintro ⟨d, v⟩ member
    exact absurd (mem_sites.mp member).1 (Finset.notMem_empty d)
  have unowned : ∀ m b, owners ∅ m b = 0 := by
    intro m b
    refine RefCount.count_eq_zero_iff.mpr ?_
    rintro ⟨d, v⟩ member
    exact absurd (mem_sites.mp member).1 (Finset.notMem_empty d)
  have none : ∀ {d : Nat}, d ∈ startGhost.dirs → False := fun {d} inside =>
    Finset.notMem_empty d inside
  constructor
  · refine ⟨?_, fun q pinned => absurd pinned (unpinned q), fun inside => (none inside).elim,
      fun inside => (none inside).elim, fun inside => (none inside).elim,
      fun inside => (none inside).elim, nofun, nofun⟩
    intro q member
    exact Finset.mem_Ico.mp member
  · exact ⟨fun inside => (none inside).elim, fun inside => (none inside).elim,
      fun inside => (none inside).elim, fun inside => (none inside).elim, fun inside =>
      (none inside).elim⟩
  · have unused : ∀ q, uses startGhost s.mem q = 0 := fun q =>
      (uses_unpinned (unpinned q)).trans (unmapped _ q)
    refine ⟨fun q _ used => absurd (unused q) (Nat.ne_of_gt used), ?_, ?_⟩
    · intro q
      rw [pages, mem_firstPages]
      exact ⟨fun member => ⟨member, unused q⟩, And.left⟩
    · rw [pages]
      exact List.nodup_reverse.mpr (List.nodup_range' ..)
  · rw [count, pages, firstPages, List.length_reverse, List.length_range']
  · refine ⟨?_, ?_, fun inside => (none inside).elim, ?_, nofun, fun inside => (none inside).elim,
      fun inside => (none inside).elim⟩
    · intro i small
      rw [slots, readySlots_of_lt small]
    · intro i small
      rw [slots, readySlots_of_lt small]
    · intro i small
      rw [slots, readySlots_of_lt small]
      exact unowned _ _
  · exact fun inside => (none inside).elim
  · intro p live
    rw [idle p] at live
    cases live
  · exact List.nil_suffix

theorem first_census {table : Fin NPROC → Proc} (idle : ∀ p, (table p).state = .unused) :
    Census ∅ (startGhost.addDir d) d [] table := by
  have dead : ∀ {p}, ¬ (table p).live = true := by
    intro p live
    unfold Proc.live at live
    rw [idle p] at live
    cases live
  refine ⟨?_, fun live => (dead live).elim, fun live => (dead live).elim, ?_,
    fun live => (dead live).elim, ?_, fun live => (dead live).elim, List.nodup_nil,
    fun live => (dead live).elim, fun live => (dead live).elim, nofun, ?_⟩
  · ext e
    rw [mem_directories]
    refine ⟨fun member => ?_, ?_⟩
    · exact Or.inl ((Finset.mem_insert.mp member).resolve_right (Finset.notMem_empty e))
    · rintro (rfl | ⟨p, live, -⟩)
      · exact Finset.mem_insert_self _ _
      · exact (dead live).elim
  · exact fun u _ => if_pos rfl
  · refine fun q => ⟨fun held => absurd rfl held, ?_⟩
    rintro (⟨p, live, -⟩ | ⟨pipe, member, -⟩ | loaned)
    · exact (dead live).elim
    · cases member
    · exact loaned.elim
  · intro p
    rw [idle p]
    decide

/-! ## The first process -/

/-- An entry of ptable before anything was written to it. -/
def noProc : Proc := ⟨0, 0#32, 0, 0, .unused, 0, none, false⟩

/-- The first process as userinit leaves it. Its rss is still 0: inituvm does not count. -/
def initProc (pgdir kstack pid : Nat) : Proc :=
  ⟨PGSIZE, 0#32, pgdir, kstack, .runnable, pid, none, false⟩

/-- The page of the first process. -/
def initPage : Page := zeroPage.patch 0 initcode.length (fun k => initcode.getD k 0)

/-- What there is once userinit has run. -/
def initGhost (g : Ghost) (k d : Nat) (page : Page) : Ghost :=
  ((g.hold k page).addDir d).setSpace d 0 (some (true, initPage))

theorem allocproc_room {np : Fin NPROC} {k : Nat} (free : firstUnused s = some np)
    (allocated : kalloc (embryo s np) = .ok (k, t)) :
    allocproc s = .ok (some np, setProc t np { t.ptable np with kstack := k }) := by
  unfold allocproc
  rw [Prog.read_bind, free]
  dsimp only
  rw [updateProc, update_bind, update_bind]
  refine (bind_of_ok allocated).trans ?_
  rfl

theorem userinit_room (rep : Rep g s) (quiet : Quiet g s.log) (thawed : g.frozen = fun _ => none)
    (idle : s.ptable = fun _ => noProc) (census : Census ∅ g s.kpgdir s.pipes s.ptable)
    (room : 13 ≤ s.freelist.length) :
    ∃ k d q used t, userinit s = .ok ((), t) ∧ s.freelist = used ++ t.freelist ∧
      used.length = 13 ∧ q ∈ used ∧ Rep (initGhost g k d (s.mem k)) t ∧
      Census ∅ (initGhost g k d (s.mem k)) t.kpgdir t.pipes t.ptable ∧
      tablePage t.mem d (pdx 0) ≠ none ∧ pteOf t.mem d 0 = userWord q ∧
      (∀ x, x ∉ used → t.pageToRefcnt x = s.pageToRefcnt x) ∧
      ∃ mem refcnt free n, t = { s with
        mem := mem, pageToRefcnt := refcnt, freelist := free, numFreePages := n
        ptable := Function.update s.ptable 0 (initProc d k s.nextpid)
        nextpid := s.nextpid + 1
        initproc := some 0 } := by
  have unused : ∀ p, (s.ptable p).live = false := fun p => by rw [idle]; rfl
  have first : firstUnused s = some 0 := by
    unfold firstUnused
    rw [idle]
    rfl
  obtain ⟨k, rest, list⟩ : ∃ k rest, s.freelist = k :: rest := by
    cases list : s.freelist with
    | nil => rw [list] at room; cases room
    | cons k rest => exact ⟨k, rest, rfl⟩
  obtain ⟨-, -, freshStack, -⟩ := rep.free_apart (q := k) (by rw [list]; exact List.mem_cons_self)
  obtain ⟨r, after⟩ : ∃ r : Kernel, r =
      { setProc (popFree (embryo s 0) k rest) 0
          { (popFree (embryo s 0) k rest).ptable 0 with kstack := k } with initproc := some 0 } :=
    ⟨_, rfl⟩
  have table : r.ptable = Function.update s.ptable 0
      ⟨0, 0#32, 0, k, .embryo, s.nextpid, none, false⟩ := by
    rw [after]
    simp only [setProc, popFree, embryo, update_self, Function.update_idem, idle, noProc]
  have dead : ∀ p, (r.ptable p).live = false := by
    intro p
    rw [table]
    by_cases here : p = 0
    · rw [here, update_self]
      rfl
    · rw [update_of_ne here]
      exact unused p
  have rep₁ : Rep (g.hold k (s.mem k)) r := by
    refine (rep.pop list).congr ?_ ?_ ?_ ?_ ?_ ?_ ?_ ?_
    all_goals first
      | rw [after]
        rfl
      | intro p live
        rw [dead p] at live
        cases live
  have log₁ : r.log = s.log := by
    rw [after]
    rfl
  have list₁ : r.freelist = rest := by
    rw [after]
    rfl
  rw [list, List.length_cons] at room
  obtain ⟨d, u, used, mapped, count, list₂, shape, -, counts, low, -⟩ := setupkvm_room rep₁
    (by rw [log₁]; exact quiet) (by rw [list₁]; omega)
  obtain ⟨mem₂, refcnt₂, free₂, n₂, shape⟩ := shape
  have log₂ : u.log = s.log := by
    rw [shape]
    exact log₁
  obtain ⟨freshDir, rep₂, -⟩ := setupkvm_spec rep₁ mapped (by rw [log₂]; exact quiet)
  have table₂ : u.ptable = r.ptable := by rw [shape]
  have rep₃ : Rep _ (setProc u 0 { u.ptable 0 with pgdir := d }) := rep₂.setProc (by
    intro live
    have quiet := dead 0
    rw [← table₂] at quiet
    cases quiet.symm.trans live)
  have missing : tablePage (setProc u 0 { u.ptable 0 with pgdir := d }).mem d (pdx 0) = none :=
    low (pdx 0) (by decide)
  rw [list₁] at list₂
  have enough := congrArg List.length list₂
  rw [List.length_append, List.length_cons, count] at enough
  have loose : ((g.hold k (s.mem k)).addDir d).Loose d := by
    intro ptr w frozen
    change g.frozen ptr = _ at frozen
    rw [thawed] at frozen
    cases frozen
  obtain ⟨q, v, used', filled, carves, count', rep₄, there, entry⟩ := @inituvm_room _ _ _
    (fun k => initcode.getD k 0) initcode.length rep₃ (Finset.mem_insert_self d _) loose
    (by change Quiet _ u.log; rw [log₂]; exact quiet) (if_pos rfl) missing (by decide)
    (by change 2 ≤ u.freelist.length; omega)
  obtain ⟨mem₄, refcnt₄, free₄, n₄, shape₄⟩ := carves.shape
  have table₄ :
      v.ptable = Function.update s.ptable 0 ⟨0, 0#32, d, k, .embryo, s.nextpid, none, false⟩ := by
    rw [shape₄]
    change Function.update u.ptable 0 { u.ptable 0 with pgdir := d } = _
    rw [table₂, table, update_self, Function.update_idem]
  have grown : { v.ptable 0 with sz := PGSIZE, state := .runnable } = initProc d k s.nextpid := by
    rw [table₄, update_self]
    rfl
  have rep₅ : Rep _ (setProc v 0 (initProc d k s.nextpid)) := rep₄.setProc
    (fun _ _ => ⟨Finset.mem_insert_self d _, by change PGSIZE ≤ KERNBASE; decide⟩)
  have final : ∃ mem refcnt free n, setProc v 0 (initProc d k s.nextpid) = { s with
      mem := mem, pageToRefcnt := refcnt, freelist := free, numFreePages := n
      ptable := Function.update s.ptable 0 (initProc d k s.nextpid)
      nextpid := s.nextpid + 1
      initproc := some 0 } := by
    refine ⟨mem₄, refcnt₄, free₄, n₄, ?_⟩
    unfold setProc
    rw [table₄, Function.update_idem, shape₄, setProc, shape, after]
    rfl
  refine ⟨k, d, q, k :: (d :: used) ++ (q :: used'), _, ?_, ?_, ?_, ?_, rep₅, ?_, there, entry, ?_,
    final⟩
  · unfold userinit
    rw [bind_of_ok (allocproc_room first (kalloc_cons (s := embryo s 0) list))]
    dsimp only
    rw [update_bind]
    refine (bind_of_ok (by rw [← mapped, after])).trans ?_
    rw [updateProc, update_bind]
    refine (bind_of_ok filled).trans ?_
    rw [← grown]
    rfl
  · rw [list, list₂]
    have tail : u.freelist = q :: used' ++ v.freelist := carves.freelist
    rw [tail]
    simp only [List.cons_append, List.append_assoc]
    rfl
  · simp only [List.length_append, List.length_cons, count, count']
  · exact List.mem_append_right _ List.mem_cons_self
  · obtain ⟨_, _, _, _, whole⟩ := final
    rw [whole]
    refine census.spawn (p := 0) (unused 0) rfl rfl rfl ?_ freshStack.2 rfl ?_ ?_ ?_
    · exact freshDir.1
    · exact fun x => Ghost.held_hold g k x (s.mem k)
    · intro e x other
      change e ≠ d at other
      change (if e = d ∧ x = 0 then _ else if e = d then _ else g.space e x) = _
      rw [if_neg (fun both => other both.1), if_neg other]
    · intro x high _
      change (if d = d ∧ x = 0 then _ else if d = d then none else _) = none
      have above : x ≠ 0 := by
        rintro rfl
        exact absurd (show pagesOf PGSIZE ≤ 0 from high) (by decide)
      rw [if_neg (fun both => above both.2), if_pos rfl]
  · intro x untouched
    simp only [List.cons_append, List.mem_cons, List.mem_append, not_or] at untouched
    obtain ⟨notStack, notDir, notUsed, notFrame, notUsed'⟩ := untouched
    calc
      v.pageToRefcnt x = u.pageToRefcnt x := carves.refcnt (by
        rw [List.mem_cons, not_or]
        exact ⟨notFrame, notUsed'⟩)
      _ = r.pageToRefcnt x := counts notDir notUsed
      _ = s.pageToRefcnt x := by
        rw [after]
        exact update_of_ne notStack _ _

theorem allocproc_blind : Blind allocproc := by
  intro s out t success same slots
  rcases allocproc_ok success with ⟨full, rfl, rfl⟩ | ⟨np, k, u, free, rfl, taken, rfl⟩
  · unfold allocproc
    rw [Prog.read_bind]
    change firstUnused { t with swapSlots := slots } = none at full
    rw [full]
    rfl
  · exact allocproc_room (s := { s with swapSlots := slots }) free
      (kalloc_blind (embryo s np) k u taken same slots)

theorem userinit_blind : Blind userinit := by
  have tail : ∀ p d, Prog.Steps Grows (do
      updateProc p (fun proc => { proc with pgdir := d })
      inituvm d (fun k => initcode.getD k 0) initcode.length
      updateProc p (fun proc => { proc with sz := PGSIZE, state := .runnable }) : K Unit) :=
    fun p d => grows_bind (updateProc_grows _ _) (fun _ =>
      grows_bind (grows_of_calm (inituvm_calm _ _ _)) (fun _ => updateProc_grows _ _))
  have rest : ∀ p, Prog.Steps Grows (do
      let d ← setupkvm
      updateProc p (fun proc => { proc with pgdir := d })
      inituvm d (fun k => initcode.getD k 0) initcode.length
      updateProc p (fun proc => { proc with sz := PGSIZE, state := .runnable }) : K Unit) :=
    fun p => grows_bind (grows_of_calm setupkvm_calm) (tail p)
  refine blind_bind allocproc_grows ?_ allocproc_blind ?_
  · intro np
    cases np with
    | none => exact fun s _ t success => nomatch success
    | some p => exact grows_bind (grows_update (fun _ => rfl)) (fun _ => rest p)
  · intro np
    cases np with
    | none => exact blind_halt _
    | some p =>
      refine blind_bind (grows_update (fun _ => rfl)) (fun _ =>
        rest p) (blind_update (fun _ _ => rfl))
        (fun _ => ?_)
      refine blind_bind (grows_of_calm setupkvm_calm) (tail p) setupkvm_blind (fun d => ?_)
      refine blind_bind (updateProc_grows _ _) (fun _ => grows_bind
        (grows_of_calm (inituvm_calm _ _ _)) (fun _ => updateProc_grows _ _))
        (updateProc_blind _ _) (fun _ => ?_)
      exact blind_bind (grows_of_calm (inituvm_calm _ _ _)) (fun _ => updateProc_grows _ _)
        (inituvm_blind _ _ _) (fun _ => updateProc_blind _ _)

/-! ## The state after main -/

/-- The state main leaves: process 0 with one page, whose frame is `q`. -/
structure Booted (disk : Nat → Block) (g : Ghost) (k d q : Nat) (s : Kernel) : Prop where
  roomy : Roomy firstPool ∅ g s
  space : g.space d 0 = some (true, initPage)
  freelist : s.freelist = firstPages.drop 23
  ptable : s.ptable = Function.update (fun _ => noProc) 0 (initProc d k 1)
  nextpid : s.nextpid = 2
  initproc : s.initproc = some 0
  pipes : s.pipes = []
  log : s.log = []
  base : g.base = []
  swapSlots : s.swapSlots = readySlots
  disk : s.disk = disk
  table : tablePage s.mem d (pdx 0) ≠ none
  entry : pteOf s.mem d 0 = userWord q
  frame : q < NPHYS

theorem Booted.room {disk : Nat → Block} {g : Ghost} {k d q : Nat} (facts : Booted disk g k d q s) :
    s.freelist.length = 720 := by
  rw [facts.freelist, List.length_drop, length_firstPages]

/-- main returns, and no page that is free then was ever in use. -/
theorem boot_leaves (mem : Nat → Page) (disk : Nat → Block) :
    ∃ g k d q s, boot (powerOn mem disk) = .ok ((), s) ∧ Booted disk g k d q s ∧
      ∀ x ∈ s.freelist, s.pageToRefcnt x = 0 := by
  obtain ⟨filled, started⟩ := kinit_first mem disk
  obtain ⟨s₁, shape₁⟩ : ∃ s₁ : Kernel, s₁ = { powerOn mem disk with
      mem := filled, freelist := firstPages, numFreePages := NPHYS - firstPage } := ⟨_, rfl⟩
  rw [← shape₁] at started
  have list₁ : s₁.freelist = firstPages := by rw [shape₁]
  have count₁ : s₁.numFreePages = NPHYS - firstPage := by rw [shape₁]
  have table₁ : s₁.ptable = fun _ => noProc := by
    rw [shape₁]
    rfl
  have log₁ : s₁.log = [] := by
    rw [shape₁]
    rfl
  obtain ⟨r₁, ready₁⟩ : ∃ r₁ : Kernel, r₁ = { s₁ with swapSlots := readySlots } := ⟨_, rfl⟩
  have pages₁ : r₁.freelist = firstPages := by rw [ready₁, ← list₁]
  have rep₁ : Rep startGhost r₁ := by
    refine start_rep pages₁ ?_ ?_ ?_
    · rw [ready₁, ← count₁]
    · rw [ready₁]
    · intro p
      rw [ready₁]
      change (s₁.ptable p).live = false
      rw [table₁]
      rfl
  have silent : ∀ {h : Ghost}, Quiet h ([] : List Event) := by
    intro h e member
    unfold since at member
    rw [List.take_nil] at member
    cases member
  have length := length_firstPages
  obtain ⟨kp, u, used, mapped, count, list, shape, -, counts, -⟩ := setupkvm_room rep₁
    (by rw [ready₁]; change Quiet _ s₁.log; rw [log₁]; exact silent) (by rw [pages₁]; omega)
  obtain ⟨mem₂, refcnt₂, free₂, n₂, shape₂⟩ := shape
  have log₂ : u.log = [] := by
    rw [shape₂, ready₁]
    exact log₁
  obtain ⟨-, rep₂, -⟩ := setupkvm_spec rep₁ mapped (by rw [log₂]; exact silent)
  have table₂ : u.ptable = fun _ => noProc := by
    rw [shape₂, ready₁]
    exact table₁
  obtain ⟨v, shape₃⟩ : ∃ v : Kernel, v = { u with kpgdir := kp } := ⟨_, rfl⟩
  have table₃ : v.ptable = fun _ => noProc := by
    rw [shape₃]
    exact table₂
  have rep₃ : Rep (startGhost.addDir kp) v := by
    rw [shape₃]
    refine rep₂.congr rfl rfl rfl rfl rfl rfl rfl ?_
    intro p live
    change (u.ptable p).live = true at live
    rw [table₂] at live
    cases live
  have pipes₃ : v.pipes = [] := by
    rw [shape₃, shape₂, ready₁, shape₁]
    rfl
  have census : Census ∅ (startGhost.addDir kp) v.kpgdir v.pipes v.ptable := by
    rw [pipes₃, shape₃]
    exact first_census (fun p => by change (u.ptable p).state = _; rw [table₂]; rfl)
  have list₃ : v.freelist = u.freelist := by rw [shape₃]
  have log₃ : v.log = [] := by
    rw [shape₃]
    exact log₂
  rw [pages₁] at list
  have enough := congrArg List.length list
  rw [length, List.length_append, List.length_cons, count] at enough
  obtain ⟨k, d, q, used', t, inited, list', count', member, rep₄, census₄, there, entry, counts',
    mem₄, refcnt₄, free₄, n₄, shape₄⟩ :=
    userinit_room rep₃ (by rw [log₃]; exact silent) rfl table₃ census
      (by rw [list₃]; omega)
  have slots : t.swapSlots = readySlots := by
    rw [shape₄, shape₃, shape₂, ready₁]
  have log₄ : t.log = [] := by
    rw [shape₄]
    exact log₃
  refine ⟨initGhost (startGhost.addDir kp) k d (v.mem k), k, d, q, t, ?_, ?_, ?_⟩
  · have mapped' : setupkvm s₁ = .ok (kp, { u with swapSlots := s₁.swapSlots }) := by
      have moved :=
        setupkvm_blind r₁ kp u mapped (by rw [log₂, ready₁]; exact log₁.symm) s₁.swapSlots
      rw [ready₁] at moved
      exact moved
    have inited' := userinit_blind v () t inited (by rw [log₄, log₃]) s₁.swapSlots
    have slots₁ : s₁.swapSlots = fun _ => ⟨false, 0#32, 0, 0⟩ := by
      rw [shape₁]
      rfl
    have kernel : kvmalloc s₁ = .ok ((), { v with swapSlots := s₁.swapSlots }) := by
      unfold kvmalloc
      rw [bind_of_ok mapped', shape₃]
      rfl
    have rest : kinit (4 * 1024 * 1024) PHYSTOP = pure () := rfl
    unfold boot
    rw [bind_of_ok started, bind_of_ok kernel, rest, Prog.pure_bind_apply,
      bind_of_ok inited']
    refine congrArg Except.ok (congrArg (Prod.mk ()) ?_)
    have set : (fun i => if i < NPAGE then { s₁.swapSlots i with
        isFree := true, pagePerm := 0#32, blockno := SWAPBASE + i * BPPAGE }
        else s₁.swapSlots i) = t.swapSlots := by
      rw [slots, slots₁]
      rfl
    change { t with swapSlots := fun i => if i < NPAGE then { s₁.swapSlots i with
        isFree := true, pagePerm := 0#32, blockno := SWAPBASE + i * BPPAGE }
        else s₁.swapSlots i } = t
    rw [set]
  · have quiet : Quiet (initGhost (startGhost.addDir kp) k d (v.mem k)) t.log := by
      rw [log₄]
      exact silent
    refine ⟨⟨⟨⟨rep₄, rfl, census₄⟩, quiet, rfl, rfl⟩, rfl, ?_, rfl⟩, ?_, ?_, ?_, ?_, ?_, ?_, log₄,
      rfl, slots, ?_, there, entry, ?_⟩
    · intro e member
      rw [log₄] at member
      cases member
    · exact if_pos ⟨rfl, rfl⟩
    · rw [list, ← list₃, list', List.cons_append, ← List.append_assoc, List.drop_succ_cons,
        List.drop_left' (by rw [List.length_append, count, count'])]
    · rw [shape₄, table₃, shape₃, shape₂, ready₁, shape₁]
      rfl
    · rw [shape₄, shape₃, shape₂, ready₁, shape₁]
      rfl
    · rw [shape₄]
    · rw [shape₄]
      exact pipes₃
    · rw [shape₄, shape₃, shape₂, ready₁, shape₁]
      rfl
    · exact (rep₃.free_apart (by rw [list']; exact List.mem_append_left _ member)).2.1
  · intro x free
    have once : firstPages.Nodup := List.nodup_reverse.mpr (List.nodup_range' ..)
    rw [list, ← list₃, list', List.cons_append, List.nodup_cons, List.nodup_append] at once
    have last : x ∈ used' ++ t.freelist := List.mem_append_right _ free
    have unused : x ∉ used' := fun taken =>
      (List.nodup_append.mp once.2.2.1).2.2 x taken x free rfl
    calc
      t.pageToRefcnt x = v.pageToRefcnt x := counts' x unused
      _ = r₁.pageToRefcnt x := by
        rw [shape₃]
        refine counts ?_ fun taken => once.2.2.2 x taken x last rfl
        rintro rfl
        exact once.1 (List.mem_append_right _ last)
      _ = 0 := by
        rw [ready₁, shape₁]
        rfl

theorem boot_ok (mem : Nat → Page) (disk : Nat → Block) :
    ∃ g k d q s, boot (powerOn mem disk) = .ok ((), s) ∧ Booted disk g k d q s := by
  obtain ⟨g, k, d, q, s, booted, facts, -⟩ := boot_leaves mem disk
  exact ⟨g, k, d, q, s, booted, facts⟩

end Xv6Cow
