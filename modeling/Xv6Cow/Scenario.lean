import Xv6Cow.Plenty
import Xv6Cow.Pressure

/- Runs of the machine into memory pressure: the first process grows until the free list
is empty, and goes on growing, so that its pages go to the swap slots one by one. -/
namespace Xv6Cow

open Function (update_self update_of_ne)
open Prog (bind_of_ok)
open Runs (Run)

/-- States that a run from boot reaches, by the steps of some machine. -/
def Reachable (steps : Kernel → Label → Out → Kernel → Prop) (s : Kernel) : Prop :=
  ∃ mem disk start trace, boot (powerOn mem disk) = .ok ((), start) ∧ Run steps start trace s

/-- A step that is safe as far as evictions go. -/
def CleanStep (s : Kernel) (label : Label) (out : Out) (t : Kernel) : Prop :=
  Step fork s label out t ∧ Clean s label t

theorem Reachable.step {steps : Kernel → Label → Out → Kernel → Prop} {s t : Kernel} {label : Label}
    {out : Out} (reachable : Reachable steps s) (step : steps s label out t) :
      Reachable steps t := by
  obtain ⟨mem, disk, start, trace, booted, run⟩ := reachable
  exact ⟨mem, disk, start, _, booted, run.append (Run.single step)⟩

theorem Reachable.any {s : Kernel} (reachable : Reachable CleanStep s) :
    Reachable (Step fork) s := by
  obtain ⟨mem, disk, start, trace, booted, run⟩ := reachable
  exact ⟨mem, disk, start, trace, booted, run.mono And.left⟩

theorem Reachable.sound {s : Kernel} (reachable : Reachable CleanStep s) :
    ∃ loan g, Sound loan g s := by
  obtain ⟨mem, disk, start, trace, booted, run⟩ := reachable
  obtain ⟨g, k, d, q, r, again, facts⟩ := boot_ok mem disk
  rw [booted] at again
  cases again
  refine run.invariant (I := fun s => ∃ loan g, Sound loan g s) ?_ ⟨∅, g, facts.roomy.sound⟩
  rintro s label out t ⟨loan, g, sound⟩ ⟨step, clean⟩
  obtain ⟨loan', h, -, sound', -⟩ := clean_step sound step clean
  exact ⟨loan', h, sound'⟩

/-- The swap slots when the first `k` are taken, by the pages in frames `f`. -/
def takenSlots (f : Nat → Nat) (k : Nat) : Nat → SwapSlot := fun i =>
  if i < k then ⟨false, pteFlags (userWord (f i)), SWAPBASE + i * BPPAGE, 0⟩ else readySlots i

/-- The only process has `n` pages, of which the first `k` are in the first `k` slots and
page `u` of the others is in frame `f u`. No page is free. -/
structure Full (d kstack : Nat) (f : Nat → Nat) (n k : Nat) (s : Kernel) : Prop where
  reachable : Reachable CleanStep s
  sound : ∃ g, Sound ∅ g s
  free : s.freelist = []
  ptable : s.ptable = Function.update (fun _ => noProc) 0
    ⟨n * PGSIZE, BitVec.ofNat 32 ((n - 1 - k) * PGSIZE), d, kstack, .runnable, 1, none, false⟩
  table : ∃ x, tablePage s.mem d 0 = some x
  swapped : ∀ u, u < k → pteOf s.mem d u = swapEntry (SWAPBASE + u * BPPAGE)
  present : ∀ u, k ≤ u → u < n → pteOf s.mem d u = userWord (f u)
  frames : ∀ u, k ≤ u → u < n → f u < NPHYS
  slots : s.swapSlots = takenSlots f k

variable {s t : Kernel} {d kstack n k : Nat} {f : Nat → Nat}

theorem pdx_small {u : Nat} (small : u < 1024) : pdx u = 0 := by
  apply Fin.ext
  rw [pdx_val (by rw [NVPAGE_eq]; omega)]
  exact Nat.div_eq_of_lt small

theorem growproc_pages {p : Fin NPROC} {m j : Nat} (positive : 0 < j)
    (size : (s.ptable p).sz = m * PGSIZE) (fits : m + j < NUPAGE)
    (looped : allocLoop p (s.ptable p).pgdir j m s = .ok ((), t)) :
    growproc p ((j * PGSIZE : Nat) : Int) s =
      .ok (true, setProc t p { t.ptable p with sz := (m + j) * PGSIZE }) := by
  have newsz : (((m * PGSIZE : Nat) + ((j * PGSIZE : Nat) : Int)) % 2 ^ 32).toNat =
      (m + j) * PGSIZE := by
    rw [NUPAGE_eq] at fits
    rw [PGSIZE_eq]
    omega
  have grows : (0 : Int) < ((j * PGSIZE : Nat) : Int) := by
    rw [PGSIZE_eq]
    omega
  have below : ¬ KERNBASE ≤ (m + j) * PGSIZE := by
    rw [NUPAGE_eq] at fits
    rw [KERNBASE_eq, PGSIZE_eq]
    omega
  have up : ¬ (m + j) * PGSIZE < m * PGSIZE := by
    rw [PGSIZE_eq]
    omega
  have nonzero : (m + j) * PGSIZE ≠ 0 := by
    rw [PGSIZE_eq]
    omega
  unfold growproc
  rw [Prog.read_bind]
  dsimp only
  rw [if_neg (ne_of_gt grows), size, newsz, if_pos grows]
  unfold allocuvm
  rw [if_neg below, if_neg up, pagesOf_mul, pagesOf_mul, Nat.add_sub_cancel_left]
  refine (bind_of_ok (bind_of_ok looped)).trans ?_
  rw [if_neg nonzero]
  rfl

theorem sbrk_step {p : Fin NPROC} {j : Int} {success : Bool} (runs : (s.ptable p).canRun = true)
    (grown : growproc p j s = .ok (success, t)) : Step fork s (.sbrk p j) (.flag success) t := by
  refine ⟨runs, ?_⟩
  unfold perform
  exact bind_of_ok grown

theorem evictable_swapEntry {b : Nat} (small : b < NVPAGE) : evictable (swapEntry b) = false := by
  unfold evictable
  rw [(swapEntry_word small).1]
  rfl

theorem evictable_userWord {q : Nat} (small : q < NPHYS) : evictable (userWord q) = true := by
  have word := userWord_map small
  have idle : has (userWord q) PTE_A = false := by
    unfold userWord
    rw [has_A, BitVec.getLsbD_or, BitVec.getLsbD_or, pageWord_low q 5 (by decide)]
    rfl
  unfold evictable
  rw [word.present, word.user, idle]
  decide

namespace Full

theorem proc (full : Full d kstack f n k s) : s.ptable 0 =
    ⟨n * PGSIZE, BitVec.ofNat 32 ((n - 1 - k) * PGSIZE), d, kstack, .runnable, 1, none, false⟩ := by
  rw [full.ptable, update_self]

theorem live (full : Full d kstack f n k s) : (s.ptable 0).live = true := by
  rw [full.proc]
  rfl

theorem inside (full : Full d kstack f n k s) {g : Ghost} (sound : Sound ∅ g s) : d ∈ g.dirs := by
  have member := sound.settled.inside full.live
  rw [full.proc] at member
  exact member

theorem refcnt_alone {g : Ghost} {v : Nat} (rep : Rep g s) (inside : d ∈ g.dirs) (user : v < NUPAGE)
    (present : has (pteOf s.mem d v) PTE_P = true) (writable : has (pteOf s.mem d v) PTE_W = true) :
    s.pageToRefcnt (ppn (pteOf s.mem d v)) = 1 := by
  have one := rep.entries.exclusive inside user present writable
  obtain ⟨pooled, loose⟩ := rep.entries.frame inside user (frameOf_present present)
  have used := uses_unpinned loose
  rw [one] at used
  rw [rep.exact.counted _ pooled (by rw [used]; decide), used]
  rfl

theorem picks {x : Nat} (full : Full d kstack f n k s) (small : n ≤ 1024) (more : k + 1 < n)
    (bound : k < NPAGE) (table : tablePage s.mem d 0 = some x) :
    Picks s 0 k x k (userWord (f k)) ∧ s.pageToRefcnt (f k) = 1 := by
  obtain ⟨g, sound⟩ := full.sound
  have rep := sound.settled.rep
  have inside := full.inside sound
  have frame := full.frames k (Nat.le_refl k) (by omega)
  have word := userWord_map frame
  have entry := full.present k (Nat.le_refl k) (by omega)
  have user : k < NUPAGE := by rw [NUPAGE_eq]; omega
  have pgdir : (s.ptable 0).pgdir = d := by rw [full.proc]
  have pooled :=
    (rep.entries.frame inside user (by rw [entry]; exact frameOf_present word.present)).1
  have alone := refcnt_alone rep inside user (by rw [entry]; exact word.present)
    (by rw [entry, word.writable]; decide)
  rw [entry, word.frame] at alone
  rw [word.frame] at pooled
  have slot : s.swapSlots k = ⟨true, 0#32, SWAPBASE + k * BPPAGE, 0⟩ := by
    rw [full.slots, takenSlots, if_neg (Nat.lt_irrefl k), readySlots_of_lt bound]
  refine ⟨?_, alone⟩
  refine ⟨?_, ?_, ?_, ?_, ?_, ?_, ?_, ?_, ?_, ?_, ?_⟩
  · have positive : 0#32 < (s.ptable 0).rss := by
      rw [full.proc, BitVec.lt_def]
      change 0 < (BitVec.ofNat 32 ((n - 1 - k) * PGSIZE)).toNat
      rw [BitVec.toNat_ofNat, PGSIZE_eq, Nat.mod_eq_of_lt (by omega)]
      omega
    refine victim_of_top (fun q other => ?_) positive
    have none : (s.ptable q).rss = 0#32 := by
      rw [full.ptable, update_of_ne other]
      rfl
    rw [none]
    exact positive
  · rw [pgdir]
    exact rep.dir_lt inside
  · rw [full.proc]
    change k < pagesOf (n * PGSIZE)
    rw [pagesOf_mul]
    omega
  · intro u low
    rw [pgdir, pdx_small (by omega)]
    exact ⟨x, rep.table_lt inside table, table⟩
  · intro u low
    rw [pgdir, full.swapped u low]
    exact evictable_swapEntry (by rw [SWAPBASE_eq, BPPAGE_eq, NVPAGE_eq]; omega)
  · rw [pgdir, entry]
  · exact evictable_userWord frame
  · rw [pgdir, pdx_small (by omega)]
    exact table
  · refine firstFree_of_busy bound (by rw [slot]) (fun j less => ?_)
    rw [full.slots, takenSlots, if_pos less]
  · rw [slot]
    change SWAPBASE + k * BPPAGE + BPPAGE ≤ FSSIZE
    rw [SWAPBASE_eq, BPPAGE_eq, FSSIZE]
    rw [NPAGE_eq] at bound
    omega
  · rw [word.frame]
    exact rep.layout.pool_bounds _ pooled

theorem kalloc (full : Full d kstack f n k s) (small : n ≤ 1024) (more : k + 1 < n)
    (bound : k < NPAGE) :
    ∃ x t, tablePage s.mem d 0 = some x ∧ Xv6Cow.kalloc s = .ok (f k, t) ∧
      Pressed s t 0 ⟨x, ptx k⟩ (userWord (f k)) k := by
  obtain ⟨x, table⟩ := full.table
  obtain ⟨picks, alone⟩ := full.picks small more bound table
  have word := userWord_map (full.frames k (Nat.le_refl k) (by omega))
  obtain ⟨t, allocated, pressed⟩ := kalloc_pressed full.free picks (by rw [word.frame, alone])
  rw [word.frame] at allocated
  exact ⟨x, t, table, allocated, pressed⟩

theorem pressed_entries {g : Ghost} {x : Nat} (page : Page) (full : Full d kstack f n k s)
    (sound : Sound ∅ g s) (small : n ≤ 1024) (more : k + 1 < n) (bound : k < NPAGE)
    (table : tablePage s.mem d 0 = some x) (pressed : Pressed s t 0 ⟨x, ptx k⟩ (userWord (f k)) k) :
    (∀ i, tablePage (Function.update t.mem (f k) page) d i = tablePage s.mem d i) ∧
    pteOf (Function.update t.mem (f k) page) d k = swapEntry (SWAPBASE + k * BPPAGE) ∧
    ∀ w, w < NVPAGE → w ≠ k → pteOf (Function.update t.mem (f k) page) d w = pteOf s.mem d w := by
  have rep := sound.settled.rep
  have inside := full.inside sound
  have word := userWord_map (full.frames k (Nat.le_refl k) (by omega))
  have entry := full.present k (Nat.le_refl k) (by omega)
  have user : k < NUPAGE := by rw [NUPAGE_eq]; omega
  obtain ⟨-, loose⟩ :=
    rep.entries.frame inside user (by rw [entry]; exact frameOf_present word.present)
  rw [word.frame] at loose
  have here : tablePage s.mem d (pdx k) = some x := by
    rw [pdx_small (by omega)]
    exact table
  -- the frame is no table of the directory, so writing to it before or after makes no difference
  have apart : x ≠ f k := by
    rintro rfl
    exact loose (Or.inr (Or.inl ⟨d, inside, _, table⟩))
  have moved : Function.update t.mem (f k) page = setWord (Function.update s.mem (f k) page)
      ⟨x, ptx k⟩ (swapEntry (SWAPBASE + k * BPPAGE)) := by
    have blockno : (s.swapSlots k).blockno = SWAPBASE + k * BPPAGE := by
      rw [full.slots, takenSlots, if_neg (Nat.lt_irrefl k), readySlots_of_lt bound]
    rw [pressed.mem, blockno, word.frame]
    unfold setWord
    dsimp only
    rw [update_of_ne apart, update_of_ne apart, Function.update_comm apart,
      Function.update_idem]
  have rewrites := rep.layout.rewrites (Keeps.unpinned s.mem page loose) inside (user_lt user) here
    (swapEntry (SWAPBASE + k * BPPAGE))
  rw [← moved] at rewrites
  exact ⟨fun i => rewrites.table inside i, rewrites.here,
    fun w low other => rewrites.others inside low (fun both => other both.2)⟩

theorem quiet_pressed {g : Ghost} {ptr : PtePtr} {w : Word} {i : Nat} (full : Full d kstack f n k s)
    (sound : Sound ∅ g s) (pressed : Pressed s t 0 ptr w i) :
    Quiet g t.log ∧ ∀ e, Evicted s t e → e.live = true := by
  obtain ⟨mem, refcnt, disk, num, shape⟩ := pressed.shape
  have victims : ∀ e, Evicted s t e → e.live = true := by
    intro e evicted
    unfold Evicted at evicted
    rw [shape] at evicted
    change _ ∈ since s.log (Event.evict _ :: s.log) at evicted
    rw [since_cons (List.suffix_refl _), since_self, List.mem_singleton] at evicted
    cases evicted
    exact full.live
  refine ⟨sound.quiet_after ?_ victims, victims⟩
  unfold Grows
  rw [shape]
  exact List.suffix_cons _ _

theorem allocLoop_pressed (full : Full d kstack f n k s) (small : n < 1024) (more : k + 1 < n)
    (bound : k < NPAGE) :
    ∃ x u t, tablePage s.mem d 0 = some x ∧ Pressed s u 0 ⟨x, ptx k⟩ (userWord (f k)) k ∧
      allocLoop 0 d 1 n s = .ok ((), t) ∧
      (∃ mem refcnt num, t = { u with
        mem := mem, pageToRefcnt := refcnt, numFreePages := num, ptable := s.ptable }) ∧
      t.freelist = [] ∧
      (∀ i y, tablePage s.mem d i = some y → tablePage t.mem d i = some y) ∧
      pteOf t.mem d n = userWord (f k) ∧ pteOf t.mem d k = swapEntry (SWAPBASE + k * BPPAGE) ∧
      ∀ w, w < NVPAGE → w ≠ k → w ≠ n → pteOf t.mem d w = pteOf s.mem d w := by
  obtain ⟨g, sound⟩ := full.sound
  have rep := sound.settled.rep
  have inside := full.inside sound
  obtain ⟨x, u, table, allocated, pressed⟩ := full.kalloc (by omega) more bound
  obtain ⟨quiet, victims⟩ := full.quiet_pressed sound pressed
  obtain ⟨fresh, taken, -⟩ := kalloc_spec rep allocated quiet
  have clean := taken.refill zeroPage
  obtain ⟨tables, atK, others⟩ := full.pressed_entries zeroPage sound (by omega) more bound table
    pressed
  have frame := full.frames k (Nat.le_refl k) (by omega)
  have zeroed : storePage (f k) zeroPage u = .ok ((), _) := storePage_ok_iff.mpr ⟨frame, rfl⟩
  have vacant : pteOf s.mem d n = 0#32 := by
    refine rep.vacant inside (by rw [NUPAGE_eq]; omega) ?_
    have ends := sound.settled.census.ends full.live n
    rw [full.proc] at ends
    refine ends ?_ (by rw [NUPAGE_eq]; omega)
    exact (pagesOf_mul n).le
  have there : tablePage (Function.update u.mem (f k) zeroPage) d (pdx n) = some x := by
    rw [tables, pdx_small small]
    exact table
  obtain ⟨r, used, mapped, carves, count, -, -, entry, entries⟩ := @mapPage_room _ _ d n (f k)
    (PTE_W ||| PTE_U) clean inside
    (by rw [NVPAGE_eq]; omega)
    (by
      dsimp only
      rw [others n (by rw [NVPAGE_eq]; omega) (by omega), vacant]
      decide)
    (fun absent => by
      dsimp only at absent
      rw [there] at absent
      cases absent)
  obtain ⟨mem₁, refcnt₁, disk₁, num₁, shape₁⟩ := pressed.shape
  obtain ⟨mem₂, refcnt₂, free₂, num₂, shape₂⟩ := carves.shape
  have list : r.freelist = [] := by
    have split := carves.freelist
    change u.freelist = _ at split
    rw [shape₁] at split
    exact (List.append_eq_nil_iff.mp split.symm).2
  refine ⟨x, u, setProc r 0 { r.ptable 0 with rss := (r.ptable 0).rss + BitVec.ofNat 32 PGSIZE },
    table, pressed, ?_, ⟨r.mem, r.pageToRefcnt, r.numFreePages, ?_⟩, list, ?_, entry, ?_, ?_⟩
  · rw [allocLoop, bind_of_ok allocated, bind_of_ok zeroed]
    refine (bind_of_ok ((mappages_page d n (f k) _ _).trans mapped)).trans ?_
    rw [addRss, updateProc, Prog.update_bind]
    rfl
  · have same : r.ptable = u.ptable := by rw [shape₂]
    have back : Function.update r.ptable 0
        { r.ptable 0 with rss := (r.ptable 0).rss + BitVec.ofNat 32 PGSIZE } = s.ptable := by
      rw [same, shape₁]
      dsimp only
      rw [update_self, Function.update_idem]
      dsimp only
      rw [BitVec.sub_add_cancel, Function.update_eq_self]
    have empty : u.freelist = r.freelist := by
      rw [list, shape₁]
    unfold setProc
    rw [back, empty, shape₂]
  · intro i y found
    exact carves.kept ((tables i).trans found)
  · refine (entries k (by rw [NVPAGE_eq]; omega) (by omega)).trans atK
  · intro w low apart other
    exact (entries w low other).trans (others w low apart)

theorem grow (full : Full d kstack f n k s) (small : n < 1024) (more : k + 1 < n)
    (bound : k < NPAGE) :
    ∃ t, Full d kstack (Function.update f n (f k)) (n + 1) (k + 1) t := by
  obtain ⟨x, u, r, table, pressed, looped, shape, free, tables, atN, atK, others⟩ :=
    full.allocLoop_pressed small more bound
  obtain ⟨mem, refcnt, num, rfl⟩ := shape
  obtain ⟨mem₁, refcnt₁, disk₁, num₁, shape₁⟩ := pressed.shape
  have pgdir : (s.ptable 0).pgdir = d := by rw [full.proc]
  rw [← pgdir] at looped
  have grown := growproc_pages (j := 1) (m := n) (by decide) (by rw [full.proc])
    (by rw [NUPAGE_eq]; omega) looped
  obtain ⟨t, after⟩ : ∃ t : Kernel, t = setProc { u with
      mem := mem, pageToRefcnt := refcnt, numFreePages := num, ptable := s.ptable } 0
      { s.ptable 0 with sz := (n + 1) * PGSIZE } := ⟨_, rfl⟩
  have step : Step fork s (.sbrk 0 ((1 * PGSIZE : Nat) : Int)) (.flag true) t :=
    sbrk_step (by rw [full.proc]; rfl) (by rw [after]; exact grown)
  obtain ⟨g, sound⟩ := full.sound
  have log : t.log = u.log := by
    rw [after]
    rfl
  have clean : Clean s (.sbrk 0 ((1 * PGSIZE : Nat) : Int)) t := by
    refine ⟨fun e evicted => ?_, trivial, fun p impossible => by cases impossible⟩
    unfold Evicted at evicted
    rw [log] at evicted
    exact (full.quiet_pressed sound pressed).2 e evicted
  obtain ⟨loan', h, same, sound', -⟩ := clean_step sound step clean
  obtain rfl := same (by intro impossible; cases impossible)
  refine ⟨t, full.reachable.step ⟨step, clean⟩, ⟨h, sound'⟩, ?_, ?_, ?_, ?_, ?_, ?_, ?_⟩
  · rw [after]
    exact free
  · rw [after]
    unfold setProc
    dsimp only
    rw [full.proc, full.ptable, Function.update_idem]
    dsimp only
    rw [show n + 1 - 1 - (k + 1) = n - 1 - k by omega]
  · rw [after]
    exact ⟨x, tables 0 x table⟩
  · intro v low
    rw [after]
    by_cases here : v = k
    · rw [here]
      exact atK
    · exact (others v (by rw [NVPAGE_eq]; omega) here (by omega)).trans (full.swapped v (by omega))
  · intro v low high
    rw [after]
    by_cases here : v = n
    · rw [here, update_self]
      exact atN
    · rw [update_of_ne here]
      exact (others v (by rw [NVPAGE_eq]; omega) (by omega) here).trans
        (full.present v (by omega) (by omega))
  · intro v low high
    by_cases here : v = n
    · rw [here, update_self]
      exact full.frames k (Nat.le_refl k) (by omega)
    · rw [update_of_ne here]
      exact full.frames v (by omega) (by omega)
  · have slots : t.swapSlots = u.swapSlots := by
      rw [after]
      rfl
    rw [slots, shape₁]
    dsimp only
    rw [full.slots]
    funext i
    by_cases here : i = k
    · rw [here, update_self, takenSlots, if_neg (Nat.lt_irrefl k), readySlots_of_lt bound,
        takenSlots, if_pos (Nat.lt_succ_self k), update_of_ne (by omega)]
    · rw [update_of_ne here, takenSlots, takenSlots]
      by_cases less : i < k
      · rw [if_pos less, if_pos (by omega), update_of_ne (by omega)]
      · rw [if_neg less, if_neg (by omega)]

end Full

theorem firstPages_getD {i : Nat} (small : i < 743) : firstPages.getD i 0 = 1023 - i := by
  unfold firstPages
  have inside : i < (List.range' firstPage (NPHYS - firstPage)).reverse.length := by
    rw [List.length_reverse, List.length_range', firstPage_eq, NPHYS_eq]
    exact small
  rw [List.getD_eq_getElem?_getD, List.getElem?_eq_getElem inside, Option.getD_some,
    List.getElem_reverse, List.getElem_range', List.length_range', firstPage_eq, NPHYS_eq]
  omega

theorem full_start : ∃ d kstack f s, Full d kstack f 721 0 s ∧
    ∀ u, 1 ≤ u → u ≤ 720 → f u = 1001 - u := by
  obtain ⟨g, kstack, d, q, s, booted, facts⟩ := boot_ok (fun _ => zeroPage) (fun _ _ => 0#32)
  obtain ⟨runs, size, pgdir⟩ := facts.runs
  have live := canRun_live runs
  have sound := facts.roomy.sound
  have rep := sound.settled.rep
  have inside : d ∈ g.dirs := by
    rw [← pgdir]
    exact sound.settled.inside live
  obtain ⟨x, table⟩ := Option.ne_none_iff_exists'.mp facts.table
  have tables : ∀ u, 1 ≤ u → u < 1 + 720 → tablePage s.mem d (pdx u) ≠ none := by
    intro u _ high
    rw [pdx_small (by omega)]
    rw [pdx_small (by decide)] at table
    rw [table]
    exact Option.some_ne_none _
  obtain ⟨r, used, looped, allocated⟩ := allocLoop_room (p := 0) (n := 720) (v := 1)
    rep sound.quiet inside (sound.loose d) (by rw [NUPAGE_eq]; omega)
    (by
      intro u low high
      have ends := sound.settled.census.ends live u (by
        rw [size, pagesOf, PGSIZE_eq]
        omega) (by rw [NUPAGE_eq]; omega)
      rw [pgdir] at ends
      exact ends)
    (by rw [missing_none tables, facts.room, Finset.card_empty])
  obtain ⟨count, entries⟩ := allocated.inOrder tables
  have list := allocated.freelist
  have frame := allocated.others
  have kept : tablePage r.mem d (pdx 0) = some x := allocated.carves.kept table
  have frames : ∀ k, k < 720 → s.freelist.getD k 0 = 1000 - k := by
    intro k small
    have drop := firstPages_getD (i := 23 + k) (by omega)
    rw [facts.freelist, List.getD_eq_getElem?_getD,
      List.getElem?_drop, ← List.getD_eq_getElem?_getD, drop]
    omega
  obtain ⟨mem, refcnt, free, num, rfl⟩ := allocated.shape
  rw [← pgdir] at looped
  have grown := growproc_pages (j := 720) (m := 1) (by decide) (by rw [size, Nat.one_mul])
    (by rw [NUPAGE_eq]; omega) looped
  generalize after : setProc _ _ _ = t at grown
  have step := sbrk_step runs grown
  have ample : Ample s t := ample_of_log (by rw [← after]; rfl)
  have clean : Clean s (.sbrk 0 ((720 * PGSIZE : Nat) : Int)) t :=
    ⟨fun e evicted => absurd evicted (ample e), trivial, fun p impossible => by cases impossible⟩
  obtain ⟨loan', h, same, sound', -⟩ := clean_step sound step clean
  obtain rfl := same (by intro impossible; cases impossible)
  refine ⟨d, kstack, fun u => if u = 0 then q else 1001 - u, t,
    ⟨?_, ⟨h, sound'⟩, ?_, ?_, ?_, ?_, ?_, ?_, ?_⟩, ?_⟩
  · exact ⟨_, _, s, _, booted, Run.single ⟨step, clean⟩⟩
  · have empty : free.length = 0 := by
      have whole := congrArg List.length list
      rw [facts.room, List.length_append, count] at whole
      change 720 = 720 + free.length at whole
      omega
    rw [← after]
    exact List.eq_nil_of_length_eq_zero empty
  · rw [← after]
    unfold setProc
    dsimp only
    rw [update_self, Function.update_idem, facts.ptable, update_self,
      Function.update_idem]
    have rss : (initProc d kstack 1).rss + BitVec.ofNat 32 (720 * PGSIZE) =
        BitVec.ofNat 32 ((721 - 1 - 0) * PGSIZE) := BitVec.zero_add _
    dsimp only
    rw [rss]
    rfl
  · rw [← after]
    rw [pdx_small (by decide)] at table
    exact ⟨x, kept⟩
  · intro u low
    exact absurd low (Nat.not_lt_zero u)
  · intro u _ high
    rw [← after]
    by_cases first : u = 0
    · rw [first, if_pos rfl]
      exact (frame 0 (by rw [NVPAGE_eq]; omega) (by omega)).trans facts.entry
    · rw [if_neg first]
      have entry := entries (u - 1) (by omega)
      rw [frames (u - 1) (by omega), show 1 + (u - 1) = u by omega,
        show 1000 - (u - 1) = 1001 - u by omega] at entry
      exact entry
  · intro u _ high
    split
    · exact facts.frame
    · rw [NPHYS_eq]
      omega
  · rw [← after]
    change s.swapSlots = _
    rw [facts.swapSlots]
    funext i
    rw [takenSlots, if_neg (Nat.not_lt_zero i)]
  · intro u low high
    dsimp only
    rw [if_neg (by omega)]

theorem full_more (j : Nat) (small : j ≤ 300) : ∃ d kstack f s, Full d kstack f (721 + j) j s ∧
    ∀ u, 1 ≤ u → u ≤ 720 → f u = 1001 - u := by
  induction j with
  | zero => exact full_start
  | succ j ih =>
    obtain ⟨d, kstack, f, s, full, frames⟩ := ih (by omega)
    obtain ⟨t, grown⟩ := full.grow (by omega) (by omega) (by rw [NPAGE_eq]; omega)
    refine ⟨d, kstack, _, t, grown, fun u low high => ?_⟩
    rw [update_of_ne (by omega)]
    exact frames u low high

end Xv6Cow
