import Xv6Cow.FaultSafety
import Xv6Cow.Progress

/- What the teardown paths release: deallocuvm, which sbrk and exec use, against
clear_zombie followed by deallocuvm_proc, which wait uses. -/
namespace Xv6Cow

open Prog (bind_of_ok bind_of_error)

variable {g : Ghost} {s t u : Kernel} {d v lo mid hi : Nat} {p : Fin NPROC} {x : Nat}

/-! ## The teardown loop where nothing is swapped -/

/-- Page `y` and its count are as before. -/
def SameAt (s t : Kernel) (y : Nat) : Prop :=
  t.mem y = s.mem y ∧ t.pageToRefcnt y = s.pageToRefcnt y

theorem SameAt.refl (s : Kernel) (y : Nat) : SameAt s s y := ⟨rfl, rfl⟩

theorem SameAt.trans {y : Nat} (first : SameAt s t y) (second : SameAt t u y) : SameAt s u y :=
  ⟨second.1.trans first.1, second.2.trans first.2⟩

theorem release_of_ne {pool : (Nat → Int) × List Nat} {q y : Nat} (other : y ≠ q) :
    (release pool q).1 y = pool.1 y := by
  unfold release
  split
  · exact Function.update_of_ne other _ _
  · rfl

theorem foldl_release_of_notMem {frames : List Nat} {pool : (Nat → Int) × List Nat} {y : Nat}
    (outside : y ∉ frames) : (frames.foldl release pool).1 y = pool.1 y := by
  induction frames generalizing pool with
  | nil => rfl
  | cons q rest ih =>
    rw [List.mem_cons, not_or] at outside
    rw [List.foldl_cons, ih outside.2, release_of_ne outside.1]

theorem kfreed_sameAt (s : Kernel) {q y : Nat} (other : y ≠ q) : SameAt s (kfreed s q) y := by
  refine ⟨kfreed_mem_of_ne s other, ?_⟩
  have counts :
    (kfreed s q).pageToRefcnt = (release s.counts q).1 := congrArg Prod.fst (kfreed_counts s q)
  rw [counts, release_of_ne other]
  rfl

theorem framesIn_blank {m : Nat → Page} (blank : ∀ u, lo ≤ u → u < hi → pteOf m d u = 0#32) :
    framesIn m d lo hi = [] := by
  apply framesIn_absent
  intro u low high
  rw [blank u low high]
  decide

theorem framesIn_present {m : Nat → Page}
    (present : ∀ u, lo ≤ u → u < hi → has (pteOf m d u) PTE_P = true) :
    framesIn m d lo hi = (List.range' lo (hi - lo)).map (fun u => ppn (pteOf m d u)) := by
  unfold framesIn
  rw [← List.filterMap_eq_map]
  apply List.filterMap_congr
  intro u member
  rw [List.mem_range'_1] at member
  exact frameOf_present (present u member.1 (by omega))

/-- The present pages from `lo` to `hi` are released, and nothing else happens. -/
structure Released (p : Fin NPROC) (d lo hi : Nat) (s t : Kernel) : Prop where
  shape : ∃ mem refcnt free num, t = { s with
    mem := mem, pageToRefcnt := refcnt, freelist := free, numFreePages := num
    ptable := Function.update s.ptable p { s.ptable p with
      rss := (s.ptable p).rss - BitVec.ofNat 32 ((framesIn s.mem d lo hi).length * PGSIZE) } }
  counts : t.counts = (framesIn s.mem d lo hi).foldl release s.counts
  table : ∀ i, tablePage t.mem d i = tablePage s.mem d i
  blank : ∀ u, lo ≤ u → u < hi → pteOf t.mem d u = 0#32
  others : ∀ u, u < NVPAGE → ¬ (lo ≤ u ∧ u < hi) → pteOf t.mem d u = pteOf s.mem d u
  mem : ∀ {x}, x ∉ framesIn s.mem d lo hi → (∀ i, tablePage s.mem d i ≠ some x) → t.mem x = s.mem x

namespace Released

theorem sameAt {y : Nat} (released : Released p d lo hi s t) (outside : y ∉ framesIn s.mem d lo hi)
    (apart : ∀ i, tablePage s.mem d i ≠ some y) : SameAt s t y := by
  refine ⟨released.mem outside apart, ?_⟩
  have counts :
    t.pageToRefcnt = ((framesIn s.mem d lo hi).foldl release s.counts).1 :=
    congrArg Prod.fst released.counts
  rw [counts, foldl_release_of_notMem outside]
  rfl

end Released

/-- The loop releases what it meets, whichever way it treats swapped entries. -/
theorem deallocLoop_room (swapped : PtePtr → K Unit) (rep : Rep g s) (inside : d ∈ g.dirs)
    (fits : hi ≤ NUPAGE) (there : ∀ u, v ≤ u → u < hi → isSwapped (pteOf s.mem d u) = false) :
    ∃ t, deallocLoop p swapped d hi v s = .ok ((), t) ∧ Released p d v hi s t := by
  have wide : ∀ {u}, u < hi → u < NVPAGE := fun below => user_lt (by omega)
  have fits' : hi ≤ NVPAGE := by
    rw [NUPAGE_eq] at fits
    rw [NVPAGE_eq]
    omega
  obtain ⟨t, looped, vacated⟩ := deallocLoop_tree (p := p) swapped (rep.tree inside) fits'
    (rep.backed inside v fits) there
  refine ⟨t, looped, vacated.shape, vacated.counts, vacated.table, ?_, ?_, vacated.mem⟩
  · intro u low high
    rw [vacated.entries u (wide high)]
    split
    · rfl
    · rename_i kept
      have absent : has (pteOf s.mem d u) PTE_P = false :=
        Bool.not_eq_true _ ▸ fun present => kept ⟨low, high, present⟩
      exact rep.entries.shape inside (by omega) absent (there u low high)
  · intro u small outside
    rw [vacated.entries u small, if_neg (fun here => outside ⟨here.1, here.2.1⟩)]

theorem unswapped_of_deallocLoop {done : Unit} (rep : Rep g s) (inside : d ∈ g.dirs)
    (fits : hi ≤ NUPAGE) (success : deallocLoop p dropSwapped d hi v s = .ok (done, t)) :
    ∀ u, v ≤ u → u < hi → isSwapped (pteOf s.mem d u) = false :=
  unswapped_of_deallocLoop_tree (rep.tree inside) (by rw [NUPAGE_eq] at fits; rw [NVPAGE_eq]; omega)
    (rep.backed inside v fits) (fun _ => rep.slots.untouched) success

/-- Entries that were not swapped are as before, and no page is allocated or freed. -/
structure Wiped (d : Nat) (s t : Kernel) : Prop where
  shape : ∃ mem slots, t = { s with mem := mem, swapSlots := slots }
  table : ∀ i, tablePage t.mem d i = tablePage s.mem d i
  kept : ∀ u, u < NVPAGE → isSwapped (pteOf s.mem d u) = false → pteOf t.mem d u = pteOf s.mem d u
  frame : ∀ u, u < NVPAGE → frameOf (pteOf t.mem d u) = frameOf (pteOf s.mem d u)

theorem Wiped.refl (d : Nat) (s : Kernel) : Wiped d s s :=
  ⟨⟨s.mem, s.swapSlots, rfl⟩, fun _ => rfl, fun _ _ _ => rfl, fun _ _ => rfl⟩

theorem Wiped.trans (first : Wiped d s t) (second : Wiped d t u) : Wiped d s u := by
  refine ⟨?_, fun i => (second.table i).trans (first.table i), fun w small plain => ?_,
    fun w small => (second.frame w small).trans (first.frame w small)⟩
  · obtain ⟨mem₁, slots₁, rfl⟩ := first.shape
    obtain ⟨mem₂, slots₂, rfl⟩ := second.shape
    exact ⟨mem₂, slots₂, rfl⟩
  · have same := first.kept w small plain
    rw [second.kept w small (by rw [same]; exact plain), same]

theorem clearZombieEntry_room (rep : Rep g s) (inside : d ∈ g.dirs) (small : v < NVPAGE)
    (table : tablePage s.mem d (pdx v) = some x) :
    ∃ t, clearZombieEntry ⟨x, ptx v⟩ s = .ok ((), t) ∧ Wiped d s t := by
  have bound := rep.table_lt inside table
  have loaded : loadWord ⟨x, ptx v⟩ s = .ok (pteOf s.mem d v, s) :=
    loadWord_ok_iff.mpr ⟨bound, pteOf_of_table table, rfl⟩
  unfold clearZombieEntry
  rw [bind_of_ok loaded, Prog.ite_apply]
  split
  · rename_i swapped
    have user : v < NUPAGE := by
      by_contra high
      rw [(rep.entries.kernel inside (by omega) small).1] at swapped
      cases swapped
    obtain ⟨slot, -, -⟩ := rep.slots.slot inside user swapped
    have rewrites := rep.layout.rewrites (Keeps.refl g s.mem) inside small table 0#32
    have found :
      loadSlot (slotOf (pteOf s.mem d v)) s = .ok (_, s) := loadSlot_ok_iff.mpr ⟨slot, rfl, rfl⟩
    have cleared : clearSlot ⟨x, ptx v⟩ s = .ok ((), { s with
        swapSlots := Function.update s.swapSlots (slotOf (pteOf s.mem d v))
          { s.swapSlots (slotOf (pteOf s.mem d v)) with isFree := true } }) := by
      unfold clearSlot
      rw [bind_of_ok loaded, bind_of_ok found]
      exact storeSlot_ok_iff.mpr ⟨slot, rfl⟩
    rw [bind_of_ok cleared]
    refine ⟨_, storeWord_ok_iff.mpr ⟨bound, rfl⟩, ⟨_, _, rfl⟩, fun i => rewrites.table inside i, ?_,
      ?_⟩
    · intro w bounded plain
      refine rewrites.others inside bounded ?_
      rintro ⟨-, rfl⟩
      rw [swapped] at plain
      cases plain
    · intro w bounded
      by_cases here : w = v
      · subst here
        have absent : has (pteOf s.mem d w) PTE_P = false := by
          unfold isSwapped at swapped
          rw [Bool.and_eq_true, Bool.not_eq_true'] at swapped
          exact swapped.1
        refine (congrArg frameOf rewrites.here).trans ?_
        unfold frameOf
        rw [absent]
        rfl
      · exact congrArg frameOf (rewrites.others inside bounded (fun both => here both.2))
  · exact ⟨s, rfl, Wiped.refl d s⟩

theorem clearZombieTable_room {i j n : Nat} (rep : Rep g s) (inside : d ∈ g.dirs)
    (loose : g.Loose d)
    (dir : i < 1024) (total : j + n = 1024) (table : tablePage s.mem d ⟨i, dir⟩ = some x) :
    ∃ t, clearZombieTable x n j s = .ok ((), t) ∧ Wiped d s t := by
  induction n generalizing j g s with
  | zero => exact ⟨s, rfl, Wiped.refl d s⟩
  | succ n ih =>
    have address : pdx (i * 1024 + j) = ⟨i, dir⟩ ∧ ptx (i * 1024 + j) = ptx j := by
      constructor <;> apply Fin.ext <;> simp only [pdx, ptx] <;> omega
    have small : i * 1024 + j < NVPAGE := by rw [NVPAGE_eq]; omega
    have here : tablePage s.mem d (pdx (i * 1024 + j)) = some x := by rw [address.1]; exact table
    obtain ⟨r, first, wiped⟩ := clearZombieEntry_room rep inside small here
    obtain ⟨content, rep'⟩ := (clearZombieEntry_spec rep inside loose small here first).rep
    obtain ⟨t, rest, wiped'⟩ := ih (j := j + 1) rep' inside loose (by omega)
      (by rw [wiped.table]; exact table)
    rw [address.2] at first
    refine ⟨t, ?_, wiped.trans wiped'⟩
    rw [clearZombieTable, bind_of_ok first]
    exact rest

theorem clearZombieFrom_room {i n : Nat} (rep : Rep g s) (inside : d ∈ g.dirs) (loose : g.Loose d)
    (total : i + n = 1024) : ∃ t, clearZombieFrom d n i s = .ok ((), t) ∧ Wiped d s t := by
  induction n generalizing i g s with
  | zero => exact ⟨s, rfl, Wiped.refl d s⟩
  | succ n ih =>
    have dir : i < 1024 := by omega
    have index : ptx i = ⟨i, dir⟩ := Fin.ext (by simp only [ptx]; omega)
    have loaded : loadWord ⟨d, ptx i⟩ s = .ok (s.mem d ⟨i, dir⟩, s) :=
      loadWord_ok_iff.mpr ⟨rep.dir_lt inside, by rw [index], rfl⟩
    have first : ∃ r, clearZombieDir (s.mem d ⟨i, dir⟩) s = .ok ((), r) ∧ Wiped d s r ∧
        ∃ content, Rep (g.respace d content) r := by
      unfold clearZombieDir
      rw [Prog.ite_apply]
      split
      · rename_i present
        have table : tablePage s.mem d ⟨i, dir⟩ = some (ppn (s.mem d ⟨i, dir⟩)) :=
          tablePage_eq_some.mpr ⟨present, rfl⟩
        obtain ⟨r, cleared, wiped⟩ := clearZombieTable_room (j := 0) (n := NPTENTRIES) rep inside
          loose dir (by rfl) table
        exact ⟨r, cleared, wiped,
          (clearZombieTable_spec rep inside loose dir (by rfl) table cleared).rep⟩
      · exact ⟨s, rfl, Wiped.refl d s, g.space d, by rwa [Ghost.respace_self]⟩
    obtain ⟨r, first, wiped, content, rep'⟩ := first
    obtain ⟨t, rest, wiped'⟩ := ih (i := i + 1) rep' inside loose (by omega)
    refine ⟨t, ?_, wiped.trans wiped'⟩
    rw [clearZombieFrom, bind_of_ok loaded, bind_of_ok first]
    exact rest

theorem clearZombie_room (rep : Rep g s) (inside : d ∈ g.dirs) (loose : g.Loose d) :
    ∃ t, clearZombie d s = .ok ((), t) ∧ Wiped d s t :=
  clearZombieFrom_room rep inside loose (by rfl)

/-! ## The two paths -/

/-- No page from `lo` to `hi` is swapped out. -/
def Unswapped (m : Nat → Page) (d lo hi : Nat) : Prop :=
  ∀ u, lo ≤ u → u < hi → isSwapped (pteOf m d u) = false

/-- Slot `i` holds a page from `lo` to `hi`. -/
def Holds (m : Nat → Page) (d lo hi i : Nat) : Prop :=
  ∃ u, lo ≤ u ∧ u < hi ∧ isSwapped (pteOf m d u) = true ∧ slotOf (pteOf m d u) = i

/-- deallocuvm returns, the present pages of its range have been released in order,
the slots of its range and no others are free, no entry of the range is swapped, and
clear_zombie followed by deallocuvm_proc comes to the same counts, the same free list
and the same slots of the range. -/
def TearsDown (p : Fin NPROC) (d oldsz newsz : Nat) (s : Kernel) : Prop :=
  ∃ t, deallocuvm p d oldsz newsz s = .ok (min oldsz newsz, t) ∧
    t.counts = (framesIn s.mem d (pagesOf newsz) (pagesOf oldsz)).foldl release s.counts ∧
    (∀ i, Holds s.mem d (pagesOf newsz) (pagesOf oldsz) i → (t.swapSlots i).isFree = true) ∧
    (∀ i, ¬ Holds s.mem d (pagesOf newsz) (pagesOf oldsz) i → t.swapSlots i = s.swapSlots i) ∧
    Unswapped t.mem d (pagesOf newsz) (pagesOf oldsz) ∧
    ∃ z t', clearZombie d s = .ok ((), z) ∧
      deallocuvmProc p d oldsz newsz z = .ok (min oldsz newsz, t') ∧ t'.counts = t.counts ∧
      ∀ i, Holds s.mem d (pagesOf newsz) (pagesOf oldsz) i → t'.swapSlots i = t.swapSlots i

theorem tearsDown_iff {oldsz newsz : Nat} (rep : Rep g s) (inside : d ∈ g.dirs) (loose : g.Loose d)
    (small : oldsz ≤ KERNBASE) :
    TearsDown p d oldsz newsz s ↔ Unswapped s.mem d (pagesOf newsz) (pagesOf oldsz) := by
  have fits := pagesOf_le small
  obtain ⟨z, cleared, wiped⟩ := clearZombie_room rep inside loose
  constructor
  · rintro ⟨t, down, -⟩
    unfold deallocuvm at down
    rw [Prog.ite_apply] at down
    split at down
    · rename_i grows
      intro u low high
      have le := pagesOf_mono grows
      omega
    · rw [Prog.bind_ok_iff] at down
      obtain ⟨_, r, looped, -⟩ := down
      exact unswapped_of_deallocLoop rep inside fits looped
  · intro plain
    have vacant : ∀ i, ¬ Holds s.mem d (pagesOf newsz) (pagesOf oldsz) i := by
      rintro i ⟨u, low, high, swapped, -⟩
      rw [plain u low high] at swapped
      cases swapped
    obtain ⟨mem, slots, shape⟩ := wiped.shape
    have same : z.counts = s.counts := by rw [shape]; rfl
    unfold TearsDown deallocuvm deallocuvmProc
    by_cases grows : oldsz ≤ newsz
    · have le := pagesOf_mono grows
      rw [if_pos grows, if_pos grows, Nat.min_eq_left grows]
      refine ⟨s, rfl, ?_, fun i holds => (vacant i holds).elim, fun _ _ => rfl, plain, z, z,
        cleared, rfl, same, fun i holds => (vacant i holds).elim⟩
      rw [framesIn_blank (fun u low high => by omega)]
      rfl
    · obtain ⟨t, first, released⟩ := deallocLoop_room (p := p) dropSwapped rep inside fits plain
      obtain ⟨⟨content, rep'⟩, clear⟩ := clearZombie_spec rep inside loose cleared
      obtain ⟨t', second, released'⟩ := deallocLoop_room (p := p)
        (v := pagesOf newsz) clearSlot rep' inside
        fits (fun u _ high => clear u (by omega))
      have frames : framesIn z.mem d (pagesOf newsz) (pagesOf oldsz) =
          framesIn s.mem d (pagesOf newsz) (pagesOf oldsz) :=
        framesIn_congr (fun u low high => wiped.kept u (user_lt (by omega)) (plain u low high))
      rw [if_neg grows, if_neg grows, Nat.min_eq_right (by omega)]
      refine ⟨t, ?_, released.counts, fun i holds => (vacant i holds).elim, ?_, ?_, z, t', cleared,
        ?_, ?_, fun i holds => (vacant i holds).elim⟩
      · rw [bind_of_ok first]
        rfl
      · obtain ⟨_, _, _, _, shape⟩ := released.shape
        intro i _
        rw [shape]
      · intro u low high
        rw [released.blank u low high]
        decide
      · rw [bind_of_ok second]
        rfl
      · rw [released'.counts, released.counts, frames, same]

/-- Along clean runs, a live process's range is torn down as both paths should, exactly
when none of its pages is swapped out. -/
theorem teardown_total_iff {oldsz newsz : Nat} (reachable : Reachable CleanStep s)
    (live : (s.ptable p).live = true) (small : oldsz ≤ KERNBASE) :
    TearsDown p (s.ptable p).pgdir oldsz newsz s ↔
      Unswapped s.mem (s.ptable p).pgdir (pagesOf newsz) (pagesOf oldsz) := by
  obtain ⟨loan, g, sound⟩ := reachable.sound
  exact tearsDown_iff sound.settled.rep (sound.settled.inside live) (sound.loose _) small

/-- The first process gives up its only page. -/
theorem teardown_total_iff_first : ∃ s, Reachable CleanStep s ∧
    TearsDown 0 (s.ptable 0).pgdir PGSIZE 0 s := by
  obtain ⟨g, k, d, q, s, booted, facts⟩ := boot_ok (fun _ => zeroPage) (fun _ _ => 0#32)
  obtain ⟨runs, -, -⟩ := facts.runs
  have reachable : Reachable CleanStep s := ⟨_, _, s, _, booted, .nil⟩
  refine ⟨s, reachable, (teardown_total_iff reachable (canRun_live runs) (by decide)).mpr ?_⟩
  intro u _ high
  have zero : u = 0 := by
    change u < 1 at high
    omega
  have present := (Bool.and_eq_true_iff.mp facts.accessible).1
  rw [zero]
  unfold isSwapped
  rw [present]
  rfl

theorem dropSwapped_panics (rep : Rep g s) (inside : d ∈ g.dirs) (user : v < NUPAGE)
    (table : tablePage s.mem d (pdx v) = some x) (swapped : isSwapped (pteOf s.mem d v) = true) :
    dropSwapped ⟨x, ptx v⟩ s = .error (.panic "refcnt already 0\n") := by
  obtain ⟨slot, -, -⟩ := rep.slots.slot inside user swapped
  have loaded : loadWord ⟨x, ptx v⟩ s = .ok (pteOf s.mem d v, s) :=
    loadWord_ok_iff.mpr ⟨rep.table_lt inside table, pteOf_of_table table, rfl⟩
  have found :
    loadSlot (slotOf (pteOf s.mem d v)) s = .ok (_, s) := loadSlot_ok_iff.mpr ⟨slot, rfl, rfl⟩
  have failed : decSwapSlotRefcnt ⟨x, ptx v⟩ s = .error (.panic "refcnt already 0\n") := by
    unfold decSwapSlotRefcnt
    rw [bind_of_ok loaded, bind_of_ok found, Prog.ite_apply, if_pos (rep.slots.untouched slot)]
    rfl
  exact bind_of_error failed

theorem deallocLoop_panics (rep : Rep g s) (inside : d ∈ g.dirs) (user : v < NUPAGE)
    (before : v < hi) (swapped : isSwapped (pteOf s.mem d v) = true) :
    deallocLoop p dropSwapped d hi v s = .error (.panic "refcnt already 0\n") := by
  obtain ⟨present, sw⟩ := Bool.and_eq_true_iff.mp swapped
  rw [Bool.not_eq_true'] at present
  obtain ⟨x, table⟩ := table_of_pteOf (ne_zero_of_swapped swapped)
  have loaded : loadWord ⟨x, ptx v⟩ s = .ok (pteOf s.mem d v, s) :=
    loadWord_ok_iff.mpr ⟨rep.table_lt inside table, pteOf_of_table table, rfl⟩
  have failed : deallocEntry p dropSwapped ⟨x, ptx v⟩ s = .error (.panic "refcnt already 0\n") := by
    unfold deallocEntry
    rw [bind_of_ok loaded, Prog.ite_apply, present, if_neg Bool.false_ne_true, Prog.ite_apply, sw,
      if_pos rfl]
    exact dropSwapped_panics rep inside user table swapped
  rw [deallocLoop, Prog.ite_apply, if_pos before,
    bind_of_ok (walk_of_table (rep.dir_lt inside) table)]
  exact bind_of_error failed

/-- A process whose first page is swapped out shrinks to nothing: the kernel panics. -/
theorem teardown_panics : ∃ s, Reachable (Step fork) s ∧ (s.ptable 0).live = true ∧
    (s.ptable 0).sz ≤ KERNBASE ∧
    deallocuvm 0 (s.ptable 0).pgdir (s.ptable 0).sz 0 s = .error (.panic "refcnt already 0\n") := by
  obtain ⟨d, kstack, f, s, full, -⟩ := full_more 1 (by decide)
  obtain ⟨g, sound⟩ := full.sound
  have pgdir : (s.ptable 0).pgdir = d := by rw [full.proc]
  obtain ⟨swapped, -⟩ := full.isSwapped (v := 0) (by decide) (by decide)
  rw [pgdir] at swapped
  have stopped :
    deallocLoop 0 dropSwapped d (pagesOf (s.ptable 0).sz) 0 s = .error _ := deallocLoop_panics
    sound.settled.rep (full.inside sound) (by decide) (by rw [full.canRun.2]; decide) swapped
  refine ⟨s, full.reachable.any, full.live, sound.settled.small full.live, ?_⟩
  unfold deallocuvm
  rw [if_neg (by rw [full.canRun.2]; decide), pgdir]
  exact bind_of_error stopped

end Xv6Cow
