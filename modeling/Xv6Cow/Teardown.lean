import Xv6Cow.PageTree

/- Taking address spaces down: the loops of deallocuvm and deallocuvm_proc,
clear_zombie, freevm and freevm_proc. None of them allocates, so none evicts. -/
namespace Xv6Cow

open Prog (bind_ok_iff pure_ok_iff halt_ok_iff)

variable {g : Ghost} {s t : Kernel} {d v last : Nat} {p : Fin NPROC} {done : Unit}

/-- No page. -/
def nothing : Nat → Option (Bool × Page) := fun _ => none

theorem Ghost.setRange_skip {lo mid hi : Nat}
    (empty : ∀ u, lo ≤ u → u < mid → u < hi → g.space d u = none) (forward : lo ≤ mid) :
    g.setRange d mid hi nothing = g.setRange d lo hi nothing := by
  unfold setRange
  congr 1
  funext e u
  by_cases later : e = d ∧ mid ≤ u ∧ u < hi
  · rw [if_pos later, if_pos (by omega)]
  · rw [if_neg later]
    split
    · rename_i here
      rw [here.1, empty u here.2.1 (by omega) here.2.2]
      rfl
    · rfl

/-- What the teardown loops meet: no swapped entry, or one on which they stop. -/
def Stops (s : Kernel) (swapped : PtePtr → K Unit) (d lo hi : Nat) : Prop :=
  swapped = dropSwapped ∨ ∀ u, lo ≤ u → u < hi → isSwapped (pteOf s.mem d u) = false

theorem deallocEntry_spec {swapped : PtePtr → K Unit} {x : Nat} (rep : Rep g s)
    (inside : d ∈ g.dirs) (loose : g.Loose d) (user : v < NUPAGE)
    (table : tablePage s.mem d (pdx v) = some x) (stops : Stops s swapped d v (v + 1))
    (success : deallocEntry p swapped ⟨x, ptx v⟩ s = .ok (done, t)) :
    Rep (g.setSpace d v none) t ∧ ∀ u, u < NUPAGE → u ≠ v → pteOf t.mem d u = pteOf s.mem d u := by
  unfold deallocEntry at success
  have rest := entry_loaded table success
  rw [Prog.ite_apply] at rest
  split at rest
  · rename_i present
    obtain ⟨-, rest⟩ := Prog.refuse_ok_iff.mp rest
    rw [bind_ok_iff] at rest
    obtain ⟨_, u, freed, rest⟩ := rest
    obtain ⟨-, -, rfl⟩ := kfree_ok_iff.mp freed
    rw [bind_ok_iff] at rest
    obtain ⟨_, u, lowered, rest⟩ := rest
    obtain rfl := Prog.update_ok_iff.mp lowered
    obtain ⟨-, rfl⟩ := storeWord_ok_iff.mp rest
    have thawed := rep.layout.thawed inside loose table (ptx v)
    have absent : has 0#32 PTE_P = false := by decide
    have final := rep.unmap inside user table thawed present
    have rewrites := (rep.dropped inside user table thawed present absent (fun _ => rfl)).rewrites
    refine ⟨final.setRss p (((kfreed s (ppn (pteOf s.mem d v))).ptable p).rss -
      BitVec.ofNat 32 PGSIZE), ?_⟩
    intro u small other
    exact rewrites.others inside (user_lt small) (fun both => other both.2)
  · rename_i absent
    rw [Bool.not_eq_true] at absent
    have plain : isSwapped (pteOf s.mem d v) = false ∧ t = s := by
      rw [Prog.ite_apply] at rest
      split at rest
      · rename_i swapped
        rcases stops with rfl | none
        · exact (dropSwapped_fails (fun _ => rep.slots.untouched) _ rest).elim
        · have other := none v (Nat.le_refl v) (Nat.lt_succ_self v)
          unfold isSwapped at other
          rw [absent, swapped] at other
          cases other
      · rename_i plain
        refine ⟨?_, (pure_ok_iff.mp rest).2⟩
        unfold isSwapped
        rw [Bool.not_eq_true] at plain
        rw [plain, Bool.and_false]
    obtain ⟨plain, rfl⟩ := plain
    refine ⟨?_, fun u _ _ => rfl⟩
    rw [Ghost.setSpace_self]
    · exact rep
    · rw [← rep.space inside user, spaceOf, rep.entries.shape inside user absent plain, pageAt_zero]

theorem deallocLoop_spec {swapped : PtePtr → K Unit} (rep : Rep g s) (inside : d ∈ g.dirs)
    (loose : g.Loose d) (fits : last ≤ NUPAGE) (stops : Stops s swapped d v last)
    (success : deallocLoop p swapped d last v s = .ok (done, t)) :
    Rep (g.setRange d v last nothing) t := by
  induction remaining : last - v using Nat.strongRecOn generalizing v g s with
  | ind n ih =>
    rw [deallocLoop, Prog.ite_apply] at success
    split at success
    · rename_i before
      rcases walk_cases success with ⟨absent, rest⟩ | ⟨x, table, rest⟩
      -- No page table: all pages up to the next directory entry are unmapped.
      · have next := ih _ (by omega) rep inside loose (v := (v / 1024 + 1) * 1024) (by
          rcases stops with drops | none
          · exact Or.inl drops
          · exact Or.inr (fun u low high => none u (by omega) high)) rest rfl
        have empty : ∀ u, v ≤ u → u < (v / 1024 + 1) * 1024 → u < last → g.space d u = none := by
          intro u low high bound
          have dir : pdx u = pdx v := by
            apply Fin.ext
            simp only [pdx]
            omega
          rw [← rep.space inside (by omega), spaceOf, pteOf_of_none (by rw [dir]; exact absent),
            pageAt_zero]
        rwa [Ghost.setRange_skip empty (by omega)] at next
      · obtain ⟨_, u, cleared, rest⟩ := bind_ok_iff.mp rest
        obtain ⟨rep', others⟩ := deallocEntry_spec rep inside loose (by omega) table (by
          rcases stops with drops | none
          · exact Or.inl drops
          · exact Or.inr (fun u low high => none u low (by omega))) cleared
        have next := ih _ (by omega) rep' inside loose (v := v + 1) (by
          rcases stops with drops | none
          · exact Or.inl drops
          · refine Or.inr (fun u low high => ?_)
            rw [others u (by omega) (by omega)]
            exact none u (by omega) high) rest rfl
        obtain ⟨m, rfl⟩ : ∃ m, last = v + 1 + m := ⟨last - (v + 1), by omega⟩
        have merged := g.setRange_cons d v m nothing
        rw [show v + (m + 1) = v + 1 + m by omega] at merged
        rw [← merged]
        exact next
    · obtain ⟨-, rfl⟩ := pure_ok_iff.mp success
      have same : g.setRange d v last nothing = g := by
        unfold Ghost.setRange
        congr 1
        funext e u
        rw [if_neg (by omega)]
      rw [same]
      exact rep

theorem deallocuvm_spec {oldsz newsz sz : Nat} (rep : Rep g s) (inside : d ∈ g.dirs)
    (loose : g.Loose d) (small : oldsz ≤ KERNBASE)
    (success : deallocuvm p d oldsz newsz s = .ok (sz, t)) :
    (oldsz ≤ newsz ∧ sz = oldsz ∧ t = s) ∨
      (newsz < oldsz ∧ sz = newsz ∧
        Rep (g.setRange d (pagesOf newsz) (pagesOf oldsz) nothing) t) := by
  unfold deallocuvm at success
  rw [Prog.ite_apply] at success
  split at success
  · rename_i grows
    obtain ⟨rfl, rfl⟩ := pure_ok_iff.mp success
    exact Or.inl ⟨grows, rfl, rfl⟩
  · rename_i shrinks
    rw [bind_ok_iff] at success
    obtain ⟨_, u, looped, rest⟩ := success
    obtain ⟨rfl, rfl⟩ := pure_ok_iff.mp rest
    exact Or.inr ⟨by omega, rfl,
      deallocLoop_spec rep inside loose (pagesOf_le small) (Or.inl rfl) looped⟩

/-! ## freevm -/

namespace Ghost

/-- Directory `d` gets other contents. -/
def respace (g : Ghost) (d : Nat) (content : Nat → Option (Bool × Page)) : Ghost :=
  { g with space := fun e u => if e = d then content u else g.space e u }

theorem respace_self (g : Ghost) (d : Nat) : g.respace d (g.space d) = g := by
  unfold respace
  congr 1
  funext e u
  split
  · rename_i here
    rw [here]
  · rfl

theorem respace_respace (g : Ghost) (d : Nat) (first second : Nat → Option (Bool × Page)) :
    (g.respace d first).respace d second = g.respace d second := by
  unfold respace
  dsimp only
  congr 1
  funext e u
  split <;> rfl

theorem respace_setSpace (g : Ghost) (d v : Nat) (content : Option (Bool × Page)) :
    g.setSpace d v content = g.respace d (fun u => if u = v then content else g.space d u) := by
  unfold respace setSpace
  congr 1
  funext e u
  by_cases here : e = d
  · subst here
    simp only [true_and, ↓reduceIte]
  · rw [if_neg (fun both => here both.1), if_neg here]

theorem respace_setRange (g : Ghost) (d lo hi : Nat) (content : Nat → Option (Bool × Page)) :
    g.setRange d lo hi content =
      g.respace d (fun u => if lo ≤ u ∧ u < hi then content u else g.space d u) := by
  unfold respace setRange
  congr 1
  funext e u
  by_cases here : e = d
  · subst here
    simp only [true_and, ↓reduceIte]
  · rw [if_neg (fun both => here both.1), if_neg here]

end Ghost

theorem Rep.respaced {content : Nat → Option (Bool × Page)}
    (rep : Rep ((g.respace d content).removeDir d) s) : Rep (g.removeDir d) s := by
  refine ⟨{ rep.layout with }, { rep.entries with }, rep.exact, rep.numFree, { rep.slots with }, ?_,
    rep.procs, rep.base⟩
  intro e u member user
  have same := rep.space member user
  have other : e ≠ d := (Finset.mem_erase.mp member).1
  rw [same]
  exact if_neg other

theorem freeTables_spec {m : Nat → Page} {k n : Nat} (layout : Layout g m) (inside : d ∈ g.dirs)
    (rep : Rep (g.retire d m k) s) (total : k + n = 1024)
    (success : freeTables d n k s = .ok (done, t)) : Rep (g.retire d m 1024) t := by
  induction n generalizing k s with
  | zero =>
    obtain ⟨-, rfl⟩ := pure_ok_iff.mp success
    rwa [← total]
  | succ n ih =>
    have index : (ptx k).val = k := by
      simp only [ptx]
      omega
    have bytes : s.mem d = m d := rep.layout.held_bytes (by
      simp only [Ghost.retire, true_or, ↓reduceIte])
    rw [freeTables, bind_ok_iff] at success
    obtain ⟨pde, s', loaded, rest⟩ := success
    obtain ⟨-, word, same⟩ := loadWord_ok_iff.mp loaded
    subst s'
    dsimp only at word
    rw [bytes] at word
    subst word
    rw [bind_ok_iff] at rest
    obtain ⟨_, u, freed, rest⟩ := rest
    refine ih ?_ (by omega) rest
    unfold freeTable at freed
    rw [Prog.ite_apply] at freed
    split at freed
    · rename_i present
      have table : tablePage m d (ptx k) = some (ppn (m d (ptx k))) :=
        tablePage_eq_some.mpr ⟨present, rfl⟩
      obtain ⟨-, -, rfl⟩ := kfree_ok_iff.mp freed
      have next := Ghost.retire_drop layout inside table
      rw [index] at next
      rw [← next]
      have held : (g.retire d m k).held (ppn (m d (ptx k))) = some (m (ppn (m d (ptx k)))) :=
        if_pos (Or.inr ⟨ptx k, Nat.le_of_eq index.symm, table⟩)
      exact rep.release held
    · rename_i absent
      obtain ⟨-, rfl⟩ := pure_ok_iff.mp freed
      have next := Ghost.retire_skip (g := g) (d := d) (m := m) (i := ptx k)
        (by rw [tablePage, if_neg absent])
      rw [index] at next
      rwa [← next]

theorem freeDir_spec {u : Kernel} {first second : Unit} (rep : Rep g s) (inside : d ∈ g.dirs)
    (loose : g.Loose d) (empty : ∀ v, v < NUPAGE → g.space d v = none)
    (unused : ∀ p, (s.ptable p).live = true → g.leaving ≠ some p → (s.ptable p).pgdir ≠ d)
    (tables : freeTables d NPDENTRIES 0 s = .ok (first, u))
    (freed : kfree d u = .ok (second, t)) : Rep (g.removeDir d) t := by
  have retired := rep.retire inside loose
    (fun {v} user => rep.vacant inside user (empty v user)) unused
  have last := freeTables_spec rep.layout inside retired (by rfl) tables
  obtain ⟨-, -, rfl⟩ := kfree_ok_iff.mp freed
  have held : (g.retire d s.mem 1024).held d = some (s.mem d) := if_pos (Or.inl rfl)
  have final := last.release held
  rwa [Ghost.retire_done rep.layout inside] at final

theorem freevm_spec (rep : Rep g s) (inside : d ∈ g.dirs) (loose : g.Loose d)
    (unused : ∀ p, (s.ptable p).live = true → g.leaving ≠ some p → (s.ptable p).pgdir ≠ d)
    (success : freevm p d s = .ok (done, t)) : Rep (g.removeDir d) t := by
  unfold freevm at success
  obtain ⟨-, success⟩ := Prog.refuse_ok_iff.mp success
  rw [bind_ok_iff] at success
  obtain ⟨sz, u, cleared, rest⟩ := success
  rw [bind_ok_iff] at rest
  obtain ⟨_, r, tables, freed⟩ := rest
  have calm := deallocuvm_calm _ _ _ _ _ _ _ cleared
  rcases deallocuvm_spec rep inside loose (Nat.le_refl _)
    cleared with ⟨impossible, -⟩ | ⟨-, -, rep'⟩
  · rw [KERNBASE_eq] at impossible
    omega
  · rw [show pagesOf 0 = 0 from rfl, show pagesOf KERNBASE = NUPAGE from rfl] at rep'
    have gone := freeDir_spec rep' inside loose
      (fun v user => if_pos ⟨rfl, Nat.zero_le v, user⟩)
      (fun p live stays => by
        rw [calm.pgdir]
        rw [calm.live] at live
        exact unused p live stays) tables freed
    rw [Ghost.respace_setRange] at gone
    exact gone.respaced

theorem freevmProc_spec (rep : Rep g s) (inside : d ∈ g.dirs) (loose : g.Loose d)
    (clear : ∀ u, u < NUPAGE → isSwapped (pteOf s.mem d u) = false)
    (unused : ∀ p, (s.ptable p).live = true → g.leaving ≠ some p → (s.ptable p).pgdir ≠ d)
    (success : freevmProc p d s = .ok (done, t)) : Rep (g.removeDir d) t := by
  unfold freevmProc at success
  obtain ⟨-, success⟩ := Prog.refuse_ok_iff.mp success
  rw [bind_ok_iff] at success
  obtain ⟨sz, u, cleared, rest⟩ := success
  rw [bind_ok_iff] at rest
  obtain ⟨_, r, tables, freed⟩ := rest
  have calm := deallocuvmProc_calm _ _ _ _ _ _ _ cleared
  unfold deallocuvmProc at cleared
  rw [Prog.ite_apply, if_neg (by decide), bind_ok_iff] at cleared
  obtain ⟨_, u', looped, same⟩ := cleared
  obtain ⟨-, rfl⟩ := pure_ok_iff.mp same
  have rep' := deallocLoop_spec rep inside loose (pagesOf_le (Nat.le_refl KERNBASE))
    (Or.inr (fun w _ high => clear w high)) looped
  rw [show pagesOf 0 = 0 from rfl, show pagesOf KERNBASE = NUPAGE from rfl] at rep'
  have gone := freeDir_spec rep' inside loose
    (fun v user => if_pos ⟨rfl, Nat.zero_le v, user⟩)
    (fun p live stays => by
      rw [calm.pgdir]
      rw [calm.live] at live
      exact unused p live stays) tables freed
  rw [Ghost.respace_setRange] at gone
  exact gone.respaced

/-! ## clear_zombie -/

/-- The entries of `d` from `lo` up to `hi` name no slot any more; no other entry
names one that it did not name before. -/
structure Cleared (g : Ghost) (d : Nat) (s t : Kernel) (lo hi : Nat) : Prop where
  rep : ∃ content, Rep (g.respace d content) t
  table : ∀ i, tablePage t.mem d i = tablePage s.mem d i
  clear : ∀ u, lo ≤ u → u < hi → isSwapped (pteOf t.mem d u) = false
  fewer : ∀ u, u < NVPAGE → isSwapped (pteOf t.mem d u) = true →
    isSwapped (pteOf s.mem d u) = true

theorem Cleared.trans {u : Kernel} {lo mid hi : Nat} (bound : hi ≤ NVPAGE)
    (first : Cleared g d s t lo mid)
    (second : ∀ {content}, Rep (g.respace d content) t →
      Cleared (g.respace d content) d t u mid hi) :
    Cleared g d s u lo hi := by
  obtain ⟨content, rep⟩ := first.rep
  obtain ⟨⟨content', rep'⟩, table, clear, fewer⟩ := second rep
  rw [Ghost.respace_respace] at rep'
  refine ⟨⟨content', rep'⟩, fun i => (table i).trans (first.table i), fun x low high => ?_,
    fun x small swapped => first.fewer x small (fewer x small swapped)⟩
  by_cases early : x < mid
  · by_contra swapped
    rw [Bool.not_eq_false] at swapped
    have before := fewer x (by omega) swapped
    rw [first.clear x low early] at before
    cases before
  · exact clear x (by omega) high

theorem clearZombieEntry_spec {x : Nat} (rep : Rep g s) (inside : d ∈ g.dirs) (loose : g.Loose d)
    (small : v < NVPAGE) (table : tablePage s.mem d (pdx v) = some x)
    (success : clearZombieEntry ⟨x, ptx v⟩ s = .ok (done, t)) : Cleared g d s t v (v + 1) := by
  unfold clearZombieEntry at success
  rw [bind_ok_iff] at success
  obtain ⟨w, s', loaded, rest⟩ := success
  obtain ⟨-, word, same⟩ := loadWord_ok_iff.mp loaded
  subst s'
  rw [← pteOf_of_table table] at word
  subst word
  rw [Prog.ite_apply] at rest
  split at rest
  · rename_i swapped
    have user : v < NUPAGE := by
      by_contra high
      rw [(rep.entries.kernel inside (by omega) small).1] at swapped
      cases swapped
    obtain ⟨bound, named, -⟩ := rep.slots.slot inside user swapped
    rw [bind_ok_iff] at rest
    obtain ⟨_, u, cleared, rest⟩ := rest
    unfold clearSlot at cleared
    rw [bind_ok_iff] at cleared
    obtain ⟨w, s', loaded, cleared⟩ := cleared
    obtain ⟨-, word, same⟩ := loadWord_ok_iff.mp loaded
    subst s'
    rw [← pteOf_of_table table] at word
    subst word
    rw [bind_ok_iff] at cleared
    obtain ⟨slot, s', loaded, cleared⟩ := cleared
    obtain ⟨-, rfl, same⟩ := loadSlot_ok_iff.mp loaded
    subst s'
    obtain ⟨-, rfl⟩ := storeSlot_ok_iff.mp cleared
    obtain ⟨-, rfl⟩ := storeWord_ok_iff.mp rest
    have rewrites := rep.layout.rewrites (Keeps.refl g s.mem) inside small table 0#32
    refine ⟨⟨fun u => if u = v then none else g.space d u, ?_⟩, fun i => rewrites.table inside i,
      fun u low high => ?_, fun u bounded swapped' => ?_⟩
    · rw [← Ghost.respace_setSpace]
      exact rep.clearSlot inside user table (rep.layout.thawed inside loose table (ptx v)) swapped
        bound named
    · obtain rfl : u = v := by omega
      change isSwapped (pteOf (setWord s.mem _ _) d u) = false
      rw [rewrites.here]
      decide
    · by_cases here : u = v
      · rw [here]
        exact swapped
      · rw [← rewrites.others inside bounded (fun both => here both.2)]
        exact swapped'
  · rename_i plain
    obtain ⟨-, rfl⟩ := pure_ok_iff.mp rest
    refine ⟨⟨g.space d, by rwa [Ghost.respace_self]⟩, fun _ => rfl, fun u low high => ?_,
      fun _ _ swapped => swapped⟩
    obtain rfl : u = v := by omega
    exact Bool.eq_false_iff.mpr plain

theorem Cleared.none (rep : Rep g s) {lo hi : Nat}
    (clear : ∀ u, lo ≤ u → u < hi → isSwapped (pteOf s.mem d u) = false) :
    Cleared g d s s lo hi :=
  ⟨⟨g.space d, by rwa [Ghost.respace_self]⟩, fun _ => rfl, clear, fun _ _ swapped => swapped⟩

theorem clearZombieTable_spec {x i j n : Nat} (rep : Rep g s) (inside : d ∈ g.dirs)
    (loose : g.Loose d) (dir : i < 1024) (total : j + n = 1024)
    (table : tablePage s.mem d ⟨i, dir⟩ = some x)
    (success : clearZombieTable x n j s = .ok (done, t)) :
    Cleared g d s t (i * 1024 + j) ((i + 1) * 1024) := by
  induction n generalizing j g s with
  | zero =>
    obtain ⟨-, rfl⟩ := pure_ok_iff.mp success
    exact Cleared.none rep (fun u low high => by omega)
  | succ n ih =>
    rw [clearZombieTable, bind_ok_iff] at success
    obtain ⟨_, u, cleared, rest⟩ := success
    have address : pdx (i * 1024 + j) = ⟨i, dir⟩ ∧ ptx (i * 1024 + j) = ptx j := by
      constructor <;> apply Fin.ext <;> simp only [pdx, ptx] <;> omega
    rw [← address.2] at cleared
    have first := clearZombieEntry_spec rep inside loose
      (by rw [NVPAGE_eq]; omega) (by rw [address.1]; exact table) cleared
    refine first.trans (by rw [NVPAGE_eq]; omega) (fun rep' => ?_)
    have next := ih rep' inside loose (j := j + 1) (by omega) (by rw [first.table]; exact table)
      rest
    rwa [← Nat.add_assoc] at next

theorem clearZombieFrom_spec {i n : Nat} (rep : Rep g s) (inside : d ∈ g.dirs)
    (loose : g.Loose d) (total : i + n = 1024)
    (success : clearZombieFrom d n i s = .ok (done, t)) :
    Cleared g d s t (i * 1024) NVPAGE := by
  induction n generalizing i g s with
  | zero =>
    obtain ⟨-, rfl⟩ := pure_ok_iff.mp success
    exact Cleared.none rep (fun u low high => by rw [NVPAGE_eq] at high; omega)
  | succ n ih =>
    have dir : i < 1024 := by omega
    have index : ptx i = ⟨i, dir⟩ := Fin.ext (by simp only [ptx]; omega)
    rw [clearZombieFrom, bind_ok_iff] at success
    obtain ⟨pde, s', loaded, rest⟩ := success
    obtain ⟨-, word, same⟩ := loadWord_ok_iff.mp loaded
    subst s'
    dsimp only at word
    rw [index] at word
    subst word
    rw [bind_ok_iff] at rest
    obtain ⟨_, u, cleared, rest⟩ := rest
    have first : Cleared g d s u (i * 1024) ((i + 1) * 1024) := by
      unfold clearZombieDir at cleared
      rw [Prog.ite_apply] at cleared
      split at cleared
      · rename_i present
        have whole := clearZombieTable_spec (j := 0) rep inside loose dir (by rfl)
          (tablePage_eq_some.mpr ⟨present, rfl⟩) cleared
        rwa [Nat.add_zero] at whole
      · rename_i absent
        obtain ⟨-, rfl⟩ := pure_ok_iff.mp cleared
        refine Cleared.none rep (fun w low high => ?_)
        have here : pdx w = ⟨i, dir⟩ := Fin.ext (by simp only [pdx]; omega)
        rw [pteOf_of_none (by rw [here, tablePage, if_neg absent])]
        decide
    refine first.trans (Nat.le_refl _) (fun rep' => ?_)
    exact ih rep' inside loose (i := i + 1) (by omega) rest

theorem clearZombie_spec (rep : Rep g s) (inside : d ∈ g.dirs) (loose : g.Loose d)
    (success : clearZombie d s = .ok (done, t)) :
    (∃ content, Rep (g.respace d content) t) ∧
      ∀ u, u < NUPAGE → isSwapped (pteOf t.mem d u) = false := by
  have cleared := clearZombieFrom_spec rep inside loose (by rfl) success
  exact ⟨cleared.rep, fun u user => cleared.clear u (by omega) (user_lt user)⟩

end Xv6Cow
