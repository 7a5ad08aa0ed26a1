import Xv6Cow.Evict

/- Building address spaces: walkpgdir with allocation, mappages, setupkvm and
allocuvm, each as a change of the ghost state. -/
namespace Xv6Cow

open Function (update_self update_of_ne)
open Prog (bind_ok_iff pure_ok_iff)

variable {g : Ghost} {s t : Kernel} {d v q : Nat} {perm : Word} {done : Unit}

namespace Ghost

/-- The pages from `lo` up to `hi` of directory `d` get new contents. -/
def setRange (g : Ghost) (d lo hi : Nat) (content : Nat → Option (Bool × Page)) : Ghost :=
  { g with
    space := fun e u => if e = d ∧ lo ≤ u ∧ u < hi then content u else g.space e u }

theorem setRange_empty (g : Ghost) (d lo : Nat) (content : Nat → Option (Bool × Page)) :
    g.setRange d lo lo content = g := by
  unfold setRange
  congr 1
  funext e u
  rw [if_neg (by omega)]

theorem setRange_cons (g : Ghost) (d lo n : Nat) (content : Nat → Option (Bool × Page)) :
    (g.setSpace d lo (content lo)).setRange d (lo + 1) (lo + 1 + n) content =
      g.setRange d lo (lo + (n + 1)) content := by
  unfold setRange setSpace
  dsimp only
  congr 1
  funext e u
  split
  · rw [if_pos (by omega)]
  · split
    · rename_i here
      rw [if_pos (by omega), here.2]
    · rw [if_neg (by omega)]

theorem loose_of_fresh {m : Nat → Page} (layout : Layout g m) (fresh : g.Fresh d) :
    g.Loose d := by
  intro ptr w frozen
  exact fresh.1 (layout.frozen frozen).1

end Ghost

theorem Rep.vacant (rep : Rep g s) (inside : d ∈ g.dirs) (user : v < NUPAGE)
    (vacant : g.space d v = none) : pteOf s.mem d v = 0#32 := by
  rw [← rep.space inside user] at vacant
  refine rep.entries.shape inside user ?_ ?_
  · by_contra present
    rw [Bool.not_eq_false] at present
    rw [spaceOf, pageAt_present present] at vacant
    cases vacant
  · by_contra swapped
    rw [Bool.not_eq_false] at swapped
    rw [spaceOf, pageAt_swapped swapped] at vacant
    cases vacant

/-! ## walkpgdir -/

theorem has_or_P (w : Word) : has (w ||| PTE_P) PTE_P = true := by
  rw [has_P, BitVec.getLsbD_or, ← has_P PTE_P, show has PTE_P PTE_P = true from rfl, Bool.or_true]

theorem Rep.held_lt (rep : Rep g s) {page : Page} (held : g.held q = some page) : q < NVPAGE := by
  have bound := (rep.layout.pool_bounds q (rep.layout.pins_pool q (held_mem_pins held))).2
  rw [NPHYS_eq] at bound
  rw [NVPAGE_eq]
  omega

/-- walkpgdir(…, 1): afterwards there is a page table, and nothing is mapped that
was not before. -/
theorem walkpgdir_spec {ptr : PtePtr} (rep : Rep g s) (inside : d ∈ g.dirs)
    (success : walkpgdir d v s = .ok (ptr, t)) (quiet : Quiet g t.log) :
    Rep g t ∧ Evolves g.dirs s t ∧ tablePage t.mem d (pdx v) = some ptr.page ∧
      ptr = ⟨ptr.page, ptx v⟩ := by
  unfold walkpgdir at success
  rw [bind_ok_iff] at success
  obtain ⟨pde, u, loaded, rest⟩ := success
  obtain ⟨-, rfl, rfl⟩ := loadWord_ok_iff.mp loaded
  rw [Prog.ite_apply] at rest
  split at rest
  · rename_i present
    obtain ⟨rfl, rfl⟩ := pure_ok_iff.mp rest
    exact ⟨rep, Evolves.refl _ _, tablePage_eq_some.mpr ⟨present, rfl⟩, rfl⟩
  · rename_i absent
    rw [bind_ok_iff] at rest
    obtain ⟨q, r, allocated, rest⟩ := rest
    rw [bind_ok_iff] at rest
    obtain ⟨_, _, zeroed, rest⟩ := rest
    obtain ⟨-, rfl⟩ := storePage_ok_iff.mp zeroed
    rw [bind_ok_iff] at rest
    obtain ⟨_, _, stored, rest⟩ := rest
    obtain ⟨-, rfl⟩ := storeWord_ok_iff.mp stored
    obtain ⟨rfl, rfl⟩ := pure_ok_iff.mp rest
    obtain ⟨fresh, taken, evicts⟩ := kalloc_spec rep allocated quiet
    have clean := taken.refill zeroPage
    have held : (g.hold q zeroPage).held q = some zeroPage := update_self _ _ _
    have apart : q ≠ d := fun same => fresh.1 (same ▸ inside)
    have missing : tablePage (Function.update r.mem q zeroPage) d (pdx v) = none := by
      rw [tablePage_congr (update_of_ne apart.symm _ _), evicts.tables inside, tablePage,
        if_neg absent]
    have present : has (pageWord q ||| PTE_P ||| PTE_W ||| PTE_U) PTE_P = true := by
      rw [BitVec.or_assoc, BitVec.or_comm, ← BitVec.or_assoc, has_or_P]
    have frame : ppn (pageWord q ||| PTE_P ||| PTE_W ||| PTE_U) = q := by
      rw [ppn_or low_U, ppn_or low_W, ppn_pageWord_or (clean.held_lt held) low_P]
    have linked := clean.linked held inside missing present frame
    have final := clean.link held inside missing present frame
    rw [Ghost.drop_hold _ fresh.2] at final
    have keeps : Keeps g r.mem (Function.update r.mem q zeroPage) :=
      Keeps.page r.mem zeroPage fresh.1 (taken.layout.held_apart (update_self _ _ _)).2
    refine ⟨final, evicts.toEvolves.trans (Evolves.of_entries (calm_fields r _ _ _ _ _ _) ?_ ?_ ?_),
      linked.here, rfl⟩
    · intro e x i member table
      rw [← keeps.table member i] at table
      refine (linked.tables member ?_).trans table
      rintro ⟨rfl, rfl⟩
      rw [missing] at table
      cases table
    · intro e u member user
      exact (linked.entries member).trans (keeps.entry member (user_lt user))
    · intro e u member user mapped
      have notDir := (taken.entries.frame member user (frameOf_present mapped)).2
      refine (linked.page ?_).trans (update_of_ne ?_ _ _)
      · rintro same
        exact notDir (Or.inl (same ▸ inside))
      · exact taken.frame_ne_held (update_self _ _ _) member user mapped

/-! ## mappages -/

/-- The entry mappages stores. -/
structure MapWord (q : Nat) (perm w : Word) : Prop where
  present : has w PTE_P = true
  frame : ppn w = q
  user : has w PTE_U = has perm PTE_U
  writable : has w PTE_W = has perm PTE_W

theorem mapWord_user (q : Nat) (perm : Word) :
    has (pageWord q ||| perm ||| PTE_P) PTE_U = has perm PTE_U := by
  simp only [has_U, BitVec.getLsbD_or, pageWord_low q 2 (by decide), Bool.false_or]
  rw [show PTE_P.getLsbD 2 = false from rfl, Bool.or_false]

theorem mapWord (small : q < NVPAGE) (low : Low perm) :
    MapWord q perm (pageWord q ||| perm ||| PTE_P) := by
  refine ⟨has_or_P _, ?_, ?_, ?_⟩
  · rw [ppn_or low_P, ppn_pageWord_or small low]
  · exact mapWord_user q perm
  · simp only [has_W, BitVec.getLsbD_or, pageWord_low q 1 (by decide), Bool.false_or]
    rw [show PTE_P.getLsbD 1 = false from rfl, Bool.or_false]

theorem mapPage_ok (rep : Rep g s) (inside : d ∈ g.dirs)
    (success : mapPage d perm v q s = .ok (done, t)) (quiet : Quiet g t.log) :
    ∃ u x, Rep g u ∧ Evolves g.dirs s u ∧ tablePage u.mem d (pdx v) = some x ∧
      has (pteOf u.mem d v) PTE_P = false ∧
      t = { u with mem := setWord u.mem ⟨x, ptx v⟩ (pageWord q ||| perm ||| PTE_P) } := by
  unfold mapPage at success
  rw [bind_ok_iff] at success
  obtain ⟨ptr, u', walked, rest⟩ := success
  rw [bind_ok_iff] at rest
  obtain ⟨w, u, loaded, rest⟩ := rest
  obtain ⟨-, rfl, rfl⟩ := loadWord_ok_iff.mp loaded
  obtain ⟨free, rest⟩ := Prog.refuse_ok_iff.mp rest
  obtain ⟨-, rfl⟩ := storeWord_ok_iff.mp rest
  obtain ⟨rep', evolves, table, shape⟩ := walkpgdir_spec rep inside walked quiet
  refine ⟨u, ptr.page, rep', evolves, table, ?_, ?_⟩
  · rw [pteOf_of_table table]
    rw [shape] at free
    exact Bool.eq_false_iff.mpr free
  · rw [← shape]

theorem mapPage_kernel (rep : Rep g s) (inside : d ∈ g.dirs) (loose : g.Loose d)
    (high : NUPAGE ≤ v) (small : v < NVPAGE) (guard : has perm PTE_U = false)
    (success : mapPage d perm v q s = .ok (done, t)) (quiet : Quiet g t.log) :
    Rep g t ∧ Evolves g.dirs s t := by
  obtain ⟨u, x, rep', evolves, table, -, rfl⟩ := mapPage_ok rep inside success quiet
  have thawed := rep'.layout.thawed inside loose table (ptx v)
  have rewrites := rep'.layout.rewrites (Keeps.refl g u.mem) inside small table
    (pageWord q ||| perm ||| PTE_P)
  refine ⟨rep'.kernelEntry inside high small table thawed
    ⟨isSwapped_of_present (has_or_P _), (mapWord_user q perm).trans guard⟩,
      evolves.trans (Evolves.of_entries (calm_fields u _ _ _ _ _ _) ?_ ?_ ?_)⟩
  · intro e y i member found
    exact (rewrites.table member i).trans found
  · intro e y member user
    refine rewrites.others member (user_lt user) ?_
    rintro ⟨-, rfl⟩
    omega
  · intro e y member user mapped
    exact setWord_of_ne (rep'.frame_ne_table inside table member user mapped)

theorem mapLoop_kernel {n : Nat} (rep : Rep g s) (inside : d ∈ g.dirs) (loose : g.Loose d)
    (high : NUPAGE ≤ v) (small : v + n ≤ NVPAGE) (guard : has perm PTE_U = false)
    (success : mapLoop d perm n v q s = .ok (done, t)) (quiet : Quiet g t.log) :
    Rep g t ∧ Evolves g.dirs s t := by
  induction n generalizing v q s with
  | zero =>
    obtain ⟨-, rfl⟩ := pure_ok_iff.mp success
    exact ⟨rep, Evolves.refl _ _⟩
  | succ n ih =>
    rw [mapLoop, bind_ok_iff] at success
    obtain ⟨_, u, mapped, rest⟩ := success
    have newer := (mapLoop_calm _ _ _ _ _ _ _ _ rest).log
    have older := (mapPage_calm _ _ _ _ _ _ _ mapped).log
    obtain ⟨rep', evolves⟩ := mapPage_kernel rep inside loose high (by omega) guard mapped
      (quiet.mono (rep.base.trans older) newer)
    obtain ⟨final, more⟩ := ih rep' (by omega) (by omega) rest
    exact ⟨final, evolves.trans more⟩

/-- The kernel's mappings lie above KERNBASE and within the address space, and are
not for users. -/
theorem kmap_bounds : ∀ k ∈ kmap, NUPAGE ≤ k.virt / PGSIZE ∧
    k.virt / PGSIZE + ((k.virt + k.size - 1) / PGSIZE - k.virt / PGSIZE + 1) ≤ NVPAGE ∧
    has k.perm PTE_U = false := by
  intro k member
  simp only [kmap, List.mem_cons, List.not_mem_nil, or_false] at member
  rcases member with rfl | rfl | rfl | rfl <;> decide

theorem mapKernel_spec {maps : List KMap} (rep : Rep g s) (inside : d ∈ g.dirs)
    (loose : g.Loose d) (known : ∀ k ∈ maps, k ∈ kmap)
    (success : mapKernel d maps s = .ok (done, t)) (quiet : Quiet g t.log) :
    Rep g t ∧ Evolves g.dirs s t := by
  induction maps generalizing s with
  | nil =>
    obtain ⟨-, rfl⟩ := pure_ok_iff.mp success
    exact ⟨rep, Evolves.refl _ _⟩
  | cons k rest ih =>
    rw [mapKernel, bind_ok_iff] at success
    obtain ⟨_, u, mapped, later⟩ := success
    have newer := (mapKernel_calm _ _ _ _ _ later).log
    have older := (mappages_calm _ _ _ _ _ _ _ _ mapped).log
    obtain ⟨high, small, guard⟩ := kmap_bounds k (known k List.mem_cons_self)
    obtain ⟨rep', evolves⟩ := mapLoop_kernel rep inside loose high small guard mapped
      (quiet.mono (rep.base.trans older) newer)
    obtain ⟨final, more⟩ := ih rep' (fun k member => known k (List.mem_cons_of_mem _ member)) later
    exact ⟨final, evolves.trans more⟩

theorem setupkvm_spec (rep : Rep g s) (success : setupkvm s = .ok (d, t))
    (quiet : Quiet g t.log) :
    g.Fresh d ∧ Rep (g.addDir d) t ∧ Evolves g.dirs s t := by
  unfold setupkvm at success
  rw [bind_ok_iff] at success
  obtain ⟨q, u, allocated, rest⟩ := success
  rw [bind_ok_iff] at rest
  obtain ⟨_, _, zeroed, rest⟩ := rest
  obtain ⟨-, rfl⟩ := storePage_ok_iff.mp zeroed
  rw [bind_ok_iff] at rest
  obtain ⟨_, r, mapped, rest⟩ := rest
  obtain ⟨rfl, rfl⟩ := pure_ok_iff.mp rest
  have older : u.log <:+ t.log := (mapKernel_calm _ _ _ _ _ mapped).log
  have base := (kalloc_calm _ _ _ allocated).log
  obtain ⟨fresh, taken, evicts⟩ := kalloc_spec rep allocated
    (quiet.mono (rep.base.trans base) older)
  have clean := taken.refill zeroPage
  have adopted := clean.adopt (update_self _ _ _)
  rw [Ghost.drop_hold _ fresh.2] at adopted
  have loose : g.Loose d := Ghost.loose_of_fresh rep.layout fresh
  obtain ⟨final, more⟩ := mapKernel_spec adopted (Finset.mem_insert_self d g.dirs) loose
    (fun _ member => member) mapped quiet
  have empty : ∀ {v}, pteOf (Function.update u.mem d zeroPage) d v = 0#32 :=
    pteOf_zeroPage (update_self _ _ _)
  have keeps : Keeps g u.mem (Function.update u.mem d zeroPage) :=
    Keeps.page u.mem zeroPage fresh.1 (taken.layout.held_apart (update_self _ _ _)).2
  refine ⟨fresh, final, (evicts.toEvolves.trans (Evolves.of_entries (calm_fields u _ _ _ _ _ _)
    ?_ ?_ ?_)).trans (more.shrink (fun _ => empty))⟩
  · intro e x i member found
    exact (keeps.table member i).trans found
  · intro e v member user
    exact keeps.entry member (user_lt user)
  · intro e v member user mapped
    exact update_of_ne
      (taken.frame_ne_held (update_self _ _ _) member user mapped) _ _

/-! ## User pages -/

theorem mappages_page (d v q : Nat) (perm : Word) (s : Kernel) :
    mappages d (v * PGSIZE) PGSIZE (q * PGSIZE) perm s = mapPage d perm v q s := by
  have positive : 0 < PGSIZE := by decide
  have one : (v * PGSIZE + PGSIZE - 1) / PGSIZE - v * PGSIZE / PGSIZE + 1 = 1 := by
    rw [PGSIZE_eq]
    omega
  unfold mappages
  rw [one, Nat.mul_div_cancel v positive, Nat.mul_div_cancel q positive]
  change (mapPage d perm v q >>= fun _ => pure ()) s = _
  rw [Prog.bind_apply]
  cases mapPage d perm v q s with
  | error why => rfl
  | ok pair => rfl

/-- Every entry of the directory is present and writable: no page is shared. -/
def Owned (s : Kernel) (d : Nat) : Prop :=
  ∀ v, v < NUPAGE → pteOf s.mem d v ≠ 0#32 →
    has (pteOf s.mem d v) PTE_P = true ∧ has (pteOf s.mem d v) PTE_W = true

theorem Owned.evolves {dirs : Finset Nat} (owned : Owned s d) (evolves : Evolves dirs s t)
    (inside : d ∈ dirs) (idle : Idle s d) : Owned t d := by
  intro v user nonzero
  rw [evolves.private_entry inside idle user] at nonzero ⊢
  exact owned v user nonzero

theorem Owned.rewrites {w : Word} (owned : Owned s d) (inside : d ∈ g.dirs)
    (rewrites : Rewrites g s.mem t.mem d v w)
    (present : has w PTE_P = true) (writable : has w PTE_W = true) : Owned t d := by
  intro u user nonzero
  by_cases here : u = v
  · subst here
    rw [rewrites.here]
    exact ⟨present, writable⟩
  · rw [rewrites.others inside (user_lt user) (fun same => here same.2)] at nonzero ⊢
    exact owned u user nonzero

theorem mapPage_held {page : Page} (rep : Rep g s) (held : g.held q = some page)
    (inside : d ∈ g.dirs) (user : v < NUPAGE) (loose : g.Loose d) (vacant : g.space d v = none)
    (low : Low perm) (success : mapPage d perm v q s = .ok (done, t)) (quiet : Quiet g t.log) :
    Rep ((g.drop q).setSpace d v (some (has perm PTE_U, page))) t ∧
      (Idle s d → Owned s d → has perm PTE_W = true → Owned t d) := by
  obtain ⟨u, x, rep', evolves, table, -, rfl⟩ := mapPage_ok rep inside success quiet
  have thawed := rep'.layout.thawed inside loose table (ptx v)
  have word := mapWord (rep'.held_lt held) low
  have final := rep'.mapHeld held inside user table thawed (rep'.vacant inside user vacant)
    word.present word.frame
  rw [word.user] at final
  refine ⟨final, fun idle owned writable => ?_⟩
  exact (owned.evolves evolves inside idle).rewrites inside
    (rep'.layout.rewrites (Keeps.refl g u.mem) inside (user_lt user) table _) word.present
    (word.writable.trans writable)

theorem newPage_spec {u r : Kernel} {first second : Unit} (rep : Rep g s)
    (inside : d ∈ g.dirs) (user : v < NUPAGE) (loose : g.Loose d) (vacant : g.space d v = none)
    (allocated : kalloc s = .ok (q, u)) (zeroed : storePage q zeroPage u = .ok (first, r))
    (mapped : mapPage d (PTE_W ||| PTE_U) v q r = .ok (second, t)) (quiet : Quiet g t.log) :
    g.Fresh q ∧ Rep (g.setSpace d v (some (true, zeroPage))) t ∧
      (Idle s d → Owned s d → Owned t d) := by
  obtain ⟨-, rfl⟩ := storePage_ok_iff.mp zeroed
  have newer : u.log <:+ t.log := (mapPage_calm _ _ _ _ _ _ _ mapped).log
  have calm := kalloc_calm _ _ _ allocated
  obtain ⟨fresh, taken, evicts⟩ := kalloc_spec rep allocated
    (quiet.mono (rep.base.trans calm.log) newer)
  have clean := taken.refill zeroPage
  obtain ⟨final, owned⟩ := mapPage_held clean (update_self _ _ _) inside user loose vacant
    (by decide) mapped quiet
  rw [Ghost.drop_hold _ fresh.2] at final
  refine ⟨fresh, final, fun idle before => owned (calm.idle idle) ?_ (by decide)⟩
  have keeps : Keeps g u.mem (Function.update u.mem q zeroPage) :=
    Keeps.page u.mem zeroPage fresh.1 (taken.layout.held_apart (update_self _ _ _)).2
  intro w small nonzero
  change pteOf (Function.update u.mem q zeroPage) d w ≠ 0#32 at nonzero
  change has (pteOf (Function.update u.mem q zeroPage) d w) PTE_P = true ∧
    has (pteOf (Function.update u.mem q zeroPage) d w) PTE_W = true
  rw [keeps.entry inside (user_lt small)] at nonzero ⊢
  exact (before.evolves evicts.toEvolves inside idle) w small nonzero

/-- The contents of pages fresh from allocuvm. -/
def blank : Nat → Option (Bool × Page) := fun _ => some (true, zeroPage)

theorem allocLoop_spec {p : Fin NPROC} {n : Nat} (rep : Rep g s) (inside : d ∈ g.dirs)
    (loose : g.Loose d) (fits : v + n ≤ NUPAGE)
    (vacant : ∀ u, v ≤ u → u < v + n → g.space d u = none)
    (success : allocLoop p d n v s = .ok (done, t)) (quiet : Quiet g t.log) :
    Rep (g.setRange d v (v + n) blank) t ∧ (Idle s d → Owned s d → Owned t d) := by
  induction n generalizing v g s with
  | zero =>
    obtain ⟨-, rfl⟩ := pure_ok_iff.mp success
    rw [Nat.add_zero, Ghost.setRange_empty]
    exact ⟨rep, fun _ owned => owned⟩
  | succ n ih =>
    rw [allocLoop, bind_ok_iff] at success
    obtain ⟨q, u, allocated, rest⟩ := success
    rw [bind_ok_iff] at rest
    obtain ⟨_, u', zeroed, rest⟩ := rest
    rw [bind_ok_iff] at rest
    obtain ⟨_, r, mapped, rest⟩ := rest
    rw [mappages_page] at mapped
    rw [bind_ok_iff] at rest
    obtain ⟨_, r', counted, rest⟩ := rest
    have calm := ((kalloc_calm _ _ _ allocated).trans (storePage_calm _ _ _ _ _ zeroed)).trans
      ((mapPage_calm _ _ _ _ _ _ _ mapped).trans (addRss_calm _ _ _ _ counted))
    obtain rfl := Prog.update_ok_iff.mp counted
    have newer := (allocLoop_calm _ _ _ _ _ _ _ rest).log
    obtain ⟨-, rep', owned⟩ := newPage_spec rep inside (by omega) loose
      (vacant v (Nat.le_refl v) (by omega)) allocated zeroed mapped
      (quiet.mono (rep.base.trans calm.log) newer)
    have step := ih (rep'.setRss p _) inside loose (by omega) (by
      intro u low high
      change (if d = d ∧ u = v then _ else g.space d u) = none
      rw [if_neg (by omega)]
      exact vacant u (by omega) (by omega)) rest quiet
    rw [← Ghost.setRange_cons]
    exact ⟨step.1, fun idle before => step.2 (calm.idle idle) (owned idle before)⟩

theorem allocuvm_spec {p : Fin NPROC} {oldsz newsz sz : Nat} (rep : Rep g s)
    (inside : d ∈ g.dirs) (loose : g.Loose d)
    (vacant : ∀ u, pagesOf oldsz ≤ u → u < NUPAGE → g.space d u = none)
    (success : allocuvm p d oldsz newsz s = .ok (sz, t)) (quiet : Quiet g t.log) :
    (sz = 0 ∧ KERNBASE ≤ newsz ∧ t = s) ∨ (sz = oldsz ∧ newsz < oldsz ∧ t = s) ∨
      (sz = newsz ∧ newsz < KERNBASE ∧ oldsz ≤ newsz ∧
        Rep (g.setRange d (pagesOf oldsz) (pagesOf newsz) blank) t ∧
        (Idle s d → Owned s d → Owned t d)) := by
  unfold allocuvm at success
  rw [Prog.ite_apply] at success
  split at success
  · rename_i large
    obtain ⟨rfl, rfl⟩ := pure_ok_iff.mp success
    exact Or.inl ⟨rfl, large, rfl⟩
  · rename_i small
    rw [Prog.ite_apply] at success
    split at success
    · rename_i shrinks
      obtain ⟨rfl, rfl⟩ := pure_ok_iff.mp success
      exact Or.inr (Or.inl ⟨rfl, shrinks, rfl⟩)
    · rename_i grows
      rw [bind_ok_iff] at success
      obtain ⟨_, u, looped, rest⟩ := success
      obtain ⟨rfl, rfl⟩ := pure_ok_iff.mp rest
      have bound : pagesOf sz ≤ NUPAGE := by
        simp only [pagesOf, PGSIZE_eq, NUPAGE_eq, KERNBASE_eq] at *
        omega
      have order : pagesOf oldsz ≤ pagesOf sz := by
        simp only [pagesOf, PGSIZE_eq] at *
        omega
      have final := allocLoop_spec rep inside loose (by omega)
        (fun u low high => vacant u low (by omega)) looped quiet
      rw [Nat.add_sub_cancel' order] at final
      exact Or.inr (Or.inr ⟨rfl, Nat.lt_of_not_le small, Nat.le_of_not_lt grows, final⟩)

end Xv6Cow
