import Xv6Cow.Entries

/- What each primitive change of the kernel's data does to the picture `Rep`
draws of it. The kernel's functions are sequences of these. -/
namespace Xv6Cow

open Function (update_self update_of_ne)
open RefCount (count refs Exact)

variable {g : Ghost} {s : Kernel} {d v t q : Nat} {w : Word}

theorem uses_eq {h : Ghost} {m n : Nat → Page} {x : Nat}
    (mapped : frames h.dirs n x = frames g.dirs m x) (pinned : x ∈ pins h n ↔ x ∈ pins g m) :
    uses h n x = uses g m x := by
  by_cases before : x ∈ pins g m
  · rw [uses_pinned before, uses_pinned (pinned.mpr before), mapped]
  · rw [uses_unpinned before, uses_unpinned (fun after => before (pinned.mp after)), mapped]

/-! ## Held pages -/

theorem mem_pins_hold {m : Nat → Page} {page : Page} {x : Nat} :
    x ∈ pins (g.hold q page) m ↔ x = q ∨ x ∈ pins g m := by
  simp only [pins, Ghost.hold, Set.mem_ofPred_eq]
  by_cases here : x = q
  · subst here
    simp
  · rw [update_of_ne here]
    simp only [here, false_or]

theorem mem_pins_drop {m : Nat → Page} (layout : Layout g m) {page : Page}
    (held : g.held q = some page) {x : Nat} :
    x ∈ pins (g.drop q) m ↔ x ≠ q ∧ x ∈ pins g m := by
  simp only [pins, Ghost.drop, Set.mem_ofPred_eq]
  by_cases here : x = q
  · subst here
    simp only [update_self, ne_eq, not_true_eq_false, or_false, false_and, iff_false,
      not_or]
    refine ⟨?_, ?_⟩
    · intro inside
      rw [layout.dir_not_held inside] at held
      cases held
    · rintro ⟨d, inside, i, table⟩
      rw [layout.table_not_held inside table] at held
      cases held
  · rw [update_of_ne here]
    simp only [ne_eq, here, not_false_eq_true, true_and]

theorem held_mem_pins {m : Nat → Page} {page : Page} (held : g.held q = some page) :
    q ∈ pins g m := by
  refine Or.inr (Or.inr ?_)
  rw [held]
  exact Option.some_ne_none page

theorem Layout.held_apart {m : Nat → Page} (layout : Layout g m) {page : Page}
    (held : g.held q = some page) : q ∉ g.dirs ∧ ∀ d ∈ g.dirs, ∀ i, tablePage m d i ≠ some q := by
  refine ⟨?_, ?_⟩
  · intro inside
    rw [layout.dir_not_held inside] at held
    cases held
  · intro d inside i table
    rw [layout.table_not_held inside table] at held
    cases held

theorem Rep.frame_ne_held (rep : Rep g s) {page : Page} (held : g.held q = some page)
    (inside : d ∈ g.dirs) (user : v < NUPAGE) (present : has (pteOf s.mem d v) PTE_P = true) :
    ppn (pteOf s.mem d v) ≠ q := by
  rintro rfl
  exact (rep.entries.frame inside user (frameOf_present present)).2 (held_mem_pins held)

theorem Rep.free_unused (rep : Rep g s) (free : q ∈ s.freelist) :
    q ∈ g.pool ∧ q ∉ pins g s.mem ∧ frames g.dirs s.mem q = 0 := by
  obtain ⟨inside, unused⟩ := (rep.exact.mem_free q).mp free
  have loose : q ∉ pins g s.mem := by
    intro pinned
    rw [uses_pinned pinned] at unused
    omega
  rw [uses_unpinned loose] at unused
  exact ⟨inside, loose, unused⟩

theorem fresh_of_unpinned {m : Nat → Page} (loose : q ∉ pins g m) : g.Fresh q := by
  refine ⟨fun inside => loose (Or.inl inside), ?_⟩
  by_contra held
  exact loose (Or.inr (Or.inr held))

theorem Layout.hold {m : Nat → Page} (layout : Layout g m) (pooled : q ∈ g.pool)
    (loose : q ∉ pins g m) : Layout (g.hold q (m q)) m := by
  refine ⟨layout.pool_bounds, ?_, layout.table_unique, layout.table_not_dir, ?_, ?_, ?_,
    layout.frozen⟩
  · intro x pinned
    rcases mem_pins_hold.mp pinned with rfl | pinned
    · exact pooled
    · exact layout.pins_pool x pinned
  · intro d t i inside table
    have other : t ≠ q := by
      rintro rfl
      exact loose (Or.inr (Or.inl ⟨d, inside, i, table⟩))
    simp only [Ghost.hold, update_of_ne other]
    exact layout.table_not_held inside table
  · intro d inside
    have other : d ≠ q := by
      rintro rfl
      exact loose (Or.inl inside)
    simp only [Ghost.hold, update_of_ne other]
    exact layout.dir_not_held inside
  · intro x page held
    by_cases here : x = q
    · subst here
      simp only [Ghost.hold, update_self, Option.some.injEq] at held
      exact held
    · simp only [Ghost.hold, update_of_ne here] at held
      exact layout.held_bytes held

theorem Layout.drop {m : Nat → Page} (layout : Layout g m) {page : Page}
    (held : g.held q = some page) : Layout (g.drop q) m := by
  have less : ∀ {x : Nat}, g.held x = none → (g.drop q).held x = none := by
    intro x absent
    by_cases here : x = q
    · subst here
      simp only [Ghost.drop, update_self]
    · simp only [Ghost.drop, update_of_ne here, absent]
  refine ⟨layout.pool_bounds, ?_, layout.table_unique, layout.table_not_dir, ?_, ?_, ?_,
    layout.frozen⟩
  · intro x pinned
    exact layout.pins_pool x ((mem_pins_drop layout held).mp pinned).2
  · intro d t i inside table
    exact less (layout.table_not_held inside table)
  · intro d inside
    exact less (layout.dir_not_held inside)
  · intro x bytes here
    have other : x ≠ q := by
      rintro rfl
      simp only [Ghost.drop, update_self, reduceCtorEq] at here
    simp only [Ghost.drop, update_of_ne other] at here
    exact layout.held_bytes here

theorem Layout.page {m : Nat → Page} (layout : Layout g m) (loose : q ∉ pins g m) (page : Page) :
    Layout g (Function.update m q page) := by
  apply layout.keep
  · intro d inside
    apply update_of_ne
    rintro rfl
    exact loose (Or.inl inside)
  · intro x bytes held
    rw [update_of_ne, layout.held_bytes held]
    rintro rfl
    exact loose (held_mem_pins held)
  · rintro ptr ⟨d, v, w⟩ here
    obtain ⟨inside, table, -⟩ := layout.frozen here
    rw [update_of_ne]
    · exact SameEntry.refl _
    · rintro rfl
      exact loose (Or.inr (Or.inl ⟨d, inside, pdx v, table⟩))

theorem Keeps.unpinned (m : Nat → Page) (page : Page) (loose : q ∉ pins g m) :
    Keeps g m (Function.update m q page) :=
  Keeps.page m page (fun inside => loose (Or.inl inside))
    (fun d inside i table => loose (Or.inr (Or.inl ⟨d, inside, i, table⟩)))

theorem Entries.repin {h : Ghost} {m : Nat → Page} (entries : Entries g m)
    (dirs : h.dirs = g.dirs)
    (frame : ∀ {x}, 0 < frames g.dirs m x → x ∈ h.pool ∧ x ∉ pins h m) : Entries h m := by
  refine ⟨?_, ?_, ?_, ?_, ?_⟩
  · rw [dirs]
    exact entries.shape
  · rw [dirs]
    intro d v x inside user maps
    exact frame (frames_pos inside user maps)
  · rw [dirs]
    exact entries.exclusive
  · rw [dirs]
    exact entries.kernel
  · rw [dirs]
    exact entries.place

theorem Entries.mapped {m : Nat → Page} (entries : Entries g m) {x : Nat}
    (positive : 0 < frames g.dirs m x) : x ∈ g.pool ∧ x ∉ pins g m := by
  obtain ⟨⟨d, v⟩, inside, maps⟩ := RefCount.count_pos_iff.mp positive
  exact entries.frame (mem_sites.mp inside).1 (mem_sites.mp inside).2 maps

theorem Entries.hold {m : Nat → Page} (entries : Entries g m)
    (unmapped : frames g.dirs m q = 0) (page : Page) : Entries (g.hold q page) m := by
  refine entries.repin rfl ?_
  intro x positive
  obtain ⟨pooled, loose⟩ := entries.mapped positive
  refine ⟨pooled, ?_⟩
  rw [mem_pins_hold]
  rintro (rfl | pinned)
  · omega
  · exact loose pinned

theorem Entries.drop {m : Nat → Page} (layout : Layout g m) (entries : Entries g m)
    {page : Page} (held : g.held q = some page) : Entries (g.drop q) m := by
  refine entries.repin rfl ?_
  intro x positive
  obtain ⟨pooled, loose⟩ := entries.mapped positive
  refine ⟨pooled, fun pinned => loose ((mem_pins_drop layout held).mp pinned).2⟩

/-- kalloc's fast path: the head of the free list becomes a held page. -/
theorem Rep.pop (rep : Rep g s) {rest : List Nat} (list : s.freelist = q :: rest) :
    Rep (g.hold q (s.mem q)) (popFree s q rest) := by
  obtain ⟨pooled, loose, unmapped⟩ := rep.free_unused (by rw [list]; exact List.mem_cons_self)
  refine ⟨rep.layout.hold pooled loose, rep.entries.hold unmapped _, ?_, ?_, ?_, rep.space,
    rep.procs, rep.base⟩
  · have exact' := rep.exact
    rw [list] at exact'
    refine exact'.alloc ?_ ?_
    · rw [uses_pinned (mem_pins_hold.mpr (Or.inl rfl))]
      change frames g.dirs s.mem q + 1 = 1
      omega
    · intro x other
      refine uses_eq rfl ?_
      change x ∈ pins (g.hold q (s.mem q)) s.mem ↔ _
      rw [mem_pins_hold]
      exact or_iff_right other
  · change s.numFreePages - 1 = rest.length
    rw [rep.numFree, list, List.length_cons, Nat.add_sub_cancel]
  · exact rep.slots.keep rfl rfl rfl rfl rfl rfl rfl (fun _ _ => rfl) (fun _ _ => rfl)

theorem Rep.scribble (rep : Rep g s) {old : Page} (held : g.held q = some old) (page : Page) :
    Rep (g.hold q page) { s with mem := Function.update s.mem q page } := by
  have pinned : q ∈ pins g s.mem := held_mem_pins held
  have loose : q ∉ pins (g.drop q) s.mem := fun inside =>
    ((mem_pins_drop rep.layout held).mp inside).1 rfl
  have keeps : Keeps (g.drop q) s.mem (Function.update s.mem q page) :=
    Keeps.unpinned s.mem page loose
  have regain : (g.drop q).hold q (Function.update s.mem q page q) = g.hold q page := by
    rw [update_self]
    exact Ghost.hold_drop g q page
  have layout : Layout (g.hold q page) (Function.update s.mem q page) := by
    rw [← regain]
    exact ((rep.layout.drop held).page loose page).hold (rep.layout.pins_pool q pinned)
      (by rwa [keeps.pins_eq])
  have entries : Entries (g.hold q page) (Function.update s.mem q page) := by
    have kept := (Entries.drop rep.layout rep.entries held).keep keeps
    rw [← Ghost.hold_drop g q page]
    exact kept.hold (by rw [keeps.frames_eq]; exact rep.entries.frames_pinned pinned) page
  refine ⟨layout, entries, ?_, rep.numFree, ?_, ?_, rep.procs, rep.base⟩
  · refine rep.exact.congr ?_
    intro x
    refine uses_eq (keeps.frames_eq x) ?_
    rw [← regain, mem_pins_hold, keeps.pins_eq, mem_pins_drop rep.layout held]
    by_cases here : x = q
    · subst here
      exact iff_of_true (Or.inl rfl) pinned
    · simp only [here, false_or, ne_eq, not_false_eq_true, true_and]
  · refine rep.slots.keep rfl rfl rfl rfl rfl rfl rfl (fun inside i => keeps.table inside i) ?_
    intro d v inside user
    exact congrArg blockOf (keeps.entry inside (user_lt user))
  · intro d v inside user
    refine Eq.trans ?_ (rep.space inside user)
    refine spaceOf_congr ?_ ?_ ?_
    · exact keeps.entry inside (user_lt user)
    · intro present
      exact update_of_ne (rep.frame_ne_held held inside user present) _ _
    · intro _
      exact ⟨rfl, rfl⟩

theorem Rep.refill {old : Page} (taken : Rep (g.hold q old) s) (page : Page) :
    Rep (g.hold q page) { s with mem := Function.update s.mem q page } := by
  have clean := taken.scribble (update_self _ _ _) page
  rwa [Ghost.hold_hold] at clean

theorem Rep.refcnt_held (rep : Rep g s) {page : Page} (held : g.held q = some page) :
    s.pageToRefcnt q = 1 := by
  have pinned : q ∈ pins g s.mem := held_mem_pins held
  have used := uses_pinned pinned
  rw [rep.entries.frames_pinned pinned] at used
  rw [rep.exact.counted q (rep.layout.pins_pool q pinned) (by omega), used]
  rfl

theorem Rep.kfreed_held (rep : Rep g s) {page : Page} (held : g.held q = some page) :
    kfreed s q = pushFree s q := by
  have one := rep.refcnt_held held
  rw [kfreed, if_neg (by omega)]

theorem Rep.release (rep : Rep g s) {page : Page} (held : g.held q = some page) :
    Rep (g.drop q) (kfreed s q) := by
  rw [rep.kfreed_held held]
  have pinned : q ∈ pins g s.mem := held_mem_pins held
  have unmapped := rep.entries.frames_pinned pinned
  have loose : q ∉ pins (g.drop q) s.mem := fun inside =>
    ((mem_pins_drop rep.layout held).mp inside).1 rfl
  have keeps : Keeps (g.drop q) s.mem (pushFree s q).mem := Keeps.unpinned s.mem _ loose
  refine ⟨(rep.layout.drop held).page loose _,
    (Entries.drop rep.layout rep.entries held).keep keeps, ?_, ?_, ?_, ?_, rep.procs, rep.base⟩
  · refine rep.exact.last (rep.layout.pins_pool q pinned) ?_ ?_ ?_
    · rw [uses_pinned pinned, unmapped]
    · rw [keeps.uses_eq, uses_unpinned loose]
      exact unmapped
    · intro x other
      rw [keeps.uses_eq]
      refine uses_eq rfl ?_
      rw [mem_pins_drop rep.layout held]
      exact and_iff_right other
  · change s.numFreePages + 1 = (q :: s.freelist).length
    rw [rep.numFree, List.length_cons]
  · refine rep.slots.keep rfl rfl rfl rfl rfl rfl rfl (fun inside i => keeps.table inside i) ?_
    intro d v inside user
    exact congrArg blockOf (keeps.entry inside (user_lt user))
  · intro d v inside user
    refine Eq.trans ?_ (rep.space inside user)
    refine spaceOf_congr ?_ ?_ ?_
    · exact keeps.entry inside (user_lt user)
    · intro present
      exact update_of_ne (rep.frame_ne_held held inside user present) _ _
    · intro _
      exact ⟨rfl, rfl⟩

/-! ## Entries -/

theorem Layout.setSpace {m : Nat → Page} {x : Option (Bool × Page)} (layout : Layout g m) :
    Layout (g.setSpace d v x) m :=
  ⟨layout.pool_bounds, layout.pins_pool, layout.table_unique, layout.table_not_dir,
    layout.table_not_held, layout.dir_not_held, layout.held_bytes, layout.frozen⟩

theorem Layout.mark {m : Nat → Page} (layout : Layout g m) (inside : d ∈ g.dirs)
    {i j : Fin 1024} (table : tablePage m d i = some t) {w : Word}
    (stable : ∀ x, g.frozen ⟨t, j⟩ = some x → SameEntry (m t j) w) :
    Layout g (setWord m ⟨t, j⟩ w) := by
  apply layout.keep
  · intro e member
    apply setWord_of_ne
    rintro rfl
    exact layout.table_not_dir inside table member
  · intro x page held
    rw [setWord_of_ne, layout.held_bytes held]
    rintro rfl
    rw [layout.table_not_held inside table] at held
    cases held
  · rintro ptr x here
    by_cases same : ptr = ⟨t, j⟩
    · subst same
      rw [setWord_self m ⟨t, j⟩]
      exact stable x here
    · rw [setWord_eq_of_ne]
      · exact SameEntry.refl _
      · intro samePage sameIndex
        exact same (by cases ptr; cases samePage; cases sameIndex; rfl)

theorem Ghost.stable {ptr : PtePtr} {w w' : Word} (thawed : g.frozen ptr = none) :
    ∀ x, g.frozen ptr = some x → SameEntry w w' := by
  intro x here
  rw [thawed] at here
  cases here

theorem Layout.entry {m : Nat → Page} (layout : Layout g m) (inside : d ∈ g.dirs)
    {i j : Fin 1024} (table : tablePage m d i = some t) (thawed : g.frozen ⟨t, j⟩ = none)
    (w : Word) : Layout g (setWord m ⟨t, j⟩ w) :=
  layout.mark inside table (Ghost.stable thawed)

theorem Layout.thawed {m : Nat → Page} (layout : Layout g m) (inside : d ∈ g.dirs)
    (loose : g.Loose d) {i : Fin 1024} (table : tablePage m d i = some t) (j : Fin 1024) :
    g.frozen ⟨t, j⟩ = none := by
  cases here : g.frozen ⟨t, j⟩ with
  | none => rfl
  | some x =>
    obtain ⟨e, u, word⟩ := x
    obtain ⟨member, other, -⟩ := layout.frozen here
    obtain ⟨rfl, -⟩ := layout.table_unique member inside other table
    exact absurd here (loose _ (u, word))

theorem Layout.thawed_of_absent {m : Nat → Page} (layout : Layout g m)
    (table : tablePage m d (pdx v) = some t) (absent : has (pteOf m d v) PTE_P = false) :
    g.frozen ⟨t, ptx v⟩ = none := by
  cases here : g.frozen ⟨t, ptx v⟩ with
  | none => rfl
  | some x =>
    obtain ⟨-, -, same, present, -⟩ := layout.frozen here
    rw [pteOf_of_table table, same.present, present] at absent
    cases absent

/-- A word in a page table is no user page, so user pages keep their bytes when
an entry is written. -/
theorem Rep.frame_ne_table (rep : Rep g s) (inside : d ∈ g.dirs) {i : Fin 1024}
    (table : tablePage s.mem d i = some t) {e u : Nat} (member : e ∈ g.dirs) (user : u < NUPAGE)
    (present : has (pteOf s.mem e u) PTE_P = true) : ppn (pteOf s.mem e u) ≠ t := by
  rintro rfl
  exact (rep.entries.frame member user (frameOf_present present)).2
    (Or.inr (Or.inl ⟨d, inside, i, table⟩))

theorem Rep.space_rewrite (rep : Rep g s) {r : Kernel} {x : Option (Bool × Page)}
    (rewrites : Rewrites g s.mem r.mem d v w)
    (here : pageAt r w = x)
    (frame : ∀ {e u}, e ∈ g.dirs → u < NUPAGE → ¬ (e = d ∧ u = v) →
      has (pteOf s.mem e u) PTE_P = true →
      r.mem (ppn (pteOf s.mem e u)) = s.mem (ppn (pteOf s.mem e u)))
    (slot : ∀ {e u}, e ∈ g.dirs → u < NUPAGE → ¬ (e = d ∧ u = v) →
      isSwapped (pteOf s.mem e u) = true →
      (r.swapSlots (slotOf (pteOf s.mem e u))).pagePerm =
        (s.swapSlots (slotOf (pteOf s.mem e u))).pagePerm ∧
      diskPage r.disk (ppn (pteOf s.mem e u)) = diskPage s.disk (ppn (pteOf s.mem e u)))
    {e u : Nat} (inside : e ∈ g.dirs) (user : u < NUPAGE) :
    spaceOf r e u = (g.setSpace d v x).space e u := by
  by_cases same : e = d ∧ u = v
  · simp only [Ghost.setSpace, same, and_self, ↓reduceIte]
    rw [spaceOf, rewrites.here, here]
  · simp only [Ghost.setSpace, same, ↓reduceIte]
    rw [← rep.space inside user]
    exact spaceOf_congr (rewrites.others inside (user_lt user) same) (frame inside user same)
      (slot inside user same)

theorem pageAt_present {w : Word} (present : has w PTE_P = true) :
    pageAt s w = some (has w PTE_U, s.mem (ppn w)) := by
  rw [pageAt, if_pos present]

theorem pageAt_zero (s : Kernel) : pageAt s 0#32 = none := rfl

/-- A held page becomes the page of an entry that had none. -/
structure Mapped (g : Ghost) (s : Kernel) (d v q : Nat) (w : Word) (n : Nat → Page) : Prop where
  rewrites : Rewrites g s.mem n d v w
  layout : Layout (g.drop q) n
  entries : Entries (g.drop q) n
  exact : Exact g.pool (uses (g.drop q) n) s.pageToRefcnt s.freelist
  page : n q = s.mem q
  frame : ∀ {e u}, e ∈ g.dirs → u < NUPAGE → has (pteOf s.mem e u) PTE_P = true →
    n (ppn (pteOf s.mem e u)) = s.mem (ppn (pteOf s.mem e u))

theorem Rep.mapped (rep : Rep g s) {page : Page} (held : g.held q = some page)
    (inside : d ∈ g.dirs) (user : v < NUPAGE) (table : tablePage s.mem d (pdx v) = some t)
    (thawed : g.frozen ⟨t, ptx v⟩ = none) (empty : has (pteOf s.mem d v) PTE_P = false)
    (present : has w PTE_P = true) (frame : ppn w = q) :
    Mapped g s d v q w (setWord s.mem ⟨t, ptx v⟩ w) := by
  have pinned : q ∈ pins g s.mem := held_mem_pins held
  have unmapped := rep.entries.frames_pinned pinned
  have rewrites : Rewrites g s.mem (setWord s.mem ⟨t, ptx v⟩ w) d v w :=
    rep.layout.rewrites (Keeps.refl g s.mem) inside (user_lt user) table w
  have before : frameOf (pteOf s.mem d v) = none := by
    rw [frameOf, if_neg (by rw [empty]; exact Bool.false_ne_true)]
  have after : frameOf w = some q := by rw [frameOf_present present, frame]
  have pins_iff : ∀ x, x ∈ pins (g.drop q) (setWord s.mem ⟨t, ptx v⟩ w) ↔
      x ≠ q ∧ x ∈ pins g s.mem := by
    intro x
    rw [pins_congr (g := g.drop q) rewrites.dir, mem_pins_drop rep.layout held]
  have counted := rewrites.frames_added inside user before after
  refine ⟨rewrites, (rep.layout.drop held).entry inside table thawed w, ?_, ?_, ?_, ?_⟩
  · refine rep.entries.rewrite rewrites inside user rfl ?_ ?_ ?_ ?_
    · intro absent
      rw [present] at absent
      cases absent
    · intro x positive
      rw [counted] at positive
      rw [pins_iff]
      by_cases here : x = q
      · subst here
        exact ⟨rep.layout.pins_pool x pinned, fun other => other.1 rfl⟩
      · rw [if_neg (Ne.symm here)] at positive
        obtain ⟨pooled, free⟩ := rep.entries.mapped positive
        exact ⟨pooled, fun other => free other.2⟩
    · intro _ _
      rw [counted, frame, if_pos rfl, unmapped]
    · intro e u x member low _ maps maps'
      rw [after] at maps
      cases maps
      exact absurd pinned (rep.entries.frame member low maps').2
  · refine rep.exact.congr ?_
    intro x
    by_cases here : x = q
    · subst here
      rw [uses_pinned pinned, uses_unpinned (fun other => ((pins_iff x).mp other).1 rfl)]
      change frames g.dirs (setWord s.mem ⟨t, ptx v⟩ w) x = _
      rw [counted, if_pos rfl]
    · refine uses_eq ?_ ?_
      · change frames g.dirs (setWord s.mem ⟨t, ptx v⟩ w) x = _
        rw [counted, if_neg (Ne.symm here), Nat.add_zero]
      · exact (pins_iff x).trans (and_iff_right here)
  · apply setWord_of_ne
    rintro rfl
    exact (rep.layout.held_apart held).2 d inside _ table
  · intro e u member low mapped
    exact setWord_of_ne (rep.frame_ne_table inside table member low mapped)

theorem Rep.mapHeld (rep : Rep g s) {page : Page} (held : g.held q = some page)
    (inside : d ∈ g.dirs) (user : v < NUPAGE) (table : tablePage s.mem d (pdx v) = some t)
    (thawed : g.frozen ⟨t, ptx v⟩ = none) (empty : pteOf s.mem d v = 0#32)
    (present : has w PTE_P = true) (frame : ppn w = q) :
    Rep ((g.drop q).setSpace d v (some (has w PTE_U, page)))
      { s with mem := setWord s.mem ⟨t, ptx v⟩ w } := by
  have mapped := rep.mapped held inside user table thawed (by rw [empty]; decide) present frame
  have rewrites := mapped.rewrites
  refine ⟨mapped.layout.setSpace, ?_, mapped.exact, rep.numFree, ?_, ?_, rep.procs, rep.base⟩
  · exact mapped.entries.repin rfl (fun positive => mapped.entries.mapped positive)
  · refine rep.slots.keep rfl rfl rfl rfl rfl rfl rfl (fun member i => rewrites.table member i) ?_
    intro e u member low
    by_cases here : e = d ∧ u = v
    · obtain ⟨rfl, rfl⟩ := here
      refine (congrArg blockOf rewrites.here).trans ?_
      rw [empty, blockOf_present present, blockOf_zero]
    · exact congrArg blockOf (rewrites.others member (user_lt low) here)
  · refine rep.space_rewrite rewrites ?_ (fun member low _ => mapped.frame member low) ?_
    · rw [pageAt_present present, frame]
      refine congrArg (fun bytes => some (has w PTE_U, bytes)) (mapped.page.trans ?_)
      exact rep.layout.held_bytes held
    · intro e u _ _ _ _
      exact ⟨rfl, rfl⟩

/-- copyuvm_cow's mapping of a page that is mapped elsewhere, writable nowhere. -/
theorem Rep.mapShared (rep : Rep g s) (shared : 0 < frames g.dirs s.mem q)
    (readonly : ∀ {e u}, e ∈ g.dirs → u < NUPAGE → frameOf (pteOf s.mem e u) = some q →
      has (pteOf s.mem e u) PTE_W = false ∧ u = v)
    (inside : d ∈ g.dirs) (user : v < NUPAGE) (table : tablePage s.mem d (pdx v) = some t)
    (thawed : g.frozen ⟨t, ptx v⟩ = none) (empty : pteOf s.mem d v = 0#32)
    (present : has w PTE_P = true) (plain : has w PTE_W = false) (frame : ppn w = q) :
    Rep (g.setSpace d v (some (has w PTE_U, s.mem q)))
      { s with
        mem := setWord s.mem ⟨t, ptx v⟩ w
        pageToRefcnt := Function.update s.pageToRefcnt q (s.pageToRefcnt q + 1) } := by
  obtain ⟨pooled, free⟩ := rep.entries.mapped shared
  have rewrites : Rewrites g s.mem (setWord s.mem ⟨t, ptx v⟩ w) d v w :=
    rep.layout.rewrites (Keeps.refl g s.mem) inside (user_lt user) table w
  have before : frameOf (pteOf s.mem d v) = none := by rw [empty]; exact frameOf_zero
  have after : frameOf w = some q := by rw [frameOf_present present, frame]
  have counted := rewrites.frames_added inside user before after
  have pins_iff : ∀ x, x ∈ pins (g.setSpace d v (some (has w PTE_U, s.mem q)))
      (setWord s.mem ⟨t, ptx v⟩ w) ↔ x ∈ pins g s.mem := by
    intro x
    change x ∈ pins g _ ↔ _
    rw [rewrites.pins_eq]
  refine ⟨(rep.layout.entry inside table thawed w).setSpace, ?_, ?_, rep.numFree, ?_, ?_,
    rep.procs, rep.base⟩
  · refine rep.entries.rewrite rewrites inside user rfl ?_ ?_ ?_ ?_
    · intro absent
      rw [present] at absent
      cases absent
    · intro x positive
      rw [counted] at positive
      rw [pins_iff]
      by_cases here : q = x
      · subst here
        exact ⟨pooled, free⟩
      · rw [if_neg here] at positive
        exact rep.entries.mapped positive
    · intro _ writable
      rw [plain] at writable
      cases writable
    · intro e u x member low _ maps maps'
      rw [after] at maps
      cases maps
      exact readonly member low maps'
  · refine rep.exact.share ?_ ?_ ?_
    · rw [uses_unpinned free]
      exact shared
    · rw [uses_unpinned free, uses_unpinned (fun other => free ((pins_iff q).mp other))]
      change frames g.dirs (setWord s.mem ⟨t, ptx v⟩ w) q = _
      rw [counted, if_pos rfl]
    · intro x other
      refine uses_eq ?_ (pins_iff x)
      change frames g.dirs (setWord s.mem ⟨t, ptx v⟩ w) x = _
      rw [counted, if_neg (Ne.symm other), Nat.add_zero]
  · refine rep.slots.keep rfl rfl rfl rfl rfl rfl rfl (fun member i => rewrites.table member i) ?_
    intro e u member low
    by_cases here : e = d ∧ u = v
    · obtain ⟨rfl, rfl⟩ := here
      change blockOf (pteOf (setWord s.mem ⟨t, ptx u⟩ w) e u) = _
      rw [rewrites.here, empty, blockOf_present present, blockOf_zero]
    · exact congrArg blockOf (rewrites.others member (user_lt low) here)
  · refine rep.space_rewrite rewrites ?_ ?_ ?_
    · rw [pageAt_present present, frame]
      change some (_, setWord s.mem ⟨t, ptx v⟩ w q) = _
      rw [setWord_of_ne]
      rintro rfl
      exact free (Or.inr (Or.inl ⟨d, inside, _, table⟩))
    · intro e u member low _ mapped
      exact setWord_of_ne (rep.frame_ne_table inside table member low mapped)
    · intro e u _ _ _ _
      exact ⟨rfl, rfl⟩

theorem Rep.reflag (rep : Rep g s) (inside : d ∈ g.dirs) (user : v < NUPAGE)
    (table : tablePage s.mem d (pdx v) = some t)
    (stable : ∀ x, g.frozen ⟨t, ptx v⟩ = some x → SameEntry (pteOf s.mem d v) w)
    (mapped : has (pteOf s.mem d v) PTE_P = true) (present : has w PTE_P = true)
    (frame : ppn w = ppn (pteOf s.mem d v))
    (alone : has w PTE_W = true → frames g.dirs s.mem (ppn w) = 1) :
    Rep (g.setSpace d v (some (has w PTE_U, s.mem (ppn w))))
      { s with mem := setWord s.mem ⟨t, ptx v⟩ w } := by
  have rewrites : Rewrites g s.mem (setWord s.mem ⟨t, ptx v⟩ w) d v w :=
    rep.layout.rewrites (Keeps.refl g s.mem) inside (user_lt user) table w
  have same : frameOf w = frameOf (pteOf s.mem d v) := by
    rw [frameOf_present present, frameOf_present mapped, frame]
  have counted : ∀ x, frames g.dirs (setWord s.mem ⟨t, ptx v⟩ w) x = frames g.dirs s.mem x := by
    intro x
    have moved := rewrites.frames_eq inside user x
    rw [same] at moved
    omega
  have pins_iff : ∀ x, x ∈ pins (g.setSpace d v (some (has w PTE_U, s.mem (ppn w))))
      (setWord s.mem ⟨t, ptx v⟩ w) ↔ x ∈ pins g s.mem := by
    intro x
    change x ∈ pins g _ ↔ _
    rw [rewrites.pins_eq]
  refine ⟨(rep.layout.mark inside table (by rw [← pteOf_of_table table]; exact stable)).setSpace,
    ?_, ?_, rep.numFree, ?_, ?_,
    rep.procs, rep.base⟩
  · refine rep.entries.rewrite rewrites inside user rfl ?_ ?_ ?_ ?_
    · intro absent
      rw [present] at absent
      cases absent
    · intro x positive
      rw [counted] at positive
      rw [pins_iff]
      exact rep.entries.mapped positive
    · intro _ writable
      rw [counted]
      exact alone writable
    · intro e u x member low different maps maps'
      rw [same] at maps
      refine ⟨?_, rep.entries.place inside member user low maps maps'⟩
      -- a writable entry elsewhere would be the page's only one
      by_contra writable
      rw [Bool.not_eq_false] at writable
      obtain ⟨rfl, rfl⟩ := rep.entries.alone member low maps' writable inside user maps
      exact different ⟨rfl, rfl⟩
  · exact rep.exact.congr (fun x => uses_eq (counted x) (pins_iff x))
  · refine rep.slots.keep rfl rfl rfl rfl rfl rfl rfl (fun member i => rewrites.table member i) ?_
    intro e u member low
    by_cases here : e = d ∧ u = v
    · obtain ⟨rfl, rfl⟩ := here
      change blockOf (pteOf (setWord s.mem ⟨t, ptx u⟩ w) e u) = _
      rw [rewrites.here, blockOf_present present, blockOf_present mapped]
    · exact congrArg blockOf (rewrites.others member (user_lt low) here)
  · refine rep.space_rewrite rewrites ?_ ?_ ?_
    · rw [pageAt_present present]
      change some (_, setWord s.mem ⟨t, ptx v⟩ w (ppn w)) = _
      rw [setWord_of_ne]
      rw [frame]
      exact rep.frame_ne_table inside table inside user mapped
    · intro e u member low _ mapped'
      exact setWord_of_ne (rep.frame_ne_table inside table member low mapped')
    · intro e u _ _ _ _
      exact ⟨rfl, rfl⟩

/-! ## Taking a page away from an entry -/

theorem kfreed_disk (s : Kernel) (q : Nat) : (kfreed s q).disk = s.disk := by
  unfold kfreed
  split <;> rfl

theorem kfreed_ptable (s : Kernel) (q : Nat) : (kfreed s q).ptable = s.ptable := by
  unfold kfreed
  split <;> rfl

theorem kfreed_log (s : Kernel) (q : Nat) : (kfreed s q).log = s.log := by
  unfold kfreed
  split <;> rfl

theorem kfreed_mem_of_ne (s : Kernel) {x : Nat} (other : x ≠ q) :
    (kfreed s q).mem x = s.mem x := by
  unfold kfreed
  split
  · rfl
  · exact update_of_ne other _ _

/-- What is common to unmapping and evicting the page behind an entry: kfree is
called on it and the entry gets a value without PTE_P. -/
structure Dropped (g : Ghost) (s : Kernel) (d v t : Nat) (w : Word) (n : Nat → Page) : Prop where
  mem : n = setWord (kfreed s (ppn (pteOf s.mem d v))).mem ⟨t, ptx v⟩ w
  rewrites : Rewrites g s.mem n d v w
  layout : Layout g n
  entries : Entries g n
  exact : Exact g.pool (uses g n) (kfreed s (ppn (pteOf s.mem d v))).pageToRefcnt
    (kfreed s (ppn (pteOf s.mem d v))).freelist
  numFree : (kfreed s (ppn (pteOf s.mem d v))).numFreePages =
    (kfreed s (ppn (pteOf s.mem d v))).freelist.length
  /-- The other entries keep their pages. -/
  frame : ∀ {e u}, e ∈ g.dirs → u < NUPAGE → ¬ (e = d ∧ u = v) →
    has (pteOf s.mem e u) PTE_P = true → n (ppn (pteOf s.mem e u)) = s.mem (ppn (pteOf s.mem e u))

theorem Rep.kfreed_frame (rep : Rep g s) (inside : d ∈ g.dirs) (user : v < NUPAGE)
    (mapped : has (pteOf s.mem d v) PTE_P = true) :
    s.pageToRefcnt (ppn (pteOf s.mem d v)) = frames g.dirs s.mem (ppn (pteOf s.mem d v)) := by
  have maps := frameOf_present mapped
  obtain ⟨pooled, free⟩ := rep.entries.frame inside user maps
  have positive : 0 < frames g.dirs s.mem (ppn (pteOf s.mem d v)) := frames_pos inside user maps
  have counted := rep.exact.counted _ pooled (by rw [uses_unpinned free]; exact positive)
  rw [uses_unpinned free] at counted
  exact counted

theorem Rep.dropped (rep : Rep g s) (inside : d ∈ g.dirs) (user : v < NUPAGE)
    (table : tablePage s.mem d (pdx v) = some t) (thawed : g.frozen ⟨t, ptx v⟩ = none)
    (mapped : has (pteOf s.mem d v) PTE_P = true) (absent : has w PTE_P = false)
    (shape : isSwapped w = false → w = 0#32) :
    Dropped g s d v t w (setWord (kfreed s (ppn (pteOf s.mem d v))).mem ⟨t, ptx v⟩ w) := by
  have maps := frameOf_present mapped
  obtain ⟨pooled, free⟩ := rep.entries.frame inside user maps
  have refcnt := rep.kfreed_frame inside user mapped
  have positive : 0 < frames g.dirs s.mem (ppn (pteOf s.mem d v)) := frames_pos inside user maps
  generalize frame : ppn (pteOf s.mem d v) = q at *
  have keeps : Keeps g s.mem (kfreed s q).mem := by
    unfold kfreed
    split
    · exact Keeps.refl g s.mem
    · exact Keeps.unpinned s.mem _ free
  have rewrites := rep.layout.rewrites keeps inside (user_lt user) table w
  have gone : frameOf w = none := by rw [frameOf, if_neg (by rw [absent]; exact Bool.false_ne_true)]
  have counted : ∀ x, frames g.dirs (setWord (kfreed s q).mem ⟨t, ptx v⟩ w) x +
      (if q = x then 1 else 0) = frames g.dirs s.mem x := by
    intro x
    have moved := rewrites.frames_eq inside user x
    rw [maps, gone] at moved
    simpa only [reduceCtorEq, ↓reduceIte, Nat.add_zero, Option.some.injEq] using moved
  have pins_same := rewrites.pins_eq
  have layout : Layout g (kfreed s q).mem := by
    unfold kfreed
    split
    · exact rep.layout
    · exact rep.layout.page free _
  have fewer : uses g (setWord (kfreed s q).mem ⟨t, ptx v⟩ w) q = frames g.dirs s.mem q - 1 := by
    rw [uses_unpinned (by rw [pins_same]; exact free)]
    have here := counted q
    rw [if_pos rfl] at here
    omega
  have others : ∀ x, x ≠ q →
      uses g (setWord (kfreed s q).mem ⟨t, ptx v⟩ w) x = uses g s.mem x := by
    intro x other
    refine uses_eq ?_ (by rw [pins_same])
    have here := counted x
    rwa [if_neg (Ne.symm other)] at here
  refine ⟨by rw [frame], rewrites, ?_, ?_, ?_, ?_, ?_⟩
  · exact layout.entry inside (by rw [keeps.table inside, table]) thawed w
  · refine rep.entries.rewrite rewrites inside user rfl (fun _ => shape) ?_ ?_ ?_
    · intro x more
      rw [pins_same]
      exact rep.entries.mapped (by have := counted x; omega)
    · intro present
      rw [absent] at present
      cases present
    · intro e u x _ _ _ maps'
      rw [gone] at maps'
      cases maps'
  · rw [frame]
    by_cases several : 1 < s.pageToRefcnt q
    · simp only [kfreed, several, ↓reduceIte] at fewer others ⊢
      refine rep.exact.drop ?_ ?_ others
      · rw [uses_unpinned free]
        omega
      · rw [uses_unpinned free]
        exact fewer
    · simp only [kfreed, several, ↓reduceIte] at fewer others ⊢
      refine rep.exact.last pooled ?_ ?_ others
      · rw [uses_unpinned free]
        omega
      · rw [fewer]
        omega
  · rw [frame]
    unfold kfreed
    split
    · exact rep.numFree
    · change s.numFreePages + 1 = (q :: s.freelist).length
      rw [rep.numFree, List.length_cons]
  · intro e u member low different present
    rw [setWord_of_ne (rep.frame_ne_table inside table member low present)]
    by_cases shared : ppn (pteOf s.mem e u) = q
    · -- the page has another entry, so kfree only lowered its count
      have two : 1 < s.pageToRefcnt q := by
        by_contra few
        have maps' : frameOf (pteOf s.mem e u) = some q := by
          rw [frameOf_present present, shared]
        have once : count (sites g.dirs) (fun x => frameOf (pteOf s.mem x.1 x.2)) q ≤ 1 := by
          change frames g.dirs s.mem q ≤ 1
          omega
        have same := RefCount.count_unique once (mem_sites.mpr ⟨member, low⟩)
          (mem_sites.mpr ⟨inside, user⟩) maps' maps
        cases same
        exact different ⟨rfl, rfl⟩
      rw [kfreed, if_pos two]
    · exact kfreed_mem_of_ne s shared

theorem Rep.unmap (rep : Rep g s) (inside : d ∈ g.dirs) (user : v < NUPAGE)
    (table : tablePage s.mem d (pdx v) = some t) (thawed : g.frozen ⟨t, ptx v⟩ = none)
    (mapped : has (pteOf s.mem d v) PTE_P = true) :
    Rep (g.setSpace d v none)
      { kfreed s (ppn (pteOf s.mem d v)) with
        mem := setWord (kfreed s (ppn (pteOf s.mem d v))).mem ⟨t, ptx v⟩ 0#32 } := by
  have dropped := rep.dropped (w := 0#32) inside user table thawed mapped (by decide) (fun _ => rfl)
  have rewrites := dropped.rewrites
  refine ⟨dropped.layout.setSpace, ?_, dropped.exact, dropped.numFree, ?_, ?_, ?_, ?_⟩
  · exact dropped.entries.repin rfl (fun positive => dropped.entries.mapped positive)
  · refine rep.slots.keep rfl rfl rfl rfl (kfreed_swapSlots s _) (kfreed_disk s _) (kfreed_log s _)
      (fun member i => rewrites.table member i) ?_
    intro e u member low
    by_cases here : e = d ∧ u = v
    · obtain ⟨rfl, rfl⟩ := here
      refine (congrArg blockOf rewrites.here).trans ?_
      rw [blockOf_present mapped, blockOf_zero]
    · exact congrArg blockOf (rewrites.others member (user_lt low) here)
  · refine rep.space_rewrite rewrites (pageAt_zero _) ?_ ?_
    · exact dropped.frame
    · intro e u _ _ _ _
      refine ⟨?_, ?_⟩
      · rw [kfreed_swapSlots]
      · rw [kfreed_disk]
  · change ∀ p, ((kfreed s _).ptable p).live = true → _
    rw [kfreed_ptable]
    exact rep.procs
  · change g.base <:+ (kfreed s _).log
    rw [kfreed_log]
    exact rep.base

end Xv6Cow
