import Xv6Cow.SlotPrimitives

/- The primitive changes to directories: linking a page table, filling in the
kernel's half, taking a directory into use and out of it again. Then the changes
that do not touch memory management at all. -/
namespace Xv6Cow

open Function (update_self update_of_ne)

variable {g : Ghost} {s : Kernel} {d v t q : Nat} {w : Word}

theorem Rep.kernelEntry (rep : Rep g s) (inside : d ∈ g.dirs) (high : NUPAGE ≤ v)
    (small : v < NVPAGE) (table : tablePage s.mem d (pdx v) = some t)
    (thawed : g.frozen ⟨t, ptx v⟩ = none)
    (plain : isSwapped w = false ∧ has w PTE_U = false) :
    Rep g { s with mem := setWord s.mem ⟨t, ptx v⟩ w } := by
  have rewrites : Rewrites g s.mem (setWord s.mem ⟨t, ptx v⟩ w) d v w :=
    rep.layout.rewrites (Keeps.refl g s.mem) inside small table w
  have same : ∀ {e u}, e ∈ g.dirs → u < NUPAGE →
      pteOf (setWord s.mem ⟨t, ptx v⟩ w) e u = pteOf s.mem e u := by
    intro e u member low
    refine rewrites.others member (user_lt low) ?_
    rintro ⟨-, rfl⟩
    omega
  have counted : ∀ x, frames g.dirs (setWord s.mem ⟨t, ptx v⟩ w) x = frames g.dirs s.mem x := by
    intro x
    apply RefCount.count_congr
    rintro ⟨e, u⟩ site
    rw [same (mem_sites.mp site).1 (mem_sites.mp site).2]
  refine ⟨rep.layout.entry inside table thawed w, ?_, ?_, rep.numFree, ?_, ?_, rep.procs,
    rep.base⟩
  · refine ⟨?_, ?_, ?_, ?_, ?_⟩
    · intro e u member low
      rw [same member low]
      exact rep.entries.shape member low
    · intro e u x member low
      rw [same member low, rewrites.pins_eq]
      exact rep.entries.frame member low
    · intro e u member low
      rw [same member low, counted]
      exact rep.entries.exclusive member low
    · intro e u member upper bound
      by_cases here : e = d ∧ u = v
      · obtain ⟨rfl, rfl⟩ := here
        rw [rewrites.here]
        exact plain
      · rw [rewrites.others member bound here]
        exact rep.entries.kernel member upper bound
    · intro e e' u u' x member member' low low'
      rw [same member low, same member' low']
      exact rep.entries.place member member' low low'
  · exact rep.exact.congr (fun x => uses_eq (counted x) (by rw [rewrites.pins_eq]))
  · refine rep.slots.keep rfl rfl rfl rfl rfl rfl rfl (fun member i => rewrites.table member i) ?_
    intro e u member low
    exact congrArg blockOf (same member low)
  · intro e u member low
    refine Eq.trans ?_ (rep.space member low)
    refine spaceOf_congr (same member low) ?_ (fun _ => ⟨rfl, rfl⟩)
    intro mapped
    exact setWord_of_ne (rep.frame_ne_table inside table member low mapped)

/-! ## Linking a page table -/

theorem tablePage_zeroPage {m : Nat → Page} (zero : m d = zeroPage) (i : Fin 1024) :
    tablePage m d i = none := by
  rw [tablePage, zero]
  exact if_neg (show ¬ has 0#32 PTE_P = true by decide)

theorem pteOf_zeroPage {m : Nat → Page} (zero : m d = zeroPage) : pteOf m d v = 0#32 :=
  pteOf_of_none (tablePage_zeroPage zero (pdx v))

/-- Page `t` has become the page table behind entry `i` of `d`, and no entry of
any directory is different for it. -/
structure Linked (g : Ghost) (m n : Nat → Page) (d t : Nat) (i : Fin 1024) : Prop where
  here : tablePage n d i = some t
  tables : ∀ {e : Nat} {j : Fin 1024}, e ∈ g.dirs → ¬ (e = d ∧ j = i) →
    tablePage n e j = tablePage m e j
  entries : ∀ {e u : Nat}, e ∈ g.dirs → pteOf n e u = pteOf m e u
  page : ∀ {x : Nat}, x ≠ d → n x = m x

theorem Rep.linked (rep : Rep g s) (held : g.held t = some zeroPage) (inside : d ∈ g.dirs)
    {i : Fin 1024} (absent : tablePage s.mem d i = none) (present : has w PTE_P = true)
    (frame : ppn w = t) : Linked g s.mem (setWord s.mem ⟨d, i⟩ w) d t i := by
  have zero : s.mem t = zeroPage := rep.layout.held_bytes held
  have other : t ≠ d := by
    rintro rfl
    exact (rep.layout.held_apart held).1 inside
  have page : ∀ {x}, x ≠ d → setWord s.mem ⟨d, i⟩ w x = s.mem x := fun apart => setWord_of_ne apart
  have here : tablePage (setWord s.mem ⟨d, i⟩ w) d i = some t := by
    rw [tablePage_eq_some, setWord_self s.mem ⟨d, i⟩ w]
    exact ⟨present, frame⟩
  have tables : ∀ {e j}, e ∈ g.dirs → ¬ (e = d ∧ j = i) →
      tablePage (setWord s.mem ⟨d, i⟩ w) e j = tablePage s.mem e j := by
    intro e j member different
    unfold tablePage
    rw [setWord_eq_of_ne]
    rintro rfl rfl
    exact different ⟨rfl, rfl⟩
  refine ⟨here, tables, ?_, page⟩
  intro e u member
  by_cases same : e = d ∧ pdx u = i
  · obtain ⟨rfl, rfl⟩ := same
    rw [pteOf_of_table here, page other, zero, pteOf_of_none absent]
    rfl
  · unfold pteOf
    rw [tables member same]
    cases table : tablePage s.mem e (pdx u) with
    | none => rfl
    | some x =>
      simp only
      rw [page]
      rintro rfl
      exact rep.layout.table_not_dir member table inside

theorem Rep.link (rep : Rep g s) (held : g.held t = some zeroPage) (inside : d ∈ g.dirs)
    {i : Fin 1024} (absent : tablePage s.mem d i = none) (present : has w PTE_P = true)
    (frame : ppn w = t) :
    Rep (g.drop t) { s with mem := setWord s.mem ⟨d, i⟩ w } := by
  obtain ⟨notDir, notTable⟩ := rep.layout.held_apart held
  have pinned : t ∈ pins g s.mem := held_mem_pins held
  obtain ⟨here, tables, entries, page⟩ := rep.linked held inside absent present frame
  have split : ∀ {e j x}, e ∈ g.dirs → tablePage (setWord s.mem ⟨d, i⟩ w) e j = some x →
      (e = d ∧ j = i ∧ x = t) ∨ tablePage s.mem e j = some x := by
    intro e j x member table
    by_cases same : e = d ∧ j = i
    · obtain ⟨rfl, rfl⟩ := same
      rw [here] at table
      cases table
      exact Or.inl ⟨rfl, rfl, rfl⟩
    · rw [tables member same] at table
      exact Or.inr table
  have pins_iff : ∀ x, x ∈ pins (g.drop t) (setWord s.mem ⟨d, i⟩ w) ↔ x ∈ pins g s.mem := by
    intro x
    by_cases same : x = t
    · subst same
      exact iff_of_true (Or.inr (Or.inl ⟨d, inside, i, here⟩)) pinned
    · simp only [pins, Ghost.drop, Set.mem_ofPred_eq, update_of_ne same]
      constructor
      · rintro (member | ⟨e, member, j, table⟩ | kept)
        · exact Or.inl member
        · rcases split member table with ⟨-, -, rfl⟩ | table
          · exact absurd rfl same
          · exact Or.inr (Or.inl ⟨e, member, j, table⟩)
        · exact Or.inr (Or.inr kept)
      · rintro (member | ⟨e, member, j, table⟩ | kept)
        · exact Or.inl member
        · refine Or.inr (Or.inl ⟨e, member, j, ?_⟩)
          rw [tables member, table]
          rintro ⟨rfl, rfl⟩
          rw [absent] at table
          cases table
        · exact Or.inr (Or.inr kept)
  have counted : ∀ x, frames g.dirs (setWord s.mem ⟨d, i⟩ w) x = frames g.dirs s.mem x := by
    intro x
    apply RefCount.count_congr
    rintro ⟨e, u⟩ site
    rw [entries (mem_sites.mp site).1]
  refine ⟨?_, ?_, ?_, rep.numFree, ?_, ?_, rep.procs, rep.base⟩
  · have layout := rep.layout.drop held
    refine ⟨layout.pool_bounds, ?_, ?_, ?_, ?_, layout.dir_not_held, ?_, ?_⟩
    · intro x member
      exact rep.layout.pins_pool x ((pins_iff x).mp member)
    · intro e e' x j j' member member' left right
      rcases split member left with ⟨rfl, rfl, rfl⟩ | before
      · rcases split member' right with ⟨rfl, rfl, -⟩ | before'
        · exact ⟨rfl, rfl⟩
        · exact absurd before' (notTable e' member' j')
      · rcases split member' right with ⟨rfl, rfl, rfl⟩ | before'
        · exact absurd before (notTable e member j)
        · exact layout.table_unique member member' before before'
    · intro e x j member table
      rcases split member table with ⟨-, -, rfl⟩ | table
      · exact notDir
      · exact layout.table_not_dir member table
    · intro e x j member table
      rcases split member table with ⟨-, -, rfl⟩ | table
      · simp only [Ghost.drop, update_self]
      · exact layout.table_not_held member table
    · intro x bytes kept
      refine (page ?_).trans (layout.held_bytes kept)
      rintro rfl
      rw [layout.dir_not_held inside] at kept
      cases kept
    · intro ptr e u word frozen
      obtain ⟨member, table, value, flags⟩ := layout.frozen frozen
      refine ⟨member, ?_, ?_, flags⟩
      · refine (tables member ?_).trans table
        rintro ⟨rfl, same⟩
        rw [same, absent] at table
        cases table
      · have same := congrFun (page (x := ptr.page) ?_) ptr.index
        · dsimp only
          rw [same]
          exact value
        · rintro rfl
          exact layout.table_not_dir member table inside
  · refine ⟨?_, ?_, ?_, ?_, ?_⟩
    · intro e u member low
      rw [entries member]
      exact rep.entries.shape member low
    · intro e u x member low maps
      rw [entries member] at maps
      obtain ⟨pooled, free⟩ := rep.entries.frame member low maps
      exact ⟨pooled, fun more => free ((pins_iff x).mp more)⟩
    · intro e u member low
      rw [entries member]
      change _ → _ → frames g.dirs _ _ = 1
      rw [counted]
      exact rep.entries.exclusive member low
    · intro e u member upper bound
      rw [entries member]
      exact rep.entries.kernel member upper bound
    · intro e e' u u' x member member' low low'
      rw [entries member, entries member']
      exact rep.entries.place member member' low low'
  · exact rep.exact.congr (fun x => uses_eq (counted x) (pins_iff x))
  · refine rep.slots.relink rfl rfl rfl rfl rfl rfl rfl ?_ ?_
    · intro e j x member table
      refine (tables member ?_).trans table
      rintro ⟨rfl, rfl⟩
      rw [absent] at table
      cases table
    · intro e u member low
      exact congrArg blockOf (entries member)
  · intro e u member low
    refine Eq.trans ?_ (rep.space member low)
    refine spaceOf_congr (entries member) ?_ (fun _ => ⟨rfl, rfl⟩)
    intro mapped
    refine page ?_
    intro same
    exact (rep.entries.frame member low (frameOf_present mapped)).2 (Or.inl (same ▸ inside))

/-! ## Directories that come and go -/

section Subset

variable {small large : Finset Nat} {m : Nat → Page} (included : small ⊆ large)
  (idle : ∀ {d v}, d ∈ large → d ∉ small → v < NUPAGE → pteOf m d v = 0#32) (x : Nat)
include included idle

theorem count_subset {target : Word → Option Nat} (zero : target 0#32 = none) :
    RefCount.count (sites large) (fun y => target (pteOf m y.1 y.2)) x =
      RefCount.count (sites small) (fun y => target (pteOf m y.1 y.2)) x := by
  apply RefCount.count_mono
  · rintro ⟨d, v⟩ member
    obtain ⟨inside, user⟩ := mem_sites.mp member
    exact mem_sites.mpr ⟨included inside, user⟩
  · rintro ⟨d, v⟩ member outside
    obtain ⟨inside, user⟩ := mem_sites.mp member
    rw [idle inside (fun within => outside (mem_sites.mpr ⟨within, user⟩)) user, zero]
    exact (Option.some_ne_none x).symm

theorem frames_subset : frames large m x = frames small m x :=
  count_subset included idle x frameOf_zero

theorem owners_subset : owners large m x = owners small m x :=
  count_subset included idle x blockOf_zero

end Subset

theorem Rep.adopt (rep : Rep g s) (held : g.held d = some zeroPage) :
    Rep ((g.drop d).addDir d) s := by
  obtain ⟨notDir, notTable⟩ := rep.layout.held_apart held
  have zero : s.mem d = zeroPage := rep.layout.held_bytes held
  have empty : ∀ {v}, pteOf s.mem d v = 0#32 := pteOf_zeroPage zero
  have old : ∀ {e}, e ∈ insert d g.dirs → e ≠ d → e ∈ g.dirs := fun member other =>
    (Finset.mem_insert.mp member).resolve_left other
  have tables : ∀ {e i t}, e ∈ insert d g.dirs → tablePage s.mem e i = some t → e ∈ g.dirs := by
    intro e i t member table
    refine old member ?_
    rintro rfl
    rw [tablePage_zeroPage zero] at table
    cases table
  have nonzero : ∀ {e u}, e ∈ insert d g.dirs → pteOf s.mem e u ≠ 0#32 → e ∈ g.dirs := by
    intro e u member present
    refine old member ?_
    rintro rfl
    exact present empty
  have idle : ∀ {e u}, e ∈ insert d g.dirs → e ∉ g.dirs → u < NUPAGE → pteOf s.mem e u = 0#32 := by
    intro e u member outside _
    obtain rfl := (Finset.mem_insert.mp member).resolve_right outside
    exact empty
  have counted := frames_subset (Finset.subset_insert d g.dirs) idle
  have owned := owners_subset (Finset.subset_insert d g.dirs) idle
  have pins_iff : ∀ x, x ∈ pins ((g.drop d).addDir d) s.mem ↔ x ∈ pins g s.mem := by
    intro x
    by_cases same : x = d
    · subst same
      exact iff_of_true (Or.inl (Finset.mem_insert_self x g.dirs)) (held_mem_pins held)
    · simp only [pins, Ghost.addDir, Ghost.drop, Set.mem_ofPred_eq, update_of_ne same,
        Finset.mem_insert, same, false_or]
      constructor
      · rintro (member | ⟨e, member, i, table⟩ | kept)
        · exact Or.inl member
        · exact Or.inr (Or.inl ⟨e, tables (Finset.mem_insert.mpr member) table, i, table⟩)
        · exact Or.inr (Or.inr kept)
      · rintro (member | ⟨e, member, i, table⟩ | kept)
        · exact Or.inl member
        · exact Or.inr (Or.inl ⟨e, Or.inr member, i, table⟩)
        · exact Or.inr (Or.inr kept)
  have layout := rep.layout.drop held
  refine ⟨?_, ?_, ?_, rep.numFree, ?_, ?_, ?_, rep.base⟩
  · refine ⟨layout.pool_bounds, ?_, ?_, ?_, ?_, ?_, layout.held_bytes, ?_⟩
    · intro x member
      exact rep.layout.pins_pool x ((pins_iff x).mp member)
    · intro e e' t i j member member' left right
      exact layout.table_unique (tables member left) (tables member' right) left right
    · intro e t i member table more
      rcases Finset.mem_insert.mp more with rfl | more
      · exact notTable e (tables member table) i table
      · exact layout.table_not_dir (tables member table) table more
    · intro e t i member table
      exact layout.table_not_held (tables member table) table
    · intro e member
      by_cases same : e = d
      · subst same
        simp only [Ghost.addDir, Ghost.drop, update_self]
      · exact layout.dir_not_held (old member same)
    · intro ptr e u word frozen
      obtain ⟨member, rest⟩ := layout.frozen frozen
      exact ⟨Finset.mem_insert_of_mem member, rest⟩
  · refine ⟨?_, ?_, ?_, ?_, ?_⟩
    · intro e u member low absent plain
      by_contra present
      exact present (rep.entries.shape (nonzero member present) low absent plain)
    · intro e u x member low maps
      obtain ⟨present, -⟩ := frameOf_eq_some.mp maps
      obtain ⟨pooled, free⟩ :=
        rep.entries.frame (nonzero member (ne_zero_of_present present)) low maps
      exact ⟨pooled, fun more => free ((pins_iff x).mp more)⟩
    · intro e u member low present writable
      refine (counted _).trans ?_
      exact rep.entries.exclusive (nonzero member (ne_zero_of_present present)) low present writable
    · intro e u member upper bound
      by_cases present : pteOf s.mem e u = 0#32
      · rw [present]
        decide
      · exact rep.entries.kernel (nonzero member present) upper bound
    · intro e e' u u' x member member' low low' maps maps'
      have mine := nonzero member (ne_zero_of_present (frameOf_eq_some.mp maps).1)
      have other := nonzero member' (ne_zero_of_present (frameOf_eq_some.mp maps').1)
      exact rep.entries.place mine other low low' maps maps'
  · exact rep.exact.congr (fun x => uses_eq (counted x) (pins_iff x))
  · refine ⟨rep.slots.block, rep.slots.untouched, ?_, ?_, rep.slots.reserved, ?_, ?_⟩
    · intro e u member low swapped
      exact rep.slots.named (nonzero member (ne_zero_of_swapped swapped)) low swapped
    · intro i bound
      refine Eq.trans ?_ (rep.slots.taken bound)
      exact congrArg (· + _) (owned _)
    · intro e u t ev member low swapped
      exact rep.slots.recorded (nonzero member (ne_zero_of_swapped swapped)) low swapped
    · intro e u t member low swapped
      exact rep.slots.dated (nonzero member (ne_zero_of_swapped swapped)) low swapped
  · intro e u member low
    by_cases same : e = d
    · subst same
      simp only [Ghost.addDir, ↓reduceIte]
      rw [spaceOf, empty]
      rfl
    · simp only [Ghost.addDir, same, ↓reduceIte]
      exact rep.space (old member same) low
  · intro p live stays
    obtain ⟨member, size⟩ := rep.procs p live stays
    exact ⟨Finset.mem_insert_of_mem member, size⟩

open Classical in
/-- A directory on its way out: it and its page tables from entry `k` on are held
pages, with the bytes they have in `m`. -/
noncomputable def Ghost.retire (g : Ghost) (d : Nat) (m : Nat → Page) (k : Nat) : Ghost :=
  { g with
    dirs := g.dirs.erase d
    held := fun q =>
      if q = d ∨ ∃ i : Fin 1024, k ≤ i.val ∧ tablePage m d i = some q then some (m q)
      else g.held q }

theorem Rep.retire (rep : Rep g s) (inside : d ∈ g.dirs) (loose : g.Loose d)
    (empty : ∀ {v}, v < NUPAGE → pteOf s.mem d v = 0#32)
    (unused : ∀ p, (s.ptable p).live = true → g.leaving ≠ some p → (s.ptable p).pgdir ≠ d) :
    Rep (g.retire d s.mem 0) s := by
  have held_iff : ∀ x, (g.retire d s.mem 0).held x =
      if x = d ∨ ∃ i, tablePage s.mem d i = some x then some (s.mem x) else g.held x := by
    intro x
    simp only [Ghost.retire, Nat.zero_le, true_and]
  have keep : ∀ {e}, e ∈ g.dirs.erase d → e ≠ d ∧ e ∈ g.dirs := fun member =>
    Finset.mem_erase.mp member
  have idle : ∀ {e u}, e ∈ g.dirs → e ∉ g.dirs.erase d → u < NUPAGE → pteOf s.mem e u = 0#32 := by
    intro e u member outside low
    have same : e = d := by
      by_contra other
      exact outside (Finset.mem_erase.mpr ⟨other, member⟩)
    subst same
    exact empty low
  have counted : ∀ x, frames (g.dirs.erase d) s.mem x = frames g.dirs s.mem x := fun x =>
    (frames_subset (Finset.erase_subset d g.dirs) idle x).symm
  have owned : ∀ x, owners (g.dirs.erase d) s.mem x = owners g.dirs s.mem x := fun x =>
    (owners_subset (Finset.erase_subset d g.dirs) idle x).symm
  have own : ∀ {e i x}, e ∈ g.dirs → e ≠ d → tablePage s.mem e i = some x →
      ¬ (x = d ∨ ∃ j, tablePage s.mem d j = some x) := by
    rintro e i x member other table (rfl | ⟨j, table'⟩)
    · exact rep.layout.table_not_dir member table inside
    · exact other (rep.layout.table_unique member inside table table').1
  have pins_iff : ∀ x, x ∈ pins (g.retire d s.mem 0) s.mem ↔ x ∈ pins g s.mem := by
    intro x
    change (x ∈ g.dirs.erase d ∨ (∃ e ∈ g.dirs.erase d, ∃ i, tablePage s.mem e i = some x) ∨
      (g.retire d s.mem 0).held x ≠ none) ↔ _
    rw [held_iff]
    constructor
    · rintro (member | ⟨e, member, i, table⟩ | kept)
      · exact Or.inl (keep member).2
      · exact Or.inr (Or.inl ⟨e, (keep member).2, i, table⟩)
      · split at kept
        · rename_i gone
          rcases gone with rfl | ⟨i, table⟩
          · exact Or.inl inside
          · exact Or.inr (Or.inl ⟨d, inside, i, table⟩)
        · exact Or.inr (Or.inr kept)
    · intro pinned
      by_cases gone : x = d ∨ ∃ i, tablePage s.mem d i = some x
      · refine Or.inr (Or.inr ?_)
        rw [if_pos gone]
        exact Option.some_ne_none _
      · rw [if_neg gone]
        rcases pinned with member | ⟨e, member, i, table⟩ | kept
        · exact Or.inl (Finset.mem_erase.mpr ⟨fun same => gone (Or.inl same), member⟩)
        · refine Or.inr (Or.inl ⟨e, Finset.mem_erase.mpr ⟨?_, member⟩, i, table⟩)
          rintro rfl
          exact gone (Or.inr ⟨i, table⟩)
        · exact Or.inr (Or.inr kept)
  refine ⟨?_, ?_, ?_, rep.numFree, ?_, ?_, ?_, rep.base⟩
  · refine ⟨rep.layout.pool_bounds, ?_, ?_, ?_, ?_, ?_, ?_, ?_⟩
    · intro x member
      exact rep.layout.pins_pool x ((pins_iff x).mp member)
    · intro e e' t i j member member' left right
      exact rep.layout.table_unique (keep member).2 (keep member').2 left right
    · intro e t i member table more
      exact rep.layout.table_not_dir (keep member).2 table (keep more).2
    · intro e t i member table
      rw [held_iff, if_neg (own (keep member).2 (keep member).1 table)]
      exact rep.layout.table_not_held (keep member).2 table
    · intro e member
      rw [held_iff, if_neg]
      · exact rep.layout.dir_not_held (keep member).2
      · rintro (same | ⟨i, table⟩)
        · exact (keep member).1 same
        · exact rep.layout.table_not_dir inside table (keep member).2
    · intro x page kept
      rw [held_iff] at kept
      split at kept
      · exact Option.some.inj kept
      · exact rep.layout.held_bytes kept
    · intro ptr e u word frozen
      obtain ⟨member, rest⟩ := rep.layout.frozen frozen
      refine ⟨Finset.mem_erase.mpr ⟨?_, member⟩, rest⟩
      rintro rfl
      exact loose ptr (u, word) frozen
  · refine ⟨?_, ?_, ?_, ?_, ?_⟩
    · intro e u member
      exact rep.entries.shape (keep member).2
    · intro e u x member low maps
      obtain ⟨pooled, free⟩ := rep.entries.frame (keep member).2 low maps
      exact ⟨pooled, fun more => free ((pins_iff x).mp more)⟩
    · intro e u member low present writable
      exact (counted _).trans (rep.entries.exclusive (keep member).2 low present writable)
    · intro e u member
      exact rep.entries.kernel (keep member).2
    · intro e e' u u' x member member'
      exact rep.entries.place (keep member).2 (keep member').2
  · exact rep.exact.congr (fun x => uses_eq (counted x) (pins_iff x))
  · refine ⟨rep.slots.block, rep.slots.untouched, ?_, ?_, rep.slots.reserved, ?_, ?_⟩
    · intro e u member
      exact rep.slots.named (keep member).2
    · intro i bound
      refine Eq.trans ?_ (rep.slots.taken bound)
      exact congrArg (· + _) (owned _)
    · intro e u t ev member
      exact rep.slots.recorded (keep member).2
    · intro e u t member
      exact rep.slots.dated (keep member).2
  · intro e u member
    exact rep.space (keep member).2
  · intro p live stays
    obtain ⟨member, size⟩ := rep.procs p live stays
    exact ⟨Finset.mem_erase.mpr ⟨unused p live stays, member⟩, size⟩

theorem Ghost.retire_skip {m : Nat → Page} {i : Fin 1024} (absent : tablePage m d i = none) :
    g.retire d m i.val = g.retire d m (i.val + 1) := by
  unfold Ghost.retire
  congr 1
  funext x
  congr 1
  simp only [eq_iff_iff]
  constructor
  · rintro (same | ⟨j, bound, table⟩)
    · exact Or.inl same
    · refine Or.inr ⟨j, Nat.lt_of_le_of_ne bound ?_, table⟩
      intro same
      rw [← Fin.ext same, absent] at table
      cases table
  · rintro (same | ⟨j, bound, table⟩)
    · exact Or.inl same
    · exact Or.inr ⟨j, by omega, table⟩

section Retire

variable {m : Nat → Page} (layout : Layout g m) (inside : d ∈ g.dirs)
include layout inside

theorem Ghost.retire_drop {i : Fin 1024} (table : tablePage m d i = some t) :
    (g.retire d m i.val).drop t = g.retire d m (i.val + 1) := by
  have other : t ≠ d := by
    rintro rfl
    exact layout.table_not_dir inside table inside
  unfold Ghost.drop Ghost.retire
  congr 1
  funext x
  by_cases here : x = t
  · subst here
    rw [update_self, if_neg]
    · exact (layout.table_not_held inside table).symm
    · rintro (same | ⟨j, bound, table'⟩)
      · exact other same
      · have equal := (layout.table_unique inside inside table table').2
        rw [equal] at bound
        omega
  · rw [update_of_ne here]
    dsimp only
    congr 1
    simp only [eq_iff_iff]
    constructor
    · rintro (same | ⟨j, bound, table'⟩)
      · exact Or.inl same
      · refine Or.inr ⟨j, Nat.lt_of_le_of_ne bound ?_, table'⟩
        intro same
        rw [← Fin.ext same, table] at table'
        exact here (Option.some.inj table').symm
    · rintro (same | ⟨j, bound, table'⟩)
      · exact Or.inl same
      · exact Or.inr ⟨j, by omega, table'⟩

theorem Ghost.retire_done : (g.retire d m 1024).drop d = g.removeDir d := by
  unfold Ghost.drop Ghost.retire Ghost.removeDir
  congr 1
  funext x
  by_cases here : x = d
  · subst here
    rw [update_self]
    exact (layout.dir_not_held inside).symm
  · rw [update_of_ne here]
    dsimp only
    rw [if_neg]
    rintro (same | ⟨j, bound, -⟩)
    · exact here same
    · have := j.isLt
      omega

end Retire

/-! ## Bytes of user pages -/

theorem Rep.store (rep : Rep g s) (inside : d ∈ g.dirs) (user : v < NUPAGE)
    (mapped : has (pteOf s.mem d v) PTE_P = true)
    (alone : frames g.dirs s.mem (ppn (pteOf s.mem d v)) = 1) (page : Page) :
    Rep (g.setSpace d v (some (has (pteOf s.mem d v) PTE_U, page)))
      { s with mem := Function.update s.mem (ppn (pteOf s.mem d v)) page } := by
  have maps := frameOf_present mapped
  obtain ⟨-, free⟩ := rep.entries.frame inside user maps
  have keeps : Keeps g s.mem (Function.update s.mem (ppn (pteOf s.mem d v)) page) :=
    Keeps.unpinned s.mem page free
  have kept := rep.entries.keep keeps
  refine ⟨(rep.layout.page free page).setSpace, ?_, ?_, rep.numFree, ?_, ?_, rep.procs, rep.base⟩
  · exact kept.repin rfl (fun positive => kept.mapped positive)
  · exact rep.exact.congr (fun x => keeps.uses_eq x)
  · refine rep.slots.keep rfl rfl rfl rfl rfl rfl rfl (fun member i => keeps.table member i) ?_
    intro e u member low
    exact congrArg blockOf (keeps.entry member (user_lt low))
  · intro e u member low
    by_cases here : e = d ∧ u = v
    · obtain ⟨rfl, rfl⟩ := here
      simp only [Ghost.setSpace, and_self, ↓reduceIte]
      refine (congrArg (pageAt _) (keeps.entry member (user_lt low))).trans ?_
      rw [pageAt_present mapped]
      exact congrArg (fun bytes => some (has (pteOf s.mem e u) PTE_U, bytes))
        (update_self _ _ _)
    · simp only [Ghost.setSpace, here, ↓reduceIte]
      refine Eq.trans ?_ (rep.space member low)
      refine spaceOf_congr (keeps.entry member (user_lt low)) ?_ (fun _ => ⟨rfl, rfl⟩)
      intro present
      refine update_of_ne ?_ _ _
      intro same
      have maps' : frameOf (pteOf s.mem e u) = some (ppn (pteOf s.mem d v)) := by
        rw [frameOf_present present, same]
      have equal := RefCount.count_unique (le_of_eq alone) (mem_sites.mpr ⟨member, low⟩)
        (mem_sites.mpr ⟨inside, user⟩) maps' maps
      cases equal
      exact here ⟨rfl, rfl⟩

/-! ## Everything else -/

theorem Rep.congr {r : Kernel} (rep : Rep g s) (mem : r.mem = s.mem)
    (refcnt : r.pageToRefcnt = s.pageToRefcnt) (freelist : r.freelist = s.freelist)
    (numFree : r.numFreePages = s.numFreePages) (swapSlots : r.swapSlots = s.swapSlots)
    (disk : r.disk = s.disk) (log : r.log = s.log)
    (procs : ∀ p, (r.ptable p).live = true → g.leaving ≠ some p →
      (r.ptable p).pgdir ∈ g.dirs ∧ (r.ptable p).sz ≤ KERNBASE) : Rep g r := by
  refine ⟨?_, ?_, ?_, ?_, ?_, ?_, procs, ?_⟩
  · rw [mem]
    exact rep.layout
  · rw [mem]
    exact rep.entries
  · rw [mem, refcnt, freelist]
    exact rep.exact
  · rw [numFree, freelist]
    exact rep.numFree
  · refine rep.slots.keep rfl rfl rfl rfl swapSlots disk log ?_ ?_
    · intro d _ i
      rw [mem]
    · intro d v _ _
      rw [mem]
  · intro d v inside user
    rw [← rep.space inside user]
    refine spaceOf_congr (by rw [mem]) (fun _ => by rw [mem]) (fun _ => ?_)
    rw [swapSlots, disk]
    exact ⟨rfl, rfl⟩
  · rw [log]
    exact rep.base

theorem Rep.setProc (rep : Rep g s) {p : Fin NPROC} {proc : Proc}
    (fine : proc.live = true → g.leaving ≠ some p → proc.pgdir ∈ g.dirs ∧ proc.sz ≤ KERNBASE) :
    Rep g (setProc s p proc) := by
  refine rep.congr rfl rfl rfl rfl rfl rfl rfl ?_
  intro q live stays
  simp only [Xv6Cow.setProc] at live ⊢
  by_cases here : q = p
  · subst here
    rw [update_self] at live ⊢
    exact fine live stays
  · rw [update_of_ne here] at live ⊢
    exact rep.procs q live stays

theorem Rep.setRss (rep : Rep g s) (p : Fin NPROC) (rss : Word) :
    Rep g (Xv6Cow.setProc s p { s.ptable p with rss := rss }) :=
  rep.setProc (rep.procs p)

theorem Rep.leave (rep : Rep g s) (stays : g.leaving = none) (p : Fin NPROC) :
    Rep { g with leaving := some p } s := by
  refine ⟨?_, ?_, rep.exact, rep.numFree, ?_, rep.space, ?_, rep.base⟩
  · exact { rep.layout with }
  · exact { rep.entries with }
  · exact { rep.slots with }
  · intro q live _
    exact rep.procs q live (by rw [stays]; exact (Option.some_ne_none q).symm)

theorem Rep.left {p : Fin NPROC} (rep : Rep g s) (leaving : g.leaving = some p)
    (gone : (s.ptable p).live = false) : Rep { g with leaving := none } s := by
  refine ⟨?_, ?_, rep.exact, rep.numFree, ?_, rep.space, ?_, rep.base⟩
  · exact { rep.layout with }
  · exact { rep.entries with }
  · exact { rep.slots with }
  · intro q live _
    refine rep.procs q live ?_
    rw [leaving]
    rintro same
    cases same
    rw [gone] at live
    cases live

theorem Rep.noteRead (rep : Rep g s) (blockno : Nat) :
    Rep g { s with log := .swapRead blockno :: s.log } := by
  refine ⟨rep.layout, rep.entries, rep.exact, rep.numFree, ?_, rep.space, rep.procs, ?_⟩
  · refine ⟨rep.slots.block, rep.slots.untouched, rep.slots.named, rep.slots.taken,
      rep.slots.reserved, ?_, ?_⟩
    · intro d v t e inside user swapped table last
      change lastEviction (since g.base (.swapRead blockno :: s.log)) _ = _ at last
      rw [since_cons rep.base, lastEviction_swapRead] at last
      exact rep.slots.recorded inside user swapped table last
    · intro d v t inside user swapped table young
      change lastEviction (since g.base (.swapRead blockno :: s.log)) _ ≠ _
      rw [since_cons rep.base, lastEviction_swapRead]
      exact rep.slots.dated inside user swapped table young
  · exact rep.base.trans (List.suffix_cons _ _)

theorem Rep.writeElsewhere (rep : Rep g s) {disk : Nat → Block}
    (same : ∀ j < NPAGE,
      diskPage disk (SWAPBASE + j * BPPAGE) = diskPage s.disk (SWAPBASE + j * BPPAGE)) :
    Rep g { s with disk := disk } := by
  have swappedSame : ∀ {d v}, d ∈ g.dirs → v < NUPAGE → isSwapped (pteOf s.mem d v) = true →
      diskPage disk (ppn (pteOf s.mem d v)) = diskPage s.disk (ppn (pteOf s.mem d v)) := by
    intro d v inside user swapped
    obtain ⟨small, named, -⟩ := rep.slots.slot inside user swapped
    rw [named]
    exact same _ small
  refine ⟨rep.layout, rep.entries, rep.exact, rep.numFree, ?_, ?_, rep.procs, rep.base⟩
  · refine ⟨rep.slots.block, rep.slots.untouched, rep.slots.named, rep.slots.taken, ?_, ?_,
      rep.slots.dated⟩
    · intro i perm page here
      obtain ⟨small, stored, content⟩ := rep.slots.reserved here
      exact ⟨small, stored, (same i small).trans content⟩
    · intro d v t e inside user swapped table last
      obtain ⟨flags, named, bytes⟩ := rep.slots.recorded inside user swapped table last
      refine ⟨flags, named, ?_⟩
      rw [bytes, ← named]
      exact (swappedSame inside user swapped).symm
  · intro d v inside user
    refine Eq.trans ?_ (rep.space inside user)
    exact spaceOf_congr rfl (fun _ => rfl) (fun swapped => ⟨rfl, swappedSame inside user swapped⟩)

end Xv6Cow
