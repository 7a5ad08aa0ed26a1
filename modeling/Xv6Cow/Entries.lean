import Xv6Cow.Ghost

/- How the parts of `Rep` answer to a change of memory. Every primitive of the
kernel either leaves all entries of the existing directories as they are
(`Keeps`) or changes one of them (`Rewrites`). -/
namespace Xv6Cow

open RefCount (count refs Exact)

variable {g : Ghost} {m n o : Nat → Page} {d v t q : Nat} {w : Word}

structure Keeps (g : Ghost) (m n : Nat → Page) : Prop where
  dir : ∀ {d : Nat}, d ∈ g.dirs → n d = m d
  entry : ∀ {d v : Nat}, d ∈ g.dirs → v < NVPAGE → pteOf n d v = pteOf m d v

structure Rewrites (g : Ghost) (m n : Nat → Page) (d v : Nat) (w : Word) : Prop where
  dir : ∀ {e : Nat}, e ∈ g.dirs → n e = m e
  here : pteOf n d v = w
  others : ∀ {e u : Nat}, e ∈ g.dirs → u < NVPAGE → ¬ (e = d ∧ u = v) →
    pteOf n e u = pteOf m e u

theorem Keeps.refl (g : Ghost) (m : Nat → Page) : Keeps g m m :=
  ⟨fun _ => rfl, fun _ _ => rfl⟩

theorem user_lt {v : Nat} (user : v < NUPAGE) : v < NVPAGE := by
  rw [NUPAGE_eq] at user
  rw [NVPAGE_eq]
  omega

theorem Keeps.page (m : Nat → Page) (page : Page) (notDir : q ∉ g.dirs)
    (notTable : ∀ d ∈ g.dirs, ∀ i, tablePage m d i ≠ some q) :
    Keeps g m (Function.update m q page) := by
  have dir : ∀ {d}, d ∈ g.dirs → Function.update m q page d = m d := by
    intro d member
    apply Function.update_of_ne
    rintro rfl
    exact notDir member
  refine ⟨dir, ?_⟩
  intro d v member _
  apply pteOf_congr (dir member)
  intro t table
  apply Function.update_of_ne
  rintro rfl
  exact notTable d member _ table

theorem Keeps.table (keeps : Keeps g m n) (member : d ∈ g.dirs) (i : Fin 1024) :
    tablePage n d i = tablePage m d i := tablePage_congr (keeps.dir member) i

theorem Rewrites.table (rewrites : Rewrites g m n d v w) {e : Nat} (member : e ∈ g.dirs)
    (i : Fin 1024) : tablePage n e i = tablePage m e i :=
  tablePage_congr (rewrites.dir member) i

/-- Writing through walkpgdir's pointer changes that entry and no other. -/
theorem Layout.rewrites (layout : Layout g m) (keeps : Keeps g m n) (member : d ∈ g.dirs)
    (small : v < NVPAGE) (table : tablePage m d (pdx v) = some t) (w : Word) :
    Rewrites g m (setWord n ⟨t, ptx v⟩ w) d v w := by
  have dir : ∀ {e}, e ∈ g.dirs → setWord n ⟨t, ptx v⟩ w e = n e := by
    intro e inside
    apply setWord_of_ne
    rintro rfl
    exact layout.table_not_dir member table inside
  refine ⟨?_, ?_, ?_⟩
  · intro e inside
    rw [dir inside, keeps.dir inside]
  · rw [pteOf_of_table (t := t)]
    · exact setWord_self n ⟨t, ptx v⟩ w
    · rw [tablePage_congr (dir member), keeps.table member, table]
  · intro e u inside bound different
    rw [← keeps.entry inside bound]
    unfold pteOf
    rw [tablePage_congr (dir inside), keeps.table inside]
    cases other : tablePage m e (pdx u) with
    | none => rfl
    | some t' =>
      simp only
      apply setWord_eq_of_ne
      intro samePage sameIndex
      subst samePage
      obtain ⟨rfl, sameDir⟩ := layout.table_unique inside member other table
      exact different ⟨rfl, vpn_ext bound small sameDir sameIndex⟩

/-! ## Pins and counts -/

theorem pins_congr (dir : ∀ {d}, d ∈ g.dirs → n d = m d) : pins g n = pins g m := by
  ext q
  simp only [pins, Set.mem_ofPred_eq]
  constructor
  · rintro (inside | ⟨d, member, i, table⟩ | held)
    · exact Or.inl inside
    · rw [tablePage_congr (dir member)] at table
      exact Or.inr (Or.inl ⟨d, member, i, table⟩)
    · exact Or.inr (Or.inr held)
  · rintro (inside | ⟨d, member, i, table⟩ | held)
    · exact Or.inl inside
    · rw [← tablePage_congr (dir member)] at table
      exact Or.inr (Or.inl ⟨d, member, i, table⟩)
    · exact Or.inr (Or.inr held)

theorem Keeps.pins_eq (keeps : Keeps g m n) : pins g n = pins g m := pins_congr keeps.dir

theorem Rewrites.pins_eq (rewrites : Rewrites g m n d v w) : pins g n = pins g m :=
  pins_congr rewrites.dir

theorem Keeps.frames_eq (keeps : Keeps g m n) (q : Nat) :
    frames g.dirs n q = frames g.dirs m q := by
  apply RefCount.count_congr
  rintro ⟨d, v⟩ member
  obtain ⟨inside, user⟩ := mem_sites.mp member
  rw [keeps.entry inside (user_lt user)]

theorem Keeps.owners_eq (keeps : Keeps g m n) (b : Nat) :
    owners g.dirs n b = owners g.dirs m b := by
  apply RefCount.count_congr
  rintro ⟨d, v⟩ member
  obtain ⟨inside, user⟩ := mem_sites.mp member
  rw [keeps.entry inside (user_lt user)]

theorem Keeps.uses_eq (keeps : Keeps g m n) (q : Nat) : uses g n q = uses g m q := by
  have counts := keeps.frames_eq q
  unfold frames at counts
  unfold uses refs
  rw [counts, keeps.pins_eq]

theorem Rewrites.read {α : Type} (rewrites : Rewrites g m n d v w) (f : Word → α)
    (x : Nat × Nat) (inside : x ∈ sites g.dirs) :
    f (pteOf n x.1 x.2) = Function.update (fun y => f (pteOf m y.1 y.2)) (d, v) (f w) x := by
  obtain ⟨e, u⟩ := x
  obtain ⟨member, user⟩ := mem_sites.mp inside
  by_cases here : e = d ∧ u = v
  · obtain ⟨rfl, rfl⟩ := here
    rw [rewrites.here, Function.update_self]
  · rw [rewrites.others member (user_lt user) here, Function.update_of_ne]
    intro same
    cases same
    exact here ⟨rfl, rfl⟩

theorem Rewrites.frames_eq (rewrites : Rewrites g m n d v w) (member : d ∈ g.dirs)
    (user : v < NUPAGE) (q : Nat) :
    frames g.dirs n q + (if frameOf (pteOf m d v) = some q then 1 else 0) =
      frames g.dirs m q + (if frameOf w = some q then 1 else 0) := by
  have moved : frames g.dirs n q = count (sites g.dirs)
      (Function.update (fun y => frameOf (pteOf m y.1 y.2)) (d, v) (frameOf w)) q :=
    RefCount.count_congr q (rewrites.read frameOf)
  rw [moved]
  have site : (d, v) ∈ sites g.dirs := mem_sites.mpr ⟨member, user⟩
  have redirected := RefCount.count_update (fun y : Nat × Nat => frameOf (pteOf m y.1 y.2)) site
    (frameOf w) q
  exact redirected

theorem Rewrites.frames_added {q : Nat} (rewrites : Rewrites g m n d v w) (member : d ∈ g.dirs)
    (user : v < NUPAGE) (before : frameOf (pteOf m d v) = none) (after : frameOf w = some q)
    (x : Nat) : frames g.dirs n x = frames g.dirs m x + if q = x then 1 else 0 := by
  have moved := rewrites.frames_eq member user x
  rw [before, after] at moved
  simpa only [reduceCtorEq, ↓reduceIte, Nat.add_zero, Option.some.injEq] using moved

theorem Rewrites.owners_eq (rewrites : Rewrites g m n d v w) (member : d ∈ g.dirs)
    (user : v < NUPAGE) (b : Nat) :
    owners g.dirs n b + (if blockOf (pteOf m d v) = some b then 1 else 0) =
      owners g.dirs m b + (if blockOf w = some b then 1 else 0) := by
  have moved : owners g.dirs n b = count (sites g.dirs)
      (Function.update (fun y => blockOf (pteOf m y.1 y.2)) (d, v) (blockOf w)) b :=
    RefCount.count_congr b (rewrites.read blockOf)
  rw [moved]
  have site : (d, v) ∈ sites g.dirs := mem_sites.mpr ⟨member, user⟩
  have redirected := RefCount.count_update (fun y : Nat × Nat => blockOf (pteOf m y.1 y.2)) site
    (blockOf w) b
  exact redirected

theorem uses_pinned (pinned : q ∈ pins g m) : uses g m q = frames g.dirs m q + 1 :=
  RefCount.refs_of_pinned pinned

theorem uses_unpinned (loose : q ∉ pins g m) : uses g m q = frames g.dirs m q :=
  RefCount.refs_of_unpinned loose

theorem Entries.frames_pinned (entries : Entries g m) (pinned : q ∈ pins g m) :
    frames g.dirs m q = 0 := by
  apply RefCount.count_eq_zero_iff.mpr
  rintro ⟨d, v⟩ member maps
  obtain ⟨inside, user⟩ := mem_sites.mp member
  exact (entries.frame inside user maps).2 pinned

theorem frames_pos {dirs : Finset Nat} (member : d ∈ dirs) (user : v < NUPAGE)
    (maps : frameOf (pteOf m d v) = some q) : 0 < frames dirs m q :=
  RefCount.count_pos_iff.mpr ⟨(d, v), mem_sites.mpr ⟨member, user⟩, maps⟩

theorem Entries.alone (entries : Entries g m) (member : d ∈ g.dirs) (user : v < NUPAGE)
    (maps : frameOf (pteOf m d v) = some q) (writable : has (pteOf m d v) PTE_W = true)
    {e u : Nat} (member' : e ∈ g.dirs) (user' : u < NUPAGE)
    (maps' : frameOf (pteOf m e u) = some q) : e = d ∧ u = v := by
  obtain ⟨present, rfl⟩ := frameOf_eq_some.mp maps
  have once := entries.exclusive member user present writable
  have same := RefCount.count_unique (le_of_eq once) (mem_sites.mpr ⟨member', user'⟩)
    (mem_sites.mpr ⟨member, user⟩) maps' maps
  cases same
  exact ⟨rfl, rfl⟩

/-! ## The parts of the invariant -/

theorem Layout.keep (layout : Layout g m) (dir : ∀ {d}, d ∈ g.dirs → n d = m d)
    (held : ∀ {q page}, g.held q = some page → n q = page)
    (frozen : ∀ {ptr x}, g.frozen ptr = some x →
      SameEntry (m ptr.page ptr.index) (n ptr.page ptr.index)) :
    Layout g n := by
  have table : ∀ {d}, d ∈ g.dirs → ∀ i, tablePage n d i = tablePage m d i :=
    fun member i => tablePage_congr (dir member) i
  refine ⟨layout.pool_bounds, ?_, ?_, ?_, ?_, layout.dir_not_held, held, ?_⟩
  · rw [pins_congr dir]
    exact layout.pins_pool
  · intro d e t i j inside inside' left right
    rw [table inside] at left
    rw [table inside'] at right
    exact layout.table_unique inside inside' left right
  · intro d t i inside found
    rw [table inside] at found
    exact layout.table_not_dir inside found
  · intro d t i inside found
    rw [table inside] at found
    exact layout.table_not_held inside found
  · intro ptr d v w here
    obtain ⟨inside, found, word, flags⟩ := layout.frozen here
    refine ⟨inside, ?_, word.trans (frozen here), flags⟩
    rw [table inside, found]

theorem Entries.keep (entries : Entries g m) (keeps : Keeps g m n) : Entries g n := by
  refine ⟨?_, ?_, ?_, ?_, ?_⟩
  · intro d v inside user
    rw [keeps.entry inside (user_lt user)]
    exact entries.shape inside user
  · intro d v q inside user
    rw [keeps.entry inside (user_lt user), keeps.pins_eq]
    exact entries.frame inside user
  · intro d v inside user
    rw [keeps.entry inside (user_lt user), keeps.frames_eq]
    exact entries.exclusive inside user
  · intro d v inside high small
    rw [keeps.entry inside small]
    exact entries.kernel inside high small
  · intro d e v u q inside inside' user user'
    rw [keeps.entry inside (user_lt user), keeps.entry inside' (user_lt user')]
    exact entries.place inside inside' user user'

theorem Entries.rewrite {h : Ghost} (entries : Entries g m) (rewrites : Rewrites g m n d v w)
    (member : d ∈ g.dirs) (user : v < NUPAGE) (dirs : h.dirs = g.dirs)
    (shape : has w PTE_P = false → isSwapped w = false → w = 0#32)
    (frame : ∀ {q}, 0 < frames g.dirs n q → q ∈ h.pool ∧ q ∉ pins h n)
    (alone : has w PTE_P = true → has w PTE_W = true → frames g.dirs n (ppn w) = 1)
    (readonly : ∀ {e u q}, e ∈ g.dirs → u < NUPAGE → ¬ (e = d ∧ u = v) →
      frameOf w = some q → frameOf (pteOf m e u) = some q → has (pteOf m e u) PTE_W = false ∧
      u = v) :
    Entries h n := by
  refine ⟨?_, ?_, ?_, ?_, ?_⟩
  · intro e u inside low
    rw [dirs] at inside
    by_cases here : e = d ∧ u = v
    · obtain ⟨rfl, rfl⟩ := here
      rw [rewrites.here]
      exact shape
    · rw [rewrites.others inside (user_lt low) here]
      exact entries.shape inside low
  · intro e u q inside low maps
    rw [dirs] at inside
    exact frame (frames_pos inside low maps)
  · intro e u inside low present writable
    rw [dirs] at inside ⊢
    by_cases here : e = d ∧ u = v
    · obtain ⟨rfl, rfl⟩ := here
      rw [rewrites.here] at present writable ⊢
      exact alone present writable
    · rw [rewrites.others inside (user_lt low) here] at present writable ⊢
      have once := entries.exclusive inside low present writable
      have counted := rewrites.frames_eq member user (ppn (pteOf m e u))
      have maps := frameOf_present present
      have old : frameOf (pteOf m d v) ≠ some (ppn (pteOf m e u)) := by
        intro same
        obtain ⟨rfl, rfl⟩ := entries.alone inside low maps writable member user same
        exact here ⟨rfl, rfl⟩
      have new : frameOf w ≠ some (ppn (pteOf m e u)) := by
        intro same
        rw [(readonly inside low here same maps).1] at writable
        cases writable
      rw [if_neg old, if_neg new] at counted
      omega
  · intro e u inside high small
    rw [dirs] at inside
    rw [rewrites.others inside small (by rintro ⟨-, rfl⟩; omega)]
    exact entries.kernel inside high small
  · intro e e' u u' q inside inside' low low' maps maps'
    rw [dirs] at inside inside'
    by_cases here : e = d ∧ u = v <;> by_cases here' : e' = d ∧ u' = v
    · exact here'.2.trans here.2.symm
    · obtain ⟨rfl, rfl⟩ := here
      rw [rewrites.here] at maps
      rw [rewrites.others inside' (user_lt low') here'] at maps'
      exact (readonly inside' low' here' maps maps').2
    · obtain ⟨rfl, rfl⟩ := here'
      rw [rewrites.here] at maps'
      rw [rewrites.others inside (user_lt low) here] at maps
      exact (readonly inside low here maps' maps).2.symm
    · rw [rewrites.others inside (user_lt low) here] at maps
      rw [rewrites.others inside' (user_lt low') here'] at maps'
      exact entries.place inside inside' low low' maps maps'

/-- Slots are untouched by anything that leaves the swapped entries where they are. -/
theorem Slots.relink {h : Ghost} {s t : Kernel} (slots : Slots g s) (dirs : h.dirs = g.dirs)
    (reserved : h.reserved = g.reserved) (base : h.base = g.base) (aged : h.aged = g.aged)
    (swapSlots : t.swapSlots = s.swapSlots) (disk : t.disk = s.disk) (log : t.log = s.log)
    (table : ∀ {d i x}, d ∈ g.dirs → tablePage s.mem d i = some x →
      tablePage t.mem d i = some x)
    (block : ∀ {d v}, d ∈ g.dirs → v < NUPAGE →
      blockOf (pteOf t.mem d v) = blockOf (pteOf s.mem d v)) : Slots h t := by
  have swapped : ∀ {d v}, d ∈ g.dirs → v < NUPAGE → isSwapped (pteOf t.mem d v) = true →
      isSwapped (pteOf s.mem d v) = true ∧ ppn (pteOf s.mem d v) = ppn (pteOf t.mem d v) := by
    intro d v inside user here
    have named := blockOf_swapped here
    rw [block inside user] at named
    exact blockOf_eq_some.mp named
  have counts : ∀ b, owners g.dirs t.mem b = owners g.dirs s.mem b := by
    intro b
    apply RefCount.count_congr
    rintro ⟨d, v⟩ inside
    exact block (mem_sites.mp inside).1 (mem_sites.mp inside).2
  refine ⟨?_, ?_, ?_, ?_, ?_, ?_, ?_⟩
  · rw [swapSlots]
    exact slots.block
  · rw [swapSlots]
    exact slots.untouched
  · intro d v inside user here
    rw [dirs] at inside
    obtain ⟨before, same⟩ := swapped inside user here
    rw [swapSlots, ← same]
    exact slots.named inside user before
  · intro i bound
    rw [dirs, counts, reserved, swapSlots]
    exact slots.taken bound
  · rw [reserved, swapSlots, disk]
    exact slots.reserved
  · intro d v t' e inside user here found last
    rw [dirs] at inside
    obtain ⟨before, same⟩ := swapped inside user here
    obtain ⟨x, before'⟩ := table_of_pteOf (ne_zero_of_swapped before)
    rw [table inside before'] at found
    cases found
    rw [base, log] at last
    rw [swapSlots, disk, ← same]
    exact slots.recorded inside user before before' last
  · intro d v t' inside user here found young
    rw [dirs] at inside
    obtain ⟨before, -⟩ := swapped inside user here
    obtain ⟨x, before'⟩ := table_of_pteOf (ne_zero_of_swapped before)
    rw [table inside before'] at found
    cases found
    rw [base, log]
    rw [aged] at young
    exact slots.dated inside user before before' young

theorem Slots.keep {h : Ghost} {s t : Kernel} (slots : Slots g s) (dirs : h.dirs = g.dirs)
    (reserved : h.reserved = g.reserved) (base : h.base = g.base) (aged : h.aged = g.aged)
    (swapSlots : t.swapSlots = s.swapSlots) (disk : t.disk = s.disk) (log : t.log = s.log)
    (table : ∀ {d}, d ∈ g.dirs → ∀ i, tablePage t.mem d i = tablePage s.mem d i)
    (block : ∀ {d v}, d ∈ g.dirs → v < NUPAGE →
      blockOf (pteOf t.mem d v) = blockOf (pteOf s.mem d v)) : Slots h t :=
  slots.relink dirs reserved base aged swapSlots disk log
    (fun inside found => (table inside _).trans found) block

theorem spaceOf_congr {s t : Kernel} (word : pteOf t.mem d v = pteOf s.mem d v)
    (frame : has (pteOf s.mem d v) PTE_P = true →
      t.mem (ppn (pteOf s.mem d v)) = s.mem (ppn (pteOf s.mem d v)))
    (slot : isSwapped (pteOf s.mem d v) = true →
      (t.swapSlots (slotOf (pteOf s.mem d v))).pagePerm =
        (s.swapSlots (slotOf (pteOf s.mem d v))).pagePerm ∧
      diskPage t.disk (ppn (pteOf s.mem d v)) = diskPage s.disk (ppn (pteOf s.mem d v))) :
    spaceOf t d v = spaceOf s d v := by
  unfold spaceOf pageAt
  rw [word]
  split
  · rename_i present
    rw [frame present]
  · rename_i absent
    split
    · rename_i swapped
      obtain ⟨perm, page⟩ := slot (by rw [isSwapped, swapped, Bool.and_true]; simpa using absent)
      rw [perm, page]
    · rfl

end Xv6Cow
