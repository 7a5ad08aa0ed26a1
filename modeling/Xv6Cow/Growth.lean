import Xv6Cow.Exhaustion

/- proc.c: what growproc promises, and for which arguments it keeps the promise. allocuvm and
deallocuvm return the new size, and growproc takes a new size of 0 for their failure. -/
namespace Xv6Cow

variable {loan : Set Nat} {g h : Ghost} {s t : Kernel} {p : Fin NPROC} {d v : Nat}

/-- Every page below the size is present. -/
structure InMemory (s : Kernel) (p : Fin NPROC) : Prop where
  below : (s.ptable p).sz < KERNBASE
  present : ∀ v, v < pagesOf (s.ptable p).sz → has (pteOf s.mem (s.ptable p).pgdir v) PTE_P = true

/-- A byte of the page that an entry maps. -/
def userByte (s : Kernel) (d va : Nat) : Byte :=
  (s.mem (ppn (pteOf s.mem d (va / PGSIZE)))).byte (va % PGSIZE)

/-- The size has changed by `n`, and the memory with it. -/
structure Grown (s t : Kernel) (p : Fin NPROC) (n : Int) : Prop where
  size : ((t.ptable p).sz : Int) = (s.ptable p).sz + n
  user : (t.ptable p).sz < KERNBASE
  dir : (t.ptable p).pgdir = (s.ptable p).pgdir
  mapped : ∀ v, v < NUPAGE →
    (has (pteOf t.mem (s.ptable p).pgdir v) PTE_P = true ↔ v < pagesOf (t.ptable p).sz)
  kept : ∀ va, va < (s.ptable p).sz → va < (t.ptable p).sz →
    userByte t (s.ptable p).pgdir va = userByte s (s.ptable p).pgdir va
  fresh : ∀ va, pagesOf (s.ptable p).sz ≤ va / PGSIZE → va / PGSIZE < pagesOf (t.ptable p).sz →
    userByte t (s.ptable p).pgdir va = 0

/-- Nothing has changed. -/
structure Refused (s t : Kernel) (p : Fin NPROC) : Prop where
  proc : t.ptable p = s.ptable p
  table : ∀ v, v < NVPAGE → pteOf t.mem (s.ptable p).pgdir v = pteOf s.mem (s.ptable p).pgdir v
  counts : t.pageToRefcnt = s.pageToRefcnt
  free : t.freelist = s.freelist

/-- growproc returns 0 and has done what it was asked for, or -1 and has done nothing. -/
def Contract (s : Kernel) (p : Fin NPROC) (n : Int) : Prop :=
  (∃ t, growproc p n s = .ok (true, t) ∧ Grown s t p n) ∨ ∃ t, growproc p n s = .ok (false, t) ∧
    Refused s t p

theorem Refused.refl (s : Kernel) (p : Fin NPROC) : Refused s s p := ⟨rfl, fun _ _ => rfl, rfl, rfl⟩

/-! ## The memory before and after -/

theorem spaceOf_present (present : has (pteOf s.mem d v) PTE_P = true) :
    spaceOf s d v = some (has (pteOf s.mem d v) PTE_U, s.mem (ppn (pteOf s.mem d v))) := by
  unfold spaceOf pageAt
  rw [if_pos present]

theorem same_bytes (rep : Rep g s) (rep' : Rep h t) (inside : d ∈ g.dirs) (inside' : d ∈ h.dirs)
    {va : Nat}
    (user : va / PGSIZE < NUPAGE) (same : h.space d (va / PGSIZE) = g.space d (va / PGSIZE))
    (present : has (pteOf s.mem d (va / PGSIZE)) PTE_P = true)
    (present' : has (pteOf t.mem d (va / PGSIZE)) PTE_P = true) :
    userByte t d va = userByte s d va := by
  have before := (spaceOf_present present).symm.trans (rep.space inside user)
  have after := (spaceOf_present present').symm.trans (rep'.space inside' user)
  rw [same, ← before] at after
  have bytes := (Prod.ext_iff.mp (Option.some.inj after)).2
  unfold userByte
  rw [show t.mem (ppn (pteOf t.mem d (va / PGSIZE))) =
    s.mem (ppn (pteOf s.mem d (va / PGSIZE))) from bytes]

theorem blank_bytes (rep : Rep g s) (inside : d ∈ g.dirs) {va : Nat} (user : va / PGSIZE < NUPAGE)
    (blank : g.space d (va / PGSIZE) = some (true, zeroPage))
    (present : has (pteOf s.mem d (va / PGSIZE)) PTE_P = true) : userByte s d va = 0 := by
  have meant := (spaceOf_present present).symm.trans (rep.space inside user)
  rw [blank] at meant
  have bytes := (Prod.ext_iff.mp (Option.some.inj meant)).2
  unfold userByte
  rw [show s.mem (ppn (pteOf s.mem d (va / PGSIZE))) = zeroPage from bytes]
  unfold Page.byte zeroPage
  simp

theorem Sound.mapped_iff (sound : Sound loan g s) (live : (s.ptable p).live = true)
    (mapped : InMemory s p) (user : v < NUPAGE) :
    has (pteOf s.mem (s.ptable p).pgdir v) PTE_P = true ↔ v < pagesOf (s.ptable p).sz := by
  refine ⟨fun present => ?_, mapped.present v⟩
  by_contra above
  have empty := sound.settled.census.ends live v (Nat.le_of_not_lt above) user
  rw [sound.settled.rep.vacant (sound.settled.inside live) user empty] at present
  exact absurd present (by decide)

theorem setProc_at (s : Kernel) (p : Fin NPROC) (proc : Proc) :
    (setProc s p proc).ptable p = proc :=
  Function.update_self ..

/-! ## Growing -/

theorem grown_zero (sound : Sound loan g s) (live : (s.ptable p).live = true)
    (mapped : InMemory s p) :
    Grown s s p 0 := by
  refine ⟨by omega, mapped.below, rfl, fun v user => sound.mapped_iff live mapped user,
    fun _ _ _ => rfl, ?_⟩
  intro va low high
  omega

theorem user_of_pages {sz : Nat} (below : sz < KERNBASE) (inside : v < pagesOf sz) : v < NUPAGE :=
  Nat.lt_of_lt_of_le inside (pagesOf_le (Nat.le_of_lt below))

theorem grown_more {n : Int} {newsz : Nat} {r : Kernel} (sound : Sound loan g s)
    (live : (s.ptable p).live = true) (mapped : InMemory s p)
    (size : (newsz : Int) = (s.ptable p).sz + n)
    (more : (s.ptable p).sz ≤ newsz) (below : newsz < KERNBASE)
    (rep : Rep (g.setRange (s.ptable p).pgdir (pagesOf (s.ptable p).sz) (pagesOf newsz) blank) r)
    (frame : ∀ w, w < NVPAGE → w < pagesOf (s.ptable p).sz ∨ pagesOf newsz ≤ w →
      pteOf r.mem (s.ptable p).pgdir w = pteOf s.mem (s.ptable p).pgdir w)
    (present : ∀ w, pagesOf (s.ptable p).sz ≤ w → w < pagesOf newsz →
      has (pteOf r.mem (s.ptable p).pgdir w) PTE_P = true)
    (dir : (r.ptable p).pgdir = (s.ptable p).pgdir) :
    Grown s (setProc r p { r.ptable p with sz := newsz }) p n := by
  have inside := sound.settled.inside live
  have order := pagesOf_mono more
  have after : ((setProc r p { r.ptable p with sz := newsz }).ptable p).sz = newsz := by
    rw [setProc_at]
  have all : ∀ v, v < pagesOf newsz → has (pteOf r.mem (s.ptable p).pgdir v) PTE_P = true := by
    intro v low
    by_cases old : v < pagesOf (s.ptable p).sz
    · rw [frame v (user_lt (user_of_pages below low)) (.inl old)]
      exact mapped.present v old
    · exact present v (Nat.le_of_not_lt old) low
  refine ⟨?_, ?_, ?_, fun v user => ?_, fun va old new => ?_, fun va low high => ?_⟩
  · rw [after, size]
  · rw [after]
    exact below
  · rw [setProc_at]
    exact dir
  · rw [after]
    refine ⟨fun there => ?_, all v⟩
    by_contra above
    change has (pteOf r.mem (s.ptable p).pgdir v) PTE_P = true at there
    rw [frame v (user_lt user) (.inr (Nat.le_of_not_lt above)),
      sound.mapped_iff live mapped user] at there
    omega
  · rw [after] at new
    have page := page_below old
    refine same_bytes sound.settled.rep rep inside inside (user_of_pages mapped.below page) ?_
      (mapped.present _ page) (all _ (by omega))
    exact if_neg (by omega)
  · rw [after] at high
    refine blank_bytes rep inside (user_of_pages below high) ?_ (all _ high)
    exact if_pos ⟨rfl, low, high⟩

theorem grow_contract (sound : Sound loan g s) (live : (s.ptable p).live = true)
    (mapped : InMemory s p)
    {n : Int} (positive : 0 < n) (word : n < 2 ^ 31) (affords : Affords s p n) :
      Contract s p n := by
  have rep := sound.settled.rep
  have inside := sound.settled.inside live
  have below := mapped.below
  have size : (newSize s p n : Int) = (s.ptable p).sz + n := by
    unfold newSize
    rw [KERNBASE_eq] at below
    omega
  have more : (s.ptable p).sz ≤ newSize s p n := by omega
  by_cases high : KERNBASE ≤ newSize s p n
  · have resized :
        allocuvm p (s.ptable p).pgdir (s.ptable p).sz (newSize s p n) s = .ok (0, s) := by
      unfold allocuvm
      rw [if_pos high]
      rfl
    refine .inr ⟨s, ?_, Refused.refl s p⟩
    rw [growproc_ok (by omega) (by rw [if_pos positive]; exact resized), if_pos rfl]
  · have order := pagesOf_mono more
    have fits := pagesOf_le (Nat.le_of_not_le high)
    obtain ⟨r, used, looped, allocated⟩ := allocLoop_room (p := p)
      (n := added s p n) (v := pagesOf (s.ptable p).sz) rep sound.quiet inside (sound.loose _)
      (by unfold added; omega)
      (fun u low above => sound.settled.census.ends live u low (by unfold added at above; omega))
      (affords positive (Nat.lt_of_not_le high))
    have resized :
        allocuvm p (s.ptable p).pgdir (s.ptable p).sz (newSize s p n) s =
        .ok (newSize s p n, r) := by
      unfold allocuvm
      rw [if_neg high, if_neg (by omega)]
      exact Prog.bind_of_ok looped
    have log : r.log = s.log := allocated.carves.log
    have frame := allocated.others
    have present := fun w (low : _ ≤ w) (high : w < _) => allocated.present low high
    have dir : (r.ptable p).pgdir = (s.ptable p).pgdir :=
      (allocLoop_calm _ _ _ _ _ _ _ looped).pgdir p
    have ends : pagesOf (s.ptable p).sz + added s p n = pagesOf (newSize s p n) := by
      unfold added
      omega
    obtain ⟨rep', -⟩ := allocLoop_spec rep inside (sound.loose _) (by omega)
      (fun u low above => sound.settled.census.ends live u low (by omega)) looped
        (by rw [log]; exact sound.quiet)
    rw [ends] at rep' frame present
    refine .inl
      ⟨_, ?_, grown_more sound live mapped size more (Nat.lt_of_not_le high) rep' frame present dir⟩
    rw [growproc_ok (by omega) (by rw [if_pos positive]; exact resized), if_neg (by omega)]

/-! ## Shrinking -/

theorem shrink_room (sound : Sound loan g s) (live : (s.ptable p).live = true)
    (mapped : InMemory s p) {newsz : Nat} (less : newsz < (s.ptable p).sz) :
    ∃ r, deallocuvm p (s.ptable p).pgdir (s.ptable p).sz newsz s = .ok (newsz, r) ∧
      Released p (s.ptable p).pgdir (pagesOf newsz) (pagesOf (s.ptable p).sz) s r ∧
      Rep (g.setRange (s.ptable p).pgdir (pagesOf newsz) (pagesOf (s.ptable p).sz) nothing) r := by
  have rep := sound.settled.rep
  have inside := sound.settled.inside live
  have plain : ∀ u, pagesOf newsz ≤ u → u < pagesOf (s.ptable p).sz →
      isSwapped (pteOf s.mem (s.ptable p).pgdir u) = false := by
    intro u _ high
    unfold isSwapped
    rw [mapped.present u high]
    rfl
  obtain ⟨r, looped, released⟩ := deallocLoop_room (p := p) dropSwapped rep inside
    (pagesOf_le (Nat.le_of_lt mapped.below)) plain
  have resized : deallocuvm p (s.ptable p).pgdir (s.ptable p).sz newsz s = .ok (newsz, r) := by
    unfold deallocuvm
    rw [if_neg (by omega)]
    exact Prog.bind_of_ok looped
  rcases deallocuvm_spec rep inside (sound.loose _) (Nat.le_of_lt mapped.below) resized with
    ⟨up, -⟩ | ⟨-, -, rep'⟩
  · omega
  · exact ⟨r, resized, released, rep'⟩

theorem grown_less {n : Int} {newsz : Nat} {r : Kernel} (sound : Sound loan g s)
    (live : (s.ptable p).live = true) (mapped : InMemory s p)
    (size : (newsz : Int) = (s.ptable p).sz + n) (less : newsz < (s.ptable p).sz)
    (released : Released p (s.ptable p).pgdir (pagesOf newsz) (pagesOf (s.ptable p).sz) s r)
    (rep : Rep (g.setRange (s.ptable p).pgdir (pagesOf newsz) (pagesOf (s.ptable p).sz) nothing)
      r) :
    Grown s (setProc r p { r.ptable p with sz := newsz }) p n := by
  have inside := sound.settled.inside live
  have below := mapped.below
  have order := pagesOf_mono (Nat.le_of_lt less)
  have after : ((setProc r p { r.ptable p with sz := newsz }).ptable p).sz = newsz := by
    rw [setProc_at]
  have all : ∀ v, v < pagesOf newsz → has (pteOf r.mem (s.ptable p).pgdir v) PTE_P = true := by
    intro v low
    rw [released.others v (user_lt (user_of_pages below (by omega))) (by omega)]
    exact mapped.present v (by omega)
  refine ⟨?_, ?_, ?_, fun v user => ?_, fun va old new => ?_, fun va low high => ?_⟩
  · rw [after, size]
  · rw [after]
    omega
  · obtain ⟨mem, refcnt, free, num, rfl⟩ := released.shape
    rw [setProc_at]
    dsimp only
    rw [Function.update_self]
  · rw [after]
    refine ⟨fun there => ?_, all v⟩
    by_contra above
    change has (pteOf r.mem (s.ptable p).pgdir v) PTE_P = true at there
    by_cases gone : v < pagesOf (s.ptable p).sz
    · rw [released.blank v (Nat.le_of_not_lt above) gone] at there
      exact absurd there (by decide)
    · rw [released.others v (user_lt user) (by omega), sound.mapped_iff live mapped user] at there
      exact gone there
  · rw [after] at new
    have page := page_below new
    refine same_bytes sound.settled.rep rep inside inside (user_of_pages below (by omega)) ?_
      (mapped.present _ (by omega)) (all _ page)
    exact if_neg (by omega)
  · rw [after] at high
    omega

theorem shrink_contract (sound : Sound loan g s) (live : (s.ptable p).live = true)
    (mapped : InMemory s p)
    {n : Int} (negative : n < 0) (left : 0 < ((s.ptable p).sz : Int) + n) : Contract s p n := by
  have below := mapped.below
  have size : (newSize s p n : Int) = (s.ptable p).sz + n := by
    unfold newSize
    rw [KERNBASE_eq] at below
    omega
  obtain ⟨r, resized, released, rep⟩ := @shrink_room loan g s p sound live mapped (newSize s p n)
    (by omega)
  refine .inl ⟨_, ?_, grown_less sound live mapped size (by omega) released rep⟩
  rw [growproc_ok (by omega) (by rw [if_neg (by omega)]; exact resized), if_neg (by omega)]

/-- Asked for all of its memory, growproc takes it and returns -1. -/
theorem empty_takes (sound : Sound loan g s) (live : (s.ptable p).live = true)
    (mapped : InMemory s p)
    (some : 0 < (s.ptable p).sz) : ∃ r, growproc p (-((s.ptable p).sz : Int)) s = .ok (false, r) ∧
      ∀ v, v < pagesOf (s.ptable p).sz → pteOf r.mem (s.ptable p).pgdir v = 0#32 := by
  have size : newSize s p (-((s.ptable p).sz : Int)) = 0 := by
    unfold newSize
    omega
  obtain ⟨r, resized, released, -⟩ := shrink_room sound live mapped some
  refine ⟨r, ?_, fun v low => released.blank v (Nat.zero_le v) low⟩
  rw [growproc_ok (by omega) (by rw [if_neg (by omega), size]; exact resized), if_pos rfl]

/-- Asked for more memory than there is, growproc takes nothing. -/
theorem below_takes {n : Int} (below : (s.ptable p).sz < KERNBASE) (negative : n < 0)
    (word : -2 ^ 31 ≤ n) (beyond : ((s.ptable p).sz : Int) + n < 0) :
    growproc p n s = if (s.ptable p).sz = 0 then .ok (false, s) else .ok (true, s) := by
  have kept : (s.ptable p).sz ≤ newSize s p n := by
    unfold newSize
    rw [KERNBASE_eq] at below
    omega
  have resized :
      deallocuvm p (s.ptable p).pgdir (s.ptable p).sz (newSize s p n) s =
      .ok ((s.ptable p).sz, s) := by
    unfold deallocuvm
    rw [if_pos kept]
    rfl
  have same : setProc s p { s.ptable p with sz := (s.ptable p).sz } = s := by
    unfold setProc
    rw [Function.update_eq_self]
  rw [growproc_ok (by omega) (by rw [if_neg (by omega)]; exact resized), same]

theorem empty_breaks (sound : Sound loan g s) (live : (s.ptable p).live = true)
    (mapped : InMemory s p)
    (some : 0 < (s.ptable p).sz) : ¬Contract s p (-((s.ptable p).sz : Int)) := by
  obtain ⟨r, ran, gone⟩ := empty_takes sound live mapped some
  rintro (⟨t, other, -⟩ | ⟨t, same, refused⟩)
  · rw [ran] at other
    cases other
  · rw [ran] at same
    cases same
    have first : 0 < pagesOf (s.ptable p).sz := @page_below 0 _ some
    have present := mapped.present 0 first
    rw [← refused.table 0 (by decide), gone 0 first] at present
    exact absurd present (by decide)

theorem below_breaks {n : Int} (below : (s.ptable p).sz < KERNBASE) (some : 0 < (s.ptable p).sz)
    (word : -2 ^ 31 ≤ n) (beyond : ((s.ptable p).sz : Int) + n < 0) : ¬Contract s p n := by
  have ran := below_takes (s := s) (p := p) below (by omega) word beyond
  rw [if_neg (by omega)] at ran
  rintro (⟨t, same, grown⟩ | ⟨t, other, -⟩)
  · rw [ran] at same
    cases same
    have size := grown.size
    omega
  · rw [ran] at other
    cases other

/-- growproc does what it was asked for, or refuses, if `n` is not negative, if it leaves
something, or if there is nothing. Otherwise it takes everything and returns -1, or takes nothing
and returns 0. -/
theorem growproc_contract_iff (sound : Sound loan g s) (live : (s.ptable p).live = true)
    (mapped : InMemory s p) (n : Word) (affords : Affords s p n.toInt) :
    Contract s p n.toInt ↔
      0 ≤ n.toInt ∨ 0 < ((s.ptable p).sz : Int) + n.toInt ∨ (s.ptable p).sz = 0 := by
  have low : -2 ^ 31 ≤ n.toInt := BitVec.le_toInt n
  have high : n.toInt < 2 ^ 31 := BitVec.toInt_lt
  generalize n.toInt = k at *
  constructor
  · intro contract
    by_contra neither
    by_cases all : k = -((s.ptable p).sz : Int)
    · rw [all] at contract
      exact empty_breaks sound live mapped (by omega) contract
    · exact below_breaks mapped.below (by omega) low (by omega) contract
  · intro condition
    rcases Int.lt_trichotomy k 0 with negative | rfl | positive
    · by_cases left : 0 < ((s.ptable p).sz : Int) + k
      · exact shrink_contract sound live mapped negative left
      · have ran := below_takes (s := s) (p := p) mapped.below negative low (by omega)
        rw [if_pos (by omega)] at ran
        exact .inr ⟨s, ran, Refused.refl s p⟩
    · refine .inl ⟨s, ?_, grown_zero sound live mapped⟩
      unfold growproc
      rw [Prog.read_bind]
      rfl
    · exact grow_contract sound live mapped positive high affords

theorem Booted.inMemory {disk : Nat → Block} {k q : Nat} (facts : Booted disk g k d q s) :
    InMemory s 0 := by
  obtain ⟨-, size, dir⟩ := facts.runs
  refine ⟨by rw [size]; decide, fun v low => ?_⟩
  rw [size, show pagesOf PGSIZE = 1 by decide] at low
  rw [show v = 0 by omega, dir, facts.entry]
  exact (userWord_map facts.frame).present

/-- The first process grows by a page right after boot. -/
theorem growproc_contract_iff_first : ∃ s, Reachable CleanStep s ∧ InMemory s 0 ∧ Affords s 0 4096 ∧
    Contract s 0 4096 := by
  obtain ⟨g, k, d, q, s, booted, facts⟩ := boot_ok (fun _ => zeroPage) (fun _ _ => 0#32)
  obtain ⟨runs, size, -⟩ := facts.runs
  have affords : Affords s 0 (4096#32 : Word).toInt := by
    intro _ _
    have few := missing_le s.mem (s.ptable 0).pgdir (pagesOf (s.ptable 0).sz)
      (added s 0 (4096#32 : Word).toInt)
    have one : added s 0 (4096#32 : Word).toInt = 1 := by
      unfold added newSize
      rw [size]
      decide
    rw [one] at few ⊢
    rw [facts.room]
    omega
  have contract :=
    (growproc_contract_iff facts.roomy.sound (canRun_live runs) facts.inMemory 4096#32 affords).mpr
    (.inl (by decide))
  exact ⟨s, ⟨_, _, s, _, booted, .nil⟩, facts.inMemory, affords, contract⟩

/-- Right after boot, when the first process has one page: giving back one page fails and takes
it, giving back two succeeds and takes none. -/
theorem growproc_mistakes : ∃ s, Reachable CleanStep s ∧ (s.ptable 0).canRun = true ∧ InMemory s 0 ∧
    (s.ptable 0).sz = 4096 ∧ ¬Contract s 0 (-4096) ∧ ¬Contract s 0 (-8192) ∧
    (∃ r, growproc 0 (-4096) s = .ok (false, r) ∧ pteOf r.mem (s.ptable 0).pgdir 0 = 0#32) ∧
    growproc 0 (-8192) s = .ok (true, s) := by
  obtain ⟨g, k, d, q, s, booted, facts⟩ := boot_ok (fun _ => zeroPage) (fun _ _ => 0#32)
  obtain ⟨runs, size, -⟩ := facts.runs
  have size : (s.ptable 0).sz = 4096 := size
  have first : 0 < pagesOf (s.ptable 0).sz := by
    rw [size]
    decide
  obtain ⟨r, ran, gone⟩ :=
    empty_takes facts.roomy.sound (canRun_live runs) facts.inMemory (by omega)
  rw [size] at ran
  have kept := below_takes (s := s) (p := 0) (n := -8192) facts.inMemory.below (by omega) (by omega)
    (by omega)
  rw [if_neg (by omega)] at kept
  refine ⟨s, ⟨_, _, s, _, booted, .nil⟩, runs, facts.inMemory, size, ?_, ?_, ⟨r, ran, gone 0 first⟩,
    kept⟩
  · have broken := empty_breaks facts.roomy.sound (canRun_live runs) facts.inMemory (by omega)
    rw [size] at broken
    exact broken
  · exact below_breaks facts.inMemory.below (by omega) (by omega) (by omega)

end Xv6Cow
