import Xv6Cow.Victim

/- The two passes of final_page over the victim's pages, for any address space in which
every page has an entry of its own. -/
namespace Xv6Cow

open Prog (bind_of_ok)

variable {s t : Kernel} {m m' : Nat → Page} {p : Fin NPROC} {d n u v : Nat}

/-- The first `n` pages have entries, in page tables of their own. -/
structure Tabled (m : Nat → Page) (d n : Nat) : Prop where
  dir : d < NPHYS
  user : n ≤ NUPAGE
  table : ∀ u, u < n → ∃ x < NPHYS, tablePage m d (pdx u) = some x ∧ x ≠ d
  apart : ∀ u v, u < n → v < n → tablePage m d (pdx u) = tablePage m d (pdx v) → pdx u = pdx v

/-- Where the entry of page `u` is. -/
def ptrOf (m : Nat → Page) (d u : Nat) : Option PtePtr :=
  (tablePage m d (pdx u)).map fun x => ⟨x, ptx u⟩

/-- A user page in memory, and one that was accessed. -/
def resident (w : Word) : Bool := has w PTE_P && has w PTE_U

def touched (w : Word) : Bool := has w PTE_P && has w PTE_U && has w PTE_A

theorem Tabled.ptr (tabled : Tabled m d n) (below : u < n) :
    ∃ ptr, ptrOf m d u = some ptr ∧ tablePage m d (pdx u) = some ptr.page ∧ ptr.index = ptx u ∧
      ptr.page < NPHYS ∧ ptr.page ≠ d ∧ pteOf m d u = m ptr.page ptr.index := by
  obtain ⟨x, small, table, other⟩ := tabled.table u below
  refine ⟨⟨x, ptx u⟩, ?_, table, rfl, small, other, pteOf_of_table table⟩
  rw [ptrOf, table]
  rfl

theorem Tabled.ptr_injective (tabled : Tabled m d n) (below : u < n) (below' : v < n)
    (same : ptrOf m d u = ptrOf m d v) : u = v := by
  obtain ⟨ptr, here, table, index, -⟩ := tabled.ptr below
  obtain ⟨ptr', here', table', index', -⟩ := tabled.ptr below'
  rw [here, here'] at same
  obtain rfl := Option.some.inj same
  have user := tabled.user
  rw [NUPAGE_eq] at user
  refine vpn_ext (by rw [NVPAGE_eq]; omega) (by rw [NVPAGE_eq]; omega)
    (tabled.apart u v below below' (table.trans table'.symm)) (index.symm.trans index')

theorem Tabled.walks (tabled : Tabled s.mem d n) : Walks s d n :=
  ⟨tabled.dir, fun u below => by
    obtain ⟨x, small, table, -⟩ := tabled.table u below
    exact ⟨x, small, table⟩⟩

/-! ## get_victim_page -/

theorem victimPage_lowest (tabled : Tabled s.mem d n) :
    ∃ pte, victimPageFrom d n 0 s = .ok (pte, s) ∧
      (pte = none → ∀ u, u < n → evictable (pteOf s.mem d u) = false) ∧
      ∀ ptr, pte = some ptr → ∃ u, u < n ∧ ptrOf s.mem d u = some ptr ∧
        evictable (pteOf s.mem d u) = true ∧ ∀ w, w < u → evictable (pteOf s.mem d w) = false := by
  classical
  by_cases some : ∃ u, u < n ∧ evictable (pteOf s.mem d u) = true
  · obtain ⟨below, hit⟩ := Nat.find_spec some
    have skip : ∀ w, w < Nat.find some → evictable (pteOf s.mem d w) = false := by
      intro w before
      exact Bool.eq_false_iff.mpr fun also => Nat.find_min some before ⟨by omega, also⟩
    obtain ⟨ptr, place, table, index, -⟩ := tabled.ptr below
    have found := victimPageFrom_hit (n := n) (i := 0) tabled.dir (Nat.zero_le _) (by omega)
      (fun u _ high => tabled.walks.2 u (by omega)) (fun u _ before => skip u before) hit table
    refine ⟨_, found, fun none => absurd none (Option.some_ne_none _), fun ptr' same => ?_⟩
    obtain rfl := Option.some.inj same
    refine ⟨_, below, ?_, hit, skip⟩
    rw [place, ← index]
  · have skip : ∀ u, u < n → evictable (pteOf s.mem d u) = false :=
      fun u below => Bool.eq_false_iff.mpr fun hit => some ⟨u, below, hit⟩
    refine ⟨none, victimPageFrom_misses tabled.dir (fun u _ high => tabled.walks.2 u (by omega))
      (fun u _ high => skip u (by omega)), fun _ => skip, fun ptr impossible => ?_⟩
    exact absurd impossible.symm (Option.some_ne_none _)

/-! ## flush_table -/

/-- How many of the pages below `u` were accessed. -/
def rank (m : Nat → Page) (d u : Nat) : Nat := (List.range u).countP fun w => touched (pteOf m d w)

/-- The 1st, 11th, 21st, ... of the accessed pages. -/
def Clears (m : Nat → Page) (d u : Nat) : Prop :=
  touched (pteOf m d u) = true ∧ rank m d u % 10 = 0

instance (m : Nat → Page) (d u : Nat) : Decidable (Clears m d u) :=
  inferInstanceAs (Decidable (_ ∧ _))

theorem rank_succ : rank m d (u + 1) = rank m d u + if touched (pteOf m d u) then 1 else 0 := by
  unfold rank
  rw [List.range_succ, List.countP_append, List.countP_singleton]

theorem countP_clears (m : Nat → Page) (d n : Nat) :
    (List.range n).countP (fun u => Clears m d u) = (rank m d n + 9) / 10 := by
  induction n with
  | zero => simp [rank]
  | succ n ih =>
    rw [List.range_succ, List.countP_append, List.countP_singleton, ih, rank_succ]
    unfold Clears
    by_cases hit : touched (pteOf m d n) = true
    · by_cases turn : rank m d n % 10 = 0
      · simp only [hit, turn, and_self, decide_true, if_true]
        omega
      · simp only [hit, turn, and_false, decide_false, if_true, Bool.false_eq_true, if_false]
        omega
    · simp only [hit, false_and, decide_false, Bool.false_eq_true, if_false, Nat.add_zero]

/-- The memory after the pass over the first `n` pages: PTE_A is gone from the entries
it clears and no other bit differs. -/
structure Flushed (m m' : Nat → Page) (d n : Nat) : Prop where
  cleared : ∀ u ptr, u < n → Clears m d u → ptrOf m d u = some ptr →
    m' ptr.page ptr.index = m ptr.page ptr.index &&& ~~~PTE_A
  kept : ∀ ptr, (∀ u, u < n → Clears m d u → ptrOf m d u ≠ some ptr) →
    m' ptr.page ptr.index = m ptr.page ptr.index

theorem Flushed.dir {k : Nat} (flushed : Flushed m m' d k) (tabled : Tabled m d n) (le : k ≤ n) :
    m' d = m d := by
  funext i
  refine flushed.kept ⟨d, i⟩ fun u below _ same => ?_
  obtain ⟨ptr, here, -, -, -, other, -⟩ := tabled.ptr (show u < n by omega)
  rw [here] at same
  exact other (congrArg PtePtr.page (Option.some.inj same))

theorem Flushed.pteOf {k : Nat} (flushed : Flushed m m' d k) (tabled : Tabled m d n) (le : k ≤ n)
    (below : u < n) : pteOf m' d u =
      if u < k ∧ Clears m d u then Xv6Cow.pteOf m d u &&& ~~~PTE_A else Xv6Cow.pteOf m d u := by
  obtain ⟨ptr, here, table, index, -, -, word⟩ := tabled.ptr below
  have table' : tablePage m' d (pdx u) = some ptr.page := by
    rw [tablePage_congr (flushed.dir tabled le), table]
  rw [pteOf_of_table table', word, ← index]
  split
  · rename_i both
    exact flushed.cleared u ptr both.1 both.2 here
  · rename_i other
    refine flushed.kept ptr fun w low clears same => other ?_
    obtain rfl := tabled.ptr_injective below (by omega) (here.trans same.symm)
    exact ⟨low, clears⟩

theorem Flushed.step (flushed : Flushed m m' d u) (tabled : Tabled m d n) (below : u < n)
    {ptr : PtePtr} (here : ptrOf m d u = some ptr) :
    Flushed m (if Clears m d u then setWord m' ptr (Xv6Cow.pteOf m d u &&& ~~~PTE_A) else m') d
      (u + 1) := by
  obtain ⟨ptr', here', -, -, -, -, word⟩ := tabled.ptr below
  obtain rfl := Option.some.inj (here.symm.trans here')
  have others : ∀ w q, w < u → ptrOf m d w = some q → q.page = ptr.page → q.index ≠ ptr.index := by
    intro w q low place page index
    have same : q = ptr := by
      cases q
      cases ptr
      simp only at page index
      rw [page, index]
    have := tabled.ptr_injective (by omega) below
      ((place.trans (congrArg some same)).trans here.symm)
    omega
  split
  · rename_i clears
    refine ⟨fun w q low hit place => ?_, fun q away => ?_⟩
    · by_cases now : w = u
      · subst now
        obtain rfl := Option.some.inj (here.symm.trans place)
        rw [setWord_self, word]
      · rw [setWord_eq_of_ne (others w q (by omega) place)]
        exact flushed.cleared w q (by omega) hit place
    · have differ : q.page = ptr.page → q.index ≠ ptr.index := by
        intro page index
        refine away u (Nat.lt_succ_self u) clears ?_
        rw [here]
        cases q
        cases ptr
        simp only at page index
        rw [page, index]
      rw [setWord_eq_of_ne differ]
      exact flushed.kept q fun w low hit => away w (by omega) hit
  · rename_i stays
    refine ⟨fun w q low hit place => ?_, fun q away => ?_⟩
    · refine flushed.cleared w q ?_ hit place
      by_contra high
      obtain rfl : w = u := by omega
      exact stays hit
    · exact flushed.kept q fun w low hit => away w (by omega) hit

theorem flushFrom_exact {k i : Nat} (tabled : Tabled m d n) (total : i + k = n)
    (flushed : Flushed m s.mem d i) :
    ∃ mem, flushFrom d k i (rank m d i % 10) s = .ok ((), { s with mem := mem }) ∧
      Flushed m mem d n := by
  induction k generalizing i s with
  | zero =>
    rw [Nat.add_zero] at total
    rw [← total]
    exact ⟨s.mem, rfl, flushed⟩
  | succ k ih =>
    have below : i < n := by omega
    obtain ⟨ptr, here, table, index, small, -, word⟩ := tabled.ptr below
    have table' : tablePage s.mem d (pdx i) = some ptr.page := by
      rw [tablePage_congr (flushed.dir tabled (by omega)), table]
    have entry : s.mem ptr.page (ptx i) = pteOf m d i := by
      rw [← pteOf_of_table table', flushed.pteOf tabled (by omega) below, if_neg (by omega)]
    have next := flushed.step tabled below here
    rw [flushFrom, bind_of_ok (walk_of_table tabled.dir table'),
      bind_of_ok (derefPte_ok_iff.mpr ⟨⟨ptr.page, ptx i⟩, rfl, small, rfl, rfl⟩)]
    dsimp only
    rw [entry]
    have count := rank_succ (m := m) (d := d) (u := i)
    by_cases hit : touched (pteOf m d i) = true
    · rw [if_pos hit] at count
      have flags : (has (pteOf m d i) PTE_P && has (pteOf m d i) PTE_U && has (pteOf m d i) PTE_A) =
        true := hit
      rw [flags]
      dsimp only
      rw [show (rank m d i % 10 + 1) % 10 = rank m d (i + 1) % 10 by omega]
      unfold flushEntry
      by_cases turn : rank m d i % 10 = 0
      · rw [if_pos ⟨hit, turn⟩] at next
        rw [if_pos turn, show (⟨ptr.page, ptx i⟩ : PtePtr) = ptr by rw [← index],
          bind_of_ok (storeWord_ok_iff.mpr ⟨small, rfl⟩ : _ = Except.ok ((), _))]
        exact ih (by omega) next
      · rw [if_neg (fun clears => turn clears.2)] at next
        rw [if_neg turn, Prog.pure_bind_apply]
        exact ih (by omega) next
    · rw [if_neg hit] at count
      have flags : (has (pteOf m d i) PTE_P && has (pteOf m d i) PTE_U && has (pteOf m d i) PTE_A) =
        false := Bool.eq_false_iff.mpr hit
      rw [if_neg (fun clears => hit clears.1)] at next
      rw [flags]
      dsimp only
      rw [show rank m d i = rank m d (i + 1) from count.symm]
      exact ih (by omega) next

/-! ## final_page -/

theorem evictable_eq (w : Word) : evictable w = (resident w && !has w PTE_A) := rfl

theorem touched_eq (w : Word) : touched w = (resident w && has w PTE_A) := rfl

theorem evictable_cleared {w : Word} (hit : touched w = true) :
    evictable (w &&& ~~~PTE_A) = true := by
  have idle := SameEntry.idle w
  unfold touched at hit
  simp only [Bool.and_eq_true] at hit
  unfold evictable
  rw [idle.present, hit.1.1, has_U, idle.bit (by decide), ← has_U, hit.1.2, has_A,
    BitVec.getLsbD_and, show BitVec.getLsbD (~~~PTE_A) 5 = false by decide, Bool.and_false]
  rfl

theorem clears_first (hit : touched (pteOf m d u) = true)
    (first : ∀ w, w < u → touched (pteOf m d w) = false) : Clears m d u := by
  refine ⟨hit, ?_⟩
  have none : rank m d u = 0 := by
    unfold rank
    rw [List.countP_eq_zero]
    intro w member
    rw [first w (List.mem_range.mp member)]
    exact Bool.false_ne_true
  rw [none]

/-- Where the victim goes through with both passes: it then has a page to give exactly
if it has a user page in memory. -/
theorem Flushed.gives (flushed : Flushed m m' d n) (tabled : Tabled m d n)
    (none : ∀ u, u < n → evictable (Xv6Cow.pteOf m d u) = false) :
    (∃ u, u < n ∧ evictable (Xv6Cow.pteOf m' d u) = true) ↔
      ∃ u, u < n ∧ resident (Xv6Cow.pteOf m d u) = true := by
  classical
  constructor
  · rintro ⟨u, below, hit⟩
    refine ⟨u, below, ?_⟩
    rw [flushed.pteOf tabled (Nat.le_refl n) below] at hit
    split at hit
    · rename_i clears
      have both := clears.2.1
      rw [touched_eq, Bool.and_eq_true] at both
      exact both.1
    · rw [none u below] at hit
      cases hit
  · intro some
    obtain ⟨below, present⟩ := Nat.find_spec some
    have hit : touched (Xv6Cow.pteOf m d (Nat.find some)) = true := by
      have unused := none _ below
      rw [evictable_eq, present, Bool.true_and, Bool.not_eq_false'] at unused
      rw [touched_eq, present, unused]
      rfl
    have first : ∀ w, w < Nat.find some → touched (Xv6Cow.pteOf m d w) = false := by
      intro w before
      refine Bool.eq_false_iff.mpr fun also => Nat.find_min some before ⟨by omega, ?_⟩
      rw [touched_eq, Bool.and_eq_true] at also
      exact also.1
    refine ⟨Nat.find some, below, ?_⟩
    rw [flushed.pteOf tabled (Nat.le_refl n) below, if_pos ⟨below, clears_first hit first⟩]
    exact evictable_cleared hit

theorem Flushed.tabled (flushed : Flushed m m' d n) (tabled : Tabled m d n) : Tabled m' d n := by
  have tables : ∀ i, tablePage m' d i = tablePage m d i :=
    tablePage_congr (flushed.dir tabled (Nat.le_refl n))
  refine ⟨tabled.dir, tabled.user, fun u below => ?_, fun u v low low' => ?_⟩
  · rw [tables]
    exact tabled.table u below
  · rw [tables, tables]
    exact tabled.apart u v low low'

theorem Flushed.ptrOf (flushed : Flushed m m' d n) (tabled : Tabled m d n) (u : Nat) :
    ptrOf m' d u = Xv6Cow.ptrOf m d u := by
  unfold Xv6Cow.ptrOf
  rw [tablePage_congr (flushed.dir tabled (Nat.le_refl n))]

/-- The process has been charged for the page it is about to lose. -/
def lowerRss (s : Kernel) (p : Fin NPROC) : Kernel :=
  setProc s p { s.ptable p with rss := (s.ptable p).rss - BitVec.ofNat 32 PGSIZE }

/-- What final_page returns for the victim `p`, and the entries it leaves. -/
structure Found (s t : Kernel) (d n : Nat) (pte : Option PtePtr) : Prop where
  complete : pte.isSome = true ↔ ∃ u, u < n ∧ resident (pteOf s.mem d u) = true
  lowest : ∀ ptr, pte = some ptr → ∃ u, u < n ∧ ptrOf s.mem d u = some ptr ∧
    evictable (pteOf t.mem d u) = true ∧ ∀ w, w < u → evictable (pteOf t.mem d w) = false
  unchanged : (∃ u, u < n ∧ evictable (pteOf s.mem d u) = true) → t.mem = s.mem
  flushed : (∀ u, u < n → evictable (pteOf s.mem d u) = false) → Flushed s.mem t.mem d n

/-- For every victim each of whose pages has an entry, final_page returns the lowest user
page in memory that was not accessed. It finds one exactly if a user page is in memory:
where all were accessed it first clears PTE_A on the 1st, 11th, 21st, ... of them, a tenth
rounded up, and on nothing else. -/
theorem final_page_exact (chosen : getVictimProcess s = some p)
    (tabled : Tabled s.mem (s.ptable p).pgdir (pagesOf (s.ptable p).sz)) :
    ∃ pte mem, finalPage s = .ok ((p, pte), { lowerRss s p with mem := mem }) ∧
      Found s { s with mem := mem } (s.ptable p).pgdir (pagesOf (s.ptable p).sz) pte ∧
      (List.range (pagesOf (s.ptable p).sz)).countP (fun u => Clears s.mem (s.ptable p).pgdir u) =
        (rank s.mem (s.ptable p).pgdir (pagesOf (s.ptable p).sz) + 9) / 10 := by
  obtain ⟨first, searched, missed, lowest⟩ := victimPage_lowest (s := lowerRss s p) tabled
  obtain ⟨next, begins, found, missing⟩ : ∃ next : Option PtePtr → K (Fin NPROC × Option PtePtr),
      finalPage s = (getVictimPage (s.ptable p) >>= next) (lowerRss s p) ∧
      (∀ ptr, next (some ptr) = pure (p, some ptr)) ∧
      next none = (do
        flushTable (s.ptable p)
        let pte ← getVictimPage (s.ptable p)
        pure (p, pte)) := by
    unfold finalPage
    rw [Prog.read_bind, chosen]
    exact ⟨_, rfl, fun _ => rfl, rfl⟩
  rw [begins, getVictimPage, bind_of_ok searched]
  cases first with
  | some ptr =>
    obtain ⟨u, below, place, hit, before⟩ := lowest ptr rfl
    rw [found]
    refine ⟨some ptr, s.mem, rfl, ⟨⟨fun _ => ⟨u, below, ?_⟩, fun _ => rfl⟩, lowest, fun _ => rfl,
      fun unused => ?_⟩, countP_clears _ _ _⟩
    · have candidate := hit
      rw [evictable_eq, Bool.and_eq_true] at candidate
      exact candidate.1
    · have missing := unused u below
      rw [show pteOf s.mem (s.ptable p).pgdir u = pteOf (lowerRss s p).mem
        (s.ptable p).pgdir u from rfl, hit] at missing
      cases missing
  | none =>
    have unused : ∀ u, u < pagesOf (s.ptable p).sz →
        evictable (pteOf s.mem (s.ptable p).pgdir u) = false := missed rfl
    have untouched : Flushed s.mem (lowerRss s p).mem (s.ptable p).pgdir 0 :=
      ⟨fun _ _ low => absurd low (Nat.not_lt_zero _), fun _ _ => rfl⟩
    obtain ⟨mem, ran, flushed⟩ := flushFrom_exact tabled (Nat.zero_add _) untouched
    rw [show rank s.mem (s.ptable p).pgdir 0 = 0 from rfl, Nat.zero_mod] at ran
    obtain ⟨second, again, missed', lowest'⟩ :=
      victimPage_lowest (s := { lowerRss s p with mem := mem }) (flushed.tabled tabled)
    refine ⟨second, mem, ?_, ⟨?_, fun ptr same => ?_, fun some => ?_, fun _ => flushed⟩,
      countP_clears _ _ _⟩
    · rw [missing, flushTable, bind_of_ok ran]
      exact bind_of_ok again
    · rw [← flushed.gives tabled unused]
      constructor
      · intro found
        obtain ⟨ptr, rfl⟩ := Option.isSome_iff_exists.mp found
        obtain ⟨u, below, -, hit, -⟩ := lowest' ptr rfl
        exact ⟨u, below, hit⟩
      · rintro ⟨u, below, hit⟩
        cases second with
        | some ptr => rfl
        | none =>
          have missing := missed' rfl u below
          dsimp only at missing
          rw [hit] at missing
          cases missing
    · obtain ⟨u, below, place, hit, before⟩ := lowest' ptr same
      exact ⟨u, below, (flushed.ptrOf tabled u).symm.trans place, hit, before⟩
    · obtain ⟨u, below, hit⟩ := some
      rw [unused u below] at hit
      cases hit

local instance entries : NeZero 1024 := ⟨by decide⟩

/-- One process with one page, which was accessed: its directory is page 300, its page
table page 301. -/
def onePage : Kernel :=
  { mem := fun q i =>
      if q = 300 ∧ i = 0 then pageWord 301 ||| PTE_P ||| PTE_W ||| PTE_U
      else if q = 301 ∧ i = 0 then pageWord 302 ||| PTE_P ||| PTE_W ||| PTE_U ||| PTE_A
      else 0#32
    pageToRefcnt := fun _ => 1
    freelist := []
    numFreePages := 0
    swapSlots := fun i => ⟨true, 0#32, SWAPBASE + i * BPPAGE, 1⟩
    disk := fun _ _ => 0#32
    ptable := fun p =>
      if p = 0 then ⟨PGSIZE, BitVec.ofNat 32 PGSIZE, 300, 0, .running, 1, none, false⟩
      else ⟨0, 0#32, 0, 0, .unused, 0, none, false⟩
    nextpid := 2
    initproc := some 0
    kpgdir := 299
    pipes := []
    log := [] }

theorem onePage_victim : getVictimProcess onePage = some 0 := by
  refine victim_of_top (fun q other => ?_) (by decide)
  change (if q = 0 then _ else _ : Proc).rss < _
  rw [if_neg other]
  decide

theorem onePage_tabled :
    Tabled onePage.mem (onePage.ptable 0).pgdir (pagesOf (onePage.ptable 0).sz) := by
  have one : pagesOf (onePage.ptable 0).sz = 1 := by decide
  rw [one]
  refine ⟨by decide, by decide, fun u below => ⟨301, by decide, ?_, by decide⟩,
    fun u v low low' _ => ?_⟩
  · obtain rfl : u = 0 := by omega
    decide
  · obtain rfl : u = 0 := by omega
    obtain rfl : v = 0 := by omega
    rfl

/-- The flush clears PTE_A on the one page, which is then the victim. -/
theorem final_page_exact_one : ∃ pte mem,
    finalPage onePage = .ok ((0, pte), { lowerRss onePage 0 with mem := mem }) ∧
      pte.isSome = true ∧ Flushed onePage.mem mem 300 1 := by
  obtain ⟨pte, mem, ran, found, -⟩ := final_page_exact onePage_victim onePage_tabled
  have one : pagesOf (onePage.ptable 0).sz = 1 := by decide
  rw [one] at found
  refine ⟨pte, mem, ran, found.complete.mpr ⟨0, by decide, by decide⟩,
    found.flushed fun u below => ?_⟩
  obtain rfl : u = 0 := by omega
  decide

end Xv6Cow
