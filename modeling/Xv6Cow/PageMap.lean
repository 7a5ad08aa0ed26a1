import Xv6Cow.Release

/- mappages and deallocuvm as loops over 32-bit addresses, against the map from page
numbers to entries that a page directory stands for. The functions of the same names
outside this namespace, which the rest of the kernel's model calls, count pages. -/
namespace Xv6Cow

variable {s t : Kernel} {d v q n : Nat} {p : Fin NPROC} {perm pa : Word}

namespace Words

/-- The page number in an address. -/
def pageNo (a : Word) : BitVec 20 := a.extractLsb' 12 20

theorem toNat_pageNo (a : Word) : (pageNo a).toNat = a.toNat / PGSIZE := by
  have small := a.isLt
  unfold pageNo
  rw [BitVec.extractLsb'_toNat, Nat.shiftRight_eq_div_pow, PGSIZE_eq]
  omega

/-! ## mappages -/

/-- The loop of mappages at page `a`. Both `a` and `pa` wrap around. -/
def mapFrom (pgdir : Nat) (perm : Word) (last a : BitVec 20) (pa : Word) : K Unit := do
  mapEntry pgdir a.toNat (pa ||| perm ||| PTE_P)
  if a = last then pure () else mapFrom pgdir perm last (a + 1#20) (pa + 4096#32)
termination_by (last - a).toNat
decreasing_by
  rename_i other
  bv_omega

def mappages (pgdir : Nat) (va size pa perm : Word) : K Unit :=
  mapFrom pgdir perm (pageNo (va + size - 1#32)) (pageNo va) pa

theorem toNat_last {va size : Word} (some' : 1 ≤ size.toNat)
    (fits : va.toNat + size.toNat - 1 < 4294967296) :
    (pageNo (va + size - 1#32)).toNat = (va.toNat + size.toNat - 1) / PGSIZE := by
  rw [toNat_pageNo, BitVec.toNat_sub, BitVec.toNat_add]
  change (4294967296 - 1 + (va.toNat + size.toNat) % 4294967296) % 4294967296 / PGSIZE = _
  rw [show (4294967296 - 1 + (va.toNat + size.toNat) % 4294967296) % 4294967296 =
    va.toNat + size.toNat - 1 by omega]

theorem pageWord_succ (q : Nat) : pageWord q + 4096#32 = pageWord (q + 1) := by
  unfold pageWord
  rw [Nat.add_mul, BitVec.ofNat_add]
  rfl

theorem mapFrom_eq {last a : BitVec 20} (order : a.toNat ≤ last.toNat) (q : Nat) :
    mapFrom d perm last a (pageWord q) = mapLoop d perm (last.toNat - a.toNat + 1) a.toNat q := by
  induction remaining : last.toNat - a.toNat generalizing a q with
  | zero =>
    rw [mapFrom, if_pos (BitVec.eq_of_toNat_eq (by omega))]
    rfl
  | succ n ih =>
    have next : (a + 1#20).toNat = a.toNat + 1 := by bv_omega
    rw [mapFrom, if_neg (by rintro rfl; omega), pageWord_succ, ih (by omega) _ (by omega), next]
    rfl

/-- On aligned physical addresses, the loop over addresses counts pages. -/
theorem mappages_eq_pages {va size : Word} (some' : 1 ≤ size.toNat)
    (fits : va.toNat + size.toNat - 1 < 4294967296) (aligned : pa.toNat % PGSIZE = 0) :
    mappages d va size pa perm = Xv6Cow.mappages d va.toNat size.toNat pa.toNat perm := by
  have page : pa = pageWord (pa.toNat / PGSIZE) := by
    unfold pageWord
    rw [Nat.div_mul_cancel (Nat.dvd_of_mod_eq_zero aligned), BitVec.ofNat_toNat, BitVec.setWidth_eq]
  have order : (pageNo va).toNat ≤ (pageNo (va + size - 1#32)).toNat := by
    rw [toNat_last some' fits, toNat_pageNo]
    exact Nat.div_le_div_right (by omega)
  unfold mappages Xv6Cow.mappages
  conv => lhs; rw [page]
  rw [mapFrom_eq order, toNat_last some' fits, toNat_pageNo]

/-- The entry page `w` gets from a loop that starts at page `a`. -/
def entryFrom (pa perm : Word) (a w : Nat) : Word :=
  (pa + BitVec.ofNat 32 ((w - a) * PGSIZE)) ||| perm ||| PTE_P

theorem entryFrom_self (pa perm : Word) (a : Nat) :
    entryFrom pa perm a a = pa ||| perm ||| PTE_P := by
  unfold entryFrom
  rw [Nat.sub_self, Nat.zero_mul, BitVec.add_zero]

theorem entryFrom_succ (pa perm : Word) {a w : Nat} (later : a < w) :
    entryFrom (pa + 4096#32) perm (a + 1) w = entryFrom pa perm a w := by
  unfold entryFrom
  rw [show w - a = 1 + (w - (a + 1)) by omega, Nat.add_mul, BitVec.ofNat_add, ← BitVec.add_assoc]
  rfl

/-- With pages enough for the tables it needs, the loop sets the entries of its range
and no others. -/
theorem mapFrom_tree {last a : BitVec 20} (order : a.toNat ≤ last.toNat) (tree : Tree s.mem d)
    (spare : Spare s d)
    (vacant : ∀ w, a.toNat ≤ w → w ≤ last.toNat → has (pteOf s.mem d w) PTE_P = false)
    (room : (missing s.mem d a.toNat (last.toNat - a.toNat + 1)).card ≤ s.freelist.length) :
    ∃ t used, mapFrom d perm last a pa s = .ok ((), t) ∧ Carves s t d used ∧ Tree t.mem d ∧
      ∀ w, w < NVPAGE → pteOf t.mem d w =
        if a.toNat ≤ w ∧ w ≤ last.toNat then entryFrom pa perm a.toNat w else pteOf s.mem d w := by
  have small : a.toNat < NVPAGE := a.isLt
  induction remaining : last.toNat - a.toNat generalizing a pa s with
  | zero =>
    have done : a = last := BitVec.eq_of_toNat_eq (by omega)
    obtain ⟨t, used, mapped, carves, tree', -, -, -, -, entries⟩ := @mapEntry_tree
      _ _ _ (pa ||| perm ||| PTE_P) tree spare small (vacant _ (Nat.le_refl _) order)
      (nonempty_of_missing room)
    refine ⟨t, used, ?_, carves, tree', ?_⟩
    · rw [mapFrom, Prog.bind_of_ok mapped, if_pos done]
      rfl
    · intro w inside
      rw [entries w inside]
      by_cases here : w = a.toNat
      · rw [if_pos here, if_pos (by omega), here, entryFrom_self]
      · rw [if_neg here, if_neg (by omega)]
  | succ n ih =>
    have next : (a + 1#20).toNat = a.toNat + 1 := by bv_omega
    obtain ⟨r, used, mapped, carves, tree', spare', count, table, tables, entries⟩ := @mapEntry_tree
      _ _ _ (pa ||| perm ||| PTE_P) tree spare small (vacant _ (Nat.le_refl _) order)
      (nonempty_of_missing room)
    have fewer := missing_succ (n := last.toNat - (a + 1#20).toNat + 1) table tables
    have left := congrArg List.length carves.freelist
    rw [List.length_append, count] at left
    rw [show last.toNat - (a + 1#20).toNat + 1 + 1 = last.toNat - a.toNat + 1 by omega] at fewer
    obtain ⟨t, more, rest, carves', tree'', entries'⟩ := @ih r (pa + 4096#32) (a + 1#20)
      (by omega) tree' spare'
      (fun w low high => by
        rw [next] at low
        rw [entries w (by have := last.isLt; rw [NVPAGE_eq]; omega), if_neg (by omega)]
        exact vacant w (by omega) high)
      (by rw [next] at fewer ⊢; omega) (a + 1#20).isLt (by omega)
    refine ⟨t, used ++ more, ?_, carves.trans carves', tree'', ?_⟩
    · rw [mapFrom, Prog.bind_of_ok mapped, if_neg (by rintro rfl; omega)]
      exact rest
    · intro w inside
      rw [entries' w inside, next, entries w inside]
      by_cases here : w = a.toNat
      · rw [if_neg (by omega), if_pos here, if_pos (by omega), here, entryFrom_self]
      · rw [if_neg here]
        by_cases later : a.toNat < w ∧ w ≤ last.toNat
        · rw [if_pos (by omega), if_pos (by omega), entryFrom_succ pa perm later.1]
        · rw [if_neg (by omega), if_neg (by omega)]

/-! ## deallocuvm -/

def PDX (a : Word) : Word := a >>> 22 &&& 0x3FF#32

def PGADDR (dir table offset : Word) : Word := dir <<< 22 ||| table <<< 12 ||| offset

def PGROUNDUP (sz : Word) : Word := (sz + 4095#32) &&& ~~~4095#32

/-- What the loop of deallocuvm sets `a` to where there is no page table: the next
directory entry, less the page the loop adds. -/
def skip (a : Word) : Word := PGADDR (PDX a + 1#32) 0#32 0#32 - 4096#32

theorem toNat_PDX (a : Word) : (PDX a).toNat = a.toNat / 4194304 := by
  have small := a.isLt
  unfold PDX
  rw [BitVec.toNat_and, BitVec.toNat_ushiftRight, Nat.shiftRight_eq_div_pow]
  change a.toNat / 2 ^ 22 &&& (2 ^ 10 - 1) = _
  rw [Nat.and_two_pow_sub_one_eq_mod]
  omega

theorem toNat_skip {a : Word} (low : a.toNat < KERNBASE) :
    (skip a + 4096#32).toNat = (a.toNat / 4194304 + 1) * 4194304 := by
  change a.toNat < 2147483648 at low
  unfold skip PGADDR
  rw [BitVec.sub_add_cancel, BitVec.zero_shiftLeft, BitVec.or_zero, BitVec.or_zero,
    BitVec.toNat_shiftLeft, BitVec.toNat_add, toNat_PDX, Nat.shiftLeft_eq]
  change (a.toNat / 4194304 + 1) % 4294967296 * 4194304 % 4294967296 = _
  omega

theorem toNat_next {a : Word} (low : a.toNat < KERNBASE) :
    (a + 4096#32).toNat = a.toNat + 4096 := by
  change a.toNat < 2147483648 at low
  rw [BitVec.toNat_add]
  change (a.toNat + 4096) % 4294967296 = _
  omega

theorem andNot_offset (a : Word) : a &&& ~~~4095#32 = a >>> 12 <<< 12 := by
  have offset : ∀ i : Fin 32, (4095#32).getLsbD i.val = decide (i.val < 12) := by decide
  apply BitVec.eq_of_getLsbD_eq
  intro i bound
  rw [BitVec.getLsbD_and, BitVec.getLsbD_not, offset ⟨i, bound⟩, BitVec.getLsbD_shiftLeft,
    BitVec.getLsbD_ushiftRight]
  by_cases low : i < 12
  · simp only [low, decide_true, Bool.not_true, Bool.and_false, Bool.false_and]
  · rw [show 12 + (i - 12) = i by omega]
    simp only [bound, low, decide_true, decide_false, Bool.not_false, Bool.true_and, Bool.and_true]

theorem toNat_PGROUNDUP {sz : Word} (small : sz.toNat ≤ KERNBASE) :
    (PGROUNDUP sz).toNat = pagesOf sz.toNat * PGSIZE := by
  change sz.toNat ≤ 2147483648 at small
  unfold PGROUNDUP
  rw [andNot_offset, BitVec.toNat_shiftLeft, BitVec.toNat_ushiftRight, BitVec.toNat_add,
    Nat.shiftLeft_eq, Nat.shiftRight_eq_div_pow]
  change (sz.toNat + 4095) % 4294967296 / 4096 * 4096 % 4294967296 = _
  rw [pagesOf, PGSIZE_eq]
  omega

/-- A size that fits below the kernel. -/
abbrev UserSize := { sz : Word // sz.toNat ≤ KERNBASE }

theorem skip_closer {oldsz : UserSize} {a : Word} (below : a < oldsz.val) :
    oldsz.val.toNat - (skip a + 4096#32).toNat < oldsz.val.toNat - a.toNat := by
  have less : a.toNat < oldsz.val.toNat := below
  rw [toNat_skip (less.trans_le oldsz.property)]
  omega

theorem next_closer {oldsz : UserSize} {a : Word} (below : a < oldsz.val) :
    oldsz.val.toNat - (a + 4096#32).toNat < oldsz.val.toNat - a.toNat := by
  have less : a.toNat < oldsz.val.toNat := below
  rw [toNat_next (less.trans_le oldsz.property)]
  omega

/-- The loop of deallocuvm at address `a`. -/
def deallocFrom (p : Fin NPROC) (swapped : PtePtr → K Unit) (pgdir : Nat) (oldsz : UserSize)
    (a : Word) : K Unit :=
  if a < oldsz.val then do
    let pte ← walkpgdirNoAlloc pgdir (pageNo a).toNat
    match pte with
    | none => deallocFrom p swapped pgdir oldsz (skip a + 4096#32)
    | some ptr => do
      deallocEntry p swapped ptr
      deallocFrom p swapped pgdir oldsz (a + 4096#32)
  else pure ()
-- As a pair, the measure is not unfolded when the equation of the loop is proved.
termination_by (oldsz.val.toNat - a.toNat, 0)
decreasing_by
  · exact Prod.Lex.left _ _ (skip_closer ‹_›)
  · exact Prod.Lex.left _ _ (next_closer ‹_›)

def deallocuvm (p : Fin NPROC) (pgdir : Nat) (oldsz : UserSize) (newsz : Word) : K Word :=
  if oldsz.val ≤ newsz then pure oldsz.val
  else do
    deallocFrom p dropSwapped pgdir oldsz (PGROUNDUP newsz)
    pure newsz

theorem below_iff {oldsz : UserSize} {a : Word} (page : a.toNat = v * PGSIZE) :
    a < oldsz.val ↔ v < pagesOf oldsz.val.toNat := by
  rw [BitVec.lt_def, page, pagesOf, PGSIZE_eq]
  omega

/-- The loop over addresses visits the pages that the loop over page numbers visits. -/
theorem deallocFrom_eq {swapped : PtePtr → K Unit} {oldsz : UserSize} {a : Word}
    (page : a.toNat = v * PGSIZE) :
    deallocFrom p swapped d oldsz a = deallocLoop p swapped d (pagesOf oldsz.val.toNat) v := by
  induction remaining : pagesOf oldsz.val.toNat - v using Nat.strongRecOn generalizing v a with
  | ind n ih =>
    rw [deallocFrom, deallocLoop]
    by_cases less : a < oldsz.val
    · have before := (below_iff page).mp less
      have low : a.toNat < KERNBASE := Nat.lt_of_lt_of_le less oldsz.property
      have here : (pageNo a).toNat = v := by
        rw [toNat_pageNo, page, Nat.mul_div_cancel _ (by decide)]
      have skipped : (skip a + 4096#32).toNat = (v / 1024 + 1) * 1024 * PGSIZE := by
        rw [toNat_skip low, page, PGSIZE_eq]
        omega
      have next : (a + 4096#32).toNat = (v + 1) * PGSIZE := by
        rw [toNat_next low, page, PGSIZE_eq]
        omega
      rw [if_pos less, if_pos before, here]
      refine congrArg (walkpgdirNoAlloc d v >>= ·) (funext fun pte => ?_)
      cases pte with
      | none => exact ih _ (by omega) skipped rfl
      | some ptr => rw [ih _ (by omega) next rfl]
    · rw [if_neg less, if_neg (fun before => less ((below_iff page).mpr before))]

/-- A loop that visits each of `n` pages from `v` on. -/
def visitEach (p : Fin NPROC) (swapped : PtePtr → K Unit) (pgdir : Nat) : Nat → Nat → K Unit
  | 0, _ => pure ()
  | n + 1, v => do
    let pte ← walkpgdirNoAlloc pgdir v
    match pte with
    | none => visitEach p swapped pgdir n (v + 1)
    | some ptr => do
      deallocEntry p swapped ptr
      visitEach p swapped pgdir n (v + 1)

theorem visitEach_skip {swapped : PtePtr → K Unit} {k : Nat} (inside : d < NPHYS)
    (absent : ∀ w, v ≤ w → w < v + k → tablePage s.mem d (pdx w) = none) :
    visitEach p swapped d (n + k) v s = visitEach p swapped d n (v + k) s := by
  induction k generalizing v with
  | zero => rfl
  | succ k ih =>
    have walked := walk_of_none inside (absent v (Nat.le_refl v) (by omega))
    rw [← Nat.add_assoc, visitEach, Prog.bind_of_ok walked]
    dsimp only
    rw [ih (fun w low high => absent w (by omega) (by omega)), Nat.add_assoc v 1 k,
      Nat.add_comm 1 k]

/-- The jump over an absent page table passes over absent pages only. -/
theorem deallocLoop_eq_visitEach {swapped : PtePtr → K Unit} {last : Nat} (s : Kernel) :
    deallocLoop p swapped d last v s = visitEach p swapped d (last - v) v s := by
  induction remaining : last - v using Nat.strongRecOn generalizing v s with
  | ind n ih =>
    rw [deallocLoop, Prog.ite_apply]
    by_cases before : v < last
    · obtain ⟨k, rfl⟩ : ∃ k, n = k + 1 := ⟨n - 1, by omega⟩
      rw [if_pos before, visitEach]
      apply Prog.bind_congr
      intro pte r walked
      cases pte with
      | none =>
        obtain ⟨inside, -, -⟩ := walkpgdirNoAlloc_ok_iff.mp walked
        obtain ⟨rfl, absent⟩ := walk_none walked
        have skipped :
            ∀ w, v + 1 ≤ w → w < (v / 1024 + 1) * 1024 → tablePage r.mem d (pdx w) = none := by
          intro w low high
          rw [show pdx w = pdx v from Fin.ext (by simp only [pdx]; omega)]
          exact absent
        dsimp only
        rw [ih _ (by omega) r rfl]
        by_cases more : (v / 1024 + 1) * 1024 ≤ last
        · rw [show k = last - (v / 1024 + 1) * 1024 + ((v / 1024 + 1) * 1024 - (v + 1)) by omega,
            visitEach_skip inside (fun w low high => skipped w low (by omega)),
            show v + 1 + ((v / 1024 + 1) * 1024 - (v + 1)) = (v / 1024 + 1) * 1024 by omega]
        · rw [show last - (v / 1024 + 1) * 1024 = 0 by omega, ← Nat.zero_add k,
            visitEach_skip inside (fun w low high => skipped w low (by omega))]
          rfl
      | some ptr =>
        apply Prog.bind_congr
        intro _ r' _
        exact ih _ (by omega) r' (by omega)
    · rw [if_neg before, show n = 0 by omega]
      rfl

theorem deallocuvm_eq {oldsz : UserSize} {newsz : Word} (less : newsz < oldsz.val) :
    deallocuvm p d oldsz newsz = (do
      deallocLoop p dropSwapped d (pagesOf oldsz.val.toNat) (pagesOf newsz.toNat)
      pure newsz) := by
  have below : newsz.toNat < oldsz.val.toNat := less
  have size := oldsz.property
  have shrinks : ¬ oldsz.val ≤ newsz := by
    rw [BitVec.le_def]
    omega
  unfold deallocuvm
  rw [if_neg shrinks, deallocFrom_eq (toNat_PGROUNDUP (by omega))]

/-- In any state where directory `d` is a tree of distinct pages apart from the free list,
mappages with pages enough for the tables it needs sets the entries of its range and no
others. deallocuvm does what visiting every page does, and frees and zeroes the present
pages of its range exactly when none is swapped out. -/
theorem page_tables_are_maps (tree : Tree s.mem d) (spare : Spare s d) (counts : NoDiskCounts s) :
    (∀ va size pa perm : Word, 1 ≤ size.toNat → va.toNat + size.toNat - 1 < 4294967296 →
      (pa.toNat % PGSIZE = 0 →
        mappages d va size pa perm = Xv6Cow.mappages d va.toNat size.toNat pa.toNat perm) ∧
      ((∀ w, va.toNat / PGSIZE ≤ w → w ≤ (va.toNat + size.toNat - 1) / PGSIZE →
          has (pteOf s.mem d w) PTE_P = false) →
        (missing s.mem d (va.toNat / PGSIZE)
          ((va.toNat + size.toNat - 1) / PGSIZE - va.toNat / PGSIZE + 1)).card ≤ s.freelist.length →
        ∃ t used, mappages d va size pa perm s = .ok ((), t) ∧ Carves s t d used ∧ Tree t.mem d ∧
          ∀ w, w < NVPAGE → pteOf t.mem d w =
            if va.toNat / PGSIZE ≤ w ∧ w ≤ (va.toNat + size.toNat - 1) / PGSIZE
            then entryFrom pa perm (va.toNat / PGSIZE) w else pteOf s.mem d w)) ∧
    ∀ (p : Fin NPROC) (oldsz : UserSize) (newsz : Word), newsz < oldsz.val →
      Backed s.mem d (pagesOf newsz.toNat) (pagesOf oldsz.val.toNat) →
      deallocuvm p d oldsz newsz s = (do
        visitEach p dropSwapped d (pagesOf oldsz.val.toNat - pagesOf newsz.toNat)
          (pagesOf newsz.toNat)
        pure newsz : K Word) s ∧
      ((∃ t, deallocuvm p d oldsz newsz s = .ok (newsz, t) ∧
          Vacated p d (pagesOf newsz.toNat) (pagesOf oldsz.val.toNat) s t) ↔
        Unswapped s.mem d (pagesOf newsz.toNat) (pagesOf oldsz.val.toNat)) := by
  refine ⟨fun va size pa perm some' fits => ⟨mappages_eq_pages some' fits, ?_⟩, ?_⟩
  · intro vacant room
    have last := toNat_last some' fits
    have first := toNat_pageNo va
    rw [← last, ← first] at vacant room ⊢
    refine mapFrom_tree ?_ tree spare vacant room
    rw [last, first]
    exact Nat.div_le_div_right (by omega)
  · intro p oldsz newsz less backed
    have wide : pagesOf oldsz.val.toNat ≤ NVPAGE :=
      (pagesOf_le oldsz.property).trans (by decide)
    rw [deallocuvm_eq less]
    refine ⟨?_, ?_, ?_⟩
    · rw [Prog.bind_apply, Prog.bind_apply, deallocLoop_eq_visitEach]
    · rintro ⟨t, down, -⟩
      rw [Prog.bind_ok_iff] at down
      obtain ⟨_, r, looped, -⟩ := down
      exact unswapped_of_deallocLoop_tree tree wide backed counts looped
    · intro plain
      obtain ⟨t, looped, vacated⟩ := deallocLoop_tree (p := p) dropSwapped tree wide backed plain
      exact ⟨t, Prog.bind_of_ok looped, vacated⟩

/-- After boot, the first process's directory gets a device page below the first table's
end, and gives up the process's only page. -/
theorem page_tables_are_maps_first : ∃ s d, Reachable CleanStep s ∧ d = (s.ptable 0).pgdir ∧
    (∃ t used, mappages d 4096#32 1#32 0xFE000000#32 PTE_W s = .ok ((), t) ∧ Carves s t d used ∧
      pteOf t.mem d 1 = 0xFE000003#32) ∧
    ∃ t, deallocuvm 0 d ⟨4096#32, by decide⟩ 0#32 s = .ok (0#32, t) ∧ Vacated 0 d 0 1 s t := by
  obtain ⟨g, k, d, q, s, booted, facts⟩ := boot_ok (fun _ => zeroPage) (fun _ _ => 0#32)
  obtain ⟨runs, size, dir⟩ := facts.runs
  have settled := facts.roomy.sound.settled
  have rep := settled.rep
  have live := canRun_live runs
  have inside := settled.inside live
  rw [dir] at inside
  obtain ⟨maps, unmaps⟩ := page_tables_are_maps (rep.tree inside) (rep.spare inside)
    (fun _ => rep.slots.untouched)
  refine ⟨s, d, ⟨_, _, s, _, booted, .nil⟩, dir.symm, ?_, ?_⟩
  · have vacant := rep.vacant inside (v := 1) (by decide)
      (by rw [← dir]; exact settled.census.ends live 1 (by rw [size]; decide) (by decide))
    obtain ⟨t, used, mapped, carves, -, entries⟩ :=
      (maps 4096#32 1#32 0xFE000000#32 PTE_W (by decide)
      (by decide)).2
      (fun w low high => by
        change 1 ≤ w at low
        change w ≤ 1 at high
        rw [show w = 1 by omega, vacant]
        decide)
      ((missing_le _ _ _ _).trans (by rw [facts.room]; decide))
    refine ⟨t, used, mapped, carves, ?_⟩
    rw [entries 1 (by decide), if_pos (by decide)]
    decide
  · refine ((unmaps 0 ⟨4096#32, by decide⟩ 0#32 (by decide) (rep.backed inside _ (by decide))).2.mpr
      ?_)
    intro u _ high
    change u < 1 at high
    have present := (Bool.and_eq_true_iff.mp facts.accessible).1
    rw [dir] at present
    rw [show u = 0 by omega]
    unfold isSwapped
    rw [present]
    rfl

/-- Memory is full and the first page of a process is swapped out: giving it up stops the
kernel, though its directory is a tree of distinct pages apart from the free list. -/
theorem deallocuvm_stops_at_swapped : ∃ s, Reachable CleanStep s ∧ (s.ptable 0).live = true ∧
    Tree s.mem (s.ptable 0).pgdir ∧ Spare s (s.ptable 0).pgdir ∧
    Backed s.mem (s.ptable 0).pgdir 0 1 ∧
    isSwapped (pteOf s.mem (s.ptable 0).pgdir 0) = true ∧
    deallocuvm 0 (s.ptable 0).pgdir ⟨4096#32, by decide⟩ 0#32 s =
    .error (.panic "refcnt already 0\n") := by
  obtain ⟨d, kstack, f, s, full, -⟩ := full_more 1 (by decide)
  obtain ⟨g, sound⟩ := full.sound
  have rep := sound.settled.rep
  have inside := sound.settled.inside full.live
  obtain ⟨swapped, -⟩ := full.isSwapped (v := 0) (by decide) (by decide)
  have stopped : deallocLoop 0 dropSwapped (s.ptable 0).pgdir 1 0 s = .error _ :=
    deallocLoop_panics rep inside (by decide) (by decide) swapped
  refine ⟨s, full.reachable, full.live, rep.tree inside, rep.spare inside,
    rep.backed inside 0 (by decide),
    swapped, ?_⟩
  rw [deallocuvm_eq (by decide)]
  exact Prog.bind_of_error stopped

end Words

end Xv6Cow
