import Xv6Cow.Copying

/- Page directories as trees of pages, in any state of memory: what walkpgdir, the
round of mappages and the loop of deallocuvm do to the map a directory stands for,
as long as its page tables are distinct pages and the free list is apart from it. -/
namespace Xv6Cow

open Function (update_self update_of_ne)
open Prog (bind_ok_iff bind_of_ok)

variable {s t u : Kernel} {m : Nat → Page} {d v q x lo mid hi : Nat} {word : Word} {p : Fin NPROC}

/-- The page tables of directory `d` are pages of memory, distinct from each other and
from the directory. -/
structure Tree (m : Nat → Page) (d : Nat) : Prop where
  dir : d < NPHYS
  table : ∀ {i x}, tablePage m d i = some x → x < NPHYS ∧ x ≠ d
  apart : ∀ {i j x}, tablePage m d i = some x → tablePage m d j = some x → i = j

/-- The pages on the free list are distinct and no part of directory `d`. -/
structure Spare (s : Kernel) (d : Nat) : Prop where
  nodup : s.freelist.Nodup
  small : ∀ {q}, q ∈ s.freelist → q < NPHYS
  dir : d ∉ s.freelist
  table : ∀ {i x}, tablePage s.mem d i = some x → x ∉ s.freelist

namespace Tree

theorem of_tables {m' : Nat → Page} (tree : Tree m d)
    (same : ∀ i, tablePage m' d i = tablePage m d i) : Tree m' d := by
  refine ⟨tree.dir, ?_, ?_⟩
  · intro i x found
    exact tree.table ((same i).symm.trans found)
  · intro i j x found found'
    exact tree.apart ((same i).symm.trans found) ((same j).symm.trans found')

theorem setWord_tables (tree : Tree m d) (table : tablePage m d (pdx v) = some x) (word : Word)
    (i : Fin 1024) :
    tablePage (setWord m ⟨x, ptx v⟩ word) d i = tablePage m d i :=
  tablePage_congr (setWord_of_ne (tree.table table).2.symm) i

theorem setWord_pteOf (tree : Tree m d) (small : v < NVPAGE)
    (table : tablePage m d (pdx v) = some x) (word : Word) {w : Nat} (inside : w < NVPAGE) :
    pteOf (setWord m ⟨x, ptx v⟩ word) d w = if w = v then word else pteOf m d w := by
  have tables := tree.setWord_tables table word
  split
  · rename_i here
    subst here
    rw [pteOf_of_table ((tables _).trans table)]
    exact setWord_self m ⟨x, ptx w⟩ word
  · rename_i other
    cases found : tablePage m d (pdx w) with
    | none => rw [pteOf_of_none ((tables _).trans found), pteOf_of_none found]
    | some y =>
      rw [pteOf_of_table ((tables _).trans found), pteOf_of_table found]
      apply setWord_eq_of_ne
      rintro rfl entry
      exact other (vpn_ext inside small (tree.apart found table) entry)

end Tree

/-- Only directory `d` and the pages `used`, from the front of the free list, have
been written to. -/
structure Carves (s t : Kernel) (d : Nat) (used : List Nat) : Prop where
  shape : ∃ mem refcnt free n, t =
    { s with mem := mem, pageToRefcnt := refcnt, freelist := free, numFreePages := n }
  freelist : s.freelist = used ++ t.freelist
  mem : ∀ {x}, x ≠ d → x ∉ used → (∀ i, tablePage s.mem d i ≠ some x) → t.mem x = s.mem x
  refcnt : ∀ {x}, x ∉ used → t.pageToRefcnt x = s.pageToRefcnt x
  kept : ∀ {i x}, tablePage s.mem d i = some x → tablePage t.mem d i = some x
  added : ∀ {i x}, tablePage t.mem d i = some x → tablePage s.mem d i = some x ∨ x ∈ used

namespace Carves

variable {used more : List Nat}

theorem refl (s : Kernel) (d : Nat) : Carves s s d [] :=
  ⟨⟨_, _, _, _, rfl⟩, rfl, fun _ _ _ => rfl, fun _ => rfl, fun found => found, Or.inl⟩

theorem trans (first : Carves s t d used) (second : Carves t u d more) :
    Carves s u d (used ++ more) := by
  refine ⟨?_, ?_, ?_, ?_, fun found => second.kept (first.kept found), ?_⟩
  · obtain ⟨mem, refcnt, free, n, rfl⟩ := first.shape
    obtain ⟨mem', refcnt', free', n', rfl⟩ := second.shape
    exact ⟨mem', refcnt', free', n', rfl⟩
  · rw [first.freelist, second.freelist, List.append_assoc]
  · intro x other outside apart
    rw [List.mem_append, not_or] at outside
    rw [second.mem other outside.2 ?_, first.mem other outside.1 apart]
    intro i found
    rcases first.added found with before | taken
    · exact apart i before
    · exact outside.1 taken
  · intro x outside
    rw [List.mem_append, not_or] at outside
    rw [second.refcnt outside.2, first.refcnt outside.1]
  · intro i x found
    rcases second.added found with before | taken
    · rcases first.added before with old | taken
      · exact Or.inl old
      · exact Or.inr (List.mem_append_left _ taken)
    · exact Or.inr (List.mem_append_right _ taken)

theorem log (carves : Carves s t d used) : t.log = s.log := by
  obtain ⟨mem, refcnt, free, n, rfl⟩ := carves.shape
  rfl

theorem scribble (carves : Carves s t d used) (taken : q ∈ used) (page : Page)
    (tables : ∀ i, tablePage (Function.update t.mem q page) d i = tablePage t.mem d i) :
    Carves s { t with mem := Function.update t.mem q page } d used := by
  obtain ⟨mem, refcnt, free, n, rfl⟩ := carves.shape
  refine ⟨⟨_, _, _, _, rfl⟩, carves.freelist, ?_, carves.refcnt, ?_, ?_⟩
  · intro x other outside loose
    refine (update_of_ne ?_ _ _).trans (carves.mem other outside loose)
    rintro rfl
    exact outside taken
  · intro i x found
    exact (tables i).trans (carves.kept found)
  · intro i x found
    exact carves.added ((tables i).symm.trans found)

end Carves

/-! ## walkpgdir and mappages -/

/-- The state after walkpgdir has taken page `x` for the page table of `v`. -/
def graft (s : Kernel) (d v x : Nat) (rest : List Nat) : Kernel :=
  { popFree s x rest with
    mem := setWord (Function.update s.mem x zeroPage) ⟨d, pdx v⟩
      (pageWord x ||| PTE_P ||| PTE_W ||| PTE_U) }

section Graft

variable {rest : List Nat}

theorem graft_mem {y : Nat} (other : y ≠ d) (apart : y ≠ x) : (graft s d v x rest).mem y = s.mem
    y := (setWord_of_ne other).trans (update_of_ne apart _ _)

variable (tree : Tree s.mem d) (spare : Spare s d) (list : s.freelist = x :: rest)
include spare list

theorem Spare.head : x < NPHYS ∧ x ≠ d ∧ ∀ i, tablePage s.mem d i ≠ some x := by
  have head : x ∈ s.freelist := by rw [list]; exact List.mem_cons_self
  refine ⟨spare.small head, ?_, fun i found => spare.table found head⟩
  rintro rfl
  exact spare.dir head

theorem graft_tables (i : Fin 1024) :
    tablePage (graft s d v x rest).mem d i = if i = pdx v then some x else tablePage s.mem d i := by
  obtain ⟨small, apart, -⟩ := spare.head list
  have dir : (graft s d v x rest).mem d =
      Function.update (s.mem d) (pdx v) (pageWord x ||| PTE_P ||| PTE_W ||| PTE_U) := by
    change setWord _ ⟨d, pdx v⟩ _ d = _
    rw [setWord, update_self]
    dsimp only
    rw [update_of_ne apart.symm]
  split
  · rename_i here
    subst here
    refine tablePage_eq_some.mpr ?_
    rw [dir, update_self]
    refine ⟨?_, ?_⟩
    · rw [BitVec.or_assoc, BitVec.or_comm, ← BitVec.or_assoc, has_or_P]
    · rw [ppn_or low_U, ppn_or low_W, ppn_pageWord_or (small.trans (by decide)) low_P]
  · rename_i other
    unfold tablePage
    rw [dir, update_of_ne other]

theorem graft_spare : Spare (graft s d v x rest) d := by
  have nodup := spare.nodup
  rw [list, List.nodup_cons] at nodup
  have member : ∀ {q}, q ∈ rest → q ∈ s.freelist := fun free => by
    rw [list]
    exact List.mem_cons_of_mem x free
  refine ⟨nodup.2, fun free => spare.small (member free), fun free => spare.dir (member free), ?_⟩
  intro i y found free
  rw [graft_tables spare list] at found
  split at found
  · cases found
    exact nodup.1 free
  · exact spare.table found (member free)

theorem graft_carves (absent : tablePage s.mem d (pdx v) = none) :
    Carves s (graft s d v x rest) d [x] := by
  refine ⟨⟨_, _, _, _, rfl⟩, list, ?_, ?_, ?_, ?_⟩
  · intro y other outside _
    exact graft_mem other (fun same => outside (List.mem_singleton.mpr same))
  · intro y outside
    rw [List.mem_singleton] at outside
    exact update_of_ne outside _ _
  · intro i y found
    rw [graft_tables spare list, if_neg]
    · exact found
    · rintro rfl
      rw [absent] at found
      cases found
  · intro i y found
    rw [graft_tables spare list] at found
    split at found
    · cases found
      exact Or.inr (List.mem_singleton_self x)
    · exact Or.inl found

include tree

theorem graft_pteOf (absent : tablePage s.mem d (pdx v) = none) (w : Nat) :
    pteOf (graft s d v x rest).mem d w = pteOf s.mem d w := by
  obtain ⟨-, apart, unlinked⟩ := spare.head list
  have tables := graft_tables (v := v) spare list (pdx w)
  split at tables
  · rename_i same
    rw [pteOf_of_table tables, pteOf_of_none (by rw [same]; exact absent)]
    change setWord _ ⟨d, pdx v⟩ _ x (ptx w) = 0#32
    rw [setWord_of_ne apart, update_self]
    rfl
  · cases found : tablePage s.mem d (pdx w) with
    | none => rw [pteOf_of_none (tables.trans found), pteOf_of_none found]
    | some y =>
      rw [pteOf_of_table (tables.trans found), pteOf_of_table found,
        graft_mem (tree.table found).2 (fun same => unlinked _ (same ▸ found))]

theorem graft_tree : Tree (graft s d v x rest).mem d := by
  obtain ⟨small, apart, unlinked⟩ := spare.head list
  refine ⟨tree.dir, ?_, ?_⟩
  · intro i y found
    rw [graft_tables spare list] at found
    split at found
    · cases found
      exact ⟨small, apart⟩
    · exact tree.table found
  · intro i j y found found'
    rw [graft_tables spare list] at found found'
    split at found <;> split at found'
    · rename_i here here'
      rw [here, here']
    · cases found
      exact absurd found' (unlinked j)
    · cases found'
      exact absurd found (unlinked i)
    · exact tree.apart found found'

end Graft

/-- walkpgdir with `alloc` takes at most one page, and the map is as before. -/
theorem walkpgdir_tree (tree : Tree s.mem d) (spare : Spare s d)
    (room : tablePage s.mem d (pdx v) = none → s.freelist ≠ []) :
    ∃ t used x, walkpgdir d v s = .ok (⟨x, ptx v⟩, t) ∧ Carves s t d used ∧ Tree t.mem d ∧
      Spare t d ∧
      used.length = (if tablePage s.mem d (pdx v) = none then 1 else 0) ∧
      tablePage t.mem d (pdx v) = some x ∧
      (∀ i, i ≠ pdx v → tablePage t.mem d i = tablePage s.mem d i) ∧
      ∀ w, pteOf t.mem d w = pteOf s.mem d w := by
  have load : loadWord ⟨d, pdx v⟩ s = .ok (s.mem d (pdx v), s) :=
    loadWord_ok_iff.mpr ⟨tree.dir, rfl, rfl⟩
  cases table : tablePage s.mem d (pdx v) with
  | some x =>
    obtain ⟨present, frame⟩ := tablePage_eq_some.mp table
    refine ⟨s, [], x, ?_, Carves.refl s d, tree, spare, rfl, table, fun _ _ => rfl, fun _ => rfl⟩
    unfold walkpgdir
    rw [bind_of_ok load, Prog.ite_apply, if_pos present, frame]
    rfl
  | none =>
    obtain ⟨x, rest, list⟩ := List.exists_cons_of_ne_nil (room table)
    have absent : ¬ has (s.mem d (pdx v)) PTE_P = true := by
      intro present
      rw [tablePage, if_pos present] at table
      cases table
    obtain ⟨small, -, -⟩ := spare.head list
    refine ⟨graft s d v x rest, [x], x, ?_, graft_carves spare list table,
      graft_tree tree spare list,
      graft_spare spare list, rfl, ?_, ?_, graft_pteOf tree spare list table⟩
    · unfold walkpgdir
      rw [bind_of_ok load, Prog.ite_apply, if_neg absent, bind_of_ok (kalloc_cons list),
        bind_of_ok (storePage_ok_iff.mpr ⟨small, rfl⟩ : _ = Except.ok ((), _)),
        bind_of_ok (storeWord_ok_iff.mpr ⟨tree.dir, rfl⟩ : _ = Except.ok ((), _))]
      rfl
    · rw [graft_tables spare list, if_pos rfl]
    · intro i other
      rw [graft_tables spare list, if_neg other]

/-- A round of the loop of mappages, which stores `word` in the entry of page `v`. -/
def mapEntry (pgdir v : Nat) (word : Word) : K Unit := do
  let pte ← walkpgdir pgdir v
  let w ← loadWord pte
  if has w PTE_P then panic "remap" else storeWord pte word

theorem mapEntry_tree (tree : Tree s.mem d) (spare : Spare s d) (small : v < NVPAGE)
    (vacant : has (pteOf s.mem d v) PTE_P = false)
    (room : tablePage s.mem d (pdx v) = none → s.freelist ≠ []) :
    ∃ t used, mapEntry d v word s = .ok ((), t) ∧ Carves s t d used ∧ Tree t.mem d ∧ Spare t d ∧
      used.length = (if tablePage s.mem d (pdx v) = none then 1 else 0) ∧
      tablePage t.mem d (pdx v) ≠ none ∧
      (∀ i, i ≠ pdx v → tablePage t.mem d i = tablePage s.mem d i) ∧
      ∀ w, w < NVPAGE → pteOf t.mem d w = if w = v then word else pteOf s.mem d w := by
  obtain ⟨u, used, x, walked, carves, tree', spare', count, table, tables, entries⟩ :=
    walkpgdir_tree tree spare room
  have same := tree'.setWord_tables table word
  have load : loadWord ⟨x, ptx v⟩ u = .ok (pteOf s.mem d v, u) :=
    loadWord_ok_iff.mpr ⟨(tree'.table table).1, by rw [← entries, pteOf_of_table table], rfl⟩
  refine ⟨{ u with mem := setWord u.mem ⟨x, ptx v⟩ word }, used, ?_, ?_, tree'.of_tables same, ?_,
    count, ?_, ?_, ?_⟩
  · unfold mapEntry
    rw [bind_of_ok walked, bind_of_ok load, Prog.ite_apply,
      if_neg (by rw [vacant]; exact Bool.false_ne_true)]
    exact storeWord_ok_iff.mpr ⟨(tree'.table table).1, rfl⟩
  · rw [← List.append_nil used]
    refine carves.trans ⟨⟨_, _, _, _, rfl⟩, rfl, ?_, fun _ => rfl, ?_, ?_⟩
    · intro y _ _ apart
      exact setWord_of_ne (fun same => apart (pdx v) (table.trans (congrArg some (Eq.symm same))))
    · intro i y found
      exact (same i).trans found
    · intro i y found
      exact Or.inl ((same i).symm.trans found)
  · exact ⟨spare'.nodup, spare'.small, spare'.dir, fun found =>
      spare'.table ((same _).symm.trans found)⟩
  · rw [same, table]
    exact Option.some_ne_none x
  · intro i other
    exact (same i).trans (tables i other)
  · intro w inside
    rw [tree'.setWord_pteOf small table word inside, entries]

/-- The page tables that `n` pages from `v` on would need and that are not there. -/
def missing (m : Nat → Page) (d v n : Nat) : Finset (Fin 1024) :=
  ((Finset.range n).image fun k => pdx (v + k)).filter fun i => tablePage m d i = none

theorem missing_succ {m m' : Nat → Page} {n : Nat} (there : tablePage m' d (pdx v) ≠ none)
    (others : ∀ i, i ≠ pdx v → tablePage m' d i = tablePage m d i) :
    (missing m' d (v + 1) n).card + (if tablePage m d (pdx v) = none then 1 else 0) =
      (missing m d v (n + 1)).card := by
  have later : missing m' d (v + 1) n = (missing m d v (n + 1)).erase (pdx v) := by
    ext i
    rw [Finset.mem_erase]
    unfold missing
    rw [Finset.mem_filter, Finset.mem_filter, Finset.mem_image, Finset.mem_image]
    constructor
    · rintro ⟨⟨k, small, rfl⟩, absent⟩
      have apart : pdx (v + 1 + k) ≠ pdx v := by
        intro same
        rw [same] at absent
        exact there absent
      refine ⟨apart, ⟨k + 1, ?_, ?_⟩, ?_⟩
      · rw [Finset.mem_range] at small ⊢
        omega
      · rw [show v + (k + 1) = v + 1 + k by omega]
      · rw [← others _ apart]
        exact absent
    · rintro ⟨apart, ⟨k, small, rfl⟩, absent⟩
      cases k with
      | zero => exact absurd rfl apart
      | succ k =>
        rw [Finset.mem_range] at small
        refine ⟨⟨k, Finset.mem_range.mpr (by omega), ?_⟩, ?_⟩
        · rw [show v + 1 + k = v + (k + 1) by omega]
        · rw [others _ apart]
          exact absent
  rw [later]
  split
  · rename_i absent
    refine Finset.card_erase_add_one
      (Finset.mem_filter.mpr ⟨Finset.mem_image.mpr ⟨0, ?_, rfl⟩, absent⟩)
    exact Finset.mem_range.mpr (Nat.succ_pos n)
  · rename_i present
    have outside :
      pdx v ∉ missing m d v (n + 1) := fun member => present (Finset.mem_filter.mp member).2
    rw [Finset.erase_eq_of_notMem outside, Nat.add_zero]

theorem missing_pos {n : Nat} (absent : tablePage m d (pdx v) = none) :
    0 < (missing m d v (n + 1)).card := by
  refine Finset.card_pos.mpr
    ⟨pdx v, Finset.mem_filter.mpr ⟨Finset.mem_image.mpr ⟨0, ?_, rfl⟩, absent⟩⟩
  exact Finset.mem_range.mpr (Nat.succ_pos n)

theorem nonempty_of_missing {free : List Nat} {n : Nat}
    (room : (missing m d v (n + 1)).card ≤ free.length)
    (absent : tablePage m d (pdx v) = none) : free ≠ [] := by
  rintro rfl
  exact absurd (missing_pos absent) (Nat.not_lt_of_le room)

theorem missing_le (m : Nat → Page) (d v n : Nat) : (missing m d v n).card ≤ n :=
  (Finset.card_filter_le _ _).trans (Finset.card_image_le.trans (Finset.card_range n).le)

theorem missing_none {m : Nat → Page} {n : Nat}
    (tables : ∀ u, v ≤ u → u < v + n → tablePage m d (pdx u) ≠ none) :
    missing m d v n = ∅ := by
  refine Finset.filter_eq_empty_iff.mpr fun i needed => ?_
  obtain ⟨k, small, rfl⟩ := Finset.mem_image.mp needed
  rw [Finset.mem_range] at small
  exact tables (v + k) (by omega) (by omega)

theorem pdx_val {v : Nat} (small : v < NVPAGE) : (pdx v).val = v / 1024 := by
  rw [NVPAGE_eq] at small
  simp only [pdx]
  omega

/-- The page tables of the first `n` pages. -/
def tablesFor (n : Nat) : Nat := (n + 1023) / 1024

theorem missing_start {n : Nat} (fits : n ≤ NUPAGE)
    (blank : ∀ i : Fin 1024, i.val < 512 → tablePage m d i = none) :
    (missing m d 0 n).card = tablesFor n := by
  rw [NUPAGE_eq] at fits
  have whole : missing m d 0 n = Finset.univ.filter fun i : Fin 1024 => i.val < tablesFor n := by
    ext i
    unfold missing tablesFor
    rw [Finset.mem_filter, Finset.mem_image, Finset.mem_filter]
    constructor
    · rintro ⟨⟨k, below, rfl⟩, -⟩
      rw [Finset.mem_range] at below
      refine ⟨Finset.mem_univ _, ?_⟩
      rw [pdx_val (by rw [NVPAGE_eq]; omega)]
      omega
    · rintro ⟨-, low⟩
      refine ⟨⟨1024 * i.val, Finset.mem_range.mpr (by omega), Fin.ext ?_⟩, blank i (by omega)⟩
      rw [pdx_val (by rw [NVPAGE_eq]; omega)]
      omega
  rw [whole, Fin.card_filter_val_lt]
  unfold tablesFor
  omega

/-! ## deallocuvm -/

/-- kfree of frame `q`, on the counts and the free list. -/
def release (pool : (Nat → Int) × List Nat) (q : Nat) : (Nat → Int) × List Nat :=
  if 1 < pool.1 q then (Function.update pool.1 q (pool.1 q - 1), pool.2) else (pool.1, q :: pool.2)

/-- The counts and the free list. -/
def Kernel.counts (s : Kernel) : (Nat → Int) × List Nat := (s.pageToRefcnt, s.freelist)

/-- The frames of the present pages from `lo` to `hi`, in order. -/
def framesIn (m : Nat → Page) (d lo hi : Nat) : List Nat :=
  (List.range' lo (hi - lo)).filterMap (fun v => frameOf (pteOf m d v))

theorem kfreed_counts (s : Kernel) (q : Nat) : (kfreed s q).counts = release s.counts q := by
  unfold kfreed release Kernel.counts
  dsimp only
  split <;> rfl

theorem kfreed_shape (s : Kernel) (q : Nat) : ∃ mem refcnt free num, kfreed s q = { s with
    mem := mem, pageToRefcnt := refcnt, freelist := free, numFreePages := num } := by
  unfold kfreed
  split
  · exact ⟨s.mem, _, s.freelist, s.numFreePages, rfl⟩
  · exact ⟨_, s.pageToRefcnt, _, _, rfl⟩

theorem framesIn_append (m : Nat → Page) (d : Nat) (first : lo ≤ mid) (second : mid ≤ hi) :
    framesIn m d lo hi = framesIn m d lo mid ++ framesIn m d mid hi := by
  unfold framesIn
  rw [← List.filterMap_append]
  congr 1
  have split := @List.range'_append lo (mid - lo) (hi - mid) 1
  rw [Nat.one_mul, show lo + (mid - lo) = mid by omega,
    show mid - lo + (hi - mid) = hi - lo by omega] at split
  exact split.symm

theorem framesIn_congr {m n : Nat → Page}
    (same : ∀ u, lo ≤ u → u < hi → pteOf n d u = pteOf m d u) :
    framesIn n d lo hi = framesIn m d lo hi := by
  unfold framesIn
  apply List.filterMap_congr
  intro u member
  rw [List.mem_range'_1] at member
  rw [same u member.1 (by omega)]

theorem framesIn_absent (absent : ∀ u, lo ≤ u → u < hi → has (pteOf m d u) PTE_P = false) :
    framesIn m d lo hi = [] := by
  unfold framesIn
  rw [List.filterMap_eq_nil_iff]
  intro u member
  rw [List.mem_range'_1] at member
  rw [frameOf, absent u member.1 (by omega), if_neg Bool.false_ne_true]

/-- The present pages from `lo` to `hi` map frames of the allocator that are no part of
the directory. -/
def Backed (m : Nat → Page) (d lo hi : Nat) : Prop :=
  ∀ u, lo ≤ u → u < hi → ∀ q, frameOf (pteOf m d u) = some q →
    firstPage ≤ q ∧ q < NPHYS ∧ q ≠ d ∧ ∀ i, tablePage m d i ≠ some q

/-- The present pages from `lo` to `hi` are freed in order and their entries zeroed, and
nothing else happens. -/
structure Vacated (p : Fin NPROC) (d lo hi : Nat) (s t : Kernel) : Prop where
  shape : ∃ mem refcnt free num, t = { s with
    mem := mem, pageToRefcnt := refcnt, freelist := free, numFreePages := num
    ptable := Function.update s.ptable p { s.ptable p with
      rss := (s.ptable p).rss - BitVec.ofNat 32 ((framesIn s.mem d lo hi).length * PGSIZE) } }
  counts : t.counts = (framesIn s.mem d lo hi).foldl release s.counts
  table : ∀ i, tablePage t.mem d i = tablePage s.mem d i
  entries : ∀ u, u < NVPAGE → pteOf t.mem d u =
    if lo ≤ u ∧ u < hi ∧ has (pteOf s.mem d u) PTE_P = true then 0#32 else pteOf s.mem d u
  mem : ∀ {x}, x ∉ framesIn s.mem d lo hi → (∀ i, tablePage s.mem d i ≠ some x) → t.mem x = s.mem x

namespace Vacated

theorem none (absent : ∀ u, lo ≤ u → u < hi → has (pteOf s.mem d u) PTE_P = false) :
    Vacated p d lo hi s s := by
  have empty := framesIn_absent absent
  refine ⟨⟨s.mem, s.pageToRefcnt, s.freelist, s.numFreePages, ?_⟩, ?_, fun _ => rfl, ?_, fun _ _ =>
    rfl⟩
  · rw [empty, List.length_nil, Nat.zero_mul, BitVec.sub_zero, Function.update_eq_self]
  · rw [empty]
    rfl
  · intro u _
    split
    · rename_i here
      rw [absent u here.1 here.2.1] at here
      cases here.2.2
    · rfl

theorem trans (first : Vacated p d lo mid s t) (second : Vacated p d mid hi t u) (early : lo ≤ mid)
    (late : mid ≤ hi) (fits : hi ≤ NVPAGE) : Vacated p d lo hi s u := by
  have later : ∀ w, mid ≤ w → w < NVPAGE → pteOf t.mem d w = pteOf s.mem d w := by
    intro w low high
    rw [first.entries w high, if_neg (by omega)]
  have same : framesIn t.mem d mid hi = framesIn s.mem d mid hi :=
    framesIn_congr (fun w low high => later w low (by omega))
  have split := framesIn_append s.mem d early late
  refine ⟨?_, ?_, fun i => (second.table i).trans (first.table i), ?_, ?_⟩
  · obtain ⟨mem₁, refcnt₁, free₁, num₁, shape₁⟩ := first.shape
    obtain ⟨mem₂, refcnt₂, free₂, num₂, shape₂⟩ := second.shape
    refine ⟨mem₂, refcnt₂, free₂, num₂, ?_⟩
    rw [same, shape₁] at shape₂
    dsimp only at shape₂
    rw [update_self, Function.update_idem] at shape₂
    rw [split, List.length_append, Nat.add_mul, BitVec.ofNat_add, ← BitVec.sub_sub]
    exact shape₂
  · rw [second.counts, same, first.counts, split, List.foldl_append]
  · intro w small
    rw [second.entries w small]
    by_cases before : w < mid
    · rw [if_neg (by omega), first.entries w small]
      refine if_congr ⟨?_, ?_⟩ rfl rfl <;> rintro ⟨low, high, present⟩
        <;> exact ⟨by omega, by omega, present⟩
    · rw [later w (by omega) small]
      refine if_congr ⟨?_, ?_⟩ rfl rfl <;> rintro ⟨low, high, present⟩
        <;> exact ⟨by omega, by omega, present⟩
  · intro y outside apart
    rw [split, List.mem_append, not_or] at outside
    rw [second.mem (by rw [same]; exact outside.2) (fun i => by rw [first.table i]; exact apart i),
      first.mem outside.1 apart]

end Vacated

theorem deallocEntry_tree (swapped : PtePtr → K Unit) (tree : Tree s.mem d) (small : v < NVPAGE)
    (backed : Backed s.mem d v (v + 1)) (table : tablePage s.mem d (pdx v) = some x)
    (there : isSwapped (pteOf s.mem d v) = false) :
    ∃ t, deallocEntry p swapped ⟨x, ptx v⟩ s = .ok ((), t) ∧ Vacated p d v (v + 1) s t := by
  obtain ⟨bound, other⟩ := tree.table table
  have loaded : loadWord ⟨x, ptx v⟩ s = .ok (pteOf s.mem d v, s) :=
    loadWord_ok_iff.mpr ⟨bound, pteOf_of_table table, rfl⟩
  unfold deallocEntry
  rw [bind_of_ok loaded, Prog.ite_apply]
  split
  · rename_i present
    have maps := frameOf_present present
    obtain ⟨low, high, apart, unlinked⟩ := backed v (Nat.le_refl v) (Nat.lt_succ_self v) _ maps
    have positive : ppn (pteOf s.mem d v) ≠ 0 := by
      intro zero
      rw [zero, firstPage_eq] at low
      omega
    have freed : kfree (ppn (pteOf s.mem d v)) s = .ok ((), _) := kfree_ok_iff.mpr ⟨low, high, rfl⟩
    have one : framesIn s.mem d v (v + 1) = [ppn (pteOf s.mem d v)] := by
      unfold framesIn
      rw [Nat.add_sub_cancel_left, List.range'_one, List.filterMap_cons, maps]
      rfl
    -- kfree writes to the frame, which is neither the directory nor one of its tables.
    have tables : ∀ i, tablePage (kfreed s (ppn (pteOf s.mem d v))).mem d i = tablePage s.mem d i :=
      tablePage_congr (kfreed_mem_of_ne s apart.symm)
    have same : ∀ w, pteOf (kfreed s (ppn (pteOf s.mem d v))).mem d w = pteOf s.mem d w := fun w =>
      pteOf_congr (kfreed_mem_of_ne s apart.symm) (fun y found =>
        kfreed_mem_of_ne s (fun here => unlinked _ (here ▸ found)))
    have tree' := tree.of_tables tables
    have table' := (tables _).trans table
    rw [Prog.ite_apply, if_neg positive, bind_of_ok freed, subRss, updateProc, Prog.update_bind]
    refine ⟨_, storeWord_ok_iff.mpr ⟨bound, rfl⟩, ⟨?_, ?_, ?_, ?_, ?_⟩⟩
    · obtain ⟨mem, refcnt, free, num, shape⟩ := kfreed_shape s (ppn (pteOf s.mem d v))
      rw [one, shape, List.length_singleton, Nat.one_mul]
      exact ⟨_, refcnt, free, num, rfl⟩
    · rw [one]
      exact kfreed_counts s _
    · intro i
      exact (tree'.setWord_tables table' 0#32 i).trans (tables i)
    · intro w inside
      refine (tree'.setWord_pteOf small table' 0#32 inside).trans ?_
      rw [same]
      by_cases here : w = v
      · subst here
        rw [if_pos rfl, if_pos ⟨Nat.le_refl w, Nat.lt_succ_self w, present⟩]
      · rw [if_neg here, if_neg (by omega)]
    · intro y outside away
      rw [one, List.mem_singleton] at outside
      refine (setWord_of_ne ?_).trans (kfreed_mem_of_ne s outside)
      rintro rfl
      exact away _ table
  · rename_i absent
    rw [Bool.not_eq_true] at absent
    have plain : has (pteOf s.mem d v) PTE_SW = false := by
      unfold isSwapped at there
      rw [absent] at there
      exact there
    rw [Prog.ite_apply, plain, if_neg Bool.false_ne_true]
    refine ⟨s, rfl, Vacated.none (fun u low high => ?_)⟩
    rw [show u = v by omega]
    exact absent

theorem Backed.of_vacated (backed : Backed s.mem d lo hi) (vacated : Vacated p d lo mid s t)
    (early : lo ≤ mid) (fits : hi ≤ NVPAGE) : Backed t.mem d mid hi := by
  intro u low high q maps
  rw [vacated.entries u (by omega), if_neg (by omega)] at maps
  obtain ⟨bottom, top, apart, unlinked⟩ := backed u (by omega) high q maps
  refine ⟨bottom, top, apart, fun i => ?_⟩
  rw [vacated.table i]
  exact unlinked i

theorem pteOf_skipped (absent : tablePage m d (pdx v) = none) {w : Nat} (low : v ≤ w)
    (high : w < (v / 1024 + 1) * 1024) : pteOf m d w = 0#32 := by
  have dir : pdx w = pdx v := by
    apply Fin.ext
    simp only [pdx]
    omega
  exact pteOf_of_none (by rw [dir]; exact absent)

/-- The loop frees what it meets, whichever way it treats swapped entries. -/
theorem deallocLoop_tree (swapped : PtePtr → K Unit) (tree : Tree s.mem d) (fits : hi ≤ NVPAGE)
    (backed : Backed s.mem d v hi)
    (there : ∀ u, v ≤ u → u < hi → isSwapped (pteOf s.mem d u) = false) :
    ∃ t, deallocLoop p swapped d hi v s = .ok ((), t) ∧ Vacated p d v hi s t := by
  induction remaining : hi - v using Nat.strongRecOn generalizing v s with
  | ind n ih =>
    rw [deallocLoop, Prog.ite_apply]
    split
    · rename_i before
      cases table : tablePage s.mem d (pdx v) with
      | none =>
        have empty :
        ∀ u, v ≤ u → u < (v / 1024 + 1) * 1024 → has (pteOf s.mem d u) PTE_P = false := by
          intro u low high
          rw [pteOf_skipped table low high]
          decide
        rw [bind_of_ok (walk_of_none tree.dir table)]
        by_cases last : hi ≤ (v / 1024 + 1) * 1024
        · refine ⟨s, ?_, Vacated.none (fun u low high => empty u low (by omega))⟩
          dsimp only
          rw [deallocLoop, Prog.ite_apply, if_neg (by omega)]
          rfl
        · obtain ⟨t, loop, vacated⟩ := ih _ (by omega) tree (v := (v / 1024 + 1) * 1024)
            (fun u low high => backed u (by omega) high)
            (fun u low high => there u (by omega) high) rfl
          have skipped : Vacated p d v ((v / 1024 + 1) * 1024) s s := Vacated.none empty
          exact ⟨t, loop, skipped.trans vacated (by omega) (by omega) fits⟩
      | some x =>
        rw [bind_of_ok (walk_of_table tree.dir table)]
        obtain ⟨r, first, vacated⟩ := deallocEntry_tree (p := p) swapped tree (by omega)
          (fun u low high => backed u low (by omega)) table (there v (Nat.le_refl v) before)
        obtain ⟨t, loop, rest⟩ := ih _ (by omega) (tree.of_tables vacated.table) (v := v + 1)
          (backed.of_vacated vacated (by omega) fits)
          (fun u low high => by
            rw [vacated.entries u (by omega), if_neg (by omega)]
            exact there u (by omega) high) rfl
        refine ⟨t, ?_, vacated.trans rest (by omega) (by omega) fits⟩
        dsimp only
        rw [bind_of_ok first]
        exact loop
    · exact ⟨s, rfl, Vacated.none (fun u low high => by omega)⟩

/-- No slot has a count of the entries that name it. -/
def NoDiskCounts (s : Kernel) : Prop := ∀ i, i < NPAGE → (s.swapSlots i).refcntToDisk = 0

theorem dropSwapped_fails {done : Unit} (counts : NoDiskCounts s) (pte : PtePtr) :
    dropSwapped pte s ≠ .ok (done, t) := by
  intro success
  unfold dropSwapped at success
  rw [bind_ok_iff] at success
  obtain ⟨count, u, lowered, -⟩ := success
  unfold decSwapSlotRefcnt at lowered
  rw [bind_ok_iff] at lowered
  obtain ⟨w, u', loaded, rest⟩ := lowered
  obtain ⟨-, rfl, rfl⟩ := loadWord_ok_iff.mp loaded
  rw [bind_ok_iff] at rest
  obtain ⟨slot, u'', found, rest⟩ := rest
  obtain ⟨bound, rfl, rfl⟩ := loadSlot_ok_iff.mp found
  rw [Prog.ite_apply, if_pos (counts _ bound)] at rest
  exact Prog.halt_ok_iff.mp rest

theorem unswapped_of_deallocEntry {done : Unit} (counts : NoDiskCounts s)
    (table : tablePage s.mem d (pdx v) = some x)
    (success : deallocEntry p dropSwapped ⟨x, ptx v⟩ s = .ok (done, t)) :
    isSwapped (pteOf s.mem d v) = false := by
  unfold deallocEntry at success
  rw [bind_ok_iff] at success
  obtain ⟨w, s', loaded, rest⟩ := success
  obtain ⟨-, word, same⟩ := loadWord_ok_iff.mp loaded
  subst s'
  rw [← pteOf_of_table table] at word
  subst word
  unfold isSwapped
  rw [Prog.ite_apply] at rest
  split at rest
  · rename_i present
    rw [present]
    rfl
  · rw [Prog.ite_apply] at rest
    split at rest
    · exact (dropSwapped_fails counts _ rest).elim
    · rename_i plain
      rw [Bool.not_eq_true] at plain
      rw [plain, Bool.and_false]

/-- deallocuvm returns only where it meets no swapped page. -/
theorem unswapped_of_deallocLoop_tree {done : Unit} (tree : Tree s.mem d) (fits : hi ≤ NVPAGE)
    (backed : Backed s.mem d v hi) (counts : NoDiskCounts s)
    (success : deallocLoop p dropSwapped d hi v s = .ok (done, t)) :
    ∀ u, v ≤ u → u < hi → isSwapped (pteOf s.mem d u) = false := by
  induction remaining : hi - v using Nat.strongRecOn generalizing v s with
  | ind n ih =>
    intro u low high
    rw [deallocLoop, Prog.ite_apply, if_pos (by omega)] at success
    rcases walk_cases success with ⟨absent, rest⟩ | ⟨x, table, rest⟩
    · by_cases near : u < (v / 1024 + 1) * 1024
      · rw [pteOf_skipped absent low near]
        decide
      · exact ih _ (by omega) tree (fun w low high => backed w (by omega) high) counts rest rfl u
          (by omega) high
    · obtain ⟨_, r, first, rest⟩ := bind_ok_iff.mp rest
      have plain := unswapped_of_deallocEntry counts table first
      obtain ⟨r', first', vacated⟩ := deallocEntry_tree (p := p) dropSwapped tree (by omega)
        (fun w low high => backed w low (by omega)) table plain
      rw [first] at first'
      cases first'
      by_cases here : u = v
      · rw [here]
        exact plain
      · have later := vacated.entries u (by omega)
        rw [if_neg (by omega)] at later
        obtain ⟨_, _, _, _, kept⟩ := vacated.shape
        rw [← later]
        exact ih _ (by omega) (tree.of_tables vacated.table)
          (backed.of_vacated vacated (by omega) fits)
          (by rw [kept]; exact counts) rest rfl u (by omega) high

end Xv6Cow
