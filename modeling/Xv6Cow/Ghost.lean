import Xv6Cow.Lib.RefCount
import Xv6Cow.PageTable
import Xv6Cow.Vm

/- What the kernel's memory stands for. A `Ghost` says which pages are page
directories, which are held by the kernel for something else, and what every
address space contains, page by page, wherever the page happens to be. `Rep g s`
says that the state `s` realises `g`: reference counts, free list, page tables and
swap slots all agree with it. Frames are not named in `g`, so eviction, swap-in
and copy-on-write leave it alone. -/
namespace Xv6Cow

open RefCount (count refs Exact)

structure Ghost where
  /-- The pages kalloc deals in. -/
  pool : Finset Nat
  dirs : Finset Nat
  /-- Pages in use as neither directory, page table nor user page, with their bytes. -/
  held : Nat → Option Page
  /-- Slots taken by a swap_out that has not finished, with their flags and bytes. -/
  reserved : Nat → Option (Word × Page)
  /-- Entries that a swap_out in progress is about to rewrite: the directory they
  belong to, the page and their value. -/
  frozen : PtePtr → Option (Nat × Nat × Word)
  /-- The history before the part of it that is of interest. -/
  base : List Event
  /-- Whether pages may have been swapped out before then. -/
  aged : Bool
  /-- The process whose address space is being torn down. -/
  leaving : Option (Fin NPROC)
  /-- Whether page `v` of directory `d` is accessible to the user, and its bytes. -/
  space : Nat → Nat → Option (Bool × Page)

namespace Ghost

/-- Page `q` is held, with these bytes. -/
def hold (g : Ghost) (q : Nat) (page : Page) : Ghost :=
  { g with held := Function.update g.held q (some page) }

def drop (g : Ghost) (q : Nat) : Ghost := { g with held := Function.update g.held q none }

def setSpace (g : Ghost) (d v : Nat) (content : Option (Bool × Page)) : Ghost :=
  { g with space := fun e u => if e = d ∧ u = v then content else g.space e u }

/-- A new, empty address space. -/
def addDir (g : Ghost) (d : Nat) : Ghost :=
  { g with
    dirs := insert d g.dirs
    space := fun e u => if e = d then none else g.space e u }

def removeDir (g : Ghost) (d : Nat) : Ghost := { g with dirs := g.dirs.erase d }

/-- Page `q` is in no list and no one's: it is lost to the allocator. -/
def leak (g : Ghost) (q : Nat) : Ghost := { g with pool := g.pool.erase q }

/-- No entry of directory `d` is frozen. -/
def Loose (g : Ghost) (d : Nat) : Prop := ∀ ptr w, g.frozen ptr ≠ some (d, w)

/-- The entry of page `v` is not frozen. -/
def Thawed (g : Ghost) (m : Nat → Page) (d v : Nat) : Prop :=
  ∀ x, tablePage m d (pdx v) = some x → g.frozen ⟨x, ptx v⟩ = none

/-- Page `q` is neither a directory nor held. -/
def Fresh (g : Ghost) (q : Nat) : Prop := q ∉ g.dirs ∧ g.held q = none

theorem drop_hold {g : Ghost} {q : Nat} (page : Page) (loose : g.held q = none) :
    (g.hold q page).drop q = g := by
  unfold hold drop
  simp only [Function.update_idem, ← loose, Function.update_eq_self]

theorem hold_drop (g : Ghost) (q : Nat) (page : Page) : (g.drop q).hold q page = g.hold q page := by
  unfold hold drop
  simp only [Function.update_idem]

theorem hold_hold (g : Ghost) (q : Nat) (page page' : Page) :
    (g.hold q page).hold q page' = g.hold q page' := by
  unfold hold
  simp only [Function.update_idem]

theorem setSpace_self {g : Ghost} {d v : Nat} {content : Option (Bool × Page)}
    (same : g.space d v = content) : g.setSpace d v content = g := by
  unfold setSpace
  congr 1
  funext e u
  split
  · rename_i here
    rw [here.1, here.2, same]
  · rfl

end Ghost

/-- The places for user entries. -/
@[irreducible] def sites (dirs : Finset Nat) : Finset (Nat × Nat) := dirs ×ˢ Finset.range NUPAGE

theorem mem_sites {dirs : Finset Nat} {d v : Nat} :
    (d, v) ∈ sites dirs ↔ d ∈ dirs ∧ v < NUPAGE := by
  rw [sites, Finset.mem_product, Finset.mem_range]

/-- How many user entries map page `q`. -/
def frames (dirs : Finset Nat) (m : Nat → Page) (q : Nat) : Nat :=
  count (sites dirs) (fun x => frameOf (pteOf m x.1 x.2)) q

/-- How many user entries name block `b`. -/
def owners (dirs : Finset Nat) (m : Nat → Page) (b : Nat) : Nat :=
  count (sites dirs) (fun x => blockOf (pteOf m x.1 x.2)) b

/-- Directories, their page tables and the held pages. -/
def pins (g : Ghost) (m : Nat → Page) : Set Nat :=
  { q | q ∈ g.dirs ∨ (∃ d ∈ g.dirs, ∃ i, tablePage m d i = some q) ∨ g.held q ≠ none }

noncomputable def uses (g : Ghost) (m : Nat → Page) (q : Nat) : Nat :=
  refs (sites g.dirs) (fun x => frameOf (pteOf m x.1 x.2)) (pins g m) q

/-- The page behind an entry, in memory or in its slot. -/
def pageAt (s : Kernel) (w : Word) : Option (Bool × Page) :=
  if has w PTE_P then some (has w PTE_U, s.mem (ppn w))
  else if has w PTE_SW then
    some (has (s.swapSlots (slotOf w)).pagePerm PTE_U, diskPage s.disk (ppn w))
  else none

def spaceOf (s : Kernel) (d v : Nat) : Option (Bool × Page) := pageAt s (pteOf s.mem d v)

/-! ## The history -/

/-- The events that came after `base`. -/
def since (base log : List Event) : List Event := log.take (log.length - base.length)

/-- The eviction of an entry. -/
def evictionAt (ptr : PtePtr) : Event → Option Eviction
  | .evict e => if e.ptr = ptr then some e else none
  | .swapRead _ => none

/-- The last time the entry was evicted. -/
def lastEviction (log : List Event) (ptr : PtePtr) : Option Eviction :=
  log.findSome? (evictionAt ptr)

/-- Every eviction after `base` was of a live process and left the frozen entries
alone. -/
def Quiet (g : Ghost) (log : List Event) : Prop :=
  ∀ e, Event.evict e ∈ since g.base log →
    e.live = true ∧ g.leaving ≠ some e.victim ∧ g.frozen e.ptr = none

theorem since_cons {base log : List Event} (older : base <:+ log) (e : Event) :
    since base (e :: log) = e :: since base log := by
  unfold since
  rw [List.length_cons, Nat.succ_sub older.length_le, List.take_succ_cons]

theorem since_self (log : List Event) : since log log = [] := by
  unfold since
  rw [Nat.sub_self, List.take_zero]

theorem lastEviction_here {log : List Event} {e : Eviction} :
    lastEviction (.evict e :: log) e.ptr = some e := by
  simp only [lastEviction, List.findSome?_cons, evictionAt, ↓reduceIte]

theorem lastEviction_other {log : List Event} {e : Eviction} {ptr : PtePtr}
    (other : e.ptr ≠ ptr) : lastEviction (.evict e :: log) ptr = lastEviction log ptr := by
  simp only [lastEviction, List.findSome?_cons, evictionAt, other, ↓reduceIte]

theorem lastEviction_swapRead {log : List Event} (blockno : Nat) (ptr : PtePtr) :
    lastEviction (.swapRead blockno :: log) ptr = lastEviction log ptr := by
  simp only [lastEviction, List.findSome?_cons, evictionAt]

/-! ## The invariant -/

/-- Equal but for PTE_A. -/
def SameEntry (w w' : Word) : Prop := w' ||| PTE_A = w ||| PTE_A

theorem SameEntry.refl (w : Word) : SameEntry w w := rfl

theorem SameEntry.trans {w w' w'' : Word} (first : SameEntry w w') (second : SameEntry w' w'') :
    SameEntry w w'' := Eq.trans second first

theorem SameEntry.bit {w w' : Word} (same : SameEntry w w') {i : Nat} (other : i ≠ 5) :
    w'.getLsbD i = w.getLsbD i := by
  have bit := congrArg (fun x => BitVec.getLsbD x i) same
  have clear : PTE_A.getLsbD i = false := by
    rw [show PTE_A = BitVec.twoPow 32 5 from rfl, BitVec.getLsbD_twoPow]
    simp only [Nat.reduceLT, decide_true, Bool.true_and, decide_eq_false_iff_not]
    omega
  simpa only [BitVec.getLsbD_or, clear, Bool.or_false] using bit

theorem SameEntry.present {w w' : Word} (same : SameEntry w w') :
    has w' PTE_P = has w PTE_P := by
  rw [has_P, has_P, same.bit (by decide)]

/-- Where directories and page tables lie. -/
structure Layout (g : Ghost) (m : Nat → Page) : Prop where
  pool_bounds : ∀ q ∈ g.pool, firstPage ≤ q ∧ q < NPHYS
  pins_pool : ∀ q ∈ pins g m, q ∈ g.pool
  table_unique : ∀ {d e t : Nat} {i j : Fin 1024}, d ∈ g.dirs → e ∈ g.dirs →
    tablePage m d i = some t → tablePage m e j = some t → d = e ∧ i = j
  table_not_dir : ∀ {d t : Nat} {i : Fin 1024}, d ∈ g.dirs → tablePage m d i = some t →
    t ∉ g.dirs
  table_not_held : ∀ {d t : Nat} {i : Fin 1024}, d ∈ g.dirs → tablePage m d i = some t →
    g.held t = none
  dir_not_held : ∀ {d : Nat}, d ∈ g.dirs → g.held d = none
  held_bytes : ∀ {q : Nat} {page : Page}, g.held q = some page → m q = page
  /-- A frozen entry stays, but for PTE_A. -/
  frozen : ∀ {ptr : PtePtr} {d v : Nat} {w : Word}, g.frozen ptr = some (d, v, w) →
    d ∈ g.dirs ∧ tablePage m d (pdx v) = some ptr.page ∧
      SameEntry w (m ptr.page ptr.index) ∧ has w PTE_P = true ∧ has w PTE_U = true

/-- What the entries of the existing directories can be. -/
structure Entries (g : Ghost) (m : Nat → Page) : Prop where
  shape : ∀ {d v : Nat}, d ∈ g.dirs → v < NUPAGE → has (pteOf m d v) PTE_P = false →
    isSwapped (pteOf m d v) = false → pteOf m d v = 0#32
  frame : ∀ {d v q : Nat}, d ∈ g.dirs → v < NUPAGE → frameOf (pteOf m d v) = some q →
    q ∈ g.pool ∧ q ∉ pins g m
  exclusive : ∀ {d v : Nat}, d ∈ g.dirs → v < NUPAGE → has (pteOf m d v) PTE_P = true →
    has (pteOf m d v) PTE_W = true → frames g.dirs m (ppn (pteOf m d v)) = 1
  kernel : ∀ {d v : Nat}, d ∈ g.dirs → NUPAGE ≤ v → v < NVPAGE →
    isSwapped (pteOf m d v) = false ∧ has (pteOf m d v) PTE_U = false
  /-- Whoever maps a page maps it at the same address. -/
  place : ∀ {d e v u q : Nat}, d ∈ g.dirs → e ∈ g.dirs → v < NUPAGE → u < NUPAGE →
    frameOf (pteOf m d v) = some q → frameOf (pteOf m e u) = some q → u = v

/-- The flags under which a page can be evicted. -/
structure Evictable (perm : Word) : Prop where
  low : Low perm
  present : has perm PTE_P = true
  user : has perm PTE_U = true
  idle : has perm PTE_A = false

/-- Slots and the entries that name them. -/
structure Slots (g : Ghost) (s : Kernel) : Prop where
  block : ∀ {i : Nat}, i < NPAGE → (s.swapSlots i).blockno = SWAPBASE + i * BPPAGE
  untouched : ∀ {i : Nat}, i < NPAGE → (s.swapSlots i).refcntToDisk = 0
  named : ∀ {d v : Nat}, d ∈ g.dirs → v < NUPAGE → isSwapped (pteOf s.mem d v) = true →
    ∃ i < NPAGE, ppn (pteOf s.mem d v) = SWAPBASE + i * BPPAGE ∧
      Evictable (s.swapSlots i).pagePerm
  taken : ∀ {i : Nat}, i < NPAGE →
    owners g.dirs s.mem (SWAPBASE + i * BPPAGE) + (if g.reserved i = none then 0 else 1) =
      if (s.swapSlots i).isFree then 0 else 1
  reserved : ∀ {i : Nat} {perm : Word} {page : Page}, g.reserved i = some (perm, page) →
    i < NPAGE ∧ (s.swapSlots i).pagePerm = perm ∧
      diskPage s.disk (SWAPBASE + i * BPPAGE) = page
  recorded : ∀ {d v t : Nat} {e : Eviction}, d ∈ g.dirs → v < NUPAGE →
    isSwapped (pteOf s.mem d v) = true → tablePage s.mem d (pdx v) = some t →
    lastEviction (since g.base s.log) ⟨t, ptx v⟩ = some e →
    e.perm = (s.swapSlots e.slot).pagePerm ∧
      ppn (pteOf s.mem d v) = SWAPBASE + e.slot * BPPAGE ∧
      e.bytes = diskPage s.disk (SWAPBASE + e.slot * BPPAGE)
  dated : ∀ {d v t : Nat}, d ∈ g.dirs → v < NUPAGE → isSwapped (pteOf s.mem d v) = true →
    tablePage s.mem d (pdx v) = some t → g.aged = false →
    lastEviction (since g.base s.log) ⟨t, ptx v⟩ ≠ none

structure Rep (g : Ghost) (s : Kernel) : Prop where
  layout : Layout g s.mem
  entries : Entries g s.mem
  exact : Exact g.pool (uses g s.mem) s.pageToRefcnt s.freelist
  numFree : s.numFreePages = s.freelist.length
  slots : Slots g s
  space : ∀ {d v : Nat}, d ∈ g.dirs → v < NUPAGE → spaceOf s d v = g.space d v
  procs : ∀ p, (s.ptable p).live = true → g.leaving ≠ some p →
    (s.ptable p).pgdir ∈ g.dirs ∧ (s.ptable p).sz ≤ KERNBASE
  base : g.base <:+ s.log

end Xv6Cow
