import Xv6Cow.Reaping
import Xv6Cow.SysExec
import Xv6Cow.Growth

/- exec with enough free memory. It works on pages that were free when it was called; when it
gives up they are free again, and nothing else has changed. -/
namespace Xv6Cow

open Prog (bind_of_ok)

variable {loan : Set Nat} {g : Ghost} {s₀ s t : Kernel} {d v sz limit : Nat} {p : Fin NPROC}

/-! ## The memory exec needs -/

/-- Where the segments end, in pages: the program headers up to the first that exec turns down. -/
def segmentPages (file : File) : Nat → Nat → Nat
  | 0, _ => 0
  | n + 1, off =>
    match file.proghdr off with
    | none => 0
    | some ph =>
      if ph.type = ELF_PROG_LOAD then
        if ph.memsz < ph.filesz ∨ KERNBASE ≤ ph.vaddr + ph.memsz then 0
        else max (pagesOf (ph.vaddr + ph.memsz)) (segmentPages file n ((off + 32) % 2 ^ 32))
      else segmentPages file n ((off + 32) % 2 ^ 32)

/-- The segments, the guard page and the stack. -/
def imagePages (file : File) (elf : ElfHdr) : Nat := segmentPages file elf.phnum elf.phoff + 2

/-- There are free pages for the directory and the kernel's page tables, for the image, and for its
page tables. -/
def RoomFor (s : Kernel) (file : File) : Prop :=
  ∀ elf, file.elfhdr = some elf → elf.magic = ELF_MAGIC →
    10 + imagePages file elf + (imagePages file elf + 1023) / 1024 ≤ s.freelist.length

/-- There are free pages for pages `v` up to `limit`, and for the page tables they lack. -/
def Funded (s : Kernel) (d v limit : Nat) : Prop :=
  v ≤ limit ∧ limit - v + (missing s.mem d v (limit - v)).card ≤ s.freelist.length

/-! ## Stack pointers -/

theorem below_of_le {sp n : Nat} (fits : n ≤ sp) (word : sp < 2 ^ 32) : below sp n = sp - n := by
  unfold below
  omega

theorem below_wrap {sp n : Nat} (wraps : sp < n) (word : n ≤ 2 ^ 32) :
    below sp n = 2 ^ 32 + sp - n := by
  unfold below
  omega

/-! ## An image in the making -/

/-- exec at work since `s₀`: the image in directory `d` has grown to `sz`, out of pages that were
free, and there is memory for it to grow to `limit` pages. -/
structure Draft (g : Ghost) (p : Fin NPROC) (s₀ s : Kernel) (d sz limit : Nat) : Prop where
  image : Image g s d sz
  quiet : Quiet g s.log
  funded : Funded s d (pagesOf sz) limit
  shape : ∃ mem refcnt free num, s = { raise s₀ p (pagesOf sz) with
    mem := mem, pageToRefcnt := refcnt, freelist := free, numFreePages := num }
  same : ∀ {x}, x ∉ s₀.freelist → SameAt s₀ s x
  free : ∀ {x}, x ∈ s.freelist → x ∈ s₀.freelist
  dir : d ∈ s₀.freelist
  tables : ∀ {i x}, tablePage s.mem d i = some x → x ∈ s₀.freelist
  frames : ∀ {v q}, v < NUPAGE → frameOf (pteOf s.mem d v) = some q → q ∈ s₀.freelist
  /-- The page tables for the devices, where a wrapped address ends up. -/
  devices : ∀ i : Fin 1024, 1016 ≤ i.val → tablePage s.mem d i ≠ none

namespace Draft

theorem dirBelow (draft : Draft g p s₀ s d sz limit) : d < NPHYS := by
  obtain ⟨content, rep, -⟩ := draft.image.rep
  exact rep.dir_lt draft.image.inside

theorem tableBelow (draft : Draft g p s₀ s d sz limit)
    {i : Fin 1024} {x : Nat} (table : tablePage s.mem d i = some x) :
    x < NPHYS := by
  obtain ⟨content, rep, -⟩ := draft.image.rep
  exact rep.table_lt draft.image.inside table

theorem log (draft : Draft g p s₀ s d sz limit) : s.log = s₀.log := by
  obtain ⟨mem, refcnt, free, num, rfl⟩ := draft.shape
  rfl

theorem rewrite {m : Nat → Page} (draft : Draft g p s₀ s d sz limit)
    (image : Image g { s with mem := m } d sz) (tables : ∀ i, tablePage m d i = tablePage s.mem d i)
    (frames : ∀ v, v < NUPAGE → frameOf (pteOf m d v) = frameOf (pteOf s.mem d v))
    (same : ∀ {x}, x ∉ s₀.freelist → m x = s.mem x) :
    Draft g p s₀ { s with mem := m } d sz limit := by
  obtain ⟨mem, refcnt, free, num, shape⟩ := draft.shape
  have missed : ∀ v n, missing m d v n = missing s.mem d v n := by
    intro v n
    unfold missing
    simp only [tables]
  refine ⟨image, draft.quiet, ⟨draft.funded.1, ?_⟩, ⟨m, refcnt, free, num, ?_⟩, ?_, draft.free,
    draft.dir, ?_, ?_, ?_⟩
  · change _ + (missing m d _ _).card ≤ s.freelist.length
    rw [missed]
    exact draft.funded.2
  · rw [shape]
  · intro x outside
    exact ⟨(same outside).trans (draft.same outside).1, (draft.same outside).2⟩
  · intro i x found
    exact draft.tables ((tables i).symm.trans found)
  · intro v q user found
    exact draft.frames user ((frames v user).symm.trans found)
  · intro i high
    change tablePage m d i ≠ none
    rw [tables]
    exact draft.devices i high

theorem store (draft : Draft g p s₀ s d sz limit) (user : v < NUPAGE)
    (present : has (pteOf s.mem d v) PTE_P = true) (page : Page) :
    ppn (pteOf s.mem d v) < NPHYS ∧
      Draft g p s₀ { s with mem := Function.update s.mem (ppn (pteOf s.mem d v)) page }
      d sz limit := by
  obtain ⟨content, rep, -⟩ := draft.image.rep
  obtain ⟨pooled, unpinned⟩ := rep.entries.frame draft.image.inside user (frameOf_present present)
  have keeps :
      Keeps (g.respace d content) s.mem (Function.update s.mem (ppn (pteOf s.mem d v)) page) :=
    Keeps.unpinned s.mem page unpinned
  refine ⟨(rep.layout.pool_bounds _ pooled).2, draft.rewrite (draft.image.store user present page)
    (fun i => keeps.table draft.image.inside i)
    (fun u low => congrArg frameOf (keeps.entry draft.image.inside (user_lt low)))
    fun outside => ?_⟩
  refine Function.update_of_ne ?_ _ _
  rintro rfl
  exact outside (draft.frames user (frameOf_present present))

/-! ## allocuvm -/

theorem allocLoop_room {n : Nat} (draft : Draft g p s₀ s d sz limit) (newsz : Nat)
    (grows : pagesOf sz + n = pagesOf newsz)
    (fits : pagesOf newsz ≤ NUPAGE) (within : pagesOf newsz ≤ limit) :
    ∃ t used, allocLoop p d n (pagesOf sz) s = .ok ((), t) ∧ Allocated p d (pagesOf sz) n s t used ∧
      (Image g t d newsz → Draft g p s₀ t d newsz limit) := by
  obtain ⟨content, rep, full, empty⟩ := draft.image.rep
  obtain ⟨enough, room⟩ := draft.funded
  have split : limit - pagesOf sz = n + (limit - pagesOf newsz) := by omega
  have fewer :
      (missing s.mem d (pagesOf sz) n).card ≤
        (missing s.mem d (pagesOf sz) (limit - pagesOf sz)).card := by
    refine Finset.card_le_card
      (Finset.filter_subset_filter _ (Finset.image_subset_image fun k small => ?_))
    rw [Finset.mem_range] at small ⊢
    omega
  obtain ⟨t, used, looped, allocated⟩ := Xv6Cow.allocLoop_room (p := p)
    (n := n) rep draft.quiet draft.image.inside draft.image.loose
    (by omega) (fun u low high => (Ghost.respace_here g d u content).trans (empty u low (by omega)))
    (by omega)
  refine ⟨t, used, looped, allocated, fun image => ?_⟩
  have carves := allocated.carves
  have taken : ∀ {x}, x ∈ used → x ∈ s₀.freelist := by
    intro x member
    refine draft.free ?_
    rw [allocated.freelist]
    exact List.mem_append_left _ member
  refine ⟨image, ?_, ⟨within, ?_⟩, ?_, ?_, ?_, draft.dir, ?_, ?_, ?_⟩
  · rw [carves.log]
    exact draft.quiet
  · have budget := allocated.budget (limit - pagesOf newsz)
    have length := congrArg List.length allocated.freelist
    rw [List.length_append] at length
    rw [grows, ← split] at budget
    omega
  · obtain ⟨mem, refcnt, free, num, before⟩ := draft.shape
    obtain ⟨mem', refcnt', free', num', after⟩ := carves.shape
    refine ⟨mem', refcnt', free', num', ?_⟩
    rw [after, before, ← grows, ← raise_raise]
    rfl
  · intro x outside
    refine (draft.same outside).trans ⟨carves.mem ?_ (fun member => outside (taken member)) ?_,
      carves.refcnt (fun member => outside (taken member))⟩
    · rintro rfl
      exact outside draft.dir
    · intro i table
      exact outside (draft.tables table)
  · intro x member
    refine draft.free ?_
    rw [allocated.freelist]
    exact List.mem_append_right _ member
  · intro i x found
    rcases carves.added found with before | new
    · exact draft.tables before
    · exact taken new
  · intro u q user found
    by_cases inner : pagesOf sz ≤ u ∧ u < pagesOf sz + n
    · obtain ⟨x, member, small, entry⟩ := allocated.frames u inner.1 inner.2
      have word := userWord_map small
      rw [entry, frameOf_present word.present, word.frame] at found
      cases found
      exact taken member
    · rw [allocated.others u (user_lt user) (by omega)] at found
      exact draft.frames user found
  · intro i high
    obtain ⟨x, found⟩ := Option.ne_none_iff_exists'.mp (draft.devices i high)
    rw [carves.kept (show tablePage (raise s p n).mem d i = some x from found)]
    exact Option.some_ne_none x

theorem alloc_room (draft : Draft g p s₀ s d sz limit) (newsz : Nat)
    (within : newsz < KERNBASE → pagesOf newsz ≤ limit) :
    ∃ t, allocuvm p d sz newsz s = .ok (if KERNBASE ≤ newsz then 0 else max sz newsz, t) ∧
      Draft g p s₀ t d (if KERNBASE ≤ newsz then sz else max sz newsz) limit := by
  by_cases high : KERNBASE ≤ newsz
  · refine ⟨s, ?_, ?_⟩
    · unfold allocuvm
      rw [if_pos high, if_pos high]
      rfl
    · rw [if_pos high]
      exact draft
  rw [if_neg high, if_neg high]
  by_cases shrinks : newsz < sz
  · refine ⟨s, ?_, ?_⟩
    · unfold allocuvm
      rw [if_neg high, if_pos shrinks, Nat.max_eq_left (Nat.le_of_lt shrinks)]
      rfl
    · rw [Nat.max_eq_left (Nat.le_of_lt shrinks)]
      exact draft
  have grows := Nat.le_of_not_lt shrinks
  have pages := pagesOf_mono grows
  rw [Nat.max_eq_right grows]
  obtain ⟨t, used, looped, allocated, next⟩ :=
    draft.allocLoop_room newsz (n := pagesOf newsz - pagesOf sz) (by omega)
    (pagesOf_le (Nat.le_of_not_le high)) (within (Nat.lt_of_not_le high))
  have success : allocuvm p d sz newsz s = .ok (newsz, t) := by
    unfold allocuvm
    rw [if_neg high, if_neg shrinks]
    exact bind_of_ok looped
  refine ⟨t, success, next ?_⟩
  obtain ⟨z, image, size⟩ :=
    draft.image.alloc success (by rw [allocated.carves.log]; exact draft.quiet)
  by_cases zero : newsz = 0
  · subst zero
    obtain rfl : sz = 0 := by omega
    obtain rfl : t = s := (Prog.pure_ok_iff.mp looped).2
    exact draft.image
  · obtain ⟨rfl, -⟩ := size zero
    exact image

/-! ## Reads and writes -/

theorem entry (draft : Draft g p s₀ s d sz limit) (within : v < pagesOf sz) :
    ∃ x, v < NUPAGE ∧ has (pteOf s.mem d v) PTE_P = true ∧ tablePage s.mem d (pdx v) = some x ∧
      x < NPHYS ∧
      s.mem x (ptx v) = pteOf s.mem d v := by
  obtain ⟨user, present, -⟩ := draft.image.mapped within
  obtain ⟨x, table⟩ := table_of_pteOf (ne_zero_of_present present)
  exact ⟨x, user, present, table, draft.tableBelow table, (pteOf_of_table table).symm⟩

theorem loadLoop_room {n : Nat} (draft : Draft g p s₀ s d sz limit) (file : File) (off left : Nat)
    (within : v + n ≤ pagesOf sz) :
    ∃ out t, loadLoop d file n v off left s = .ok (out, t) ∧ Draft g p s₀ t d sz limit := by
  induction n generalizing v off left s with
  | zero => exact ⟨true, s, rfl, draft⟩
  | succ n ih =>
    obtain ⟨x, user, present, table, small, word⟩ := draft.entry (v := v) (by omega)
    obtain ⟨bound, next⟩ := draft.store user present
      ((s.mem (ppn (pteOf s.mem d v))).patch 0 ((file.readi off (min left PGSIZE)).getD 0)
        (fun k => file.bytes (off + k)))
    have loaded :
      loadWord ⟨x, ptx v⟩ s = .ok (pteOf s.mem d v, s) :=
      loadWord_ok_iff.mpr ⟨small, word.symm, rfl⟩
    have page : loadPage (ppn (pteOf s.mem d v)) s = .ok (s.mem (ppn (pteOf s.mem d v)), s) :=
      loadPage_ok_iff.mpr ⟨bound, rfl, rfl⟩
    have stored : ∀ page, storePage (ppn (pteOf s.mem d v)) page s = .ok ((), _) :=
      fun page => storePage_ok_iff.mpr ⟨bound, rfl⟩
    rw [loadLoop, bind_of_ok (walk_of_table draft.dirBelow table)]
    dsimp only
    rw [bind_of_ok loaded, bind_of_ok page, bind_of_ok (stored _), Prog.ite_apply]
    split
    · exact ih next _ _ (by omega)
    · exact ⟨false, _, rfl, next⟩

theorem clearpteu_room (draft : Draft g p s₀ s d sz limit) (within : v < pagesOf sz) :
    ∃ t, clearpteu d v s = .ok ((), t) ∧ Draft g p s₀ t d sz limit := by
  obtain ⟨x, user, present, table, small, word⟩ := draft.entry within
  obtain ⟨content, rep, -⟩ := draft.image.rep
  have loaded :
    loadWord ⟨x, ptx v⟩ s = .ok (pteOf s.mem d v, s) := loadWord_ok_iff.mpr ⟨small, word.symm, rfl⟩
  have success : clearpteu d v s =
      .ok ((), { s with mem := setWord s.mem ⟨x, ptx v⟩ (pteOf s.mem d v &&& ~~~PTE_U) }) := by
    unfold clearpteu
    rw [bind_of_ok (walk_of_table draft.dirBelow table)]
    dsimp only
    rw [bind_of_ok loaded]
    exact storeWord_ok_iff.mpr ⟨small, rfl⟩
  have rewrites := rep.layout.rewrites (Keeps.refl _ s.mem) draft.image.inside (user_lt user) table
    (pteOf s.mem d v &&& ~~~PTE_U)
  refine ⟨_, success, draft.rewrite (draft.image.clearpteu within success)
    (fun i => rewrites.table draft.image.inside i)
    (fun u low => ?_) fun outside => setWord_of_ne ?_⟩
  · by_cases here : u = v
    · subst here
      have kept : has (pteOf s.mem d u &&& ~~~PTE_U) PTE_P = true := by
        rwa [has_P, bit_andNot _ rfl, ← has_P]
      rw [rewrites.here, frameOf_present kept, frameOf_present present, ppn_andNot low_U]
    · rw [rewrites.others draft.image.inside (user_lt low) (fun both => here both.2)]
  · rintro rfl
    exact outside (draft.tables table)

theorem uva2ka_room (draft : Draft g p s₀ s d sz limit)
    {x : Nat} (table : tablePage s.mem d (pdx v) = some x) :
    uva2ka d v s =
      .ok (if has (pteOf s.mem d v) PTE_P && has (pteOf s.mem d v) PTE_U then some
        (ppn (pteOf s.mem d v))
      else none, s) := by
  have loaded : derefPte (some ⟨x, ptx v⟩) s = .ok (pteOf s.mem d v, s) :=
    derefPte_ok_iff.mpr ⟨_, rfl, draft.tableBelow table, pteOf_of_table table, rfl⟩
  unfold uva2ka
  rw [bind_of_ok (walk_of_table draft.dirBelow table), bind_of_ok loaded, Prog.ite_apply]
  split <;> rfl

theorem copyoutLoop_room (draft : Draft g p s₀ s d sz limit) (buf : Nat → Byte) (va count len : Nat)
    (inside : 0 < len → va + len ≤ sz) :
    ∃ out t, copyoutLoop d buf va count len s = .ok (out, t) ∧ Draft g p s₀ t d sz limit := by
  induction len using Nat.strongRecOn generalizing va count s with
  | ind len ih =>
    rw [copyoutLoop, Prog.ite_apply]
    split
    · rename_i positive
      have reach := inside positive
      have start : va / PGSIZE < pagesOf sz := by
        simp only [pagesOf, PGSIZE_eq]
        omega
      have small := draft.image.small
      obtain ⟨x, user, present, table, -⟩ := draft.entry start
      rw [bind_of_ok (draft.uva2ka_room table), present, Bool.true_and]
      by_cases allowed : has (pteOf s.mem d (va / PGSIZE)) PTE_U = true
      · rw [if_pos allowed]
        dsimp only
        obtain ⟨bound, next⟩ := draft.store user present
          ((s.mem (ppn (pteOf s.mem d (va / PGSIZE)))).patch (va % PGSIZE)
            (min (PGSIZE - va % PGSIZE) len)
            (fun k => buf (count + k)))
        have page : loadPage (ppn (pteOf s.mem d (va / PGSIZE))) s =
            .ok (s.mem (ppn (pteOf s.mem d (va / PGSIZE))), s) :=
            loadPage_ok_iff.mpr ⟨bound, rfl, rfl⟩
        have stored : ∀ page, storePage (ppn (pteOf s.mem d (va / PGSIZE))) page s = .ok ((), _) :=
          fun page => storePage_ok_iff.mpr ⟨bound, rfl⟩
        have room : 0 < PGSIZE - va % PGSIZE := Nat.sub_pos_of_lt (Nat.mod_lt va (by decide))
        rw [bind_of_ok page, bind_of_ok (stored _)]
        refine ih _ (by omega) next _ _ fun more => ?_
        rw [KERNBASE_eq] at small
        rw [PGSIZE_eq] at *
        omega
      · rw [if_neg allowed]
        exact ⟨false, s, rfl, draft⟩
    · exact ⟨true, s, rfl, draft⟩

/-- copyout to an address that wrapped around: it is a device's, and not the user's. -/
theorem copyoutLoop_device {buf : Nat → Byte} {va count len : Nat}
    (draft : Draft g p s₀ s d sz limit)
    (positive : 0 < len) (device : DEVSPACE ≤ va) (word : va < 2 ^ 32) :
    copyoutLoop d buf va count len s = .ok (false, s) := by
  have page : va / PGSIZE < NVPAGE := by
    rw [PGSIZE_eq, NVPAGE_eq]
    omega
  have high : NUPAGE ≤ va / PGSIZE := by
    unfold DEVSPACE at device
    rw [PGSIZE_eq, NUPAGE_eq]
    omega
  obtain ⟨content, rep, -⟩ := draft.image.rep
  obtain ⟨x, table⟩ := Option.ne_none_iff_exists'.mp (draft.devices (pdx (va / PGSIZE)) (by
    rw [pdx_val page, PGSIZE_eq]
    unfold DEVSPACE at device
    omega))
  rw [copyoutLoop, Prog.ite_apply, if_pos positive, bind_of_ok (draft.uva2ka_room table),
    (rep.entries.kernel draft.image.inside high page).2, Bool.and_false]
  rfl

/-! ## The segments -/

theorem pagesOf_max (a b : Nat) : pagesOf (max a b) = max (pagesOf a) (pagesOf b) := by
  simp only [pagesOf, PGSIZE_eq]
  omega

theorem loadSegment_room {ph : ProgHdr} {bound : Nat} (draft : Draft g p s₀ s d sz limit)
    (file : File)
    (start : ph.vaddr < 2 ^ 32) (wide : ph.memsz < 2 ^ 32) (small : pagesOf sz ≤ bound)
    (enough : bound ≤ limit)
    (within : ¬(ph.memsz < ph.filesz ∨ KERNBASE ≤ ph.vaddr + ph.memsz) →
      pagesOf (ph.vaddr + ph.memsz) ≤ bound) :
    ∃ out t z, loadSegment p d file ph sz s = .ok (out, t) ∧ Draft g p s₀ t d z limit ∧
      pagesOf z ≤ bound ∧
      (out = none ∨ out = some z ∧ ¬(ph.memsz < ph.filesz ∨ KERNBASE ≤ ph.vaddr + ph.memsz)) := by
  unfold loadSegment
  rw [Prog.ite_apply]
  split
  · exact ⟨none, s, sz, rfl, draft, small, .inl rfl⟩
  rename_i room
  rw [Prog.ite_apply]
  split
  · exact ⟨none, s, sz, rfl, draft, small, .inl rfl⟩
  rename_i nowrap
  have total : (ph.vaddr + ph.memsz) % 2 ^ 32 = ph.vaddr + ph.memsz := by omega
  have accepted : ph.vaddr + ph.memsz < KERNBASE → pagesOf (ph.vaddr + ph.memsz) ≤ bound :=
    fun low => within (not_or.mpr ⟨room, Nat.not_le_of_lt low⟩)
  rw [total]
  obtain ⟨t, grown, next⟩ := draft.alloc_room (ph.vaddr + ph.memsz) fun low =>
    (accepted low).trans enough
  rw [bind_of_ok grown]
  by_cases high : KERNBASE ≤ ph.vaddr + ph.memsz
  · rw [if_pos high] at next ⊢
    exact ⟨none, t, sz, rfl, next, small, .inl rfl⟩
  rw [if_neg high] at next ⊢
  have larger : pagesOf (max sz (ph.vaddr + ph.memsz)) ≤ bound := by
    rw [pagesOf_max]
    exact Nat.max_le.mpr ⟨small, accepted (Nat.lt_of_not_le high)⟩
  rw [Prog.ite_apply]
  split
  · exact ⟨none, t, _, rfl, next, larger, .inl rfl⟩
  rw [Prog.ite_apply]
  split
  · exact ⟨none, t, _, rfl, next, larger, .inl rfl⟩
  rename_i aligned
  have pages : ph.vaddr / PGSIZE + pagesOf ph.filesz ≤ pagesOf (max sz (ph.vaddr + ph.memsz)) := by
    rw [not_not] at aligned
    simp only [pagesOf, PGSIZE_eq] at *
    omega
  obtain ⟨out, r, loaded, last⟩ := next.loadLoop_room file ph.off ph.filesz pages
  have filled : loaduvm d ph.vaddr file ph.off ph.filesz t = .ok (out, r) := by
    unfold loaduvm
    rw [if_neg aligned]
    exact loaded
  rw [bind_of_ok filled, Prog.ite_apply]
  cases out with
  | false => exact ⟨none, r, _, rfl, last, larger, .inl rfl⟩
  | true => exact ⟨some _, r, _, rfl, last, larger, .inr ⟨rfl, not_or.mpr ⟨room, high⟩⟩⟩

theorem loadSegments_room {bound : Nat} (draft : Draft g p s₀ s d sz limit) (file : File)
    (n off : Nat)
    (small : pagesOf sz ≤ bound) (enough : bound ≤ limit)
    (within : segmentPages file n off ≤ bound) :
    ∃ out t z, loadSegments p d file n off sz s = .ok (out, t) ∧ Draft g p s₀ t d z limit ∧
      pagesOf z ≤ bound ∧
      (out = none ∨ out = some z) := by
  induction n generalizing off sz s with
  | zero => exact ⟨some sz, s, sz, rfl, draft, small, .inr rfl⟩
  | succ n ih =>
    unfold loadSegments
    unfold segmentPages at within
    split
    · exact ⟨none, s, sz, rfl, draft, small, .inl rfl⟩
    · rename_i ph found
      rw [found] at within
      dsimp only at within
      obtain ⟨start, wide⟩ := proghdr_bounds found
      rw [Prog.ite_apply]
      split
      · rename_i load
        rw [if_pos load] at within
        obtain ⟨out, t, z, loaded, next, fits, outcome⟩ :=
          draft.loadSegment_room file start wide small enough
          (fun taken => by
            rw [if_neg taken] at within
            omega)
        rw [bind_of_ok loaded]
        rcases outcome with rfl | ⟨rfl, taken⟩
        · exact ⟨none, t, z, rfl, next, fits, .inl rfl⟩
        · rw [if_neg taken] at within
          exact ih next _ fits (by omega)
      · rename_i other
        rw [if_neg other] at within
        exact ih draft _ small within

/-! ## The stack -/

/-- What is pushed on the stack lands in the image, or its address wraps around to the devices. -/
theorem push_room {sp : Nat} (draft : Draft g p s₀ s d sz limit) (va : Nat) (buf : List Byte)
    (under : sp ≤ sz)
    (positive : 0 < buf.length) (short : buf.length ≤ (NPHYS + NPAGE) * PGSIZE)
    (low : va ≤ below sp buf.length) (near : below sp buf.length < va + 4) :
    ∃ out t, copyout d va buf s = .ok (out, t) ∧ Draft g p s₀ t d sz limit ∧
      (out = true → va ≤ sz) := by
  have small := draft.image.small
  rw [KERNBASE_eq] at small
  by_cases fits : buf.length ≤ sp
  · have plain := below_of_le fits (by omega)
    obtain ⟨out, t, copied, next⟩ :=
      draft.copyoutLoop_room (fun k => buf.getD k 0) va 0 buf.length (fun _ => by omega)
    exact ⟨out, t, copied, next, fun _ => by omega⟩
  · rw [NPHYS_eq, NPAGE_eq, PGSIZE_eq] at short
    have wrapped := below_wrap (Nat.lt_of_not_le fits) (by omega)
    have word := below_lt sp buf.length
    exact ⟨false, s, draft.copyoutLoop_device positive (by unfold DEVSPACE; omega) (by omega),
      draft,
      fun impossible => by cases impossible⟩

theorem pushArgs_room {args : List (List Byte)} (draft : Draft g p s₀ s d sz limit) (argc sp : Nat)
    (under : sp ≤ sz)
    (few : argc ≤ MAXARG) (short : ∀ arg ∈ args, arg.length < (NPHYS + NPAGE) * PGSIZE) :
    ∃ out t, pushArgs d args argc sp s = .ok (out, t) ∧ Draft g p s₀ t d sz limit ∧
      ∀ last ptrs, out = some (last, ptrs) → last ≤ sz ∧ argc + ptrs.length ≤ MAXARG := by
  induction args generalizing argc sp s with
  | nil =>
    refine ⟨some (sp, []), s, rfl, draft, fun last ptrs same => ?_⟩
    cases same
    exact ⟨under, few⟩
  | cons arg rest ih =>
    unfold pushArgs
    rw [Prog.ite_apply]
    split
    · exact ⟨none, s, rfl, draft, fun _ _ impossible => by cases impossible⟩
    rename_i more
    have length :
      (arg ++ [0#8]).length = arg.length + 1 := by rw [List.length_append, List.length_singleton]
    obtain ⟨out, t, copied, next, lower⟩ := draft.push_room (below sp (arg.length + 1) / 4 * 4)
      (arg ++ [0#8]) under (by omega) (by rw [length]; exact short arg List.mem_cons_self)
      (by rw [length]; omega) (by rw [length]; omega)
    dsimp only
    rw [bind_of_ok copied]
    cases out with
    | false => exact ⟨none, t, rfl, next, fun _ _ impossible => by cases impossible⟩
    | true =>
      obtain ⟨pushed, r, later, final, bounds⟩ := ih next (argc + 1) _ (lower rfl) (by omega)
        fun other member => short other (List.mem_cons_of_mem arg member)
      rw [if_pos rfl, bind_of_ok later]
      cases pushed with
      | none => exact ⟨none, r, rfl, final, fun _ _ impossible => by cases impossible⟩
      | some pair =>
        refine ⟨some (pair.1, _ :: pair.2), r, rfl, final, fun last ptrs same => ?_⟩
        cases same
        obtain ⟨under, count⟩ := bounds pair.1 pair.2 rfl
        refine ⟨under, ?_⟩
        rw [List.length_cons]
        omega

theorem length_ustack (sp : Nat) (ptrs : List Nat) :
    (ustack sp ptrs).length = (3 + ptrs.length + 1) * 4 := by
  have words : ∀ l : List Nat, (l.flatMap uintBytes).length = l.length * 4 := by
    intro l
    induction l with
    | nil => rfl
    | cons n rest ih =>
      rw [List.flatMap_cons, List.length_append, ih, List.length_cons, Nat.succ_mul, Nat.add_comm]
      rfl
  unfold ustack
  rw [words, List.length_append, List.length_append]
  simp only [List.length_cons, List.length_nil]

theorem execStack_room {argv : List (List Byte)} (draft : Draft g p s₀ s d sz limit)
    (enough : pagesOf sz + 2 ≤ limit)
    (short : ∀ arg ∈ argv, arg.length < (NPHYS + NPAGE) * PGSIZE) :
    ∃ out t z, execStack p d argv sz s = .ok (out, t) ∧ Draft g p s₀ t d z limit ∧
      (out = none ∨ out = some z) := by
  have rounded : Draft g p s₀ s d (pagesOf sz * PGSIZE) limit := by
    refine ⟨draft.image.round, draft.quiet, ?_, ?_, draft.same, draft.free, draft.dir, draft.tables,
      draft.frames, draft.devices⟩ <;> rw [pagesOf_mul]
    · exact draft.funded
    · exact draft.shape
  have pages : pagesOf (pagesOf sz * PGSIZE + 2 * PGSIZE) = pagesOf sz + 2 := by
    simp only [pagesOf, PGSIZE_eq]
    omega
  obtain ⟨u, grown, next⟩ :=
    rounded.alloc_room (pagesOf sz * PGSIZE + 2 * PGSIZE) fun _ => by rw [pages]; exact enough
  unfold execStack
  rw [bind_of_ok grown]
  by_cases high : KERNBASE ≤ pagesOf sz * PGSIZE + 2 * PGSIZE
  · rw [if_pos high] at next ⊢
    exact ⟨none, u, _, rfl, next, .inl rfl⟩
  rw [if_neg high, Nat.max_eq_right (Nat.le_add_right _ _)] at next
  rw [if_neg high, Nat.max_eq_right (Nat.le_add_right _ _)]
  obtain ⟨top, stack⟩ : ∃ top, top = pagesOf sz * PGSIZE + 2 * PGSIZE := ⟨_, rfl⟩
  rw [← stack] at next ⊢
  have guard : top / PGSIZE - 2 < pagesOf top := by
    rw [stack, pages, PGSIZE_eq]
    omega
  obtain ⟨u₁, guarded, next₁⟩ := next.clearpteu_room guard
  obtain ⟨out, u₂, pushed, next₂, bounds⟩ := next₁.pushArgs_room 0 top (Nat.le_refl _)
    (Nat.zero_le _) short
  rw [if_neg (by rw [stack, PGSIZE_eq]; omega), bind_of_ok guarded, bind_of_ok pushed]
  cases out with
  | none => exact ⟨none, u₂, top, rfl, next₂, .inl rfl⟩
  | some pair =>
    obtain ⟨under, few⟩ := bounds pair.1 pair.2 rfl
    have length := length_ustack pair.1 pair.2
    obtain ⟨copied, u₃, written, next₃, -⟩ :=
      next₂.push_room (below pair.1 ((3 + pair.2.length + 1) * 4))
      (ustack pair.1 pair.2) under (by omega)
      (by rw [length, NPHYS_eq, NPAGE_eq, PGSIZE_eq]; unfold MAXARG at few; omega) (by rw [length])
      (by rw [length]; omega)
    dsimp only
    rw [bind_of_ok written]
    cases copied with
    | false => exact ⟨none, u₃, top, rfl, next₃, .inl rfl⟩
    | true => exact ⟨some top, u₃, top, rfl, next₃, .inr rfl⟩

theorem execImage_room {file : File} {elf : ElfHdr} {argv : List (List Byte)}
    (draft : Draft g p s₀ s d 0 (imagePages file elf))
    (short : ∀ arg ∈ argv, arg.length < (NPHYS + NPAGE) * PGSIZE) :
    ∃ out t z, execImage p d file elf argv s = .ok (out, t) ∧
      Draft g p s₀ t d z (imagePages file elf) ∧
      (out = none ∨ out = some z) := by
  obtain ⟨loaded, u, z, segments, next, small, outcome⟩ :=
    draft.loadSegments_room file elf.phnum elf.phoff
    (Nat.zero_le (segmentPages file elf.phnum elf.phoff)) (Nat.le_add_right _ _) (Nat.le_refl _)
  unfold execImage
  rw [bind_of_ok segments]
  rcases outcome with rfl | rfl
  · exact ⟨none, u, z, rfl, next, .inl rfl⟩
  · have enough : pagesOf z + 2 ≤ imagePages file elf := Nat.add_le_add_right small 2
    dsimp only
    exact next.execStack_room enough short

end Draft

/-! ## exec -/

theorem Rep.keeps_outside {m : Nat → Page} (rep : Rep g s)
    (same : ∀ {x}, x ∉ s.freelist → m x = s.mem x) :
    Keeps g s.mem m := by
  have dir : ∀ {e}, e ∈ g.dirs → m e = s.mem e :=
    fun member => same fun free => (rep.free_apart free).2.2.1.1 member
  refine ⟨dir, fun {e v} member _ => pteOf_congr (dir member) fun x table => same fun free => ?_⟩
  exact (rep.free_apart free).2.2.2 e member _ table

/-- Only the contents and the counts of the free pages, and their order, have changed. -/
structure Restored (s t : Kernel) : Prop where
  shape : ∃ mem refcnt free, t = { s with mem := mem, pageToRefcnt := refcnt, freelist := free }
  free : t.freelist.Perm s.freelist
  same : ∀ {x}, x ∉ s.freelist → SameAt s t x

theorem Restored.refl (s : Kernel) : Restored s s :=
  ⟨⟨s.mem, s.pageToRefcnt, s.freelist, rfl⟩, List.Perm.refl _, fun _ => SameAt.refl s _⟩

theorem Rep.freelist_perm (before : Rep g s) (after : Rep g t)
    (same : ∀ {x}, x ∉ s.freelist → t.mem x = s.mem x) :
    t.freelist.Perm s.freelist := by
  have uses := (before.keeps_outside same).uses_eq
  refine (List.perm_ext_iff_of_nodup after.exact.nodup before.exact.nodup).mpr fun q => ?_
  rw [after.exact.mem_free, before.exact.mem_free, uses]

theorem draft_start (sound : Sound loan g s)
    (room : 10 + limit + (limit + 1023) / 1024 ≤ s.freelist.length) :
    ∃ d t, setupkvm s = .ok (d, t) ∧ g.Fresh d ∧ Draft (g.addDir d) p s t d 0 limit := by
  have rep := sound.settled.rep
  obtain ⟨d, t, used, made, count, list, ⟨mem, refcnt, free, num, shape⟩, kept, counts, low,
      devices, tables⟩ :=
    setupkvm_room rep sound.quiet (by omega)
  have log : t.log = s.log := by rw [shape]
  obtain ⟨fresh, ready, -⟩ := setupkvm_spec rep made (by rw [log]; exact sound.quiet)
  have taken : ∀ {x}, x = d ∨ x ∈ used → x ∈ s.freelist := by
    rintro x (rfl | member) <;> rw [list]
    · exact List.mem_cons_self
    · exact List.mem_append_left _ (List.mem_cons_of_mem _ member)
  have few := length_freelist_lt rep
  refine ⟨d, t, made, fresh, image_start sound.settled (setupkvm_calm _ _ _ made) fresh ready, ?_,
    ⟨Nat.zero_le _, ?_⟩, ?_, ?_,
    ?_, taken (.inl rfl), fun found => taken (.inr (tables _ _ found)), ?_, devices⟩
  · change Quiet g t.log
    rw [log]
    exact sound.quiet
  · have tables := missing_start (m := t.mem) (d := d) (n := limit) (by rw [NUPAGE_eq]; omega) low
    unfold tablesFor at tables
    have length := congrArg List.length list
    rw [List.length_append, List.length_cons, count] at length
    change limit - 0 + (missing t.mem d 0 (limit - 0)).card ≤ _
    rw [Nat.sub_zero]
    omega
  · refine ⟨mem, refcnt, free, num, ?_⟩
    rw [show pagesOf 0 = 0 from rfl, raise_zero]
    exact shape
  · intro x outside
    exact ⟨kept (fun here => outside (taken (.inl here))) (fun here => outside (taken (.inr here))),
      counts (fun here => outside (taken (.inl here))) (fun here => outside (taken (.inr here)))⟩
  · intro x member
    rw [list]
    exact List.mem_append_right _ member
  · intro v q user found
    rw [pteOf_of_none
      (low (pdx v) (by rw [pdx_val (user_lt user)]; rw [NUPAGE_eq] at user; omega))] at found
    cases found

namespace Draft

theorem clear (draft : Draft g p s₀ s d sz limit) {u : Nat} (user : u < NUPAGE) :
    isSwapped (pteOf s.mem d u) = false := by
  by_cases mapped : pteOf s.mem d u = 0#32
  · rw [mapped]
    decide
  · exact isSwapped_of_present (draft.image.owned u user mapped).1

theorem length_framesIn (draft : Draft g p s₀ s d sz limit) :
    (framesIn s.mem d 0 NUPAGE).length = pagesOf sz := by
  obtain ⟨content, rep, full, empty⟩ := draft.image.rep
  have fits := pagesOf_le draft.image.small
  have blank : ∀ u, pagesOf sz ≤ u → u < NUPAGE → pteOf s.mem d u = 0#32 := fun u low user =>
    rep.vacant draft.image.inside user ((Ghost.respace_here g d u content).trans (empty u low user))
  rw [framesIn_append s.mem d (Nat.zero_le _) fits, framesIn_blank blank, List.append_nil,
    framesIn_present fun u _ high => (draft.image.mapped high).2.1, List.length_map,
    List.length_range', Nat.sub_zero]

theorem abandon (settled : Settled loan g s₀) (fresh : g.Fresh d)
    (draft : Draft (g.addDir d) p s₀ s d sz limit) :
    ∃ t, freevm p d s = .ok ((), t) ∧ Restored s₀ t ∧ t.pageToRefcnt d = 1 := by
  obtain ⟨content, rep, full, empty⟩ := draft.image.rep
  obtain ⟨t, freed, ⟨mem₂, refcnt₂, free₂, num₂, shape₂, -⟩, one, same⟩ :=
    freevm_room (p := p) rep draft.image.inside draft.image.loose
    (fun u user => draft.clear user) (fun q living _ => draft.image.idle q living)
  have torn :=
    (freevm_spec rep draft.image.inside draft.image.loose
      (fun q living _ => draft.image.idle q living) freed).respaced
  rw [Ghost.removeDir_addDir fresh.1] at torn
  have back := torn.respaced
  rw [Ghost.removeDir_absent fresh.1] at back
  have outside : ∀ {x}, x ∉ s₀.freelist → SameAt s₀ t x := by
    intro x away
    refine (draft.same away).trans (same x ?_ ?_ ?_)
    · rintro rfl
      exact away draft.dir
    · intro i table
      exact away (draft.tables table)
    · intro member
      obtain ⟨v, range, found⟩ := List.mem_filterMap.mp member
      rw [List.mem_range'_1] at range
      exact away (draft.frames (by omega) found)
  have perm := settled.rep.freelist_perm back fun away => (outside away).1
  have number : num₂ = s₀.numFreePages := by
    have count := back.numFree
    rw [perm.length_eq, ← settled.rep.numFree, shape₂] at count
    exact count
  refine ⟨t, freed, ⟨⟨mem₂, refcnt₂, free₂, ?_⟩, perm, outside⟩, one⟩
  obtain ⟨mem₁, refcnt₁, free₁, num₁, shape₁⟩ := draft.shape
  rw [shape₂, draft.length_framesIn, number, shape₁]
  simp only [setProc, raise, Function.update_self, Function.update_idem, BitVec.add_sub_cancel,
    Function.update_eq_self]

/-- exec succeeds: the old image can be freed when none of its pages is swapped out. -/
theorem commit (settled : Settled loan g s₀) (loose : g.Loose (s₀.ptable p).pgdir)
    (live : (s₀.ptable p).live = true)
    (mapped : InMemory s₀ p) (fresh : g.Fresh d) (draft : Draft (g.addDir d) p s₀ s d sz limit) :
    ∃ t, execCommit p d sz s = .ok ((), t) ∧ t.log = s₀.log := by
  obtain ⟨content, rep, -⟩ := draft.image.rep
  have old := settled.inside live
  have apart : d ≠ (s₀.ptable p).pgdir := fun same => fresh.1 (same ▸ old)
  have proc :
      ∀ q, (s.ptable q).live = (s₀.ptable q).live ∧ (s.ptable q).pgdir = (s₀.ptable q).pgdir := by
    intro q
    obtain ⟨mem, refcnt, free, num, shape⟩ := draft.shape
    rw [shape]
    dsimp only [raise, setProc]
    by_cases here : q = p
    · rw [here, Function.update_self]
      exact ⟨rfl, rfl⟩
    · rw [Function.update_of_ne here]
      exact ⟨rfl, rfl⟩
  have keeps := settled.rep.keeps_outside fun away => (draft.same away).1
  have committed := @Rep.setProc _ _ rep p { s.ptable p with pgdir := d, sz := sz }
    (fun _ _ => ⟨draft.image.inside, draft.image.small⟩)
  obtain ⟨t, freed, ⟨mem, refcnt, free, num, shape, -⟩, -⟩ :=
    freevm_room (p := p) committed (Finset.mem_insert_of_mem old) loose
    (by
      intro u user
      change isSwapped (pteOf s.mem (s₀.ptable p).pgdir u) = false
      rw [keeps.entry old (user_lt user)]
      by_cases below : u < pagesOf (s₀.ptable p).sz
      · exact isSwapped_of_present (mapped.present u below)
      · rw [settled.rep.vacant old user (settled.census.ends live u (Nat.le_of_not_lt below) user)]
        decide)
    (by
      intro q living _
      change (Function.update s.ptable p _ q).live = true at living
      change (Function.update s.ptable p _ q).pgdir ≠ _
      by_cases here : q = p
      · rw [here, Function.update_self]
        exact apart
      · rw [Function.update_of_ne here] at living ⊢
        rw [(proc q).1] at living
        rw [(proc q).2]
        exact fun same => here (settled.census.alone living live same))
  refine ⟨t, ?_, ?_⟩
  · unfold execCommit
    rw [Prog.read_bind, updateProc, Prog.update_bind, (proc p).2]
    exact freed
  · rw [shape]
    exact draft.log

end Draft

/-- With enough free memory and its pages present, exec does not fault, and when it fails
everything is as before. -/
theorem exec_room {file : File} {argv : List (List Byte)} (sound : Sound loan g s)
    (live : (s.ptable p).live = true)
    (mapped : InMemory s p) (room : RoomFor s file)
    (short : ∀ arg ∈ argv, arg.length < (NPHYS + NPAGE) * PGSIZE) :
    ∃ out t, exec p (some file) argv s = .ok (out, t) ∧ t.log = s.log ∧
      (out = false → Restored s t) ∧
      ∀ elf, file.elfhdr = some elf → elf.magic = ELF_MAGIC → out = false →
      ∃ d ∈ s.freelist, t.pageToRefcnt d = 1 := by
  unfold exec
  dsimp only
  split
  · rename_i refused
    refine ⟨false, s, rfl, rfl, fun _ => Restored.refl s, fun elf found => ?_⟩
    rw [refused] at found
    cases found
  rename_i elf header
  rw [Prog.ite_apply]
  split
  · rename_i magic
    refine ⟨false, s, rfl, rfl, fun _ => Restored.refl s, fun other found same => ?_⟩
    rw [header] at found
    cases found
    exact absurd same magic
  rename_i magic
  rw [not_not] at magic
  obtain ⟨d, u, made, fresh, draft⟩ := draft_start (p := p) sound (room elf header magic)
  obtain ⟨image, w, z, built, draft, outcome⟩ := draft.execImage_room short
  rw [bind_of_ok made, bind_of_ok built]
  rcases outcome with rfl | rfl
  · obtain ⟨t, freed, restored, one⟩ := draft.abandon sound.settled fresh
    dsimp only
    rw [bind_of_ok freed]
    refine ⟨false, t, rfl, ?_, fun _ => restored, fun _ _ _ _ => ⟨d, draft.dir, one⟩⟩
    obtain ⟨mem, refcnt, free, rfl⟩ := restored.shape
    rfl
  · obtain ⟨t, done, log⟩ := draft.commit sound.settled (sound.loose _) live mapped fresh
    dsimp only
    rw [bind_of_ok done]
    exact ⟨true, t, rfl, log, fun impossible => absurd impossible (by decide),
      fun _ _ _ impossible => absurd impossible (by decide)⟩

end Xv6Cow
