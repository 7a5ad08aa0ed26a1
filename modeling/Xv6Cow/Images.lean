import Xv6Cow.Teardown

/- exec. The new image is built in a directory that no process runs in yet, so no
eviction touches it: every page of it is present, writable and unshared until the
commit. -/
namespace Xv6Cow

open Prog (bind_ok_iff pure_ok_iff)

variable {g : Ghost} {s t : Kernel} {d v sz : Nat} {p : Fin NPROC} {done : Unit}

/-- An image under construction in directory `d`: pages up to `sz`, and no more. -/
structure Image (g : Ghost) (s : Kernel) (d sz : Nat) : Prop where
  inside : d ∈ g.dirs
  loose : g.Loose d
  small : sz ≤ KERNBASE
  rep : ∃ content, Rep (g.respace d content) s ∧ (∀ u, u < pagesOf sz → content u ≠ none) ∧
    ∀ u, pagesOf sz ≤ u → u < NUPAGE → content u = none
  owned : Owned s d
  idle : Idle s d

theorem Ghost.respace_here (g : Ghost) (d u : Nat) (content : Nat → Option (Bool × Page)) :
    (g.respace d content).space d u = content u := if_pos rfl

theorem uva2ka_ok {pa : Option Nat} (success : uva2ka d v s = .ok (pa, t)) :
    t = s ∧ ∀ q, pa = some q →
      q = ppn (pteOf s.mem d v) ∧ has (pteOf s.mem d v) PTE_P = true ∧
      has (pteOf s.mem d v) PTE_U = true := by
  unfold uva2ka at success
  obtain ⟨-, x, -, table, success⟩ := deref_cases success
  rw [Prog.ite_apply] at success
  split at success
  · rename_i allowed
    obtain ⟨rfl, rfl⟩ := pure_ok_iff.mp success
    refine ⟨rfl, fun q found => ?_⟩
    cases found
    exact ⟨rfl, Bool.and_eq_true_iff.mp allowed⟩
  · obtain ⟨rfl, rfl⟩ := pure_ok_iff.mp success
    exact ⟨rfl, fun q found => by cases found⟩

/-- Bytes are written to the page behind an address. -/
def patched (s : Kernel) (d va n : Nat) (bytes : Nat → Byte) : Kernel :=
  { s with
    mem := Function.update s.mem (ppn (pteOf s.mem d (va / PGSIZE)))
      ((s.mem (ppn (pteOf s.mem d (va / PGSIZE)))).patch (va % PGSIZE) n bytes) }

theorem copyoutLoop_round {buf : Nat → Byte} {va count len : Nat} {out : Bool} (positive : 0 < len)
    (success : copyoutLoop d buf va count len s = .ok (out, t)) :
    (out = false ∧ t = s) ∨
      has (pteOf s.mem d (va / PGSIZE)) PTE_P = true ∧
      has (pteOf s.mem d (va / PGSIZE)) PTE_U = true ∧
      copyoutLoop d buf ((va / PGSIZE + 1) * PGSIZE % 2 ^ 32)
      (count + min (PGSIZE - va % PGSIZE) len)
        (len - min (PGSIZE - va % PGSIZE) len)
        (patched s d va (min (PGSIZE - va % PGSIZE) len) fun k => buf (count + k)) =
          .ok (out, t) := by
  rw [copyoutLoop, Prog.ite_apply, if_pos positive, bind_ok_iff] at success
  obtain ⟨pa, s1, looked, rest⟩ := success
  obtain ⟨same, page⟩ := uva2ka_ok looked
  subst s1
  cases pa with
  | none => exact .inl (pure_ok_iff.mp rest)
  | some q =>
    obtain ⟨rfl, present, allowed⟩ := page q rfl
    rw [bind_ok_iff] at rest
    obtain ⟨page, s2, loaded, rest⟩ := rest
    obtain ⟨-, rfl, same⟩ := loadPage_ok_iff.mp loaded
    subst s2
    rw [bind_ok_iff] at rest
    obtain ⟨_, r, stored, rest⟩ := rest
    obtain ⟨-, rfl⟩ := storePage_ok_iff.mp stored
    exact .inr ⟨present, allowed, rest⟩

namespace Image

theorem round (image : Image g s d sz) : Image g s d (pagesOf sz * PGSIZE) := by
  have small := image.small
  refine ⟨image.inside, image.loose, ?_, ?_, image.owned, image.idle⟩
  · simp only [pagesOf, PGSIZE_eq, KERNBASE_eq] at *
    omega
  · rw [pagesOf_mul]
    exact image.rep

theorem mapped (image : Image g s d sz) (below : v < pagesOf sz) :
    v < NUPAGE ∧ has (pteOf s.mem d v) PTE_P = true ∧ has (pteOf s.mem d v) PTE_W = true := by
  have user : v < NUPAGE := Nat.lt_of_lt_of_le below (pagesOf_le image.small)
  obtain ⟨content, rep, full, -⟩ := image.rep
  refine ⟨user, image.owned v user (fun zero => full v below ?_)⟩
  rw [← Ghost.respace_here g d v content, ← rep.space image.inside user, spaceOf, zero, pageAt_zero]

theorem base (image : Image g s d sz) : g.base <:+ s.log := by
  obtain ⟨content, rep, -⟩ := image.rep
  exact rep.base

theorem store (image : Image g s d sz) (user : v < NUPAGE)
    (present : has (pteOf s.mem d v) PTE_P = true) (page : Page) :
    Image g { s with mem := Function.update s.mem (ppn (pteOf s.mem d v)) page } d sz := by
  obtain ⟨content, rep, full, empty⟩ := image.rep
  have alone := (image.owned v user (ne_zero_of_present present)).2
  have final := rep.store image.inside user present
    (rep.entries.exclusive image.inside user present alone) page
  rw [Ghost.respace_setSpace, Ghost.respace_respace] at final
  have keeps : Keeps (g.respace d content) s.mem
      (Function.update s.mem (ppn (pteOf s.mem d v)) page) :=
    Keeps.unpinned s.mem page (rep.entries.frame image.inside user (frameOf_present present)).2
  refine ⟨image.inside, image.loose, image.small,
    ⟨_, final, fun u below => ?_, fun u above high => ?_⟩, fun u high => ?_, image.idle⟩
  · split
    · exact Option.some_ne_none _
    · rw [Ghost.respace_here]
      exact full u below
  · rw [if_neg, Ghost.respace_here]
    · exact empty u above high
    · rintro rfl
      have vacant := rep.space image.inside user
      rw [spaceOf, pageAt_present present, Ghost.respace_here, empty u above user] at vacant
      cases vacant
  · have entry := keeps.entry image.inside (user_lt high)
    intro nonzero
    change pteOf (Function.update s.mem (ppn (pteOf s.mem d v)) page) d u ≠ 0#32 at nonzero
    rw [entry] at nonzero
    have flags := image.owned u high nonzero
    rw [← entry] at flags
    exact flags

theorem alloc {newsz sz' : Nat} (image : Image g s d sz)
    (success : allocuvm p d sz newsz s = .ok (sz', t)) (quiet : Quiet g t.log) :
    ∃ z, Image g t d z ∧ (sz' ≠ 0 → z = sz' ∧ newsz ≤ sz' ∧ sz ≤ sz') := by
  obtain ⟨content, rep, full, empty⟩ := image.rep
  have calm := allocuvm_calm _ _ _ _ _ _ _ success
  rcases allocuvm_spec rep image.inside image.loose
      (fun u above high => (Ghost.respace_here g d u content).trans (empty u above high)) success
      quiet with ⟨rfl, -, rfl⟩ | ⟨rfl, shrinks, rfl⟩ | ⟨rfl, small, grows, final, owned⟩
  · exact ⟨sz, image, fun other => absurd rfl other⟩
  · exact ⟨sz', image, fun _ => ⟨rfl, Nat.le_of_lt shrinks, Nat.le_refl _⟩⟩
  · rw [Ghost.respace_setRange, Ghost.respace_respace] at final
    have order : pagesOf sz ≤ pagesOf sz' := by
      simp only [pagesOf, PGSIZE_eq]
      omega
    refine ⟨sz', ⟨image.inside, image.loose, Nat.le_of_lt small,
      ⟨_, final, fun u below => ?_, fun u above high => ?_⟩,
      owned image.idle image.owned, calm.idle image.idle⟩, fun _ => ⟨rfl, Nat.le_refl _, grows⟩⟩
    · split
      · exact Option.some_ne_none _
      · rw [Ghost.respace_here]
        exact full u (by omega)
    · rw [if_neg (by omega), Ghost.respace_here]
      exact empty u (by omega) high

/-! ## loaduvm and copyout -/

theorem loadLoop {file : File} {n off left : Nat} {out : Bool} (image : Image g s d sz)
    (below : v + n ≤ pagesOf sz) (success : loadLoop d file n v off left s = .ok (out, t)) :
    Image g t d sz := by
  induction n generalizing v off left s with
  | zero =>
    obtain ⟨-, rfl⟩ := pure_ok_iff.mp success
    exact image
  | succ n ih =>
    obtain ⟨user, present, -⟩ := image.mapped (v := v) (by omega)
    rw [Xv6Cow.loadLoop] at success
    rcases walk_cases success with ⟨-, stopped⟩ | ⟨x, table, rest⟩
    · exact (Prog.halt_ok_iff.mp stopped).elim
    · obtain ⟨page, s', loaded, rest⟩ := bind_ok_iff.mp (entry_loaded table rest)
      obtain ⟨-, rfl, same⟩ := loadPage_ok_iff.mp loaded
      subst s'
      dsimp only at rest
      rw [bind_ok_iff] at rest
      obtain ⟨_, u, stored, rest⟩ := rest
      obtain ⟨-, rfl⟩ := storePage_ok_iff.mp stored
      have next := image.store user present
        ((s.mem (ppn (pteOf s.mem d v))).patch 0 ((file.readi off (min left PGSIZE)).getD 0)
          (fun k => file.bytes (off + k)))
      rw [Prog.ite_apply] at rest
      split at rest
      · exact ih next (by omega) rest
      · obtain ⟨-, rfl⟩ := pure_ok_iff.mp rest
        exact next

theorem user_of_allowed {va : Nat} (image : Image g s d sz) (small : va < 2 ^ 32)
    (allowed : has (pteOf s.mem d (va / PGSIZE)) PTE_U = true) : va / PGSIZE < NUPAGE := by
  by_contra high
  obtain ⟨content, rep, -⟩ := image.rep
  rw [(rep.entries.kernel image.inside (by omega)
    (by rw [PGSIZE_eq, NVPAGE_eq]; omega)).2] at allowed
  cases allowed

theorem copyoutLoop {buf : Nat → Byte} {va count len : Nat} {out : Bool} (image : Image g s d sz)
    (small : va < 2 ^ 32) (success : copyoutLoop d buf va count len s = .ok (out, t)) :
    Image g t d sz := by
  induction len using Nat.strongRecOn generalizing va count s with
  | ind len ih =>
    by_cases positive : 0 < len
    · rcases copyoutLoop_round positive success with ⟨-, rfl⟩ | ⟨present, allowed, rest⟩
      · exact image
      · have room : 0 < PGSIZE - va % PGSIZE := Nat.sub_pos_of_lt (Nat.mod_lt va (by decide))
        exact ih _ (by omega) (image.store (image.user_of_allowed small allowed) present _)
          (Nat.mod_lt _ (by decide)) rest
    · rw [Xv6Cow.copyoutLoop, Prog.ite_apply, if_neg positive] at success
      obtain ⟨-, rfl⟩ := pure_ok_iff.mp success
      exact image

theorem cleared {content : Nat → Option (Bool × Page)} (image : Image g s d sz)
    (rep : Rep (g.respace d content) s)
    (below : v < pagesOf sz) (success : clearpteu d v s = .ok (done, t)) :
    Rep ((g.respace d content).setSpace d v (some (false, s.mem (ppn (pteOf s.mem d v))))) t ∧
      Owned t d ∧
      t.ptable = s.ptable := by
  obtain ⟨user, present, write⟩ := image.mapped below
  unfold Xv6Cow.clearpteu at success
  rcases walk_cases success with ⟨-, stopped⟩ | ⟨x, table, rest⟩
  · exact (Prog.halt_ok_iff.mp stopped).elim
  · replace rest := entry_loaded table rest
    obtain ⟨-, rfl⟩ := storeWord_ok_iff.mp rest
    have kept : has (pteOf s.mem d v &&& ~~~PTE_U) PTE_P = true := by
      rwa [has_P, bit_andNot _ rfl, ← has_P]
    have kept' : has (pteOf s.mem d v &&& ~~~PTE_U) PTE_W = true := by
      rwa [has_W, bit_andNot _ rfl, ← has_W]
    have gone : has (pteOf s.mem d v &&& ~~~PTE_U) PTE_U = false := by
      rw [has_U, BitVec.getLsbD_and, BitVec.getLsbD_not, show PTE_U.getLsbD 2 = true from rfl]
      simp
    have frame : ppn (pteOf s.mem d v &&& ~~~PTE_U) = ppn (pteOf s.mem d v) := ppn_andNot low_U
    have final := rep.reflag image.inside user table
      (Ghost.stable (rep.layout.thawed image.inside image.loose table (ptx v))) present kept frame
      (fun _ => by rw [frame]; exact rep.entries.exclusive image.inside user present write)
    rw [gone, frame] at final
    have rewrites := rep.layout.rewrites (Keeps.refl _ s.mem) image.inside (user_lt user) table
      (pteOf s.mem d v &&& ~~~PTE_U)
    exact ⟨final, image.owned.rewrites (g := g.respace d content) image.inside rewrites kept kept',
      rfl⟩

theorem clearpteu (image : Image g s d sz) (below : v < pagesOf sz)
    (success : clearpteu d v s = .ok (done, t)) : Image g t d sz := by
  obtain ⟨content, rep, full, empty⟩ := image.rep
  obtain ⟨final, owned, table⟩ := image.cleared rep below success
  rw [Ghost.respace_setSpace, Ghost.respace_respace] at final
  refine ⟨image.inside, image.loose, image.small,
    ⟨_, final, fun u low => ?_, fun u above high => ?_⟩, owned, ?_⟩
  · split
    · exact Option.some_ne_none _
    · rw [Ghost.respace_here]
      exact full u low
  · rw [if_neg (by omega), Ghost.respace_here]
    exact empty u above high
  · intro q living
    rw [table] at living ⊢
    exact image.idle q living

end Image

/-! ## The image of exec -/

theorem File.uint_lt (file : File) (off : Nat) : file.uint off < 2 ^ 32 := BitVec.isLt _

/-- One segment: the image grows, and keeps its shape even when exec gives up. -/
theorem loadSegment_spec {file : File} {ph : ProgHdr} {out : Option Nat} (image : Image g s d sz)
    (start : ph.vaddr < 2 ^ 32) (wide : ph.memsz < 2 ^ 32)
    (success : loadSegment p d file ph sz s = .ok (out, t)) (quiet : Quiet g t.log) :
    ∃ z, Image g t d z ∧ ∀ sz', out = some sz' → z = sz' := by
  unfold loadSegment at success
  rw [Prog.ite_apply] at success
  split at success
  · obtain ⟨rfl, rfl⟩ := pure_ok_iff.mp success
    exact ⟨sz, image, fun _ impossible => by cases impossible⟩
  · rename_i room
    rw [Prog.ite_apply] at success
    split at success
    · obtain ⟨rfl, rfl⟩ := pure_ok_iff.mp success
      exact ⟨sz, image, fun _ impossible => by cases impossible⟩
    · rename_i nowrap
      have total : (ph.vaddr + ph.memsz) % 2 ^ 32 = ph.vaddr + ph.memsz := by omega
      rw [total, bind_ok_iff] at success
      obtain ⟨sz', u, grown, rest⟩ := success
      have alloc : Quiet g u.log → ∃ z, Image g u d z ∧
          (sz' ≠ 0 → z = sz' ∧ ph.vaddr + ph.memsz ≤ sz' ∧ sz ≤ sz') := image.alloc grown
      rw [Prog.ite_apply] at rest
      split at rest
      · obtain ⟨rfl, rfl⟩ := pure_ok_iff.mp rest
        obtain ⟨z, next, -⟩ := alloc quiet
        exact ⟨z, next, fun _ impossible => by cases impossible⟩
      · rename_i nonzero
        rw [Prog.ite_apply] at rest
        split at rest
        · obtain ⟨rfl, rfl⟩ := pure_ok_iff.mp rest
          obtain ⟨z, next, -⟩ := alloc quiet
          exact ⟨z, next, fun _ impossible => by cases impossible⟩
        · rename_i aligned
          rw [not_not] at aligned
          rw [bind_ok_iff] at rest
          obtain ⟨loaded, r, filled, rest⟩ := rest
          unfold loaduvm at filled
          rw [Prog.ite_apply, if_neg (by rw [aligned]; exact fun other => other rfl)] at filled
          have older := (allocuvm_calm _ _ _ _ _ _ _ grown).log
          have newer := (loadLoop_calm _ _ _ _ _ _ _ _ _ filled).log
          have same : t = r ∧ ∀ z, out = some z → z = sz' := by
            rw [Prog.ite_apply] at rest
            split at rest
            all_goals
              obtain ⟨rfl, rfl⟩ := pure_ok_iff.mp rest
              refine ⟨rfl, fun z equal => ?_⟩
              cases equal
            rfl
          obtain ⟨rfl, result⟩ := same
          obtain ⟨z, next, fits⟩ := alloc (quiet.mono (image.base.trans older) newer)
          obtain ⟨rfl, enough, -⟩ := fits nonzero
          have below : ph.vaddr / PGSIZE + pagesOf ph.filesz ≤ pagesOf z := by
            simp only [pagesOf, PGSIZE_eq] at *
            omega
          exact ⟨z, next.loadLoop below filled, fun other equal => (result other equal).symm⟩

theorem proghdr_bounds {file : File} {off : Nat} {ph : ProgHdr}
    (found : file.proghdr off = some ph) : ph.vaddr < 2 ^ 32 ∧ ph.memsz < 2 ^ 32 := by
  unfold File.proghdr at found
  split at found
  · cases found
    exact ⟨file.uint_lt _, file.uint_lt _⟩
  · cases found

theorem loadSegments_spec {file : File} {n off : Nat} {out : Option Nat} (image : Image g s d sz)
    (success : loadSegments p d file n off sz s = .ok (out, t)) (quiet : Quiet g t.log) :
    ∃ z, Image g t d z ∧ ∀ sz', out = some sz' → z = sz' := by
  induction n generalizing off sz s with
  | zero =>
    obtain ⟨rfl, rfl⟩ := pure_ok_iff.mp success
    exact ⟨sz, image, fun z equal => by cases equal; rfl⟩
  | succ n ih =>
    unfold loadSegments at success
    split at success
    · obtain ⟨rfl, rfl⟩ := pure_ok_iff.mp success
      exact ⟨sz, image, fun _ impossible => by cases impossible⟩
    · rename_i ph found
      obtain ⟨start, wide⟩ := proghdr_bounds found
      rw [Prog.ite_apply] at success
      split at success
      · rw [bind_ok_iff] at success
        obtain ⟨next, u, loaded, rest⟩ := success
        have older := (loadSegment_calm _ _ _ _ _ _ _ _ loaded).log
        split at rest
        · obtain ⟨rfl, rfl⟩ := pure_ok_iff.mp rest
          obtain ⟨z, grown, -⟩ := loadSegment_spec image start wide loaded quiet
          exact ⟨z, grown, fun _ impossible => by cases impossible⟩
        · have newer := (loadSegments_calm _ _ _ _ _ _ _ _ _ rest).log
          obtain ⟨z, grown, same⟩ := loadSegment_spec image start wide loaded
            (quiet.mono (image.base.trans older) newer)
          obtain rfl := same _ rfl
          exact ih grown rest
      · exact ih image success

theorem below_lt (sp n : Nat) : below sp n < 2 ^ 32 := by
  unfold below
  omega

theorem pushArgs_spec {args : List (List Byte)} {argc sp : Nat} {out : Option (Nat × List Nat)}
    (image : Image g s d sz) (success : pushArgs d args argc sp s = .ok (out, t)) :
    Image g t d sz := by
  induction args generalizing argc sp s t out with
  | nil =>
    obtain ⟨-, rfl⟩ := pure_ok_iff.mp success
    exact image
  | cons arg rest ih =>
    unfold pushArgs at success
    rw [Prog.ite_apply] at success
    split at success
    · obtain ⟨-, rfl⟩ := pure_ok_iff.mp success
      exact image
    · dsimp only at success
      rw [bind_ok_iff] at success
      obtain ⟨copied, u, written, more⟩ := success
      have top : below sp (arg.length + 1) / 4 * 4 < 2 ^ 32 := by
        have bound := below_lt sp (arg.length + 1)
        omega
      have next := image.copyoutLoop top written
      rw [Prog.ite_apply] at more
      split at more
      · rw [bind_ok_iff] at more
        obtain ⟨pushed, r, later, more⟩ := more
        have final := ih next later
        split at more
        all_goals
          obtain ⟨-, rfl⟩ := pure_ok_iff.mp more
          exact final
      · obtain ⟨-, rfl⟩ := pure_ok_iff.mp more
        exact next

theorem execStack_spec {argv : List (List Byte)} {out : Option Nat} (image : Image g s d sz)
    (success : execStack p d argv sz s = .ok (out, t)) (quiet : Quiet g t.log) :
    ∃ z, Image g t d z ∧ ∀ sz', out = some sz' → z = sz' := by
  unfold execStack at success
  rw [bind_ok_iff] at success
  obtain ⟨top, u, grown, rest⟩ := success
  have rounded := image.round
  have older := (allocuvm_calm _ _ _ _ _ _ _ grown).log
  have alloc : Quiet g u.log → ∃ z, Image g u d z ∧ (top ≠ 0 → z = top ∧
      pagesOf sz * PGSIZE + 2 * PGSIZE ≤ top ∧ pagesOf sz * PGSIZE ≤ top) := rounded.alloc grown
  rw [Prog.ite_apply] at rest
  split at rest
  · obtain ⟨rfl, rfl⟩ := pure_ok_iff.mp rest
    obtain ⟨z, next, -⟩ := alloc quiet
    exact ⟨z, next, fun _ impossible => by cases impossible⟩
  · rename_i nonzero
    rw [bind_ok_iff] at rest
    obtain ⟨_, u1, guarded, rest⟩ := rest
    rw [bind_ok_iff] at rest
    obtain ⟨pushed, u2, pushing, rest⟩ := rest
    have second := (clearpteu_calm _ _ _ _ _ guarded).log.trans
      (pushArgs_calm _ _ _ _ _ _ _ pushing).log
    have later : u2.log <:+ t.log ∧ (Image g u2 d top → Image g t d top) ∧
        ∀ z, out = some z → z = top := by
      split at rest
      · obtain ⟨rfl, rfl⟩ := pure_ok_iff.mp rest
        exact ⟨List.suffix_rfl, id, fun _ impossible => by cases impossible⟩
      · rw [bind_ok_iff] at rest
        obtain ⟨copied, u3, stacked, rest⟩ := rest
        have newer := (copyout_calm _ _ _ _ _ _ stacked).log
        rw [Prog.ite_apply] at rest
        split at rest
        all_goals
          obtain ⟨rfl, rfl⟩ := pure_ok_iff.mp rest
          refine ⟨newer, fun image => image.copyoutLoop (below_lt _ _) stacked, fun z equal => ?_⟩
          cases equal
        rfl
    obtain ⟨newer, finish, result⟩ := later
    obtain ⟨z, next, fits⟩ := alloc (quiet.mono (image.base.trans older) (second.trans newer))
    obtain ⟨rfl, enough, -⟩ := fits nonzero
    have guard : z / PGSIZE - 2 < pagesOf z := by
      simp only [pagesOf, PGSIZE_eq] at *
      omega
    exact ⟨z, finish (pushArgs_spec (next.clearpteu guard guarded) pushing),
      fun other equal => (result other equal).symm⟩

theorem execImage_spec {file : File} {elf : ElfHdr} {argv : List (List Byte)} {out : Option Nat}
    (image : Image g s d 0) (success : execImage p d file elf argv s = .ok (out, t))
    (quiet : Quiet g t.log) : ∃ z, Image g t d z ∧ ∀ sz', out = some sz' → z = sz' := by
  unfold execImage at success
  rw [bind_ok_iff] at success
  obtain ⟨loaded, u, segments, rest⟩ := success
  have older := (loadSegments_calm _ _ _ _ _ _ _ _ _ segments).log
  split at rest
  · obtain ⟨rfl, rfl⟩ := pure_ok_iff.mp rest
    obtain ⟨z, next, -⟩ := loadSegments_spec image segments quiet
    exact ⟨z, next, fun _ impossible => by cases impossible⟩
  · have newer := (execStack_calm _ _ _ _ _ _ _ rest).log
    obtain ⟨z, next, same⟩ := loadSegments_spec image segments
      (quiet.mono (image.base.trans older) newer)
    obtain rfl := same _ rfl
    exact execStack_spec next rest quiet

end Xv6Cow
