import Xv6Cow.RoundTrip

/- Which page table entries own the swap slots. -/
namespace Xv6Cow

open Function (update_self update_of_ne)
open Prog (bind_of_ok)

variable {loan : Set Nat} {g : Ghost} {s t : Kernel} {p : Fin NPROC} {v q : Nat}

/-- A slot is taken exactly if one entry of the existing page tables names it, no slot is
named twice, and every swapped entry names a slot that is taken. -/
def SlotsOwned (s : Kernel) : Prop :=
  (∀ i, i < NPAGE → ((s.swapSlots i).isFree = false ↔
    owners (directories s.kpgdir s.ptable) s.mem (SWAPBASE + i * BPPAGE) = 1) ∧
    owners (directories s.kpgdir s.ptable) s.mem (SWAPBASE + i * BPPAGE) ≤ 1) ∧
  ∀ d ∈ directories s.kpgdir s.ptable, ∀ v, v < NUPAGE → isSwapped (pteOf s.mem d v) = true →
    ∃ i < NPAGE, ppn (pteOf s.mem d v) = SWAPBASE + i * BPPAGE ∧ (s.swapSlots i).isFree = false

theorem Settled.slotsOwned (settled : Settled loan g s) (unreserved : ∀ i, g.reserved i = none) :
    SlotsOwned s := by
  have slots := settled.rep.slots
  unfold SlotsOwned
  rw [← settled.census.dirs]
  refine ⟨fun i bound => ?_, fun d inside v user swapped => ?_⟩
  · have taken := slots.taken bound
    rw [if_pos (unreserved i), Nat.add_zero] at taken
    rw [taken]
    cases (s.swapSlots i).isFree <;> decide
  · obtain ⟨i, bound, named, -⟩ := slots.named inside user swapped
    exact ⟨i, bound, named, (slots.busy inside user swapped bound named).1⟩

/-- In runs of clean steps the slots are owned by the entries that name them. -/
theorem slots_owned (reachable : Reachable CleanStep s) : SlotsOwned s := by
  obtain ⟨loan, g, sound⟩ := reachable.sound
  exact sound.settled.slotsOwned (fun i => by rw [sound.unreserved])

/-- The first process with one page in a slot. -/
theorem slots_owned_first :
    ∃ s, SlotsOwned s ∧ isSwapped (pteOf s.mem (s.ptable 0).pgdir 0) = true := by
  obtain ⟨d, kstack, f, s, full, -⟩ := full_more 1 (by decide)
  exact ⟨s, slots_owned full.reachable, (full.isSwapped (v := 0) (by decide) (by decide)).1⟩

/-! ## A page that looks like a page table -/

/-- Process `p` may write to its page `v`, which is in frame `q`. -/
structure Scratch (p : Fin NPROC) (v q : Nat) (s : Kernel) : Prop where
  reachable : Reachable CleanStep s
  runs : (s.ptable p).canRun = true
  inner : (v + 1) * PGSIZE ≤ (s.ptable p).sz
  present : has (pteOf s.mem (s.ptable p).pgdir v) PTE_P = true
  user : has (pteOf s.mem (s.ptable p).pgdir v) PTE_U = true
  writes : has (pteOf s.mem (s.ptable p).pgdir v) PTE_W = true
  frame : ppn (pteOf s.mem (s.ptable p).pgdir v) = q

theorem userStore_room {x : Nat} {w : Word} (va : Nat) (b : Byte) (dir : (s.ptable p).pgdir < NPHYS)
    (table : tablePage s.mem (s.ptable p).pgdir (pdx (va / PGSIZE)) = some x) (small : x < NPHYS)
    (entry : pteOf s.mem (s.ptable p).pgdir (va / PGSIZE) = w) (allowed : writable w = true)
    (frame : ppn w = q) (high : q < NPHYS) (apart : q ≠ x) :
    userStore p va b s = .ok (true, { s with
      mem := Function.update (setWord s.mem ⟨x, ptx (va / PGSIZE)⟩ (w ||| (PTE_A ||| PTE_D))) q
        ((s.mem q).setByte (va % PGSIZE) b) }) := by
  unfold writable at allowed
  unfold userStore
  rw [Prog.read_bind, bind_of_ok (walk_of_table dir table)]
  dsimp only
  rw [bind_of_ok (loadWord_ok_iff.mpr ⟨small, rfl, rfl⟩)]
  dsimp only
  rw [← pteOf_of_table table, entry, if_pos allowed]
  rw [bind_of_ok (storeWord_ok_iff.mpr ⟨small, rfl⟩ : _ = Except.ok ((), _))]
  rw [frame, bind_of_ok (loadPage_ok_iff.mpr ⟨high, rfl, rfl⟩)]
  rw [bind_of_ok (storePage_ok_iff.mpr ⟨high, rfl⟩ : _ = Except.ok ((), _))]
  dsimp only
  rw [setWord_of_ne (show q ≠ (PtePtr.mk x (ptx (va / PGSIZE))).page from apart)]
  rfl

theorem Scratch.store (scratch : Scratch p v q s) {offset : Nat} (small : offset < PGSIZE)
    (b : Byte) :
    ∃ t, Scratch p v q t ∧ (∃ mem, t = { s with mem := mem }) ∧
      t.mem q = (s.mem q).setByte offset b := by
  obtain ⟨loan, g, sound⟩ := scratch.reachable.sound
  have rep := sound.settled.rep
  have live := canRun_live scratch.runs
  have inside := sound.settled.inside live
  have page : (v * PGSIZE + offset) / PGSIZE = v := by
    rw [PGSIZE_eq] at small ⊢
    omega
  have rest : (v * PGSIZE + offset) % PGSIZE = offset := by
    rw [PGSIZE_eq] at small ⊢
    omega
  have below : v * PGSIZE + offset < (s.ptable p).sz := by
    have inner := scratch.inner
    rw [Nat.succ_mul] at inner
    omega
  have user := sound.settled.user live below
  rw [page] at user
  obtain ⟨x, table⟩ := table_of_pteOf (m := s.mem) (d := (s.ptable p).pgdir) (v := v) (by
    intro zero
    have present := scratch.present
    rw [zero] at present
    exact absurd present (by decide))
  have apart : q ≠ x := by
    rw [← scratch.frame]
    exact rep.frame_ne_table inside table inside user scratch.present
  have high : q < NPHYS := by
    have pooled := (rep.entries.frame inside user (frameOf_present scratch.present)).1
    rw [scratch.frame] at pooled
    exact (rep.layout.pool_bounds _ pooled).2
  obtain ⟨w, entry⟩ : ∃ w, w = pteOf s.mem (s.ptable p).pgdir v := ⟨_, rfl⟩
  have flags := Mark.flags (f := PTE_A ||| PTE_D) ⟨by decide, rfl, rfl, rfl⟩ w
  obtain ⟨t, after⟩ : ∃ t : Kernel, t = { s with
      mem := Function.update (setWord s.mem ⟨x, ptx v⟩ (w ||| (PTE_A ||| PTE_D))) q
        ((s.mem q).setByte offset b) } := ⟨_, rfl⟩
  have allowed : writable w = true := by
    unfold writable
    rw [entry, scratch.present, scratch.user, scratch.writes]
    rfl
  have stored : userStore p (v * PGSIZE + offset) b s = .ok (true, t) := by
    have room :
      userStore p (v * PGSIZE + offset) b s = _ := userStore_room _ b (rep.dir_lt inside)
      (by rw [page]; exact table)
      (rep.table_lt inside table)
      (by rw [page, ← entry]) allowed (by rw [entry]; exact scratch.frame) high apart
    rw [page, rest] at room
    rw [after]
    exact room
  have written : Step fork s (.write p (v * PGSIZE + offset) b) (.flag true) t := by
    refine ⟨⟨scratch.runs, below, Or.inl ?_⟩, ?_⟩
    · unfold accessible
      rw [page, scratch.present, scratch.user]
      rfl
    · unfold perform userWrite
      refine bind_of_ok ((bind_of_ok stored).trans ?_)
      rfl
  have clean : CleanStep s (.write p (v * PGSIZE + offset) b) (.flag true) t := by
    refine CleanStep.of_log written (by rw [after]) ⟨fun y _ e evicted => ?_, fun swapped => ?_⟩
    · exact absurd evicted (ample_of_log (by rw [after]) e)
    · rw [page, isSwapped_of_present scratch.present] at swapped
      cases swapped
  have ptable : t.ptable = s.ptable := by rw [after]
  have loose := (rep.entries.frame inside user (frameOf_present scratch.present)).2
  rw [scratch.frame] at loose
  have rewrites :=
    rep.layout.rewrites (Keeps.unpinned s.mem ((s.mem q).setByte offset b) loose) inside
    (user_lt user) table (w ||| (PTE_A ||| PTE_D))
  have mem : t.mem = setWord (Function.update s.mem q ((s.mem q).setByte offset b)) ⟨x, ptx v⟩
      (w ||| (PTE_A ||| PTE_D)) := by
    rw [after]
    unfold setWord
    dsimp only
    rw [update_of_ne (Ne.symm apart), Function.update_comm (Ne.symm apart)]
  rw [← mem] at rewrites
  have now : pteOf t.mem (t.ptable p).pgdir v = w ||| (PTE_A ||| PTE_D) := by
    rw [ptable]
    exact rewrites.here
  refine ⟨t, ⟨scratch.reachable.step
    clean, by rw [ptable]; exact scratch.runs, by rw [ptable]; exact scratch.inner,
    ?_, ?_, ?_, ?_⟩, ⟨t.mem, by rw [after]⟩, by rw [after]; exact update_self _ _ _⟩
  · rw [now, flags.1, entry]
    exact scratch.present
  · rw [now, flags.2.2.1, entry]
    exact scratch.user
  · rw [now, flags.2.1, entry]
    exact scratch.writes
  · rw [now, flags.2.2.2, entry]
    exact scratch.frame

theorem joinBytes_bytes (w : Word) :
    joinBytes (w.setWidth 8) ((w >>> 8).setWidth 8) ((w >>> 16).setWidth 8)
    ((w >>> 24).setWidth 8) = w := by
  apply BitVec.eq_of_getLsbD_eq
  intro i small
  rw [joinBytes_bit]
  simp only [BitVec.getLsbD_setWidth, BitVec.getLsbD_ushiftRight]
  split
  · simp [*]
  · split
    · simp [show i - 8 < 8 by omega, show 8 + (i - 8) = i by omega]
    · split
      · simp [show i - 16 < 8 by omega, show 16 + (i - 16) = i by omega]
      · simp [small, show i - 24 < 8 by omega, show 24 + (i - 24) = i by omega]

theorem Scratch.word (scratch : Scratch p v q s) (w : Word) :
    ∃ t, Scratch p v q t ∧ (∃ mem, t = { s with mem := mem }) ∧ t.mem q 0 = w := by
  obtain ⟨t₀, scratch₀, ⟨mem₀, shape₀⟩, page₀⟩ := scratch.store (by decide : 0 < PGSIZE)
    (w.setWidth 8)
  obtain ⟨t₁, scratch₁, ⟨mem₁, shape₁⟩, page₁⟩ := scratch₀.store (by decide : 1 < PGSIZE)
    ((w >>> 8).setWidth 8)
  obtain ⟨t₂, scratch₂, ⟨mem₂, shape₂⟩, page₂⟩ := scratch₁.store (by decide : 2 < PGSIZE)
    ((w >>> 16).setWidth 8)
  obtain ⟨t₃, scratch₃, ⟨mem₃, shape₃⟩, page₃⟩ := scratch₂.store (by decide : 3 < PGSIZE)
    ((w >>> 24).setWidth 8)
  refine ⟨t₃, scratch₃, ⟨mem₃, by rw [shape₃, shape₂, shape₁, shape₀]⟩, ?_⟩
  have b₀ : (t₂.mem q).byte 0 = w.setWidth 8 := by
    rw [page₂, Page.byte_setByte _ _ _ _ (by decide), if_neg (by decide), page₁,
      Page.byte_setByte _ _ _ _ (by decide), if_neg (by decide), page₀,
      Page.byte_setByte _ _ _ _ (by decide), if_pos rfl]
  have b₁ : (t₂.mem q).byte 1 = (w >>> 8).setWidth 8 := by
    rw [page₂, Page.byte_setByte _ _ _ _ (by decide), if_neg (by decide), page₁,
      Page.byte_setByte _ _ _ _ (by decide), if_pos rfl]
  have b₂ : (t₂.mem q).byte 2 = (w >>> 16).setWidth 8 := by
    rw [page₂, Page.byte_setByte _ _ _ _ (by decide), if_pos rfl]
  rw [page₃]
  change joinBytes ((t₂.mem q).byte 0) ((t₂.mem q).byte 1) ((t₂.mem q).byte 2)
    ((w >>> 24).setWidth 8) = w
  rw [b₀, b₁, b₂]
  exact joinBytes_bytes w

theorem slots_free (reachable : Reachable CleanStep s) (log : s.log = [])
    {i : Nat} (bound : i < NPAGE) :
    (s.swapSlots i).isFree = true ∧ (s.swapSlots i).blockno = SWAPBASE + i * BPPAGE ∧
      owners (directories s.kpgdir s.ptable) s.mem (SWAPBASE + i * BPPAGE) = 0 := by
  obtain ⟨loan, g, sound, base, young⟩ := reachable.told
  have slots := sound.settled.rep.slots
  have none : owners g.dirs s.mem (SWAPBASE + i * BPPAGE) = 0 := by
    by_contra some'
    obtain ⟨⟨d, v⟩, site, names⟩ := RefCount.count_pos_iff.mp (Nat.pos_of_ne_zero some')
    obtain ⟨inside, user⟩ := mem_sites.mp site
    have swapped := (blockOf_eq_some.mp names).1
    obtain ⟨x, table⟩ := table_of_pteOf (m := s.mem) (d := d) (v := v) (by
      intro zero
      rw [zero] at swapped
      exact absurd swapped (by decide))
    refine slots.dated inside user swapped table young ?_
    rw [base, since_nil, log]
    rfl
  rw [← sound.settled.census.dirs]
  refine ⟨?_, slots.block bound, none⟩
  have taken := slots.taken bound
  rw [sound.unreserved, if_pos rfl, Nat.add_zero, none] at taken
  cases free : (s.swapSlots i).isFree with
  | true => rfl
  | false =>
    rw [free] at taken
    cases taken

/-- The first process forks, its child exits and is waited for, and then the first process
takes all the memory. One of its pages has been the child's directory. It writes a word
there that makes the page its own page table, and the next kalloc evicts through it: a
slot is taken, but no page table has an entry for it. -/
theorem slot_without_owner : ∃ s t, Reachable (Step fork) s ∧ Step fork s .kalloc .nothing t ∧
    ∃ i < NPAGE, (t.swapSlots i).isFree = false ∧
      owners (directories t.kpgdir t.ptable) t.mem (SWAPBASE + i * BPPAGE) = 0 := by
  obtain ⟨d', np, r, reachable, empty, victim, left, -, high, runs, -, large, entry, log⟩ :=
    stale_victim
  have word := userWord_map high
  obtain ⟨s, scratch, ⟨mem, rfl⟩, written⟩ := Scratch.word (p := 0) (v := 1) (q := d')
    ⟨reachable, runs, large, by rw [entry]; exact word.present, by rw [entry, word.user]; decide,
      by rw [entry, word.writable]; decide, by rw [entry]; exact word.frame⟩ (userWord d')
  change mem d' 0 = userWord d' at written
  obtain ⟨loan, g, sound⟩ := scratch.reachable.sound
  have rep := sound.settled.rep
  have inside := sound.settled.inside (canRun_live scratch.runs)
  obtain ⟨pooled, loose⟩ := rep.entries.frame inside (by decide) (frameOf_present scratch.present)
  have alone := Full.refcnt_alone rep inside (by decide) scratch.present scratch.writes
  rw [scratch.frame] at pooled loose alone
  have self : tablePage mem d' (pdx 0) = some d' := by
    rw [pdx_small (by decide), tablePage, written, if_pos word.present, word.frame]
  have looks : pteOf mem d' 0 = userWord d' := by
    rw [pteOf_of_table self]
    exact written
  obtain ⟨free, block, unowned⟩ := slots_free scratch.reachable log (by decide : 0 < NPAGE)
  rw [Nat.zero_mul, Nat.add_zero] at block unowned
  have pgdir : (r.ptable np).pgdir = d' := by rw [left]
  have picks : Picks { r with mem := mem } np 0 d' 0 (userWord d') := by
    refine ⟨victim, by rw [pgdir]; exact high, ?_, ?_, fun u low => absurd low (Nat.not_lt_zero u),
      by rw [pgdir]; exact looks, evictable_userWord high, by rw [pgdir]; exact self, ?_, ?_, ?_⟩
    · rw [left]
      exact (by decide : 0 < pagesOf PGSIZE)
    · intro u low
      rw [pgdir, pdx_small (by omega), ← pdx_small (u := 0) (by decide)]
      exact ⟨d', high, self⟩
    · exact firstFree_of_busy (by decide) free (fun j less => absurd less (Nat.not_lt_zero j))
    · rw [block]
      decide
    · rw [word.frame]
      exact rep.layout.pool_bounds _ pooled
  obtain ⟨t, allocated, pressed⟩ :=
    kalloc_pressed (s := { r with mem := mem }) empty picks (by rw [word.frame, alone])
  obtain ⟨mem₁, refcnt₁, disk₁, num₁, shape₁⟩ := pressed.shape
  have moved :
      t.mem = Function.update mem d'
      (Function.update (freedPage []) (ptx 0) (swapEntry SWAPBASE)) := by
    rw [pressed.mem, word.frame, block]
    unfold setWord
    dsimp only
    rw [update_self, Function.update_idem]
  refine ⟨{ r with mem := mem }, t, scratch.reachable.any, ⟨trivial, ?_⟩, 0, by decide, ?_, ?_⟩
  · unfold perform
    exact bind_of_ok allocated
  · rw [shape₁]
    dsimp only
    rw [update_self]
  · have dirs : directories t.kpgdir t.ptable = directories r.kpgdir r.ptable := by
      rw [shape₁]
      refine directories_congr (fun q => ?_)
      by_cases here : q = np
      · rw [here]
        dsimp only
        rw [update_self]
        exact ⟨rfl, rfl⟩
      · dsimp only
        rw [update_of_ne here]
        exact ⟨rfl, rfl⟩
    have same := (Keeps.unpinned mem (Function.update (freedPage []) (ptx 0) (swapEntry SWAPBASE))
      loose).owners_eq SWAPBASE
    rw [← moved, sound.settled.census.dirs] at same
    rw [Nat.zero_mul, Nat.add_zero, dirs]
    exact same.trans unowned

end Xv6Cow
