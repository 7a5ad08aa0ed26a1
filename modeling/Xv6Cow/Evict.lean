import Xv6Cow.Calm
import Xv6Cow.DirPrimitives
import Xv6Cow.SlotPrimitives

/- What a call of kalloc does to the rest of the system. It may run any number of
evictions; `Evolves` says what those leave of the page tables and of the pages
they map, and `kalloc_spec` that the address spaces stay what they were. -/
namespace Xv6Cow

open Prog (bind_ok_iff pure_ok_iff)

/-! ## Histories that grow -/

theorem since_append (fresh base : List Event) : since base (fresh ++ base) = fresh := by
  unfold since
  rw [List.length_append, Nat.add_sub_cancel, List.take_left]

theorem since_trans {first second third : List Event} (older : first <:+ second)
    (newer : second <:+ third) :
    since first third = since second third ++ since first second := by
  obtain ⟨fresh, rfl⟩ := older
  obtain ⟨fresher, rfl⟩ := newer
  rw [since_append, since_append, ← List.append_assoc, since_append]

theorem Quiet.mono {g : Ghost} {log log' : List Event} (quiet : Quiet g log')
    (base : g.base <:+ log) (grown : log <:+ log') : Quiet g log := by
  intro e member
  refine quiet e ?_
  rw [since_trans base grown]
  exact List.mem_append_right _ member

/-- The evictions on the way from `s` to `t`. -/
def Evicted (s t : Kernel) (e : Eviction) : Prop := Event.evict e ∈ since s.log t.log

theorem Evicted.before {s t u : Kernel} {e : Eviction} (evicted : Evicted t u e)
    (older : s.log <:+ t.log) (newer : t.log <:+ u.log) : Evicted s u e := by
  unfold Evicted
  rw [since_trans older newer]
  exact List.mem_append_left _ evicted

theorem Evicted.after {s t u : Kernel} {e : Eviction} (evicted : Evicted s t e)
    (older : s.log <:+ t.log) (newer : t.log <:+ u.log) : Evicted s u e := by
  unfold Evicted
  rw [since_trans older newer]
  exact List.mem_append_right _ evicted

/-! ## What evictions leave -/

/-- The entry of page `v` of directory `d` was evicted on the way. -/
def Evictee (s t : Kernel) (d v : Nat) : Prop :=
  has (pteOf s.mem d v) PTE_P = true ∧ isSwapped (pteOf t.mem d v) = true ∧
    ∃ x e, tablePage s.mem d (pdx v) = some x ∧ e.ptr = ⟨x, ptx v⟩ ∧ Evicted s t e

/-- No live process runs in directory `d`. -/
def Idle (s : Kernel) (d : Nat) : Prop :=
  ∀ p, (s.ptable p).live = true → (s.ptable p).pgdir ≠ d

theorem Calm.idle {s t : Kernel} {d : Nat} (calm : Calm s t) (idle : Idle s d) : Idle t d := by
  intro p live
  rw [calm.pgdir]
  rw [calm.live] at live
  exact idle p live

structure Evolves (dirs : Finset Nat) (s t : Kernel) : Prop where
  calm : Calm s t
  table : ∀ {d x : Nat} {i : Fin 1024}, d ∈ dirs → tablePage s.mem d i = some x →
    tablePage t.mem d i = some x
  entry : ∀ {d v : Nat}, d ∈ dirs → v < NUPAGE →
    SameEntry (pteOf s.mem d v) (pteOf t.mem d v) ∨ Evictee s t d v
  /-- Only the directories of live processes are touched. -/
  private_entry : ∀ {d v : Nat}, d ∈ dirs → Idle s d → v < NUPAGE →
    pteOf t.mem d v = pteOf s.mem d v
  /-- A mapped page stays mapped with its bytes, unless an eviction freed it. -/
  frame : ∀ {q : Nat}, 0 < frames dirs s.mem q →
    (0 < frames dirs t.mem q ∧ t.mem q = s.mem q) ∨
      ∃ e, Evicted s t e ∧ e.frame = q ∧ e.freed = true

theorem SameEntry.writable {w w' : Word} (same : SameEntry w w') :
    has w' PTE_W = has w PTE_W := by
  rw [has_W, has_W, same.bit (by decide)]

theorem SameEntry.swapped {w w' : Word} (same : SameEntry w w') :
    isSwapped w' = isSwapped w := by
  rw [isSwapped_eq, isSwapped_eq, same.bit (by decide), same.bit (by decide)]

theorem SameEntry.ppn {w w' : Word} (same : SameEntry w w') : ppn w' = ppn w := by
  have page := congrArg Xv6Cow.ppn same
  rwa [ppn_or (by decide), ppn_or (by decide)] at page

theorem SameEntry.frame {w w' : Word} (same : SameEntry w w') : frameOf w' = frameOf w := by
  unfold frameOf
  rw [same.present, same.ppn]

theorem SameEntry.idle (w : Word) : SameEntry w (w &&& ~~~PTE_A) := by
  apply BitVec.eq_of_getLsbD_eq
  intro i inside
  simp only [BitVec.getLsbD_or, BitVec.getLsbD_and, BitVec.getLsbD_not, inside, decide_true,
    Bool.true_and]
  cases w.getLsbD i <;> cases PTE_A.getLsbD i <;> rfl

namespace Evolves

variable {dirs : Finset Nat} {s t u : Kernel}

theorem refl (dirs : Finset Nat) (s : Kernel) : Evolves dirs s s where
  calm := Calm.refl s
  table := fun _ same => same
  entry := fun _ _ => Or.inl (SameEntry.refl _)
  private_entry := fun _ _ _ => rfl
  frame := fun mapped => Or.inl ⟨mapped, rfl⟩

theorem trans (first : Evolves dirs s t) (second : Evolves dirs t u) : Evolves dirs s u := by
  refine ⟨first.calm.trans second.calm, fun inside found => ?_, fun inside user => ?_,
    fun inside idle user => ?_, fun mapped => ?_⟩
  · exact second.table inside (first.table inside found)
  · rcases first.entry inside user with same | ⟨present, swapped, x, e, found, ptr, evicted⟩
    · rcases second.entry inside user with again | ⟨present, swapped, x, e, found, ptr, evicted⟩
      · exact Or.inl (same.trans again)
      · rw [same.present] at present
        obtain ⟨y, found'⟩ := table_of_pteOf (ne_zero_of_present present)
        have agree := first.table inside found'
        rw [found] at agree
        cases agree
        exact Or.inr ⟨present, swapped, x, e, found', ptr,
          evicted.before first.calm.log second.calm.log⟩
    · rcases second.entry inside user with again | ⟨present', -⟩
      · exact Or.inr ⟨present, again.swapped.trans swapped, x, e, found, ptr,
          evicted.after first.calm.log second.calm.log⟩
      · rw [isSwapped_of_present present'] at swapped
        cases swapped
  · rw [second.private_entry inside (first.calm.idle idle) user,
      first.private_entry inside idle user]
  · rcases first.frame mapped with ⟨still, bytes⟩ | ⟨e, evicted, page, freed⟩
    · rcases second.frame still with ⟨still', bytes'⟩ | ⟨e, evicted, page, freed⟩
      · exact Or.inl ⟨still', bytes'.trans bytes⟩
      · exact Or.inr ⟨e, evicted.before first.calm.log second.calm.log, page, freed⟩
    · exact Or.inr ⟨e, evicted.after first.calm.log second.calm.log, page, freed⟩

theorem mapped_before (evolves : Evolves dirs s t) {d v q : Nat} (inside : d ∈ dirs)
    (user : v < NUPAGE) (maps : frameOf (pteOf t.mem d v) = some q) :
    SameEntry (pteOf s.mem d v) (pteOf t.mem d v) ∧ frameOf (pteOf s.mem d v) = some q := by
  rcases evolves.entry inside user with same | ⟨-, swapped, -⟩
  · exact ⟨same, same.frame.symm.trans maps⟩
  · rw [frameOf_swapped swapped] at maps
    cases maps

theorem stays_swapped (evolves : Evolves dirs s t) {d v : Nat} (inside : d ∈ dirs)
    (user : v < NUPAGE) (swapped : isSwapped (pteOf s.mem d v) = true) :
    SameEntry (pteOf s.mem d v) (pteOf t.mem d v) := by
  rcases evolves.entry inside user with same | ⟨present, -⟩
  · exact same
  · rw [isSwapped_of_present present] at swapped
    cases swapped

theorem of_entries (calm : Calm s t)
    (table : ∀ {d x i}, d ∈ dirs → tablePage s.mem d i = some x → tablePage t.mem d i = some x)
    (entry : ∀ {d v}, d ∈ dirs → v < NUPAGE → pteOf t.mem d v = pteOf s.mem d v)
    (bytes : ∀ {d v}, d ∈ dirs → v < NUPAGE → has (pteOf s.mem d v) PTE_P = true →
      t.mem (Xv6Cow.ppn (pteOf s.mem d v)) = s.mem (Xv6Cow.ppn (pteOf s.mem d v))) :
    Evolves dirs s t := by
  refine ⟨calm, table, fun inside user => Or.inl ?_, fun inside _ user => entry inside user,
    fun {q} positive => Or.inl ?_⟩
  · rw [entry inside user]
    exact SameEntry.refl _
  · obtain ⟨⟨d, v⟩, site, maps⟩ := RefCount.count_pos_iff.mp positive
    obtain ⟨inside, user⟩ := mem_sites.mp site
    refine ⟨frames_pos inside user ((congrArg frameOf (entry inside user)).trans maps), ?_⟩
    obtain ⟨present, rfl⟩ := frameOf_eq_some.mp maps
    exact bytes inside user present

theorem shrink {d : Nat} (evolves : Evolves (insert d dirs) s t)
    (empty : ∀ {v}, v < NUPAGE → pteOf s.mem d v = 0#32) : Evolves dirs s t := by
  refine ⟨evolves.calm, fun inside => evolves.table (Finset.mem_insert_of_mem inside),
    fun inside => evolves.entry (Finset.mem_insert_of_mem inside),
    fun inside => evolves.private_entry (Finset.mem_insert_of_mem inside), fun {q} positive => ?_⟩
  obtain ⟨⟨e, u⟩, site, maps⟩ := RefCount.count_pos_iff.mp positive
  obtain ⟨inside, user⟩ := mem_sites.mp site
  rcases evolves.frame (frames_pos (Finset.mem_insert_of_mem inside) user maps) with
    ⟨still, bytes⟩ | freed
  · refine Or.inl ⟨?_, bytes⟩
    obtain ⟨⟨e', u'⟩, site', maps'⟩ := RefCount.count_pos_iff.mp still
    obtain ⟨inside', user'⟩ := mem_sites.mp site'
    rcases Finset.mem_insert.mp inside' with rfl | inside'
    · have before := (evolves.mapped_before (Finset.mem_insert_self _ _) user' maps').2
      rw [empty user', frameOf_zero] at before
      cases before
    · exact frames_pos inside' user' maps'
  · exact Or.inr freed

end Evolves

/-- Between the rounds of kalloc no page table is added either. -/
structure Evicts (dirs : Finset Nat) (s t : Kernel) : Prop extends Evolves dirs s t where
  tables : ∀ {d : Nat}, d ∈ dirs → ∀ i, tablePage t.mem d i = tablePage s.mem d i

theorem Evicts.refl (dirs : Finset Nat) (s : Kernel) : Evicts dirs s s :=
  ⟨Evolves.refl dirs s, fun _ _ => rfl⟩

theorem Evicts.trans {dirs : Finset Nat} {s t u : Kernel} (first : Evicts dirs s t)
    (second : Evicts dirs t u) : Evicts dirs s u :=
  ⟨first.toEvolves.trans second.toEvolves,
    fun inside i => (second.tables inside i).trans (first.tables inside i)⟩

theorem Evicts.of_mem {dirs : Finset Nat} {s t : Kernel} (calm : Calm s t) (mem : t.mem = s.mem) :
    Evicts dirs s t := by
  refine ⟨⟨calm, fun _ found => ?_, fun _ _ => Or.inl ?_, fun _ _ _ => ?_,
    fun mapped => Or.inl ?_⟩, fun _ _ => ?_⟩
  all_goals rw [mem]
  · exact found
  · exact SameEntry.refl _
  · exact ⟨mapped, rfl⟩

/-! ## The victim -/

variable {g : Ghost} {s : Kernel} {d v x : Nat}

theorem victimPageFrom_found {pgdir n i : Nat} {t : Kernel} {ptr : PtePtr}
    (success : victimPageFrom pgdir n i s = .ok (some ptr, t)) :
    ∃ v, i ≤ v ∧ v < i + n ∧ tablePage s.mem pgdir (pdx v) = some ptr.page ∧
      ptr = ⟨ptr.page, ptx v⟩ ∧ has (pteOf s.mem pgdir v) PTE_P = true ∧
      has (pteOf s.mem pgdir v) PTE_U = true ∧ has (pteOf s.mem pgdir v) PTE_A = false := by
  induction n generalizing i with
  | zero => cases (pure_ok_iff.mp success).1
  | succ n ih =>
    rw [victimPageFrom] at success
    obtain ⟨-, x, -, table, rest⟩ := deref_cases success
    rw [Prog.ite_apply] at rest
    split at rest
    · rename_i fits
      obtain ⟨same, -⟩ := pure_ok_iff.mp rest
      cases same
      simp only [Bool.and_eq_true, Bool.not_eq_true'] at fits
      exact ⟨i, Nat.le_refl i, by omega, table, rfl, fits.1.1, fits.1.2, fits.2⟩
    · obtain ⟨v, low, high, facts⟩ := ih rest
      exact ⟨v, by omega, by omega, facts⟩

theorem Rep.clearAccessed (rep : Rep g s) {p : Fin NPROC} (live : (s.ptable p).live = true)
    (stays : g.leaving ≠ some p) (owner : (s.ptable p).pgdir = d) (user : v < NUPAGE)
    (table : tablePage s.mem d (pdx v) = some x)
    (mapped : has (pteOf s.mem d v) PTE_P = true) (accessed : has (pteOf s.mem d v) PTE_A = true) :
    Rep g { s with mem := setWord s.mem ⟨x, ptx v⟩ (pteOf s.mem d v &&& ~~~PTE_A) } ∧
      Evicts g.dirs s
        { s with mem := setWord s.mem ⟨x, ptx v⟩ (pteOf s.mem d v &&& ~~~PTE_A) } := by
  have inside : d ∈ g.dirs := owner ▸ (rep.procs p live stays).1
  have same := SameEntry.idle (pteOf s.mem d v)
  have rewrites := rep.layout.rewrites (Keeps.refl g s.mem) inside (user_lt user) table
    (pteOf s.mem d v &&& ~~~PTE_A)
  constructor
  · have again :=
      rep.reflag inside user table (fun _ _ => same) mapped (same.present.trans mapped) same.ppn
      (fun writable => by
        rw [same.ppn]
        exact rep.entries.exclusive inside user mapped (same.writable.symm.trans writable))
    rwa [Ghost.setSpace_self] at again
    rw [← rep.space inside user, spaceOf, pageAt_present mapped, same.ppn, has_U, has_U,
      same.bit (by decide)]
  · refine ⟨⟨calm_fields s _ _ _ _ _ _, fun member found => (rewrites.table member _).trans found,
      fun {e u} member small => ?_, fun {e u} member idle small => ?_,
      fun {q} positive => Or.inl ⟨?_, ?_⟩⟩, fun member i => rewrites.table member i⟩
    · by_cases here : e = d ∧ u = v
      · obtain ⟨rfl, rfl⟩ := here
        refine Or.inl ?_
        change SameEntry _ (pteOf (setWord s.mem _ _) _ _)
        rw [rewrites.here]
        exact same
      · exact Or.inl (by
          change SameEntry _ (pteOf (setWord s.mem _ _) _ _)
          rw [rewrites.others member (user_lt small) here]
          exact SameEntry.refl _)
    · refine rewrites.others member (user_lt small) ?_
      rintro ⟨rfl, -⟩
      exact idle p live owner
    · have count := rewrites.frames_eq inside user q
      rw [same.frame] at count
      change 0 < frames g.dirs (setWord s.mem _ _) q
      omega
    · obtain ⟨⟨e, u⟩, member, maps⟩ := RefCount.count_pos_iff.mp positive
      obtain ⟨present, rfl⟩ := frameOf_eq_some.mp maps
      obtain ⟨member, small⟩ := mem_sites.mp member
      exact setWord_of_ne (rep.frame_ne_table inside table member small present)

theorem flushFrom_spec (rep : Rep g s) {p : Fin NPROC} (live : (s.ptable p).live = true)
    (stays : g.leaving ≠ some p)
    {n i ctr : Nat} {t : Kernel} {done : Unit} (fits : i + n ≤ NUPAGE)
    (success : flushFrom (s.ptable p).pgdir n i ctr s = .ok (done, t)) :
    Rep g t ∧ Evicts g.dirs s t ∧ t.log = s.log := by
  induction n generalizing i ctr s with
  | zero =>
    rw [(pure_ok_iff.mp success).2]
    exact ⟨rep, Evicts.refl _ _, rfl⟩
  | succ n ih =>
    rw [flushFrom] at success
    obtain ⟨-, x, -, table, rest⟩ := deref_cases success
    split at rest
    · rename_i here flags same accessed
      cases same
      simp only [Bool.and_eq_true] at accessed
      rw [bind_ok_iff] at rest
      obtain ⟨_, r, stored, rest⟩ := rest
      unfold flushEntry at stored
      rw [Prog.ite_apply] at stored
      split at stored
      · obtain ⟨-, rfl⟩ := storeWord_ok_iff.mp stored
        obtain ⟨rep', evolves⟩ := rep.clearAccessed live stays rfl (by omega) table accessed.1.1
          accessed.2
        obtain ⟨final, more, log⟩ := ih rep' live (by omega) rest
        exact ⟨final, evolves.trans more, log⟩
      · obtain ⟨-, rfl⟩ := pure_ok_iff.mp stored
        exact ih rep live (by omega) rest
    · exact ih rep live (by omega) rest

/-- A user entry that swap_out may take, with the pointer to it. -/
structure Candidate (m : Nat → Page) (d v : Nat) (ptr : PtePtr) : Prop where
  user : v < NUPAGE
  table : tablePage m d (pdx v) = some ptr.page
  index : ptr = ⟨ptr.page, ptx v⟩
  present : has (pteOf m d v) PTE_P = true
  accessible : has (pteOf m d v) PTE_U = true
  idle : has (pteOf m d v) PTE_A = false

theorem getVictimPage_found {p : Fin NPROC} {proc : Proc} {t : Kernel} {ptr : PtePtr}
    (rep : Rep g s) (live : (s.ptable p).live = true) (stays : g.leaving ≠ some p)
    (pgdir : proc.pgdir = (s.ptable p).pgdir) (sz : proc.sz = (s.ptable p).sz)
    (success : getVictimPage proc s = .ok (some ptr, t)) :
    ∃ v, Candidate s.mem (s.ptable p).pgdir v ptr := by
  have small := (rep.procs p live stays).2
  obtain ⟨v, -, high, table, shape, present, user, idle⟩ := victimPageFrom_found success
  rw [pgdir] at table present user idle
  refine ⟨v, ?_, table, shape, present, user, idle⟩
  rw [sz, pagesOf, PGSIZE_eq] at high
  rw [NUPAGE_eq]
  rw [KERNBASE_eq] at small
  omega

theorem finalPage_spec (rep : Rep g s) {victim : Fin NPROC} {ptr : PtePtr} {t : Kernel}
    (live : (s.ptable victim).live = true) (stays : g.leaving ≠ some victim)
    (success : finalPage s = .ok ((victim, some ptr), t)) :
    Rep g t ∧ Evicts g.dirs s t ∧ t.log = s.log ∧
      ∃ v, Candidate t.mem (t.ptable victim).pgdir v ptr := by
  unfold finalPage at success
  rw [Prog.read_bind] at success
  split at success
  · exact (Prog.halt_ok_iff.mp success).elim
  · rename_i p chosen
    rw [bind_ok_iff] at success
    obtain ⟨_, u, lowered, rest⟩ := success
    obtain rfl := Prog.update_ok_iff.mp lowered
    have rep' := rep.setRss p ((s.ptable p).rss - BitVec.ofNat 32 PGSIZE)
    have calm := subRss_calm p _ _ _ lowered
    have evolves : Evicts g.dirs s (setProc s p _) := Evicts.of_mem calm rfl
    rw [bind_ok_iff] at rest
    obtain ⟨pte, u, searched, rest⟩ := rest
    obtain rfl := getVictimPage_state searched
    split at rest
    · rename_i here
      obtain ⟨same, rfl⟩ := pure_ok_iff.mp rest
      cases same
      rw [← calm.live] at live
      exact ⟨rep', evolves, rfl, getVictimPage_found rep' live stays (calm.pgdir victim).symm
        (calm.sz victim).symm searched⟩
    · rw [bind_ok_iff] at rest
      obtain ⟨_, u, flushed, rest⟩ := rest
      rw [bind_ok_iff] at rest
      obtain ⟨pte, r, again, rest⟩ := rest
      obtain rfl := getVictimPage_state again
      obtain ⟨same, rfl⟩ := pure_ok_iff.mp rest
      cases same
      have small := (rep.procs victim live stays).2
      rw [← calm.live] at live
      have fits : 0 + pagesOf (s.ptable victim).sz ≤ NUPAGE := by
        rw [pagesOf, PGSIZE_eq, NUPAGE_eq]
        rw [KERNBASE_eq] at small
        omega
      rw [flushTable, ← calm.pgdir victim] at flushed
      obtain ⟨final, more, log⟩ := flushFrom_spec rep' live stays fits flushed
      have calm' := calm.trans more.calm
      rw [← more.calm.live] at live
      exact ⟨final, evolves.trans more, log, getVictimPage_found final live stays
        (calm'.pgdir victim).symm (calm'.sz victim).symm again⟩

/-! ## swap_out and kalloc -/

theorem swapFinished_calm (s : Kernel) (job : SwapJob) : Calm s (swapFinished s job) := by
  refine ⟨fun q => ⟨(s.ptable q).rss, ?_⟩, ?_, ?_, ?_, ?_, ?_⟩
  · unfold swapFinished
    dsimp only
    rw [kfreed_ptable]
  iterate 4
    unfold swapFinished kfreed
    split <;> rfl
  · unfold swapFinished
    dsimp only
    rw [kfreed_log]
    exact List.suffix_cons _ _

theorem Rep.finish_evicts (rep : Rep g s) {job : SwapJob} (inside : d ∈ g.dirs)
    {p : Fin NPROC} (live : (s.ptable p).live = true) (owner : (s.ptable p).pgdir = d)
    (user : v < NUPAGE)
    (table : tablePage s.mem d (pdx v) = some x) (thawed : g.frozen ⟨x, ptx v⟩ = none)
    (mapped : has (pteOf s.mem d v) PTE_P = true) (bound : job.slot < NPAGE)
    (ptr : job.ptr = ⟨x, ptx v⟩) (frame : job.frame = ppn (pteOf s.mem d v)) :
    Evicts g.dirs s (swapFinished s job) := by
  have block : (s.swapSlots job.slot).blockno < NVPAGE := by
    rw [rep.slots.block bound]
    exact slotBlock_lt bound
  obtain ⟨absent, swapped, -⟩ := swapEntry_word block
  have dropped := rep.dropped inside user table thawed mapped absent
    (fun other => by rw [swapped] at other; cases other)
  have rewrites := dropped.rewrites
  have mem : (swapFinished s job).mem = setWord (kfreed s (ppn (pteOf s.mem d v))).mem ⟨x, ptx v⟩
      (swapEntry (s.swapSlots job.slot).blockno) := by
    unfold swapFinished
    dsimp only
    rw [frame, ptr]
  rw [← mem] at rewrites
  have log : (swapFinished s job).log = .evict ⟨job.victim, job.live, job.ptr, job.frame, job.slot,
      job.perm, s.mem job.frame, decide (s.pageToRefcnt job.frame ≤ 1)⟩ :: s.log := by
    unfold swapFinished
    dsimp only
    rw [kfreed_log]
  have event : Evicted s (swapFinished s job) ⟨job.victim, job.live, job.ptr, job.frame, job.slot,
      job.perm, s.mem job.frame, decide (s.pageToRefcnt job.frame ≤ 1)⟩ := by
    unfold Evicted
    rw [log, since_cons List.suffix_rfl]
    exact List.mem_cons_self
  refine ⟨⟨swapFinished_calm s job,
    fun member found => (rewrites.table member _).trans found, fun {e u} member small => ?_,
    fun {e u} member idle small => ?_, fun {q} positive => ?_⟩,
    fun member i => rewrites.table member i⟩
  · by_cases here : e = d ∧ u = v
    · obtain ⟨rfl, rfl⟩ := here
      refine Or.inr ⟨mapped, ?_, x, _, table, ptr, event⟩
      rw [rewrites.here]
      exact swapped
    · rw [rewrites.others member (user_lt small) here]
      exact Or.inl (SameEntry.refl _)
  · refine rewrites.others member (user_lt small) ?_
    rintro ⟨rfl, -⟩
    exact idle p live owner
  -- A page that a second entry maps stays; otherwise kfree puts it on the free list.
  · by_cases second : ∃ e u, e ∈ g.dirs ∧ u < NUPAGE ∧ ¬ (e = d ∧ u = v) ∧
        frameOf (pteOf s.mem e u) = some q
    · obtain ⟨e, u, member, small, other, maps⟩ := second
      refine Or.inl ⟨frames_pos member small ?_, ?_⟩
      · rw [rewrites.others member (user_lt small) other]
        exact maps
      · obtain ⟨present, rfl⟩ := frameOf_eq_some.mp maps
        rw [mem]
        exact dropped.frame member small other present
    · have only : ∀ {e u}, e ∈ g.dirs → u < NUPAGE → frameOf (pteOf s.mem e u) = some q →
          e = d ∧ u = v := by
        intro e u member small maps
        by_contra other
        exact second ⟨e, u, member, small, other, maps⟩
      obtain ⟨⟨e, u⟩, member, maps⟩ := RefCount.count_pos_iff.mp positive
      obtain ⟨member, small⟩ := mem_sites.mp member
      obtain ⟨rfl, rfl⟩ := only member small maps
      obtain ⟨-, rfl⟩ := frameOf_eq_some.mp maps
      have once : frames g.dirs s.mem (ppn (pteOf s.mem e u)) ≤ 1 := by
        refine RefCount.count_le_one (y := (e, u)) ?_
        rintro ⟨e', u'⟩ site maps'
        obtain ⟨rfl, rfl⟩ := only (mem_sites.mp site).1 (mem_sites.mp site).2 maps'
        rfl
      refine Or.inr ⟨_, event, frame, ?_⟩
      simp only [decide_eq_true_eq]
      rw [frame, rep.kfreed_frame inside user mapped]
      exact_mod_cast once

theorem diskPage_other {i j : Nat} (other : j ≠ i) (disk : Nat → Block) (page : Page) :
    diskPage (writeBlocks disk (SWAPBASE + i * BPPAGE) page BPPAGE) (SWAPBASE + j * BPPAGE) =
      diskPage disk (SWAPBASE + j * BPPAGE) := by
  refine diskPage_congr (fun k small => writeBlocks_of_ne ?_)
  rw [BPPAGE_eq] at *
  omega

theorem Ghost.unreserve_reserve {g : Ghost} {i : Nat} (idle : g.reserved i = none)
    (first second : Word × Page) : ((g.reserve i first).reserve i second).unreserve i = g := by
  unfold reserve unreserve
  dsimp only
  simp only [Function.update_idem, ← idle, Function.update_eq_self]

/-- swap_out from its choice on: the slot, the disk blocks, the page and the entry. -/
theorem Rep.evict (rep : Rep g s) {job : SwapJob} {ptr : PtePtr}
    (live : (s.ptable job.victim).live = true) (stays : g.leaving ≠ some job.victim)
    (candidate : Candidate s.mem (s.ptable job.victim).pgdir v ptr)
    (thawed : g.frozen ptr = none) (bound : job.slot < NPAGE)
    (free : (s.swapSlots job.slot).isFree = true) (here : job.ptr = ptr)
    (frame : job.frame = ppn (s.mem ptr.page ptr.index))
    (perm : job.perm = pteFlags (s.mem ptr.page ptr.index)) :
    let t := swapFinished (written (reserved s job.slot (s.mem ptr.page ptr.index)) job) job
    Rep g t ∧ Evicts g.dirs s t := by
  have inside := (rep.procs job.victim live stays).1
  have word : s.mem ptr.page ptr.index = pteOf s.mem (s.ptable job.victim).pgdir v := by
    rw [pteOf_of_table candidate.table]
    exact congrArg (fun z : PtePtr => s.mem ptr.page z.index) candidate.index
  rw [word] at frame perm ⊢
  rw [candidate.index] at thawed here
  have evictable : Evictable (pteFlags (pteOf s.mem (s.ptable job.victim).pgdir v)) :=
    ⟨low_pteFlags _, (has_pteFlags low_P _).trans candidate.present,
      (has_pteFlags low_U _).trans candidate.accessible,
      (has_pteFlags low_A _).trans candidate.idle⟩
  have taken := rep.reserve bound free (pteOf s.mem (s.ptable job.victim).pgdir v)
  have others : ∀ j < NPAGE, j ≠ job.slot →
      diskPage (writeBlocks s.disk (SWAPBASE + job.slot * BPPAGE) (s.mem job.frame) BPPAGE)
        (SWAPBASE + j * BPPAGE) = diskPage s.disk (SWAPBASE + j * BPPAGE) :=
    fun j _ other => diskPage_other other _ _
  have stored := taken.writeDisk _ (Function.update_self _ _ _) others
  have same : written (reserved s job.slot (pteOf s.mem (s.ptable job.victim).pgdir v)) job =
      { reserved s job.slot (pteOf s.mem (s.ptable job.victim).pgdir v) with
        disk := writeBlocks s.disk (SWAPBASE + job.slot * BPPAGE) (s.mem job.frame) BPPAGE } := by
    unfold written
    rw [taken.slots.block bound]
    rfl
  rw [diskPage_writeBlocks, ← same] at stored
  have finished := stored.finish (s := written _ job) _ inside candidate.user candidate.table thawed
    candidate.present evictable here frame perm
    (by rw [perm]; exact Function.update_self _ _ _)
  rw [Ghost.unreserve_reserve (rep.slots.idle bound free).1] at finished
  have pending : Evicts g.dirs s
      (written (reserved s job.slot (pteOf s.mem (s.ptable job.victim).pgdir v)) job) :=
    Evicts.of_mem (calm_fields s _ _ _ _ _ _) rfl
  exact ⟨finished,
    pending.trans (stored.finish_evicts inside live rfl candidate.user candidate.table thawed
    candidate.present bound here frame)⟩

theorem swapOut_spec (rep : Rep g s) {t : Kernel} {done : Unit}
    (success : swapOut s = .ok (done, t)) (quiet : Quiet g t.log) :
    Rep g t ∧ Evicts g.dirs s t := by
  obtain ⟨job, r, _, reserve, rfl, -, -, -, -, rfl⟩ := swapOut_ok success
  obtain ⟨u, chosen, found, -, live, frame, perm, rfl⟩ := swapReserve_ok reserve
  obtain ⟨bound, free⟩ := firstFree_some found
  have calm := finalPage_calm _ _ _ chosen
  obtain ⟨alive, stays, thawed⟩ :=
    quiet ⟨job.victim, job.live, job.ptr, job.frame, job.slot, job.perm,
      u.mem job.frame, decide (u.pageToRefcnt job.frame ≤ 1)⟩ (by
    unfold swapFinished
    dsimp only
    rw [kfreed_log, since_cons (by exact rep.base.trans calm.log)]
    exact List.mem_cons_self)
  dsimp only at alive stays thawed
  rw [live, calm.live] at alive
  obtain ⟨rep', evicts, -, v, candidate⟩ := finalPage_spec rep alive stays chosen
  rw [← calm.live] at alive
  obtain ⟨final, more⟩ := rep'.evict alive stays candidate thawed bound free rfl frame perm
  exact ⟨final, evicts.trans more⟩

/-- kalloc returns a page that nothing uses. Whatever it evicts on the way, every
address space keeps its contents. -/
theorem kalloc_spec {q : Nat} {t : Kernel} (rep : Rep g s) (success : kalloc s = .ok (q, t))
    (quiet : Quiet g t.log) :
    g.Fresh q ∧ Rep (g.hold q (t.mem q)) t ∧ Evicts g.dirs s t := by
  revert rep quiet
  refine kalloc_induction
    (motive := fun s q t => Rep g s → Quiet g t.log →
      g.Fresh q ∧ Rep (g.hold q (t.mem q)) t ∧ Evicts g.dirs s t) ?_ ?_ success
  · intro s q rest list rep _
    have unused := rep.free_unused (q := q) (by rw [list]; exact List.mem_cons_self)
    exact ⟨fresh_of_unpinned unused.2.1, rep.pop list,
      Evicts.of_mem (calm_fields s _ _ _ _ _ _) rfl⟩
  · intro s u q t empty evicted again ih rep quiet
    have older := (swapOut_calm _ _ _ evicted).log
    have newer := (kalloc_calm _ _ _ again).log
    obtain ⟨rep', evicts⟩ := swapOut_spec rep evicted (quiet.mono (rep.base.trans older) newer)
    obtain ⟨fresh, final, more⟩ := ih rep' quiet
    exact ⟨fresh, final, evicts.trans more⟩

theorem Rep.unswapped (rep : Rep g s) (young : g.aged = false)
    (still : ∀ e, Event.evict e ∉ since g.base s.log) (inside : d ∈ g.dirs) (user : v < NUPAGE) :
    isSwapped (pteOf s.mem d v) = false := by
  by_contra swapped
  rw [Bool.not_eq_false] at swapped
  obtain ⟨x, table⟩ := table_of_pteOf (ne_zero_of_swapped swapped)
  apply rep.slots.dated inside user swapped table young
  rw [lastEviction, List.findSome?_eq_none_iff]
  intro event member
  cases event with
  | evict e => exact absurd member (still e)
  | swapRead _ => rfl

end Xv6Cow
