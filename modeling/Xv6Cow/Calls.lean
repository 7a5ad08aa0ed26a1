import Xv6Cow.Census
import Xv6Cow.Tasks

/- Each step of the system, taken from a settled state, leads to a settled state
and does to the processes' memories what the machine of tasks says. -/
namespace Xv6Cow

open Function (update_self update_of_ne)
open Prog (bind_ok_iff read_bind pure_ok_iff update_ok_iff)

/-- What a process is to its user. Nothing is said about the memory of a free
entry. -/
structure ShowsTask (g : Ghost) (proc : Proc) (task : Task) : Prop where
  state : task.state = proc.state
  pid : task.pid = proc.pid
  parent : task.parent = proc.parent
  killed : task.killed = proc.killed
  sz : proc.live = true → task.sz = proc.sz
  pages : proc.live = true → ∀ u, u < NUPAGE → task.pages u = g.space proc.pgdir u

structure Shows (g : Ghost) (s : Kernel) (a : Tasks) : Prop where
  nextpid : a.nextpid = s.nextpid
  initproc : a.initproc = s.initproc
  task : ∀ p, ShowsTask g (s.ptable p) (a.table p)

/-- What a step leaves alone in the ghost state. Pages are lost only where there is
an eviction. -/
structure Follows (s t : Kernel) (g h : Ghost) : Prop where
  base : h.base = g.base
  aged : h.aged = g.aged
  frozen : h.frozen = g.frozen
  reserved : h.reserved = g.reserved
  pool : (∀ e, ¬ Evicted s t e) → h.pool = g.pool

/-- From `s` to `t` the tasks go the way that `next` says. -/
def Goes (loan : Set Nat) (g : Ghost) (s t : Kernel) (next : Tasks → Tasks → Prop) : Prop :=
  ∃ h, Settled loan h t ∧ Follows s t g h ∧ ∀ a, Shows g s a → ∃ b, next a b ∧ Shows h t b

variable {loan : Set Nat} {g h : Ghost} {s t : Kernel} {p q : Fin NPROC} {done : Unit}
  {proc proc' : Proc} {task : Task} {a : Tasks}

theorem Follows.refl (s t : Kernel) (g : Ghost) : Follows s t g g :=
  ⟨rfl, rfl, rfl, rfl, fun _ => rfl⟩

theorem Forgets.follows (forgets : Forgets g h) (still : (∀ e, ¬ Evicted s t e) → h = g) :
    Follows s t g h := by
  obtain ⟨-, -, reserved, frozen, base, -, -⟩ := forgets.fields
  refine ⟨base, ?_, frozen, reserved, fun none => by rw [still none]⟩
  rcases forgets with rfl | ⟨q, rfl⟩ <;> rfl

/-! ## How the view changes -/

theorem ShowsTask.congr (shows : ShowsTask g proc task) {rss : Word}
    (rssOnly : proc' = { proc with rss := rss })
    (space : proc.live = true → ∀ u, u < NUPAGE → h.space proc.pgdir u = g.space proc.pgdir u) :
    ShowsTask h proc' task := by
  subst rssOnly
  exact ⟨shows.state, shows.pid, shows.parent, shows.killed, shows.sz,
    fun live u user => (shows.pages live u user).trans (space live u user).symm⟩

theorem Shows.calm (shows : Shows g s a) (calm : Calm s t)
    (space : ∀ p, (s.ptable p).live = true → ∀ u, u < NUPAGE →
      h.space (s.ptable p).pgdir u = g.space (s.ptable p).pgdir u) : Shows h t a := by
  refine ⟨shows.nextpid.trans calm.nextpid.symm, shows.initproc.trans calm.initproc.symm, ?_⟩
  intro p
  obtain ⟨rss, same⟩ := calm.proc p
  exact (shows.task p).congr same (space p)

theorem Shows.set (shows : Shows g s a) (same : RssOnly (Function.update s.ptable p proc) t.ptable)
    (nextpid : t.nextpid = s.nextpid) (initproc : t.initproc = s.initproc)
    (here : ShowsTask h proc task)
    (space : ∀ q, q ≠ p → (s.ptable q).live = true → ∀ u, u < NUPAGE →
      h.space (s.ptable q).pgdir u = g.space (s.ptable q).pgdir u) : Shows h t (a.set p task) := by
  refine ⟨shows.nextpid.trans nextpid.symm, shows.initproc.trans initproc.symm, ?_⟩
  intro q
  obtain ⟨rss, equal⟩ := same q
  by_cases mine : q = p
  · subst mine
    rw [update_self] at equal
    change ShowsTask h (t.ptable q) (Function.update a.table q task q)
    rw [update_self]
    exact here.congr equal (fun _ _ _ => rfl)
  · rw [update_of_ne mine] at equal
    change ShowsTask h (t.ptable q) (Function.update a.table p task q)
    rw [update_of_ne mine]
    exact (shows.task q).congr equal (space q mine)

theorem goes_calm (settled : Settled loan g s) (calm : Calm s t) (rep : Rep h t)
    (dirs : h.dirs = g.dirs) (held : h.held = g.held) (space : h.space = g.space)
    (stays : h.leaving = none) :
    Settled loan h t ∧ ∀ a, Shows g s a → Shows h t a := by
  refine ⟨⟨rep, stays, ?_⟩, fun a shows => shows.calm calm (fun _ _ _ _ => by rw [space])⟩
  rw [calm.kpgdir, calm.pipes]
  exact (settled.census.reghost dirs held space).rss calm.rssOnly

theorem goes_refill (settled : Settled loan g s) (live : (s.ptable p).live = true)
    (dirs : h.dirs = g.dirs) (held : h.held = g.held) (space : h.space = g.space)
    (stays : h.leaving = none) {content : Memory} {sz : Nat}
    (rep : Rep (h.respace (s.ptable p).pgdir content) t) {proc : Proc}
    (resized : proc = { s.ptable p with sz := sz })
    (same : RssOnly (Function.update s.ptable p proc) t.ptable) (nextpid : t.nextpid = s.nextpid)
    (initproc : t.initproc = s.initproc) (kpgdir : t.kpgdir = s.kpgdir) (pipes : t.pipes = s.pipes)
    (ends : ∀ u, pagesOf sz ≤ u → u < NUPAGE → content u = none) :
    Settled loan (h.respace (s.ptable p).pgdir content) t ∧ ∀ a pages, Shows g s a →
      (∀ u, u < NUPAGE → pages u = content u) →
      Shows (h.respace (s.ptable p).pgdir content) t
        (a.set p { a.table p with sz := sz, pages := pages }) := by
  subst resized
  refine ⟨⟨rep, stays, ?_⟩, fun a pages shows agree => ?_⟩
  · have filled : Census loan (h.respace (s.ptable p).pgdir content) s.kpgdir s.pipes
        (Function.update s.ptable p { s.ptable p with sz := sz }) :=
      (settled.census.reghost dirs held space).refill live rfl rfl rfl ends
    rw [kpgdir, pipes]
    exact filled.rss same
  · refine shows.set same nextpid initproc ?_ ?_
    · have here := shows.task p
      refine ⟨here.state, here.pid, here.parent, here.killed, fun _ => rfl, fun _ u user => ?_⟩
      exact (agree u user).trans (if_pos rfl).symm
    · intro q other living u _
      refine (if_neg ?_).trans (congrFun (congrFun space _) _)
      exact fun same => other (settled.census.alone living live same)

/-! ## sbrk -/

section Resize

variable {n : Int} {sz : Nat} {pages pages' : Memory}

theorem resize_flag (n : Int) (sz : Nat) (pages pages' : Memory) :
    (resize n sz pages).1 = (resize n sz pages').1 ∧
      (resize n sz pages).2.1 = (resize n sz pages').2.1 := by
  unfold resize
  dsimp only
  split_ifs <;> exact ⟨rfl, rfl⟩

theorem resize_page {u : Nat} (same : pages u = pages' u) :
    (resize n sz pages).2.2 u = (resize n sz pages').2.2 u := by
  unfold resize Memory.fill
  dsimp only
  split_ifs <;> dsimp only <;> rw [same]

theorem pagesOf_mono {small large : Nat} (less : small ≤ large) : pagesOf small ≤ pagesOf large :=
  Nat.div_le_div_right (by omega)

theorem Memory.fill_none (ends : ∀ u, pagesOf sz ≤ u → u < NUPAGE → pages u = none) {lo u : Nat}
    (above : lo ≤ u) (user : u < NUPAGE) : pages.fill lo (pagesOf sz) none u = none := by
  unfold Memory.fill
  split
  · rfl
  · exact ends u (by omega) user

theorem resize_ends (ends : ∀ u, pagesOf sz ≤ u → u < NUPAGE → pages u = none) (u : Nat)
    (above : pagesOf (resize n sz pages).2.1 ≤ u) (user : u < NUPAGE) :
    (resize n sz pages).2.2 u = none := by
  unfold resize at above ⊢
  dsimp only at above ⊢
  generalize ((sz + n) % 2 ^ 32).toNat = newsz at above ⊢
  split_ifs at above ⊢ with zero grow high wraps empty keep empty'
  · exact ends u above user
  · exact ends u above user
  · exact ends u above user
  · exact ends u above user
  · dsimp only at above ⊢
    refine (if_neg (fun inside => by omega)).trans (ends u (Nat.le_trans ?_ above) user)
    exact pagesOf_mono (by omega)
  · exact ends u above user
  · dsimp only at above
    exact Memory.fill_none ends (Nat.le_trans (pagesOf_mono (by omega)) above) user
  · exact Memory.fill_none ends above user

end Resize

theorem growproc_end {sz : Nat} {u : Kernel} {out : Bool}
    (success : (if sz = 0 then pure false
      else do
        updateProc p (fun proc => { proc with sz := sz })
        pure true : K Bool) u = .ok (out, t)) :
    (sz = 0 ∧ out = false ∧ t = u) ∨
      (sz ≠ 0 ∧ out = true ∧ t = setProc u p { u.ptable p with sz := sz }) := by
  rw [Prog.ite_apply] at success
  split at success
  · rename_i zero
    obtain ⟨rfl, rfl⟩ := pure_ok_iff.mp success
    exact Or.inl ⟨zero, rfl, rfl⟩
  · rename_i nonzero
    rw [bind_ok_iff] at success
    obtain ⟨_, r, updated, rest⟩ := success
    obtain ⟨rfl, rfl⟩ := pure_ok_iff.mp rest
    exact Or.inr ⟨nonzero, rfl, update_ok_iff.mp updated⟩

theorem Calm.keep {u : Kernel} (calm : Calm s u) (p : Fin NPROC) :
    u = setProc u p { u.ptable p with sz := (s.ptable p).sz } := by
  rw [← calm.sz p]
  unfold setProc
  rw [Function.update_eq_self]

theorem growproc_resizes {n : Int} {out : Bool} (settled : Settled loan g s)
    (live : (s.ptable p).live = true) (loose : g.Loose (s.ptable p).pgdir)
    (success : growproc p n s = .ok (out, t)) (quiet : Quiet g t.log) :
    ∃ sz content u, resize n (s.ptable p).sz (g.space (s.ptable p).pgdir) = (out, sz, content) ∧
      Rep (g.respace (s.ptable p).pgdir content) u ∧ Calm s u ∧ sz ≤ KERNBASE ∧
      t = setProc u p { u.ptable p with sz := sz } := by
  have inside := settled.inside live
  have small := settled.small live
  have self : Rep (g.respace (s.ptable p).pgdir (g.space (s.ptable p).pgdir)) s := by
    rw [Ghost.respace_self]
    exact settled.rep
  unfold growproc at success
  rw [read_bind] at success
  unfold resize
  dsimp only at success ⊢
  generalize ((((s.ptable p).sz : Int) + n) % 2 ^ 32).toNat = newsz at success ⊢
  split at success
  · rename_i zero
    obtain ⟨rfl, same⟩ := pure_ok_iff.mp success
    subst t
    rw [if_pos zero]
    exact ⟨_, _, s, rfl, self, Calm.refl s, small, (Calm.refl s).keep p⟩
  · rename_i nonzero
    rw [if_neg nonzero]
    rw [Prog.ite_apply] at success
    split at success
    · rename_i grow
      rw [if_pos grow]
      rw [bind_ok_iff] at success
      obtain ⟨sz, u, resized, rest⟩ := success
      have calm := allocuvm_calm _ _ _ _ _ _ _ resized
      have log : t.log = u.log := by
        rcases growproc_end rest with ⟨-, -, rfl⟩ | ⟨-, -, rfl⟩ <;> rfl
      rcases allocuvm_spec settled.rep inside loose (settled.census.ends live) resized
        (by rw [← log]; exact quiet) with ⟨rfl, high, same⟩ | ⟨rfl, wraps, same⟩ |
          ⟨rfl, low, up, rep, -⟩
      · subst u
        rcases growproc_end rest with ⟨-, rfl, same⟩ | ⟨nonzero, -⟩
        · subst t
          rw [if_pos high]
          exact ⟨_, _, s, rfl, self, Calm.refl s, small, (Calm.refl s).keep p⟩
        · exact absurd rfl nonzero
      · subst u
        have low : ¬ KERNBASE ≤ newsz := by omega
        rcases growproc_end rest with ⟨zero, -⟩ | ⟨-, rfl, same⟩
        · omega
        · subst t
          rw [if_neg low, if_pos wraps]
          exact ⟨_, _, s, rfl, self, Calm.refl s, small, rfl⟩
      · rw [Ghost.respace_setRange] at rep
        rw [if_neg (by omega), if_neg (by omega)]
        rcases growproc_end rest with ⟨rfl, rfl, same⟩ | ⟨some, rfl, same⟩
        · subst t
          rw [if_pos rfl]
          have none : (s.ptable p).sz = 0 := by omega
          refine ⟨_, _, u, rfl, ?_, calm, small, calm.keep p⟩
          rw [none] at rep
          convert rep using 3
          rw [if_neg (by omega)]
        · rw [if_neg some]
          exact ⟨_, _, u, rfl, rep, calm, by omega, same⟩
    · rename_i shrink
      rw [if_neg shrink]
      rw [bind_ok_iff] at success
      obtain ⟨sz, u, resized, rest⟩ := success
      have calm := deallocuvm_calm _ _ _ _ _ _ _ resized
      rcases deallocuvm_spec settled.rep inside loose small resized with
        ⟨up, rfl, same⟩ | ⟨down, rfl, rep⟩
      · subst u
        rw [if_pos up]
        rcases growproc_end rest with ⟨zero, rfl, same⟩ | ⟨some, rfl, same⟩
        · subst t
          exact ⟨_, _, s, by simp [zero], self, Calm.refl s, small, (Calm.refl s).keep p⟩
        · exact ⟨_, _, s, by simp [some], self, Calm.refl s, small, same⟩
      · rw [Ghost.respace_setRange] at rep
        rw [if_neg (by omega)]
        rcases growproc_end rest with ⟨zero, rfl, same⟩ | ⟨some, rfl, same⟩
        · subst t
          rw [if_pos zero]
          exact ⟨_, _, u, rfl, rep, calm, small, calm.keep p⟩
        · rw [if_neg some]
          exact ⟨_, _, u, rfl, rep, calm, by omega, same⟩

theorem growproc_goes {n : Int} {out : Bool} (settled : Settled loan g s)
    (live : (s.ptable p).live = true) (loose : g.Loose (s.ptable p).pgdir)
    (success : growproc p n s = .ok (out, t)) (quiet : Quiet g t.log) :
    Goes loan g s t (fun a b => (Out.flag out, b) = a.sbrk p n) := by
  obtain ⟨sz, content, u, resized, rep, calm, small, rfl⟩ :=
    growproc_resizes settled live loose success quiet
  have ends : ∀ v, pagesOf sz ≤ v → v < NUPAGE → content v = none := by
    intro v above user
    have empty :=
      resize_ends (n := n) (settled.census.ends live) v (by rw [resized]; exact above) user
    rw [resized] at empty
    exact empty
  have same : RssOnly (Function.update s.ptable p { s.ptable p with sz := sz })
      (Function.update u.ptable p { u.ptable p with sz := sz }) :=
    @RssOnly.update _ _ calm.rssOnly p (fun proc => { proc with sz := sz }) (fun _ _ => rfl)
  have placed : Rep (g.respace (s.ptable p).pgdir content)
      (setProc u p { u.ptable p with sz := sz }) :=
    rep.setProc (fun _ _ => ⟨by rw [calm.pgdir]; exact settled.inside live, small⟩)
  obtain ⟨settled', shows'⟩ := goes_refill settled live rfl rfl rfl settled.stays placed rfl same
    calm.nextpid calm.initproc calm.kpgdir calm.pipes ends
  refine ⟨_, settled', ⟨rfl, rfl, rfl, rfl, fun _ => rfl⟩, fun a shows => ?_⟩
  have pages := (shows.task p).pages live
  have flag := resize_flag n (s.ptable p).sz (a.table p).pages (g.space (s.ptable p).pgdir)
  rw [resized] at flag
  refine ⟨_, ?_, shows' a (resize n (s.ptable p).sz (a.table p).pages).2.2 shows ?_⟩
  · unfold Tasks.sbrk
    dsimp only
    rw [(shows.task p).sz live]
    refine Prod.ext ?_ ?_
    · exact congrArg Out.flag flag.1.symm
    · dsimp only
      rw [flag.2]
  · intro v user
    rw [resize_page (pages v user), resized]

/-! ## Accesses and faults -/

theorem page_below {va sz : Nat} (below : va < sz) : va / PGSIZE < pagesOf sz := by
  unfold pagesOf
  rw [Nat.div_lt_iff_lt_mul (by decide)]
  have split := Nat.div_add_mod (sz + PGSIZE - 1) PGSIZE
  have rest := Nat.mod_lt (sz + PGSIZE - 1) (show 0 < PGSIZE by decide)
  rw [Nat.mul_comm] at split
  omega

theorem Settled.user (settled : Settled loan g s) (live : (s.ptable p).live = true) {va : Nat}
    (below : va < (s.ptable p).sz) : va / PGSIZE < NUPAGE :=
  Nat.lt_of_lt_of_le (page_below below) (pagesOf_le (settled.small live))

section Accesses

variable {va : Nat} (settled : Settled loan g s) (live : (s.ptable p).live = true)
  (below : va < (s.ptable p).sz) (quiet : Quiet g t.log)
  (fine : FaultFine s t (s.ptable p).pgdir (va / PGSIZE))
include settled live below quiet fine

theorem userRead_goes {out : Option Byte} (legal : Legal s p va)
    (success : userRead p va s = .ok (out, t)) :
    Goes loan g s t (fun a b => (Out.byte out, b) = a.read p va) := by
  have user := settled.user live below
  obtain ⟨rep, page, space, rfl⟩ := userRead_spec settled.rep (settled.inside live) user legal
    success quiet fine
  obtain ⟨settled', shows'⟩ := goes_calm settled (userRead_calm _ _ _ _ _ success) rep rfl rfl rfl
    settled.stays
  refine ⟨g, settled', Follows.refl s t g, fun a shows => ⟨a, ?_, shows' a shows⟩⟩
  unfold Tasks.read Memory.byte
  dsimp only
  rw [(shows.task p).pages live _ user, space]
  rfl

theorem userWrite_goes {out : Bool} {b : Byte}
    (thawed : g.Thawed s.mem (s.ptable p).pgdir (va / PGSIZE)) (legal : Legal s p va)
    (success : userWrite p va b s = .ok (out, t)) :
    Goes loan g s t (fun a a' => (Out.flag out, a') = a.write p va b) := by
  have user := settled.user live below
  obtain ⟨rfl, h, page, forgets, still, space, rep⟩ := userWrite_spec settled.rep
    (settled.inside live) user thawed legal success quiet fine
  obtain ⟨dirs, held, -, -, -, leaving, spaces⟩ := forgets.fields
  have follows := forgets.follows (s := s) (t := t) still
  have calm := userWrite_calm _ _ _ _ _ _ success
  have ends : ∀ u, pagesOf (s.ptable p).sz ≤ u → u < NUPAGE →
      (if u = va / PGSIZE then some (true, page.setByte (va % PGSIZE) b)
        else h.space (s.ptable p).pgdir u) = none := by
    intro u above small
    have other : u ≠ va / PGSIZE := by
      have inside := page_below below
      omega
    rw [if_neg other, spaces]
    exact settled.census.ends live u above small
  rw [Ghost.respace_setSpace] at rep
  obtain ⟨settled', shows'⟩ := goes_refill settled live dirs held spaces
    (leaving.trans settled.stays) rep rfl
    (by rw [Function.update_eq_self]; exact calm.rssOnly) calm.nextpid calm.initproc calm.kpgdir
    calm.pipes ends
  refine ⟨_, settled', ⟨follows.base, follows.aged, follows.frozen, follows.reserved, follows.pool⟩,
    fun a shows => ⟨_, ?_, shows' a ((a.table p).pages.setByte va b) shows ?_⟩⟩
  · unfold Tasks.write
    rw [← (shows.task p).sz live]
  · intro u small
    unfold Memory.setByte
    rw [(shows.task p).pages live u small, spaces]
    split
    · rename_i here
      rw [here, space]
      rfl
    · rfl

theorem handlePageFault_goes (thawed : g.Thawed s.mem (s.ptable p).pgdir (va / PGSIZE))
    (mapped : pteOf s.mem (s.ptable p).pgdir (va / PGSIZE) ≠ 0#32)
    (success : handlePageFault p va s = .ok (done, t)) : Goes loan g s t (fun a b => b = a) := by
  obtain ⟨h, forgets, still, rep, -, -⟩ := handlePageFault_spec settled.rep (settled.inside live)
    (settled.user live below) thawed mapped success quiet fine
  obtain ⟨dirs, held, -, -, -, leaving, spaces⟩ := forgets.fields
  obtain ⟨settled', shows'⟩ := goes_calm settled (handlePageFault_calm _ _ _ _ _ success) rep dirs
    held spaces (leaving.trans settled.stays)
  exact ⟨h, settled', forgets.follows still, fun a shows => ⟨a, rfl, shows' a shows⟩⟩

end Accesses

/-! ## exit -/

theorem exited_field {α : Type} {f : Proc → α}
    (parent : ∀ proc x, f { proc with parent := x } = f proc)
    (state : ∀ proc x, f { proc with state := x } = f proc) (q : Fin NPROC) :
    f ((exited s p).ptable q) = f (s.ptable q) := by
  unfold exited
  dsimp only
  split <;> split
  · exact (state { s.ptable q with parent := s.initproc } .zombie).trans (parent _ _)
  · exact state (s.ptable q) .zombie
  · exact parent (s.ptable q) s.initproc
  · rfl

theorem exit_goes (settled : Settled loan g s) (live : (s.ptable p).live = true)
    (success : exit p s = .ok (done, t)) :
    Goes loan g s t (fun a b => (Out.nothing, b) = a.exit p) := by
  unfold exit at success
  rw [read_bind] at success
  obtain ⟨-, success⟩ := Prog.refuse_ok_iff.mp success
  obtain rfl := update_ok_iff.mp success
  have lives : ∀ q, ((exited s p).ptable q).live = (s.ptable q).live := by
    intro q
    unfold exited
    dsimp only
    by_cases here : q = p
    · subst here
      rw [if_pos rfl, live]
      rfl
    · rw [if_neg here]
      split <;> rfl
  have pgdirs := exited_field (s := s) (p := p) (f := Proc.pgdir) (fun _ _ => rfl)
    (fun _ _ => rfl)
  have szs := exited_field (s := s) (p := p) (f := Proc.sz) (fun _ _ => rfl) (fun _ _ => rfl)
  refine ⟨g, ⟨?_, settled.stays, ?_⟩, Follows.refl s _ g, fun a shows => ⟨_, rfl, ?_⟩⟩
  · refine settled.rep.congr rfl rfl rfl rfl rfl rfl rfl ?_
    intro q living stays
    rw [pgdirs, szs]
    rw [lives] at living
    exact settled.rep.procs q living stays
  · refine settled.census.retable lives pgdirs
      (exited_field (f := Proc.kstack) (fun _ _ => rfl) (fun _ _ => rfl)) szs ?_
    intro q
    unfold exited
    dsimp only
    split
    · exact fun embryo => by cases embryo
    · split <;> exact settled.census.adult q
  · refine ⟨shows.nextpid, shows.initproc, fun q => ?_⟩
    have before := shows.task q
    have alive := lives q
    unfold Tasks.exit exited at *
    dsimp only at *
    rw [before.parent, shows.initproc]
    refine ⟨?_, ?_, ?_, ?_, ?_, ?_⟩
    · split <;> split <;> first | rfl | exact before.state
    · split <;> split <;> exact before.pid
    · split <;> split <;> first | rfl | exact before.parent
    · split <;> split <;> exact before.killed
    · intro living
      rw [alive] at living
      split <;> split <;> exact before.sz living
    · intro living
      rw [alive] at living
      split <;> split <;> exact before.pages living

/-! ## fork -/

/-- The entry that allocproc takes, before it has a kernel stack. -/
def embryo (s : Kernel) (np : Fin NPROC) : Kernel :=
  { setProc s np { s.ptable np with state := .embryo, pid := s.nextpid } with
    nextpid := s.nextpid + 1 }

theorem allocproc_ok {out : Option (Fin NPROC)} (success : allocproc s = .ok (out, t)) :
    (firstUnused s = none ∧ out = none ∧ t = s) ∨
      ∃ np k u, firstUnused s = some np ∧ out = some np ∧ kalloc (embryo s np) = .ok (k, u) ∧
        t = setProc u np { u.ptable np with kstack := k } := by
  unfold allocproc at success
  rw [read_bind] at success
  split at success
  · rename_i full
    obtain ⟨rfl, rfl⟩ := pure_ok_iff.mp success
    exact Or.inl ⟨full, rfl, rfl⟩
  · rename_i np found
    rw [bind_ok_iff] at success
    obtain ⟨_, first, taken, rest⟩ := success
    obtain rfl := update_ok_iff.mp taken
    rw [bind_ok_iff] at rest
    obtain ⟨_, second, numbered, rest⟩ := rest
    obtain rfl := update_ok_iff.mp numbered
    rw [bind_ok_iff] at rest
    obtain ⟨k, u, allocated, rest⟩ := rest
    rw [bind_ok_iff] at rest
    obtain ⟨_, r, stacked, rest⟩ := rest
    obtain rfl := update_ok_iff.mp stacked
    obtain ⟨rfl, rfl⟩ := pure_ok_iff.mp rest
    exact Or.inr ⟨np, k, u, found, rfl, allocated, rfl⟩

/-- The child as fork leaves it. -/
def child (s : Kernel) (p np : Fin NPROC) (pgdir kstack : Nat) : Proc :=
  ⟨(s.ptable p).sz, 0#32, pgdir, kstack, .runnable, s.nextpid, some p, (s.ptable np).killed⟩

theorem firstUnused_some {np : Fin NPROC} (found : firstUnused s = some np) :
    (s.ptable np).state = .unused := by
  have holds := List.find?_some found
  exact of_decide_eq_true holds

/-- fork up to the copy of the address space, and what it leaves in the end. -/
theorem forkWith_ok {copy : Nat → Nat → Fin NPROC → K Nat} {out : Option Nat}
    (calm : ∀ pgdir sz np, Prog.Steps Calm (copy pgdir sz np)) (live : (s.ptable p).live = true)
    (success : forkWith copy p s = .ok (out, t)) :
    (firstUnused s = none ∧ out = none ∧ t = s) ∨
      ∃ np k u d w, firstUnused s = some np ∧ out = some s.nextpid ∧
        kalloc (embryo s np) = .ok (k, u) ∧
        copy (s.ptable p).pgdir (s.ptable p).sz np
          (setProc u np { u.ptable np with kstack := k }) = .ok (d, w) ∧
        (∃ proc, t = setProc w np proc) ∧
        RssOnly (Function.update s.ptable np (child s p np d k)) t.ptable ∧
        t.nextpid = s.nextpid + 1 ∧ t.initproc = s.initproc ∧ t.kpgdir = s.kpgdir ∧
        t.pipes = s.pipes := by
  unfold forkWith at success
  rw [bind_ok_iff] at success
  obtain ⟨found, r, allocated, rest⟩ := success
  rcases allocproc_ok allocated with ⟨full, rfl, same⟩ | ⟨np, k, u, free, rfl, taken, same⟩
  · subst r
    obtain ⟨rfl, rfl⟩ := pure_ok_iff.mp rest
    exact Or.inl ⟨full, rfl, rfl⟩
  · dsimp only at rest
    rw [read_bind, bind_ok_iff] at rest
    obtain ⟨d, w, copied, rest⟩ := rest
    rw [bind_ok_iff] at rest
    obtain ⟨_, r', updated, rest⟩ := rest
    obtain rfl := update_ok_iff.mp updated
    obtain ⟨rfl, rfl⟩ := pure_ok_iff.mp rest
    have other : p ≠ np := by
      rintro rfl
      unfold Proc.live at live
      rw [firstUnused_some free] at live
      cases live
    have first := kalloc_calm _ _ _ taken
    have second := calm _ _ _ _ _ _ copied
    obtain ⟨rss, parent⟩ := first.proc p
    obtain ⟨rss', newborn⟩ := first.proc np
    have entry : r.ptable np = { u.ptable np with kstack := k } := by
      rw [same]
      exact update_self _ _ _
    have parentEntry : r.ptable p = { s.ptable p with rss := rss } := by
      rw [same]
      refine (update_of_ne other _ _).trans (parent.trans ?_)
      unfold embryo setProc
      dsimp only
      rw [update_of_ne other]
    have newborn' : u.ptable np =
        { s.ptable np with rss := rss', state := .embryo, pid := s.nextpid } := by
      rw [newborn]
      unfold embryo setProc
      dsimp only
      rw [update_self]
    refine Or.inr ⟨np, k, u, d, w, free, ?_, taken, ?_, ⟨_, rfl⟩, ?_, ?_, ?_, ?_, ?_⟩
    · rw [entry, newborn']
    · rw [parentEntry] at copied
      rw [← same]
      exact copied
    · intro q
      obtain ⟨rss₁, first'⟩ := first.proc q
      obtain ⟨rss₂, second'⟩ := second.proc q
      by_cases here : q = np
      · subst here
        refine ⟨rss₂, ?_⟩
        rw [update_self]
        refine (update_self _ _ _).trans ?_
        rw [second', entry, newborn', parentEntry]
        rfl
      · refine ⟨rss₂, ?_⟩
        rw [update_of_ne here]
        refine (update_of_ne here _ _).trans (second'.trans ?_)
        rw [same]
        unfold setProc
        dsimp only
        rw [update_of_ne here, first']
        unfold embryo setProc
        dsimp only
        rw [update_of_ne here]
    · refine second.nextpid.trans ?_
      rw [same]
      exact first.nextpid
    · refine second.initproc.trans ?_
      rw [same]
      exact first.initproc
    · refine second.kpgdir.trans ?_
      rw [same]
      exact first.kpgdir
    · refine second.pipes.trans ?_
      rw [same]
      exact first.pipes

theorem Shows.firstUnused (shows : Shows g s a) :
    a.first (fun task => task.state = .unused) = firstUnused s := by
  unfold Tasks.first Xv6Cow.firstUnused
  congr 1
  funext p
  dsimp only
  rw [(shows.task p).state]

theorem Shows.numbered (shows : Shows g s a) :
    Shows g { s with nextpid := s.nextpid + 1 } { a with nextpid := a.nextpid + 1 } :=
  ⟨by rw [shows.nextpid], shows.initproc, shows.task⟩

theorem Ghost.copy_here (g : Ghost) (d pgdir n u : Nat) :
    (g.copy d pgdir n).space d u = if u < n then g.space pgdir u else none := by
  unfold Ghost.copy Ghost.setRange Ghost.addDir
  simp only [Nat.zero_le, true_and, ↓reduceIte]

theorem Ghost.copy_elsewhere (g : Ghost) {d e : Nat} (pgdir n u : Nat) (other : e ≠ d) :
    (g.copy d pgdir n).space e u = g.space e u := by
  unfold Ghost.copy Ghost.setRange Ghost.addDir
  simp only [other, false_and, ↓reduceIte]

theorem Ghost.held_hold (g : Ghost) (k q : Nat) (page : Page) :
    (g.hold k page).held q ≠ none ↔ q = k ∨ g.held q ≠ none := by
  by_cases here : q = k
  · subst here
    simp only [Ghost.hold, update_self, ne_eq, reduceCtorEq, not_false_eq_true, true_or]
  · simp only [Ghost.hold, update_of_ne here, here, false_or]

theorem goes_spawn {np : Fin NPROC} {d k : Nat} {page : Page} (settled : Settled loan g s)
    (live : (s.ptable p).live = true) (free : firstUnused s = some np)
    (freshStack : g.Fresh k) (freshDir : d ∉ g.dirs)
    (rep : Rep ((g.hold k page).copy d (s.ptable p).pgdir (pagesOf (s.ptable p).sz)) t)
    (same : RssOnly (Function.update s.ptable np (child s p np d k)) t.ptable)
    (nextpid : t.nextpid = s.nextpid + 1) (initproc : t.initproc = s.initproc)
    (kpgdir : t.kpgdir = s.kpgdir) (pipes : t.pipes = s.pipes) :
    Goes loan g s t (fun a b => (Out.pid (some s.nextpid), b) = a.fork p) := by
  have absent : (s.ptable np).live = false := by
    unfold Proc.live
    rw [firstUnused_some free]
  have above : ∀ u, pagesOf (s.ptable p).sz ≤ u →
      ((g.hold k page).copy d (s.ptable p).pgdir (pagesOf (s.ptable p).sz)).space d u = none := by
    intro u above
    rw [Ghost.copy_here, if_neg (by omega)]
  have spawned := settled.census.spawn (p := np)
    (h := (g.hold k page).copy d (s.ptable p).pgdir (pagesOf (s.ptable p).sz)) absent
    (show (child s p np d k).live = true from rfl) rfl rfl freshDir freshStack.2 rfl
    (fun q => Ghost.held_hold g k q page) (fun e u other => Ghost.copy_elsewhere _ _ _ _ other)
    (fun u high _ => above u high)
  refine ⟨_, ⟨rep, settled.stays, ?_⟩, ⟨rfl, rfl, rfl, rfl, fun _ => rfl⟩, fun a shows => ?_⟩
  · rw [kpgdir, pipes]
    exact spawned.rss same
  · unfold Tasks.fork
    dsimp only
    rw [shows.firstUnused, free]
    refine ⟨_, by rw [← shows.nextpid], ?_⟩
    refine (shows.numbered.set same nextpid initproc ?_ ?_ :
      Shows _ _ (Tasks.set { a with nextpid := a.nextpid + 1 } np ⟨.runnable, a.nextpid, some p,
        (a.table np).killed, (a.table p).sz, (a.table p).pages⟩))
    · refine ⟨rfl, shows.nextpid, rfl, (shows.task np).killed, fun _ => (shows.task p).sz live, ?_⟩
      intro _ u user
      dsimp only
      rw [(shows.task p).pages live u user]
      change _ = ((g.hold k page).copy d _ _).space d u
      rw [Ghost.copy_here]
      split
      · rfl
      · exact settled.census.ends live u (by omega) user
    · intro q other living u _
      apply Ghost.copy_elsewhere
      rintro rfl
      exact freshDir (settled.inside living)

/-- fork, for a way to copy the address space that copies it. -/
theorem forkWith_goes {copy : Nat → Nat → Fin NPROC → K Nat} {out : Option Nat}
    (calm : ∀ pgdir sz np, Prog.Steps Calm (copy pgdir sz np)) (settled : Settled loan g s)
    (live : (s.ptable p).live = true) (success : forkWith copy p s = .ok (out, t))
    (quiet : Quiet g t.log)
    (copies : ∀ {h : Ghost} {r w : Kernel} {d : Nat} {np : Fin NPROC}, Rep h r →
      (s.ptable p).pgdir ∈ h.dirs → h.frozen = g.frozen → Fades (s.ptable p).pgdir s r →
      s.log <:+ r.log → r.log <:+ w.log → w.log = t.log →
      copy (s.ptable p).pgdir (s.ptable p).sz np r = .ok (d, w) → Quiet h w.log →
      h.Fresh d ∧ Rep (h.copy d (s.ptable p).pgdir (pagesOf (s.ptable p).sz)) w) :
    Goes loan g s t (fun a b => (Out.pid out, b) = a.fork p) := by
  rcases forkWith_ok calm live success with ⟨full, rfl, same⟩ |
    ⟨np, k, u, d, w, free, rfl, taken, copied, ⟨proc, final⟩, same, nextpid, initproc, kpgdir,
      pipes⟩
  · subst t
    refine ⟨g, settled, Follows.refl s s g, fun a shows => ⟨a, ?_, shows⟩⟩
    unfold Tasks.fork
    dsimp only
    rw [shows.firstUnused, full]
  · have log : w.log = t.log := by
      rw [final]
      rfl
    have first := kalloc_calm _ _ _ taken
    have second := calm _ _ _ _ _ _ copied
    have begun : Rep g (embryo s np) := by
      refine settled.rep.congr rfl rfl rfl rfl rfl rfl rfl ?_
      intro q living stays
      by_cases here : q = np
      · subst here
        simp only [embryo, setProc, update_self, Proc.live] at living
        cases living
      · simp only [embryo, setProc, update_of_ne here] at living ⊢
        exact settled.rep.procs q living stays
    have quiet' : Quiet g w.log := by rw [log]; exact quiet
    obtain ⟨fresh, stacked, evicts⟩ := kalloc_spec begun taken
      (quiet'.mono (begun.base.trans first.log) second.log)
    have young : ({ u.ptable np with kstack := k } : Proc).live = false := by
      unfold Proc.live
      dsimp only
      rw [first.state, embryo, setProc]
      dsimp only
      rw [update_self]
    have ready : Rep (g.hold k (u.mem k)) (setProc u np { u.ptable np with kstack := k }) :=
      stacked.setProc (fun living => by rw [young] at living; cases living)
    obtain ⟨freshDir, built⟩ := copies ready (settled.inside live) rfl
      (evicts.toEvolves.fades (settled.inside live)) first.log second.log log copied quiet'
    obtain ⟨rss, newborn⟩ := same np
    have done :
        Rep ((g.hold k (u.mem k)).copy d (s.ptable p).pgdir (pagesOf (s.ptable p).sz)) t := by
      rw [final] at newborn ⊢
      rw [update_self] at newborn
      refine built.setProc (fun _ _ => ?_)
      rw [show proc = { child s p np d k with rss := rss } from
        (update_self _ _ _).symm.trans newborn]
      exact ⟨Finset.mem_insert_self _ _, settled.small live⟩
    exact goes_spawn settled live free fresh freshDir.1 done same nextpid initproc kpgdir pipes

theorem fork_goes {out : Option Nat} (settled : Settled loan g s)
    (live : (s.ptable p).live = true) (loose : g.Loose (s.ptable p).pgdir)
    (success : fork p s = .ok (out, t)) (quiet : Quiet g t.log)
    (spares : Spares (s.ptable p).pgdir s t) :
    Goes loan g s t (fun a b => (Out.pid out, b) = a.fork p) := by
  refine forkWith_goes copyuvmCow_calm settled live success quiet ?_
  intro h r w d np rep source frozen fades older newer log copied quiet'
  have steady : h.Loose (s.ptable p).pgdir := by
    unfold Ghost.Loose
    rw [frozen]
    exact loose
  refine copyuvmCow_spec rep source steady (settled.small live) copied quiet' ?_
  refine Spares.later (fun e evicted => ?_) fades older newer
  rw [Evicted, log] at evicted
  exact spares e evicted

theorem forkEager_goes {out : Option Nat} (settled : Settled loan g s)
    (live : (s.ptable p).live = true) (success : forkEager p s = .ok (out, t))
    (quiet : Quiet g t.log) (still : ∀ e, ¬ Evicted s t e) :
    Goes loan g s t (fun a b => (Out.pid out, b) = a.fork p) := by
  refine forkWith_goes (fun pgdir sz _ => copyuvm_calm pgdir sz) settled live success quiet ?_
  intro h r w d np rep source frozen fades older newer log copied quiet'
  refine copyuvm_spec rep source (settled.small live) copied quiet' (fun e evicted => still e ?_)
  have before := evicted.before older newer
  rw [Evicted, log] at before
  exact before

/-! ## wait -/

theorem Rep.release_keeps {k : Nat} {page : Page} (rep : Rep g s) (held : g.held k = some page) :
    Keeps g s.mem (kfreed s k).mem := by
  rw [rep.kfreed_held held]
  obtain ⟨notDir, notTable⟩ := rep.layout.held_apart held
  exact Keeps.page s.mem _ notDir notTable

theorem reap_ok (success : reap q s = .ok (done, t)) :
    ∃ u r, clearZombie (s.ptable q).pgdir s = .ok ((), u) ∧
      freevmProc q (s.ptable q).pgdir
        (setProc (kfreed u (s.ptable q).kstack) q
          { u.ptable q with kstack := 0, rss := (u.ptable q).rss - BitVec.ofNat 32 PGSIZE }) =
        .ok ((), r) ∧
      t = setProc r q
        { r.ptable q with pid := 0, parent := none, killed := false, state := .unused } := by
  unfold reap at success
  rw [read_bind, bind_ok_iff] at success
  obtain ⟨_, u, cleared, rest⟩ := success
  rw [bind_ok_iff] at rest
  obtain ⟨_, second, freed, rest⟩ := rest
  obtain ⟨-, -, rfl⟩ := kfree_ok_iff.mp freed
  rw [bind_ok_iff] at rest
  obtain ⟨_, third, unstacked, rest⟩ := rest
  obtain rfl := update_ok_iff.mp unstacked
  rw [bind_ok_iff] at rest
  obtain ⟨_, fourth, lowered, rest⟩ := rest
  obtain rfl := update_ok_iff.mp lowered
  rw [bind_ok_iff] at rest
  obtain ⟨_, r, torn, rest⟩ := rest
  refine ⟨u, r, cleared, ?_, update_ok_iff.mp rest⟩
  rw [← torn]
  simp only [setProc, update_self, Function.update_idem, kfreed_ptable]

theorem reap_rep (settled : Settled loan g s) (live : (s.ptable q).live = true)
    (loose : g.Loose (s.ptable q).pgdir) (success : reap q s = .ok (done, t)) :
    Rep ((g.drop (s.ptable q).kstack).removeDir (s.ptable q).pgdir) t := by
  obtain ⟨u, r, cleared, torn, rfl⟩ := reap_ok success
  have inside := settled.inside live
  obtain ⟨page, held⟩ := Option.ne_none_iff_exists'.mp
    ((settled.census.held (s.ptable q).kstack).mpr (Or.inl ⟨q, live, rfl⟩))
  have leaving := settled.rep.leave settled.stays q
  obtain ⟨⟨content, emptied⟩, clear⟩ := clearZombie_spec leaving inside loose cleared
  have released := emptied.release held
  have keeps := emptied.release_keeps held
  have calm := clearZombie_calm _ _ _ _ cleared
  obtain ⟨m, ready⟩ : ∃ m : Kernel, m = setProc (kfreed u (s.ptable q).kstack) q
      { u.ptable q with kstack := 0, rss := (u.ptable q).rss - BitVec.ofNat 32 PGSIZE } := ⟨_, rfl⟩
  rw [← ready] at torn
  have going : Rep ((({ g with leaving := some q } : Ghost).respace (s.ptable q).pgdir content).drop
      (s.ptable q).kstack) m := by
    rw [ready]
    exact released.setProc (fun _ stays => absurd rfl stays)
  have torn' := freevmProc_spec going inside loose
    (fun v user => by
      rw [ready]
      refine (congrArg isSwapped (keeps.entry inside (user_lt user))).trans (clear v user))
    (by
      intro p living stays
      have other : p ≠ q := fun same => stays (by rw [same]; rfl)
      have entry : m.ptable p = u.ptable p := by
        rw [ready]
        refine (update_of_ne other _ _).trans ?_
        rw [kfreed_ptable]
      rw [entry, calm.live] at living
      rw [entry, calm.pgdir]
      exact fun same => other (settled.census.alone living live same))
    torn
  have gone := @Rep.setProc _ _ torn' q
    { r.ptable q with pid := 0, parent := none, killed := false, state := .unused }
    (fun _ stays => absurd rfl stays)
  have final := Rep.left (p := q) gone rfl (by
    unfold setProc
    dsimp only
    rw [update_self]
    rfl)
  have shape := settled.stays
  refine Rep.respaced (?_ : Rep (((g.drop (s.ptable q).kstack).respace (s.ptable q).pgdir
    content).removeDir (s.ptable q).pgdir) _)
  convert final using 1
  unfold Ghost.removeDir Ghost.respace Ghost.drop
  simp only [shape]

theorem reap_table (success : reap q s = .ok (done, t)) :
    RssOnly (Function.update s.ptable q
        ⟨(s.ptable q).sz, 0#32, (s.ptable q).pgdir, 0, .unused, 0, none, false⟩) t.ptable ∧
      t.nextpid = s.nextpid ∧ t.initproc = s.initproc ∧ t.kpgdir = s.kpgdir ∧
      t.pipes = s.pipes ∧ s.log <:+ t.log := by
  obtain ⟨u, r, cleared, torn, rfl⟩ := reap_ok success
  have first := clearZombie_calm _ _ _ _ cleared
  have second := (kfreed_calm u (s.ptable q).kstack)
  have third := freevmProc_calm _ _ _ _ _ torn
  refine ⟨?_, third.nextpid.trans (second.nextpid.trans first.nextpid),
    third.initproc.trans (second.initproc.trans first.initproc),
    third.kpgdir.trans (second.kpgdir.trans first.kpgdir),
    third.pipes.trans (second.pipes.trans first.pipes),
    (first.log.trans second.log).trans third.log⟩
  intro p
  obtain ⟨rss₁, first'⟩ := first.proc p
  obtain ⟨rss₃, third'⟩ := third.proc p
  by_cases here : p = q
  · subst here
    refine ⟨rss₃, ?_⟩
    rw [update_self]
    refine (update_self _ _ _).trans ?_
    rw [third']
    unfold setProc
    dsimp only
    rw [update_self, first']
  · refine ⟨rss₃, ?_⟩
    rw [update_of_ne here]
    refine (update_of_ne here _ _).trans (third'.trans ?_)
    unfold setProc
    dsimp only
    rw [update_of_ne here, kfreed_ptable, first']

theorem Shows.zombieChild (shows : Shows g s a) (p : Fin NPROC) :
    a.first (fun task => task.parent = some p ∧ task.state = .zombie) = zombieChild s p := by
  unfold Tasks.first Xv6Cow.zombieChild
  congr 1
  funext q
  dsimp only
  rw [(shows.task q).parent, (shows.task q).state]

theorem Shows.hasChild (shows : Shows g s a) (p : Fin NPROC) :
    (List.finRange NPROC).any (fun q => (a.table q).parent = some p) = hasChild s p := by
  unfold Xv6Cow.hasChild
  congr 1
  funext q
  rw [(shows.task q).parent]

theorem zombieChild_some (found : zombieChild s p = some q) : (s.ptable q).state = .zombie := by
  have holds := List.find?_some found
  exact (of_decide_eq_true holds).2

theorem zombie_live (zombie : proc.state = .zombie) : proc.live = true := by
  unfold Proc.live
  rw [zombie]

theorem wait_goes {out : WaitResult} (settled : Settled loan g s)
    (loose : ∀ q, zombieChild s p = some q → g.Loose (s.ptable q).pgdir)
    (success : wait p s = .ok (out, t)) :
    Goes loan g s t (fun a b => (Out.waited out, b) = a.wait p) := by
  unfold wait at success
  rw [read_bind] at success
  split at success
  · rename_i q found
    rw [bind_ok_iff] at success
    obtain ⟨_, r, reaped, rest⟩ := success
    obtain ⟨rfl, rfl⟩ := pure_ok_iff.mp rest
    have live := zombie_live (zombieChild_some found)
    obtain ⟨same, nextpid, initproc, kpgdir, pipes, -⟩ := reap_table reaped
    have departed := settled.census.depart (p := q)
      (h := (g.drop (s.ptable q).kstack).removeDir (s.ptable q).pgdir) live
      (show (⟨(s.ptable q).sz, 0#32, (s.ptable q).pgdir, 0, .unused, 0, none, false⟩ :
        Proc).state = .unused from rfl) rfl
      (by
        intro x
        by_cases here : x = (s.ptable q).kstack
        · subst here
          simp only [Ghost.removeDir, Ghost.drop, update_self, ne_eq, not_true_eq_false,
            false_and]
        · simp only [Ghost.removeDir, Ghost.drop, update_of_ne here, ne_eq, here,
            not_false_eq_true, true_and])
      (fun _ _ _ => rfl)
    refine ⟨_, ⟨reap_rep settled live (loose q found) reaped, settled.stays, ?_⟩,
      ⟨rfl, rfl, rfl, rfl, fun _ => rfl⟩, fun a shows => ?_⟩
    · rw [kpgdir, pipes]
      exact departed.rss same
    · refine ⟨a.set q Tasks.vacant, ?_, shows.set same nextpid initproc ?_ (fun _ _ _ _ _ => rfl)⟩
      · unfold Tasks.wait
        dsimp only
        rw [shows.zombieChild, found]
        dsimp only
        rw [(shows.task q).pid]
      · exact ⟨rfl, rfl, rfl, rfl, (fun living => by cases living), (fun living => by cases living)⟩
  · rename_i none
    have unchanged : t = s ∧ ∀ a, Shows g s a → (Out.waited out, a) = a.wait p := by
      rw [Prog.ite_apply] at success
      split at success
      · rename_i alone
        obtain ⟨rfl, rfl⟩ := pure_ok_iff.mp success
        refine ⟨rfl, fun a shows => ?_⟩
        unfold Tasks.wait
        rw [shows.zombieChild, none]
        dsimp only
        rw [shows.hasChild, (shows.task p).killed, if_pos alone]
      · rename_i wait
        obtain ⟨rfl, rfl⟩ := pure_ok_iff.mp success
        refine ⟨rfl, fun a shows => ?_⟩
        unfold Tasks.wait
        rw [shows.zombieChild, none]
        dsimp only
        rw [shows.hasChild, (shows.task p).killed, if_neg wait]
    obtain ⟨rfl, result⟩ := unchanged
    exact ⟨g, settled, Follows.refl _ _ g, fun a shows => ⟨a, result a shows, shows⟩⟩

/-! ## exec -/

theorem exec_ok {file : Option File} {argv : List (List Byte)} {out : Bool}
    (success : exec p file argv s = .ok (out, t)) :
    (out = false ∧ t = s) ∨
      ∃ contents elf d u image w, setupkvm s = .ok (d, u) ∧
        execImage p d contents elf argv u = .ok (image, w) ∧
        ((image = none ∧ out = false ∧ freevm p d w = .ok ((), t)) ∨
          ∃ sz, image = some sz ∧ out = true ∧
            freevm p (w.ptable p).pgdir (setProc w p { w.ptable p with pgdir := d, sz := sz }) =
              .ok ((), t)) := by
  unfold exec at success
  split at success
  · exact Or.inl (pure_ok_iff.mp success)
  · split at success
    · exact Or.inl (pure_ok_iff.mp success)
    · rename_i contents _ elf _
      rw [Prog.ite_apply] at success
      split at success
      · exact Or.inl (pure_ok_iff.mp success)
      · rw [bind_ok_iff] at success
        obtain ⟨d, u, setup, rest⟩ := success
        rw [bind_ok_iff] at rest
        obtain ⟨image, w, built, rest⟩ := rest
        refine Or.inr ⟨contents, elf, d, u, image, w, setup, built, ?_⟩
        cases image with
        | none =>
          rw [bind_ok_iff] at rest
          obtain ⟨_, r, freed, rest⟩ := rest
          obtain ⟨rfl, rfl⟩ := pure_ok_iff.mp rest
          exact Or.inl ⟨rfl, rfl, freed⟩
        | some sz =>
          rw [bind_ok_iff] at rest
          obtain ⟨_, r, committed, rest⟩ := rest
          obtain ⟨rfl, rfl⟩ := pure_ok_iff.mp rest
          unfold execCommit at committed
          rw [read_bind, bind_ok_iff] at committed
          obtain ⟨_, r', updated, freed⟩ := committed
          obtain rfl := update_ok_iff.mp updated
          exact Or.inr ⟨sz, rfl, rfl, freed⟩

theorem image_start {d : Nat} {u : Kernel} (settled : Settled loan g s) (calm : Calm s u)
    (fresh : g.Fresh d) (rep : Rep (g.addDir d) u) : Image (g.addDir d) u d 0 := by
  have empty : (g.addDir d).respace d (fun _ => none) = g.addDir d := by
    unfold Ghost.respace Ghost.addDir
    congr 1
    funext e v
    dsimp only
    split <;> rfl
  have inside : d ∈ (g.addDir d).dirs := Finset.mem_insert_self _ _
  have loose : g.Loose d := Ghost.loose_of_fresh settled.rep.layout fresh
  refine ⟨inside, loose, Nat.zero_le _, ?_, ?_, ?_⟩
  · exact ⟨fun _ => none, by rw [empty]; exact rep, fun v below => absurd below (Nat.not_lt_zero v),
      fun _ _ _ => rfl⟩
  · intro v user mapped
    exact absurd (rep.vacant inside user (g.addDir_space d v)) mapped
  · intro q living same
    rw [calm.live] at living
    rw [calm.pgdir] at same
    exact fresh.1 (same ▸ settled.inside living)

theorem Ghost.removeDir_addDir {d : Nat} (fresh : d ∉ g.dirs) :
    (g.addDir d).removeDir d = (g.respace d (fun _ => none)).removeDir d := by
  unfold Ghost.removeDir Ghost.addDir Ghost.respace
  dsimp only
  rw [Finset.erase_insert fresh, Finset.erase_eq_of_notMem fresh]

theorem Ghost.removeDir_absent {d : Nat} (fresh : d ∉ g.dirs) : g.removeDir d = g := by
  unfold Ghost.removeDir
  rw [Finset.erase_eq_of_notMem fresh]

/-- The commit: the old image is gone, and the new one has the contents it was built with. -/
theorem commit_rep {d z : Nat} {w : Kernel} {content : Nat → Option (Bool × Page)}
    (settled : Settled loan g s)
    (live : (s.ptable p).live = true) (loose : g.Loose (s.ptable p).pgdir) (calm : Calm s w)
    (fresh : g.Fresh d)
    (image : Image (g.addDir d) w d z) (rep : Rep ((g.addDir d).respace d content) w)
    (freed : freevm p (s.ptable p).pgdir (setProc w p { w.ptable p with pgdir := d, sz := z }) =
      .ok (done, t)) :
    Rep (((g.addDir d).respace d content).removeDir (s.ptable p).pgdir) t := by
  have old := settled.inside live
  have apart : (s.ptable p).pgdir ≠ d := fun same => fresh.1 (same ▸ old)
  have committed := @Rep.setProc _ _ rep p { w.ptable p with pgdir := d, sz := z }
    (fun _ _ => ⟨image.inside, image.small⟩)
  refine freevm_spec committed (Finset.mem_insert_of_mem old) loose ?_ freed
  intro q living _
  by_cases here : q = p
  · subst here
    change (Function.update w.ptable q _ q).pgdir ≠ _
    rw [update_self]
    exact apart.symm
  · change (Function.update w.ptable p _ q).live = true at living
    change (Function.update w.ptable p _ q).pgdir ≠ _
    rw [update_of_ne here] at living ⊢
    rw [calm.live] at living
    rw [calm.pgdir]
    exact fun same => here (settled.census.alone living live same)

theorem exec_goes {file : Option File} {argv : List (List Byte)} {out : Bool}
    (settled : Settled loan g s) (live : (s.ptable p).live = true)
    (loose : g.Loose (s.ptable p).pgdir) (success : exec p file argv s = .ok (out, t))
    (quiet : Quiet g t.log) :
    Goes loan g s t (fun a b => a.Next (.flag out) b (.exec p file argv)) := by
  rcases exec_ok success with ⟨rfl, same⟩ | ⟨contents, elf, d, u, image, w, setup, built, outcome⟩
  · subst t
    exact ⟨g, settled, Follows.refl s s g, fun a shows => ⟨a, Or.inl ⟨rfl, rfl⟩, shows⟩⟩
  have first := setupkvm_calm _ _ _ setup
  have second := execImage_calm _ _ _ _ _ _ _ _ built
  have calm := first.trans second
  have newer : w.log <:+ t.log := by
    rcases outcome with ⟨-, -, freed⟩ | ⟨sz, -, -, freed⟩
      <;> exact (freevm_calm _ _ _ _ _ freed).log
  have quiet' := quiet.mono (settled.rep.base.trans calm.log) newer
  obtain ⟨fresh, ready, -⟩ := setupkvm_spec settled.rep setup
    (quiet'.mono (settled.rep.base.trans first.log) second.log)
  obtain ⟨z, whole, size⟩ := execImage_spec (image_start settled first fresh ready) built quiet'
  obtain ⟨content, rep, -, ends⟩ := whole.rep
  rcases outcome with ⟨rfl, rfl, freed⟩ | ⟨sz, rfl, rfl, freed⟩
  · have torn :=
      (freevm_spec rep whole.inside whole.loose (fun q living _ => whole.idle q living)
        freed).respaced
    rw [Ghost.removeDir_addDir fresh.1] at torn
    have back := torn.respaced
    rw [Ghost.removeDir_absent fresh.1] at back
    obtain ⟨settled', shows'⟩ :=
      goes_calm settled (calm.trans (freevm_calm _ _ _ _ _ freed)) back rfl
      rfl rfl settled.stays
    exact ⟨g, settled', Follows.refl s t g, fun a shows => ⟨a, Or.inl ⟨rfl, rfl⟩, shows' a shows⟩⟩
  · obtain rfl := size sz rfl
    rw [calm.pgdir] at freed
    have last := freevm_calm _ _ _ _ _ freed
    have torn := commit_rep settled live loose calm fresh whole rep freed
    have same : RssOnly (Function.update s.ptable p { s.ptable p with pgdir := d, sz := z })
        t.ptable :=
      RssOnly.trans
      (@RssOnly.update _ _ calm.rssOnly p (fun proc => { proc with pgdir := d, sz := z })
        (fun _ _ => rfl)) last.rssOnly
    have elsewhere : ∀ e v, e ≠ d → (((g.addDir d).respace d content).removeDir
        (s.ptable p).pgdir).space e v = g.space e v := by
      intro e v other
      simp only [Ghost.removeDir, Ghost.respace, Ghost.addDir, other, ↓reduceIte]
    have here : ∀ v, (((g.addDir d).respace d content).removeDir
        (s.ptable p).pgdir).space d v = content v := fun v => if_pos rfl
    have moved := settled.census.move (p := p)
      (h := ((g.addDir d).respace d content).removeDir (s.ptable p).pgdir) live
      (show ({ s.ptable p with pgdir := d, sz := z } : Proc).state = _ from rfl) rfl rfl fresh.1 rfl
      rfl (fun e v other _ => elsewhere e v other)
        (fun v above user => (here v).trans (ends v above user))
    refine ⟨_, ⟨torn, settled.stays, ?_⟩, ⟨rfl, rfl, rfl, rfl, fun _ => rfl⟩, fun a shows => ?_⟩
    · rw [last.kpgdir, last.pipes]
      change Census _ _ w.kpgdir w.pipes _
      rw [calm.kpgdir, calm.pipes]
      exact moved.rss same
    · refine ⟨_, Or.inr ⟨z, content, rfl, rfl⟩, shows.set same (last.nextpid.trans calm.nextpid)
        (last.initproc.trans calm.initproc) ?_ ?_⟩
      · have before := shows.task p
        exact ⟨before.state, before.pid, before.parent, before.killed, fun _ => rfl,
          fun _ v _ => (here v).symm⟩
      · intro q other living v _
        exact elsewhere _ v (fun same => fresh.1 (same ▸ settled.inside living))

/-! ## Pages for the rest of the kernel -/

theorem Shows.other (shows : Shows g s a) (calm : Calm s t) (space : h.space = g.space) :
    Shows h t a := shows.calm calm (fun _ _ _ _ => by rw [space])

theorem pipealloc_goes {room : Nat} {out : Bool} (settled : Settled loan g s)
    (success : pipealloc room s = .ok (out, t)) (quiet : Quiet g t.log) :
    Goes loan g s t (fun a b => b = a) := by
  unfold pipealloc at success
  rw [Prog.ite_apply] at success
  split at success
  · obtain ⟨-, rfl⟩ := pure_ok_iff.mp success
    exact ⟨g, settled, Follows.refl _ _ g, fun a shows => ⟨a, rfl, shows⟩⟩
  · rw [bind_ok_iff] at success
    obtain ⟨k, u, allocated, rest⟩ := success
    rw [bind_ok_iff] at rest
    obtain ⟨_, r, opened, rest⟩ := rest
    obtain rfl := update_ok_iff.mp opened
    obtain ⟨-, rfl⟩ := pure_ok_iff.mp rest
    obtain ⟨fresh, rep, -⟩ := kalloc_spec settled.rep allocated quiet
    have calm := kalloc_calm _ _ _ allocated
    refine ⟨g.hold k (u.mem k), ⟨?_, settled.stays, ?_⟩, ⟨rfl, rfl, rfl, rfl, fun _ => rfl⟩, ?_⟩
    · exact rep.congr rfl rfl rfl rfl rfl rfl rfl rep.procs
    · have opened :
          Census loan (g.hold k (u.mem k)) s.kpgdir (⟨k, true, true⟩ :: s.pipes) s.ptable :=
        @Census.openPipe loan g s.kpgdir s.pipes s.ptable settled.census ⟨k, true, true⟩ fresh.2
          (u.mem k)
      rw [← calm.kpgdir, ← calm.pipes] at opened
      exact opened.rss calm.rssOnly
    · intro a shows
      have view : Shows (g.hold k (u.mem k)) u a := shows.other calm rfl
      exact ⟨a, rfl, ⟨view.nextpid, view.initproc, view.task⟩⟩

theorem pipeclose_goes {k : Nat} {writable : Bool} (settled : Settled loan g s)
    (success : pipeclose k writable s = .ok (done, t)) : Goes loan g s t (fun a b => b = a) := by
  unfold pipeclose at success
  rw [read_bind] at success
  split at success
  · exact (Prog.halt_ok_iff.mp success).elim
  · rename_i pipe found
    dsimp only at success
    obtain ⟨closed, after⟩ : ∃ closed : Pipe, closed = if writable then
      { pipe with writeopen := false } else { pipe with readopen := false } := ⟨_, rfl⟩
    rw [← after, Prog.ite_apply] at success
    have page : closed.page = pipe.page := by
      rw [after]
      split <;> rfl
    split at success
    · obtain rfl := update_ok_iff.mp success
      refine ⟨g, ⟨?_, settled.stays, settled.census.setPipe found page⟩, Follows.refl _ _ g, ?_⟩
      · exact settled.rep.congr rfl rfl rfl rfl rfl rfl rfl settled.rep.procs
      · exact fun a shows => ⟨a, rfl, ⟨shows.nextpid, shows.initproc, shows.task⟩⟩
    · rw [bind_ok_iff] at success
      obtain ⟨_, u, freed, rest⟩ := success
      obtain rfl := update_ok_iff.mp rest
      obtain ⟨-, -, rfl⟩ := kfree_ok_iff.mp freed
      have calm := kfreed_calm s closed.page
      have member := List.mem_of_getElem? found
      obtain ⟨bytes, held⟩ := Option.ne_none_iff_exists'.mp
        ((settled.census.held pipe.page).mpr (Or.inr (Or.inl ⟨pipe, member, rfl⟩)))
      rw [page] at calm ⊢
      have released := settled.rep.release held
      refine ⟨g.drop pipe.page, ⟨?_, settled.stays, ?_⟩, ⟨rfl, rfl, rfl, rfl, fun _ => rfl⟩, ?_⟩
      · exact released.congr rfl rfl rfl rfl rfl rfl rfl released.procs
      · have gone := (settled.census.closePipe found).rss calm.rssOnly
        rw [← calm.kpgdir, ← calm.pipes] at gone
        exact gone
      · intro a shows
        have view : Shows (g.drop pipe.page) (kfreed s pipe.page) a := shows.other calm rfl
        exact ⟨a, rfl, ⟨view.nextpid, view.initproc, view.task⟩⟩

theorem kalloc_goes {q : Nat} (settled : Settled loan g s) (success : kalloc s = .ok (q, t))
    (quiet : Quiet g t.log) : Goes (insert q loan) g s t (fun a b => b = a) := by
  obtain ⟨fresh, rep, -⟩ := kalloc_spec settled.rep success quiet
  have calm := kalloc_calm _ _ _ success
  refine ⟨g.hold q (t.mem q), ⟨rep, settled.stays, ?_⟩, ⟨rfl, rfl, rfl, rfl, fun _ => rfl⟩,
    fun a shows => ⟨a, rfl, shows.other calm rfl⟩⟩
  rw [calm.kpgdir, calm.pipes]
  exact (settled.census.lend fresh.2 (t.mem q)).rss calm.rssOnly

end Xv6Cow
