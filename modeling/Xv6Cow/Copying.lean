import Xv6Cow.Mapping

/- The two ways fork copies an address space. copyuvm is specified for runs
without evictions; copyuvm_cow for all runs in which no eviction frees a page that
the parent had mapped. -/
namespace Xv6Cow

open Prog (bind_ok_iff pure_ok_iff)

variable {g : Ghost} {s t : Kernel} {d pgdir v : Nat} {done : Unit}

theorem presentEntry_ok {ptr : PtePtr} {w : Word}
    (success : presentEntry pgdir v s = .ok ((ptr, w), t)) :
    t = s ∧ tablePage s.mem pgdir (pdx v) = some ptr.page ∧ ptr = ⟨ptr.page, ptx v⟩ ∧
      w = pteOf s.mem pgdir v ∧ has w PTE_P = true := by
  unfold presentEntry at success
  rcases walk_cases success with ⟨-, stopped⟩ | ⟨x, table, rest⟩
  · exact (Prog.halt_ok_iff.mp stopped).elim
  · obtain ⟨present, rest⟩ := Prog.guard_ok_iff.mp (entry_loaded table rest)
    obtain ⟨same, rfl⟩ := pure_ok_iff.mp rest
    cases same
    exact ⟨rfl, table, rfl, rfl, present⟩

theorem Evolves.kept {dirs : Finset Nat} {q : Nat} (evolves : Evolves dirs s t)
    (mapped : 0 < frames dirs s.mem q)
    (kept : ∀ e, Evicted s t e → e.freed = true → e.frame ≠ q) :
    0 < frames dirs t.mem q ∧ t.mem q = s.mem q := by
  rcases evolves.frame mapped with still | ⟨e, evicted, frame, freed⟩
  · exact still
  · exact absurd frame (kept e evicted freed)

theorem Rep.space_present (rep : Rep g s) (inside : d ∈ g.dirs) (user : v < NUPAGE)
    (present : has (pteOf s.mem d v) PTE_P = true) :
    g.space d v = some (has (pteOf s.mem d v) PTE_U, s.mem (ppn (pteOf s.mem d v))) := by
  rw [← rep.space inside user, spaceOf, pageAt_present present]

/-! ## copyuvm -/

theorem copyLoop_spec {n : Nat} {content : Nat → Option (Bool × Page)} (rep : Rep g s)
    (source : pgdir ∈ g.dirs) (inside : d ∈ g.dirs) (apart : pgdir ≠ d) (loose : g.Loose d)
    (fits : v + n ≤ NUPAGE) (same : ∀ u, v ≤ u → u < v + n → g.space pgdir u = content u)
    (vacant : ∀ u, v ≤ u → u < v + n → g.space d u = none)
    (success : copyLoop d pgdir n v s = .ok (done, t)) (quiet : Quiet g t.log)
    (still : ∀ e, ¬ Evicted s t e) : Rep (g.setRange d v (v + n) content) t := by
  induction n generalizing v g s with
  | zero =>
    obtain ⟨-, rfl⟩ := pure_ok_iff.mp success
    rw [Nat.add_zero, Ghost.setRange_empty]
    exact rep
  | succ n ih =>
    rw [copyLoop, bind_ok_iff] at success
    obtain ⟨⟨ptr, w⟩, s', found, rest⟩ := success
    obtain ⟨same', -, -, rfl, present⟩ := presentEntry_ok found
    subst s'
    rw [bind_ok_iff] at rest
    obtain ⟨q, u', allocated, rest⟩ := rest
    rw [bind_ok_iff] at rest
    obtain ⟨page, u, loaded, rest⟩ := rest
    obtain ⟨-, rfl, rfl⟩ := loadPage_ok_iff.mp loaded
    rw [bind_ok_iff] at rest
    obtain ⟨_, _, stored, rest⟩ := rest
    obtain ⟨-, rfl⟩ := storePage_ok_iff.mp stored
    rw [bind_ok_iff] at rest
    obtain ⟨_, r', mapped, rest⟩ := rest
    rw [mappages_page] at mapped
    have first := (kalloc_calm _ _ _ allocated).log
    have second := (mapPage_calm _ _ _ _ _ _ _ mapped).log
    have third := (copyLoop_calm _ _ _ _ _ _ _ rest).log
    obtain ⟨fresh, taken, evicts⟩ := kalloc_spec rep allocated
      (quiet.mono (rep.base.trans first) (second.trans third))
    have bytes := (evicts.toEvolves.kept
      (frames_pos source (by omega) (frameOf_present present))
      (fun e evicted _ _ => still e (evicted.after first (second.trans third)))).2
    have clean := taken.refill (u.mem (ppn (pteOf s.mem pgdir v)))
    have next := (mapPage_held clean (Function.update_self _ _ _) inside (by omega) loose
      (vacant v (Nat.le_refl v) (by omega)) (low_pteFlags _) mapped
      (quiet.mono (rep.base.trans (first.trans second)) third)).1
    rw [Ghost.drop_hold _ fresh.2, has_pteFlags low_U, bytes,
      ← rep.space_present source (by omega) present, same v (Nat.le_refl v) (by omega)] at next
    rw [← Ghost.setRange_cons]
    refine ih next source inside loose (by omega) ?_ ?_ rest quiet
      (fun e evicted => still e (evicted.before (first.trans second) third))
    · intro u low high
      change (if pgdir = d ∧ u = v then _ else g.space pgdir u) = content u
      rw [if_neg (fun here => apart here.1)]
      exact same u (by omega) (by omega)
    · intro u low high
      change (if d = d ∧ u = v then _ else g.space d u) = none
      rw [if_neg (by omega)]
      exact vacant u (by omega) (by omega)

theorem Ghost.addDir_space (g : Ghost) (d u : Nat) : (g.addDir d).space d u = none :=
  if_pos rfl

theorem pagesOf_le {sz : Nat} (small : sz ≤ KERNBASE) : pagesOf sz ≤ NUPAGE := by
  simp only [pagesOf, PGSIZE_eq, NUPAGE_eq, KERNBASE_eq] at *
  omega

/-- The ghost state after a fork: a new directory with the parent's contents. -/
def Ghost.copy (g : Ghost) (d pgdir n : Nat) : Ghost :=
  (g.addDir d).setRange d 0 n (g.space pgdir)

theorem copyuvm_spec {sz : Nat} (rep : Rep g s) (source : pgdir ∈ g.dirs) (small : sz ≤ KERNBASE)
    (success : copyuvm pgdir sz s = .ok (d, t)) (quiet : Quiet g t.log)
    (still : ∀ e, ¬ Evicted s t e) :
    g.Fresh d ∧ Rep (g.copy d pgdir (pagesOf sz)) t := by
  unfold copyuvm at success
  rw [bind_ok_iff] at success
  obtain ⟨q, u, made, rest⟩ := success
  rw [bind_ok_iff] at rest
  obtain ⟨_, r, copied, rest⟩ := rest
  obtain ⟨rfl, rfl⟩ := pure_ok_iff.mp rest
  have first := (setupkvm_calm _ _ _ made).log
  have second := (copyLoop_calm _ _ _ _ _ _ _ copied).log
  obtain ⟨fresh, new, -⟩ := setupkvm_spec rep made (quiet.mono (rep.base.trans first) second)
  have apart : pgdir ≠ d := fun same => fresh.1 (same ▸ source)
  have loose : g.Loose d := Ghost.loose_of_fresh rep.layout fresh
  have same : ∀ u, 0 ≤ u → u < 0 + pagesOf sz → (g.addDir d).space pgdir u = g.space pgdir u :=
    fun u _ _ => if_neg apart
  have final := copyLoop_spec new (Finset.mem_insert_of_mem source)
    (Finset.mem_insert_self d g.dirs) apart loose
    (by rw [Nat.zero_add]; exact pagesOf_le small) same
    (fun u _ _ => g.addDir_space d u) copied quiet
    (fun e evicted => still e (evicted.before first second))
  rw [Nat.zero_add] at final
  exact ⟨fresh, final⟩

/-! ## copyuvm_cow -/

/-- Directory `d` maps nothing that it did not map before. -/
def Fades (d : Nat) (s t : Kernel) : Prop :=
  ∀ u q, u < NUPAGE → frameOf (pteOf t.mem d u) = some q → frameOf (pteOf s.mem d u) = some q

theorem Evolves.fades {dirs : Finset Nat} (evolves : Evolves dirs s t) (inside : d ∈ dirs) :
    Fades d s t :=
  fun _ _ user maps => (evolves.mapped_before inside user maps).2

theorem Fades.trans {u : Kernel} (first : Fades d s t) (second : Fades d t u) : Fades d s u :=
  fun v q user maps => first v q user (second v q user maps)

/-- No eviction freed a page that directory `d` had mapped. -/
def Spares (d : Nat) (s t : Kernel) : Prop :=
  ∀ e, Evicted s t e → e.freed = true → ∀ u, u < NUPAGE →
    frameOf (pteOf s.mem d u) ≠ some e.frame

theorem Spares.later {u : Kernel} (spares : Spares d s u) (fades : Fades d s t)
    (older : s.log <:+ t.log) (newer : t.log <:+ u.log) : Spares d t u := by
  intro e evicted freed v user maps
  exact spares e (evicted.before older newer) freed v user (fades v _ user maps)

theorem Spares.sooner {u : Kernel} (spares : Spares d s u) (older : s.log <:+ t.log)
    (newer : t.log <:+ u.log) : Spares d s t :=
  fun e evicted => spares e (evicted.after older newer)

theorem has_andNot_W (w : Word) : has (w &&& ~~~PTE_W) PTE_W = false := by
  rw [has_W, BitVec.getLsbD_and, BitVec.getLsbD_not, show PTE_W.getLsbD 1 = true from rfl]
  simp only [Bool.not_true, Bool.and_false]

theorem has_andNot_P (w : Word) : has (w &&& ~~~PTE_W) PTE_P = has w PTE_P := by
  rw [has_P, has_P, bit_andNot w rfl]

theorem has_andNot_U (w : Word) : has (w &&& ~~~PTE_W) PTE_U = has w PTE_U := by
  rw [has_U, has_U, bit_andNot w rfl]

/-- Write protection: the contents stay, and whoever maps the page now maps it
read-only. -/
theorem Rep.protect {x : Nat} (rep : Rep g s) (inside : d ∈ g.dirs) (user : v < NUPAGE)
    (loose : g.Loose d) (table : tablePage s.mem d (pdx v) = some x)
    (present : has (pteOf s.mem d v) PTE_P = true) :
    let t : Kernel := { s with mem := setWord s.mem ⟨x, ptx v⟩ (pteOf s.mem d v &&& ~~~PTE_W) }
    Rep g t ∧ Fades d s t ∧ frameOf (pteOf t.mem d v) = some (ppn (pteOf s.mem d v)) ∧
      t.mem (ppn (pteOf s.mem d v)) = s.mem (ppn (pteOf s.mem d v)) ∧
      ∀ {e u}, e ∈ g.dirs → u < NUPAGE →
        frameOf (pteOf t.mem e u) = some (ppn (pteOf s.mem d v)) →
        has (pteOf t.mem e u) PTE_W = false := by
  intro t
  have thawed := rep.layout.thawed inside loose table (ptx v)
  have kept : has (pteOf s.mem d v &&& ~~~PTE_W) PTE_P = true := (has_andNot_P _).trans present
  have frame : ppn (pteOf s.mem d v &&& ~~~PTE_W) = ppn (pteOf s.mem d v) := ppn_andNot low_W
  have rewrites : Rewrites g s.mem t.mem d v (pteOf s.mem d v &&& ~~~PTE_W) :=
    rep.layout.rewrites (Keeps.refl g s.mem) inside (user_lt user) table _
  have here : frameOf (pteOf t.mem d v) = some (ppn (pteOf s.mem d v)) := by
    rw [rewrites.here, frameOf_present kept, frame]
  refine ⟨?_, ?_, here, ?_, ?_⟩
  · have again := rep.reflag inside user table (Ghost.stable thawed) present kept frame
      (fun writable => by rw [has_andNot_W] at writable; cases writable)
    rwa [Ghost.setSpace_self] at again
    rw [rep.space_present inside user present, has_andNot_U, frame]
  · intro u q small maps
    by_cases same : u = v
    · subst same
      rw [here] at maps
      rw [frameOf_present present]
      exact maps
    · rw [rewrites.others inside (user_lt small) (fun both => same both.2)] at maps
      exact maps
  · exact setWord_of_ne (rep.frame_ne_table inside table inside user present)
  · intro e u member small maps
    by_cases same : e = d ∧ u = v
    · obtain ⟨rfl, rfl⟩ := same
      rw [rewrites.here, has_andNot_W]
    · rw [rewrites.others member (user_lt small) same] at maps ⊢
      by_contra writable
      rw [Bool.not_eq_false] at writable
      obtain ⟨rfl, rfl⟩ := rep.entries.alone member small maps writable inside user
        (frameOf_present present)
      exact same ⟨rfl, rfl⟩

/-- One page of copyuvm_cow: protect the parent's entry, give the child the same
page, count it. -/
theorem share_spec {x : Nat} {u : Kernel} (rep : Rep g s) (source : pgdir ∈ g.dirs)
    (inside : d ∈ g.dirs) (apart : pgdir ≠ d) (loose : g.Loose d) (steady : g.Loose pgdir)
    (user : v < NUPAGE) (table : tablePage s.mem pgdir (pdx v) = some x)
    (present : has (pteOf s.mem pgdir v) PTE_P = true) (vacant : g.space d v = none)
    (mapped : mapPage d (pteFlags (pteOf s.mem pgdir v) &&& ~~~PTE_W) v
        (ppn (pteOf s.mem pgdir v))
        { s with mem := setWord s.mem ⟨x, ptx v⟩ (pteOf s.mem pgdir v &&& ~~~PTE_W) } =
      .ok (done, u))
    (quiet : Quiet g u.log) (spares : Spares pgdir s u) :
    let q := ppn (pteOf s.mem pgdir v)
    let t : Kernel :=
      { u with pageToRefcnt := Function.update u.pageToRefcnt q (u.pageToRefcnt q + 1) }
    Rep (g.setSpace d v (g.space pgdir v)) t ∧ Fades pgdir s t := by
  intro q t
  obtain ⟨guarded, fades, here, bytes, readonly⟩ := rep.protect source user steady table present
  have older := (mapPage_calm _ _ _ _ _ _ _ mapped).log
  obtain ⟨r, y, rep', evolves, table', -, rfl⟩ := mapPage_ok guarded inside mapped quiet
  have kept := evolves.kept (frames_pos source user here) (fun e evicted freed same =>
    spares e evicted freed v user (same ▸ frameOf_present present))
  have low : Low (pteFlags (pteOf s.mem pgdir v) &&& ~~~PTE_W) := low_and (low_pteFlags _)
  have word := mapWord (q := q) (ppn_lt _) low
  have final := rep'.mapShared kept.1 (fun {e w} member small maps => by
      obtain ⟨same, before⟩ := evolves.mapped_before member small maps
      rw [same.writable]
      refine ⟨readonly member small before,
        guarded.entries.place source member user small ?_ before⟩
      exact here)
    inside user table' (rep'.layout.thawed inside loose table' (ptx v))
    (rep'.vacant inside user vacant) word.present (word.writable.trans (has_andNot_W _)) word.frame
  rw [word.user, has_andNot_U, has_pteFlags low_U, kept.2, bytes,
    ← rep.space_present source user present] at final
  refine ⟨final, (fades.trans (evolves.fades source)).trans ?_⟩
  intro w z small maps
  have rewrites := rep'.layout.rewrites (Keeps.refl g r.mem) inside (user_lt user) table'
    (pageWord q ||| (pteFlags (pteOf s.mem pgdir v) &&& ~~~PTE_W) ||| PTE_P)
  rw [← rewrites.others source (user_lt small) (fun both => apart both.1)]
  exact maps

theorem cowLoop_spec {p : Fin NPROC} {n : Nat} {content : Nat → Option (Bool × Page)}
    (rep : Rep g s) (source : pgdir ∈ g.dirs) (inside : d ∈ g.dirs) (apart : pgdir ≠ d)
    (loose : g.Loose d) (steady : g.Loose pgdir) (fits : v + n ≤ NUPAGE)
    (same : ∀ u, v ≤ u → u < v + n → g.space pgdir u = content u)
    (vacant : ∀ u, v ≤ u → u < v + n → g.space d u = none)
    (success : cowLoop p d pgdir n v s = .ok (done, t)) (quiet : Quiet g t.log)
    (spares : Spares pgdir s t) : Rep (g.setRange d v (v + n) content) t := by
  induction n generalizing v g s with
  | zero =>
    obtain ⟨-, rfl⟩ := pure_ok_iff.mp success
    rw [Nat.add_zero, Ghost.setRange_empty]
    exact rep
  | succ n ih =>
    rw [cowLoop, bind_ok_iff] at success
    obtain ⟨_, s1, counted, rest⟩ := success
    have rep' : Rep g s1 := by
      rw [Prog.update_ok_iff.mp counted]
      exact rep.setRss p _
    have untouched : s1.mem = s.mem ∧ s1.log = s.log := by
      rw [Prog.update_ok_iff.mp counted]
      exact ⟨rfl, rfl⟩
    rw [bind_ok_iff] at rest
    obtain ⟨⟨ptr, w⟩, s', found, rest⟩ := rest
    obtain ⟨same', table, shape, rfl, present⟩ := presentEntry_ok found
    subst s'
    rw [bind_ok_iff] at rest
    obtain ⟨_, s2, stored, rest⟩ := rest
    obtain ⟨-, rfl⟩ := storeWord_ok_iff.mp stored
    rw [shape, bind_ok_iff] at rest
    obtain ⟨_, s3, linked, rest⟩ := rest
    rw [mappages_page] at linked
    rw [bind_ok_iff] at rest
    obtain ⟨count, s3', loaded, rest⟩ := rest
    obtain ⟨-, rfl, same'⟩ := loadRefcnt_ok_iff.mp loaded
    subst s3'
    rw [bind_ok_iff] at rest
    obtain ⟨_, s4, stored', rest⟩ := rest
    obtain ⟨-, rfl⟩ := storeRefcnt_ok_iff.mp stored'
    have first : s.log <:+ s3.log := by
      rw [← untouched.2]
      exact (mapPage_calm _ _ _ _ _ _ _ linked).log
    have second : s3.log <:+ t.log := (cowLoop_calm _ _ _ _ _ _ _ _ rest).log
    have spares' : Spares pgdir s1 s3 := by
      unfold Spares Evicted
      rw [untouched.1, untouched.2]
      exact spares.sooner first second
    obtain ⟨next, fades⟩ := share_spec rep' source inside apart loose steady (by omega) table
      present (vacant v (Nat.le_refl v) (by omega)) linked
      (quiet.mono (rep.base.trans first) second) spares'
    rw [same v (Nat.le_refl v) (by omega)] at next
    have still : Fades pgdir s s1 := by
      unfold Fades
      rw [untouched.1]
      exact fun _ _ _ maps => maps
    rw [← Ghost.setRange_cons]
    refine ih next source inside loose steady (by omega) ?_ ?_ rest quiet
      (spares.later (still.trans fades) first second)
    · intro u low high
      change (if pgdir = d ∧ u = v then _ else g.space pgdir u) = content u
      rw [if_neg (fun here => apart here.1)]
      exact same u (by omega) (by omega)
    · intro u low high
      change (if d = d ∧ u = v then _ else g.space d u) = none
      rw [if_neg (by omega)]
      exact vacant u (by omega) (by omega)

theorem copyuvmCow_spec {p : Fin NPROC} {sz : Nat} (rep : Rep g s) (source : pgdir ∈ g.dirs)
    (steady : g.Loose pgdir) (small : sz ≤ KERNBASE)
    (success : copyuvmCow pgdir sz p s = .ok (d, t)) (quiet : Quiet g t.log)
    (spares : Spares pgdir s t) :
    g.Fresh d ∧ Rep (g.copy d pgdir (pagesOf sz)) t := by
  unfold copyuvmCow at success
  rw [bind_ok_iff] at success
  obtain ⟨q, u, made, rest⟩ := success
  rw [bind_ok_iff] at rest
  obtain ⟨_, r, copied, rest⟩ := rest
  obtain ⟨rfl, rfl⟩ := pure_ok_iff.mp rest
  have first := (setupkvm_calm _ _ _ made).log
  have second := (cowLoop_calm _ _ _ _ _ _ _ _ copied).log
  obtain ⟨fresh, new, evolves⟩ := setupkvm_spec rep made
    (quiet.mono (rep.base.trans first) second)
  have apart : pgdir ≠ d := fun same => fresh.1 (same ▸ source)
  have loose : g.Loose d := Ghost.loose_of_fresh rep.layout fresh
  have same : ∀ u, 0 ≤ u → u < 0 + pagesOf sz → (g.addDir d).space pgdir u = g.space pgdir u :=
    fun u _ _ => if_neg apart
  have final := cowLoop_spec new (Finset.mem_insert_of_mem source)
    (Finset.mem_insert_self d g.dirs) apart loose steady
    (by rw [Nat.zero_add]; exact pagesOf_le small) same
    (fun u _ _ => g.addDir_space d u) copied quiet
    (spares.later (evolves.fades source) first second)
  rw [Nat.zero_add] at final
  exact ⟨fresh, final⟩

end Xv6Cow
