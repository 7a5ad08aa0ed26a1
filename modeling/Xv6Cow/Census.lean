import Xv6Cow.Faults
import Xv6Cow.Images
import Mathlib.Data.Fintype.Basic

/- The picture of the whole system between two steps: the directories in use are
those of the live processes and the kernel's own, each process has its own, and
every held page is a kernel stack, a pipe or on loan to some other part of the
kernel. -/
namespace Xv6Cow

open Function (update_self update_of_ne)

/-- The existing page directories: the kernel's and those of processes, exited ones
included. -/
def directories (kpgdir : Nat) (table : Fin NPROC → Proc) : Finset Nat :=
  insert kpgdir
    ((Finset.univ.filter (fun p => (table p).live = true)).image (fun p => (table p).pgdir))

theorem mem_directories {kpgdir d : Nat} {table : Fin NPROC → Proc} :
    d ∈ directories kpgdir table ↔ d = kpgdir ∨ ∃ p, (table p).live = true ∧
      (table p).pgdir = d := by
  simp only [directories, Finset.mem_insert, Finset.mem_image, Finset.mem_filter, Finset.mem_univ,
    true_and]

theorem directories_congr {kpgdir : Nat} {table table' : Fin NPROC → Proc}
    (same : ∀ p, (table' p).live = (table p).live ∧ (table' p).pgdir = (table p).pgdir) :
    directories kpgdir table' = directories kpgdir table := by
  ext d
  simp only [mem_directories, same]

/-- The tables differ in rss only. -/
def RssOnly (table table' : Fin NPROC → Proc) : Prop :=
  ∀ p, ∃ rss, table' p = { table p with rss := rss }

/-- Who has which directory and which held page. -/
structure Census (loan : Set Nat) (g : Ghost) (kpgdir : Nat) (pipes : List Pipe)
    (table : Fin NPROC → Proc) : Prop where
  dirs : g.dirs = directories kpgdir table
  alone : ∀ {p q}, (table p).live = true → (table q).live = true →
    (table p).pgdir = (table q).pgdir → p = q
  kernel : ∀ {p}, (table p).live = true → (table p).pgdir ≠ kpgdir
  blank : ∀ u, u < NUPAGE → g.space kpgdir u = none
  ends : ∀ {p}, (table p).live = true → ∀ u, pagesOf (table p).sz ≤ u → u < NUPAGE →
    g.space (table p).pgdir u = none
  held : ∀ q, g.held q ≠ none ↔ (∃ p, (table p).live = true ∧ (table p).kstack = q) ∨
    (∃ pipe ∈ pipes, pipe.page = q) ∨ q ∈ loan
  stack_alone : ∀ {p q}, (table p).live = true → (table q).live = true →
    (table p).kstack = (table q).kstack → p = q
  pipe_alone : (pipes.map Pipe.page).Nodup
  stack_pipe : ∀ {p} {pipe : Pipe}, (table p).live = true → pipe ∈ pipes →
    (table p).kstack ≠ pipe.page
  stack_loan : ∀ {p}, (table p).live = true → (table p).kstack ∉ loan
  pipe_loan : ∀ {pipe : Pipe}, pipe ∈ pipes → pipe.page ∉ loan
  adult : ∀ p, (table p).state ≠ .embryo

/-- The state between two steps. -/
structure Settled (loan : Set Nat) (g : Ghost) (s : Kernel) : Prop where
  rep : Rep g s
  stays : g.leaving = none
  census : Census loan g s.kpgdir s.pipes s.ptable

variable {loan : Set Nat} {g h : Ghost} {s t : Kernel} {kpgdir : Nat} {pipes : List Pipe}
  {table table' : Fin NPROC → Proc} {p q : Fin NPROC}

/-! ## Tables that differ in rss -/

theorem RssOnly.trans {third : Fin NPROC → Proc} (first : RssOnly table table')
    (second : RssOnly table' third) : RssOnly table third := by
  intro p
  obtain ⟨rss, before⟩ := first p
  obtain ⟨rss', after⟩ := second p
  exact ⟨rss', by rw [after, before]⟩

theorem Calm.rssOnly (calm : Calm s t) : RssOnly s.ptable t.ptable := calm.proc

theorem RssOnly.update (same : RssOnly table table') (p : Fin NPROC) {change : Proc → Proc}
    (blind : ∀ proc rss, change { proc with rss := rss } = { change proc with rss := rss }) :
    RssOnly (Function.update table p (change (table p)))
      (Function.update table' p (change (table' p))) := by
  intro q
  by_cases here : q = p
  · subst here
    obtain ⟨rss, equal⟩ := same q
    rw [update_self, update_self, equal, blind]
    exact ⟨rss, rfl⟩
  · rw [update_of_ne here, update_of_ne here]
    exact same q

section Rss

variable (same : RssOnly table table') (p : Fin NPROC)
include same

theorem RssOnly.live : (table' p).live = (table p).live := by
  obtain ⟨rss, equal⟩ := same p
  rw [equal]
  rfl

theorem RssOnly.pgdir : (table' p).pgdir = (table p).pgdir := by
  obtain ⟨rss, equal⟩ := same p
  rw [equal]

theorem RssOnly.kstack : (table' p).kstack = (table p).kstack := by
  obtain ⟨rss, equal⟩ := same p
  rw [equal]

theorem RssOnly.sz : (table' p).sz = (table p).sz := by
  obtain ⟨rss, equal⟩ := same p
  rw [equal]

theorem RssOnly.state : (table' p).state = (table p).state := by
  obtain ⟨rss, equal⟩ := same p
  rw [equal]

end Rss

theorem Census.retable (census : Census loan g kpgdir pipes table)
    (live : ∀ p, (table' p).live = (table p).live) (pgdir : ∀ p, (table' p).pgdir = (table p).pgdir)
    (kstack : ∀ p, (table' p).kstack = (table p).kstack) (sz : ∀ p, (table' p).sz = (table p).sz)
    (adult : ∀ p, (table' p).state ≠ .embryo) : Census loan g kpgdir pipes table' := by
  constructor
  · rw [census.dirs]
    ext d
    simp only [mem_directories, live, pgdir]
  · intro p q
    simp only [live, pgdir]
    exact census.alone
  · intro p
    simp only [live, pgdir]
    exact census.kernel
  · exact census.blank
  · intro p
    simp only [live, pgdir, sz]
    exact census.ends
  · intro q
    simp only [live, kstack]
    exact census.held q
  · intro p q
    simp only [live, kstack]
    exact census.stack_alone
  · exact census.pipe_alone
  · intro p pipe
    simp only [live, kstack]
    exact census.stack_pipe
  · intro p
    simp only [live, kstack]
    exact census.stack_loan
  · exact census.pipe_loan
  · exact adult

theorem Census.rss (census : Census loan g kpgdir pipes table) (same : RssOnly table table') :
    Census loan g kpgdir pipes table' :=
  census.retable same.live same.pgdir same.kstack same.sz
    (fun p => by rw [same.state]; exact census.adult p)

theorem Census.reghost (census : Census loan g kpgdir pipes table) (dirs : h.dirs = g.dirs)
    (held : h.held = g.held) (space : h.space = g.space) : Census loan h kpgdir pipes table := by
  refine ⟨dirs.trans census.dirs, census.alone, census.kernel, ?_, ?_, ?_, census.stack_alone,
    census.pipe_alone, census.stack_pipe, census.stack_loan, census.pipe_loan, census.adult⟩
  · rw [space]
    exact census.blank
  · rw [space]
    exact census.ends
  · rw [held]
    exact census.held

theorem update_field {α : Type} {f : Proc → α} {proc : Proc} (same : f proc = f (table p))
    (q : Fin NPROC) : f (Function.update table p proc q) = f (table q) := by
  by_cases here : q = p
  · subst here
    rw [update_self, same]
  · rw [update_of_ne here]

theorem Census.refill (census : Census loan g kpgdir pipes table) (live : (table p).live = true)
    {content : Nat → Option (Bool × Page)} {proc : Proc} (state : proc.state = (table p).state)
    (pgdir : proc.pgdir = (table p).pgdir) (kstack : proc.kstack = (table p).kstack)
    (ends : ∀ u, pagesOf proc.sz ≤ u → u < NUPAGE → content u = none) :
    Census loan (g.respace (table p).pgdir content) kpgdir pipes
      (Function.update table p proc) := by
  have lives : ∀ q, (Function.update table p proc q).live = (table q).live :=
    update_field (f := Proc.live) (by unfold Proc.live; rw [state])
  have pgdirs : ∀ q, (Function.update table p proc q).pgdir = (table q).pgdir :=
    update_field (f := Proc.pgdir) pgdir
  have kstacks : ∀ q, (Function.update table p proc q).kstack = (table q).kstack :=
    update_field (f := Proc.kstack) kstack
  constructor
  · rw [show (g.respace (table p).pgdir content).dirs = g.dirs from rfl, census.dirs]
    ext d
    simp only [mem_directories, lives, pgdirs]
  · intro q r
    rw [lives, lives, pgdirs, pgdirs]
    exact census.alone
  · intro q
    rw [lives, pgdirs]
    exact census.kernel
  · intro u user
    exact (if_neg (census.kernel live).symm).trans (census.blank u user)
  · intro q living u above user
    rw [lives] at living
    rw [pgdirs]
    by_cases here : q = p
    · subst here
      rw [update_self] at above
      exact (if_pos rfl).trans (ends u above user)
    · rw [update_of_ne here] at above
      refine (if_neg (fun same => here (census.alone living live same))).trans ?_
      exact census.ends living u above user
  · intro q
    simp only [lives, kstacks]
    exact census.held q
  · intro q r
    rw [lives, lives, kstacks, kstacks]
    exact census.stack_alone
  · exact census.pipe_alone
  · intro q pipe
    rw [lives, kstacks]
    exact census.stack_pipe
  · intro q
    rw [lives, kstacks]
    exact census.stack_loan
  · exact census.pipe_loan
  · intro q
    rw [update_field (f := Proc.state) state]
    exact census.adult q

theorem Census.spawn (census : Census loan g kpgdir pipes table) {child : Proc} {d k : Nat}
    (absent : (table p).live = false) (live : child.live = true) (pgdir : child.pgdir = d)
    (kstack : child.kstack = k) (freshDir : d ∉ g.dirs) (freshStack : g.held k = none)
    (dirs : h.dirs = insert d g.dirs) (held : ∀ q, h.held q ≠ none ↔ q = k ∨ g.held q ≠ none)
    (space : ∀ e u, e ≠ d → h.space e u = g.space e u)
    (ends : ∀ u, pagesOf child.sz ≤ u → u < NUPAGE → h.space d u = none) :
    Census loan h kpgdir pipes (Function.update table p child) := by
  have known : ∀ {e}, e ∈ directories kpgdir table → e ≠ d := by
    rintro e member rfl
    exact freshDir (census.dirs ▸ member)
  have old : ∀ {q}, (table q).live = true → (table q).pgdir ≠ d := fun {q} living =>
    known (mem_directories.mpr (Or.inr ⟨q, living, rfl⟩))
  have idle : ∀ {q}, (table q).live = true → q ≠ p := by
    rintro q living rfl
    rw [absent] at living
    cases living
  have stack : ∀ {q}, (table q).live = true → (table q).kstack ≠ k := by
    rintro q living rfl
    exact (census.held _).mpr (Or.inl ⟨q, living, rfl⟩) freshStack
  have look : ∀ q, Function.update table p child q = if q = p then child else table q :=
    fun q => Function.update_apply table p child q
  constructor
  · rw [dirs, census.dirs]
    ext e
    simp only [Finset.mem_insert, mem_directories, look]
    constructor
    · rintro (rfl | rfl | ⟨q, living, rfl⟩)
      · exact Or.inr ⟨p, by rw [if_pos rfl]; exact live, by rw [if_pos rfl]; exact pgdir⟩
      · exact Or.inl rfl
      · exact Or.inr ⟨q, by rw [if_neg (idle living)]; exact living, by rw [if_neg (idle living)]⟩
    · rintro (rfl | ⟨q, living, rfl⟩)
      · exact Or.inr (Or.inl rfl)
      · split at living
        · rename_i here
          rw [if_pos here]
          exact Or.inl pgdir
        · rename_i other
          rw [if_neg other]
          exact Or.inr (Or.inr ⟨q, living, rfl⟩)
  · intro q r
    rw [look, look]
    split <;> split <;> rename_i one two <;> intro left right same
    · exact one.trans two.symm
    · exact absurd (same.symm.trans pgdir) (old right)
    · exact absurd (same.trans pgdir) (old left)
    · exact census.alone left right same
  · intro q
    rw [look]
    split
    · intro _
      rw [pgdir]
      exact (known (mem_directories.mpr (Or.inl rfl))).symm
    · exact census.kernel
  · intro u user
    rw [space _ _ (known (mem_directories.mpr (Or.inl rfl)))]
    exact census.blank u user
  · intro q
    rw [look]
    split
    · intro _ u above user
      rw [pgdir]
      exact ends u above user
    · intro living u above user
      rw [space _ _ (old living)]
      exact census.ends living u above user
  · intro x
    rw [held, census.held]
    simp only [look]
    constructor
    · rintro (rfl | ⟨q, living, rfl⟩ | rest)
      · exact Or.inl ⟨p, by rw [if_pos rfl]; exact live, by rw [if_pos rfl]; exact kstack⟩
      · exact Or.inl ⟨q, by rw [if_neg (idle living)]; exact living, by rw [if_neg (idle living)]⟩
      · exact Or.inr rest
    · rintro (⟨q, living, rfl⟩ | rest)
      · split at living
        · rename_i here
          rw [if_pos here]
          exact Or.inl kstack
        · rename_i other
          rw [if_neg other]
          exact Or.inr (Or.inl ⟨q, living, rfl⟩)
      · exact Or.inr (Or.inr rest)
  · intro q r
    rw [look, look]
    split <;> split <;> rename_i one two <;> intro left right same
    · exact one.trans two.symm
    · exact absurd (same.symm.trans kstack) (stack right)
    · exact absurd (same.trans kstack) (stack left)
    · exact census.stack_alone left right same
  · exact census.pipe_alone
  · intro q pipe
    rw [look]
    split
    · rintro _ member same
      exact (census.held _).mpr (Or.inr (Or.inl ⟨pipe, member, same.symm.trans kstack⟩)) freshStack
    · exact census.stack_pipe
  · intro q
    rw [look]
    split
    · rintro _ member
      rw [kstack] at member
      exact (census.held _).mpr (Or.inr (Or.inr member)) freshStack
    · exact census.stack_loan
  · exact census.pipe_loan
  · intro q
    rw [look]
    split
    · intro embryo
      unfold Proc.live at live
      rw [embryo] at live
      cases live
    · exact census.adult q

theorem Census.depart (census : Census loan g kpgdir pipes table) {gone : Proc}
    (live : (table p).live = true) (unused : gone.state = .unused)
    (dirs : h.dirs = g.dirs.erase (table p).pgdir)
    (held : ∀ q, h.held q ≠ none ↔ q ≠ (table p).kstack ∧ g.held q ≠ none)
    (space : ∀ e u, e ≠ (table p).pgdir → h.space e u = g.space e u) :
    Census loan h kpgdir pipes (Function.update table p gone) := by
  have absent : gone.live = false := by
    unfold Proc.live
    rw [unused]
  have others : ∀ {q}, (Function.update table p gone q).live = true →
      q ≠ p ∧ (table q).live = true ∧ Function.update table p gone q = table q := by
    intro q living
    by_cases here : q = p
    · subst here
      rw [update_self, absent] at living
      cases living
    · rw [update_of_ne here] at living ⊢
      exact ⟨here, living, rfl⟩
  have apart : ∀ {q}, q ≠ p → (table q).live = true → (table q).pgdir ≠ (table p).pgdir :=
    fun other living same => other (census.alone living live same)
  constructor
  · rw [dirs, census.dirs]
    ext e
    simp only [Finset.mem_erase, mem_directories]
    constructor
    · rintro ⟨other, rfl | ⟨q, living, rfl⟩⟩
      · exact Or.inl rfl
      · have here : q ≠ p := fun same => other (by rw [same])
        exact Or.inr ⟨q, by rw [update_of_ne here]; exact living,
          by rw [update_of_ne here]⟩
    · rintro (rfl | ⟨q, living, rfl⟩)
      · exact ⟨(census.kernel live).symm, Or.inl rfl⟩
      · obtain ⟨other, living, same⟩ := others living
        rw [same]
        exact ⟨apart other living, Or.inr ⟨q, living, rfl⟩⟩
  · intro q r left right
    obtain ⟨-, left, same⟩ := others left
    obtain ⟨-, right, same'⟩ := others right
    rw [same, same']
    exact census.alone left right
  · intro q living
    obtain ⟨-, living, same⟩ := others living
    rw [same]
    exact census.kernel living
  · intro u user
    rw [space _ _ (census.kernel live).symm]
    exact census.blank u user
  · intro q living
    obtain ⟨other, living, same⟩ := others living
    rw [same]
    intro u above user
    rw [space _ _ (apart other living)]
    exact census.ends living u above user
  · intro x
    rw [held, census.held]
    constructor
    · rintro ⟨other, ⟨q, living, rfl⟩ | rest⟩
      · have here : q ≠ p := fun same => other (by rw [same])
        exact Or.inl ⟨q, by rw [update_of_ne here]; exact living,
          by rw [update_of_ne here]⟩
      · exact Or.inr rest
    · rintro (⟨q, living, rfl⟩ | ⟨pipe, member, rfl⟩ | member)
      · obtain ⟨other, living, same⟩ := others living
        rw [same]
        exact ⟨fun stack => other (census.stack_alone living live stack), Or.inl ⟨q, living, rfl⟩⟩
      · exact ⟨fun stack => census.stack_pipe live member stack.symm,
          Or.inr (Or.inl ⟨pipe, member, rfl⟩)⟩
      · refine ⟨?_, Or.inr (Or.inr member)⟩
        rintro rfl
        exact census.stack_loan live member
  · intro q r left right
    obtain ⟨-, left, same⟩ := others left
    obtain ⟨-, right, same'⟩ := others right
    rw [same, same']
    exact census.stack_alone left right
  · exact census.pipe_alone
  · intro q pipe living
    obtain ⟨-, living, same⟩ := others living
    rw [same]
    exact census.stack_pipe living
  · intro q living
    obtain ⟨-, living, same⟩ := others living
    rw [same]
    exact census.stack_loan living
  · exact census.pipe_loan
  · intro q
    by_cases here : q = p
    · subst here
      rw [update_self, unused]
      exact fun other => by cases other
    · rw [update_of_ne here]
      exact census.adult q

theorem Census.move (census : Census loan g kpgdir pipes table) {proc : Proc} {d : Nat}
    (live : (table p).live = true) (state : proc.state = (table p).state) (pgdir : proc.pgdir = d)
    (kstack : proc.kstack = (table p).kstack) (fresh : d ∉ g.dirs)
    (dirs : h.dirs = (insert d g.dirs).erase (table p).pgdir) (held : h.held = g.held)
    (space : ∀ e u, e ≠ d → e ≠ (table p).pgdir → h.space e u = g.space e u)
    (ends : ∀ u, pagesOf proc.sz ≤ u → u < NUPAGE → h.space d u = none) :
    Census loan h kpgdir pipes (Function.update table p proc) := by
  have known : ∀ {e}, e ∈ directories kpgdir table → e ≠ d := by
    rintro e member rfl
    exact fresh (census.dirs ▸ member)
  have old : ∀ {q}, (table q).live = true → (table q).pgdir ≠ d := fun {q} living =>
    known (mem_directories.mpr (Or.inr ⟨q, living, rfl⟩))
  have apart : ∀ {q}, q ≠ p → (table q).live = true → (table q).pgdir ≠ (table p).pgdir :=
    fun other living same => other (census.alone living live same)
  have lives : ∀ q, (Function.update table p proc q).live = (table q).live :=
    update_field (f := Proc.live) (by unfold Proc.live; rw [state])
  have kstacks : ∀ q, (Function.update table p proc q).kstack = (table q).kstack :=
    update_field (f := Proc.kstack) kstack
  have look : ∀ q, Function.update table p proc q = if q = p then proc else table q :=
    fun q => Function.update_apply table p proc q
  constructor
  · rw [dirs, census.dirs]
    ext e
    simp only [Finset.mem_erase, Finset.mem_insert, mem_directories, lives]
    simp only [look]
    constructor
    · rintro ⟨other, rfl | rfl | ⟨q, living, rfl⟩⟩
      · exact Or.inr ⟨p, live, by rw [if_pos rfl]; exact pgdir⟩
      · exact Or.inl rfl
      · have here : q ≠ p := fun same => other (by rw [same])
        exact Or.inr ⟨q, living, by rw [if_neg here]⟩
    · rintro (rfl | ⟨q, living, rfl⟩)
      · exact ⟨(census.kernel live).symm, Or.inr (Or.inl rfl)⟩
      · split
        · rw [pgdir]
          exact ⟨(old live).symm, Or.inl rfl⟩
        · rename_i other
          exact ⟨apart other living, Or.inr (Or.inr ⟨q, living, rfl⟩)⟩
  · intro q r
    rw [lives, lives, look, look]
    split <;> split <;> rename_i one two <;> intro left right same
    · exact one.trans two.symm
    · exact absurd (same.symm.trans pgdir) (old right)
    · exact absurd (same.trans pgdir) (old left)
    · exact census.alone left right same
  · intro q
    rw [lives, look]
    split
    · intro _
      rw [pgdir]
      exact (known (mem_directories.mpr (Or.inl rfl))).symm
    · exact census.kernel
  · intro u user
    rw [space _ _ (known (mem_directories.mpr (Or.inl rfl))) (census.kernel live).symm]
    exact census.blank u user
  · intro q
    rw [lives, look]
    split
    · intro _ u above user
      rw [pgdir]
      exact ends u above user
    · rename_i other
      intro living u above user
      rw [space _ _ (old living) (apart other living)]
      exact census.ends living u above user
  · intro x
    rw [held]
    simp only [lives, kstacks]
    exact census.held x
  · intro q r
    rw [lives, lives, kstacks, kstacks]
    exact census.stack_alone
  · exact census.pipe_alone
  · intro q pipe
    rw [lives, kstacks]
    exact census.stack_pipe
  · intro q
    rw [lives, kstacks]
    exact census.stack_loan
  · exact census.pipe_loan
  · intro q
    rw [update_field (f := Proc.state) state]
    exact census.adult q

theorem Census.openPipe (census : Census loan g kpgdir pipes table) {pipe : Pipe}
    (fresh : g.held pipe.page = none) (page : Page) :
    Census loan (g.hold pipe.page page) kpgdir (pipe :: pipes) table := by
  have unheld : ∀ {q}, g.held q ≠ none → q ≠ pipe.page := by
    rintro q held rfl
    exact held fresh
  refine ⟨census.dirs, census.alone, census.kernel, census.blank, census.ends, ?_,
    census.stack_alone, ?_, ?_, census.stack_loan, ?_, census.adult⟩
  · intro q
    by_cases here : q = pipe.page
    · subst here
      refine iff_of_true ?_ (Or.inr (Or.inl ⟨pipe, List.mem_cons_self, rfl⟩))
      simp only [Ghost.hold, update_self]
      exact Option.some_ne_none _
    · simp only [Ghost.hold, update_of_ne here]
      rw [census.held]
      simp only [List.mem_cons, exists_eq_or_imp, Ne.symm here, false_or]
  · refine List.nodup_cons.mpr ⟨?_, census.pipe_alone⟩
    intro member
    obtain ⟨other, inside, same⟩ := List.mem_map.mp member
    exact unheld ((census.held _).mpr (Or.inr (Or.inl ⟨other, inside, rfl⟩))) same
  · intro p other living member same
    rcases List.mem_cons.mp member with rfl | member
    · exact unheld ((census.held _).mpr (Or.inl ⟨p, living, rfl⟩)) same
    · exact census.stack_pipe living member same
  · intro other member loaned
    rcases List.mem_cons.mp member with rfl | member
    · exact unheld ((census.held _).mpr (Or.inr (Or.inr loaned))) rfl
    · exact census.pipe_loan member loaned

theorem Census.setPipe (census : Census loan g kpgdir pipes table) {k : Nat} {old new : Pipe}
    (found : pipes[k]? = some old) (page : new.page = old.page) :
    Census loan g kpgdir (pipes.set k new) table := by
  have pages : (pipes.set k new).map Pipe.page = pipes.map Pipe.page := by
    apply List.ext_getElem?
    intro j
    simp only [List.getElem?_map, List.getElem?_set]
    split
    · rename_i here
      subst here
      split
      · rw [found]
        simp only [Option.map_some, page]
      · rename_i outside
        rw [List.getElem?_eq_none (by omega)]
    · rfl
  have member :
      ∀ {x}, (∃ pipe ∈ pipes.set k new, pipe.page = x) ↔ ∃ pipe ∈ pipes, pipe.page = x := by
    intro x
    rw [← List.mem_map, ← List.mem_map, pages]
  refine ⟨census.dirs, census.alone, census.kernel, census.blank, census.ends, ?_,
    census.stack_alone, ?_, ?_, census.stack_loan, ?_, census.adult⟩
  · intro q
    rw [member]
    exact census.held q
  · rw [pages]
    exact census.pipe_alone
  · intro p pipe living inside
    obtain ⟨other, inside', same⟩ := member.mp ⟨pipe, inside, rfl⟩
    rw [← same]
    exact census.stack_pipe living inside'
  · intro pipe inside
    obtain ⟨other, inside', same⟩ := member.mp ⟨pipe, inside, rfl⟩
    rw [← same]
    exact census.pipe_loan inside'

theorem Census.closePipe (census : Census loan g kpgdir pipes table) {k : Nat} {pipe : Pipe}
    (found : pipes[k]? = some pipe) :
    Census loan (g.drop pipe.page) kpgdir (pipes.eraseIdx k) table := by
  obtain ⟨inside, rfl⟩ := List.getElem?_eq_some_iff.mp found
  have sub : ∀ {other}, other ∈ pipes.eraseIdx k → other ∈ pipes := fun member =>
    (List.eraseIdx_sublist pipes k).subset member
  -- A page appears once, so the erased list holds exactly the other ones.
  have split :
      ∀ {other}, other ∈ pipes → other.page ≠ pipes[k].page → other ∈ pipes.eraseIdx k := by
    intro other member apart
    obtain ⟨j, bound, rfl⟩ := List.getElem_of_mem member
    rw [List.mem_eraseIdx_iff_getElem]
    exact ⟨j, bound, by rintro rfl; exact apart rfl, rfl⟩
  have away : ∀ {other}, other ∈ pipes.eraseIdx k → other.page ≠ pipes[k].page := by
    intro other member same
    obtain ⟨j, bound, apart, rfl⟩ := List.mem_eraseIdx_iff_getElem.mp member
    have injective := List.nodup_iff_injective_getElem.mp census.pipe_alone
    have index := @injective ⟨j, by rw [List.length_map]; exact bound⟩
      ⟨k, by rw [List.length_map]; exact inside⟩ (by simp only [List.getElem_map]; exact same)
    exact apart (congrArg Fin.val index)
  refine ⟨census.dirs, census.alone, census.kernel, census.blank, census.ends, ?_,
    census.stack_alone, ?_, fun living member => census.stack_pipe living (sub member),
    census.stack_loan, fun member => census.pipe_loan (sub member), census.adult⟩
  · intro q
    by_cases here : q = pipes[k].page
    · subst here
      simp only [Ghost.drop, update_self, ne_eq, not_true_eq_false, false_iff]
      rintro (⟨p, living, same⟩ | ⟨other, member, same⟩ | loaned)
      · exact census.stack_pipe living (List.getElem_mem inside) same
      · exact away member same
      · exact census.pipe_loan (List.getElem_mem inside) loaned
    · simp only [Ghost.drop, update_of_ne here]
      rw [census.held]
      refine or_congr_right (or_congr_left ?_)
      constructor
      · rintro ⟨other, member, rfl⟩
        exact ⟨other, split member here, rfl⟩
      · rintro ⟨other, member, rfl⟩
        exact ⟨other, sub member, rfl⟩
  · exact census.pipe_alone.sublist ((List.eraseIdx_sublist pipes k).map _)

theorem Census.lend (census : Census loan g kpgdir pipes table) {k : Nat}
    (fresh : g.held k = none) (page : Page) :
    Census (insert k loan) (g.hold k page) kpgdir pipes table := by
  have unheld : ∀ {q}, g.held q ≠ none → q ≠ k := by
    rintro q held rfl
    exact held fresh
  refine ⟨census.dirs, census.alone, census.kernel, census.blank, census.ends, ?_,
    census.stack_alone, census.pipe_alone, census.stack_pipe, ?_, ?_, census.adult⟩
  · intro q
    by_cases here : q = k
    · subst here
      refine iff_of_true ?_ (Or.inr (Or.inr (Set.mem_insert q loan)))
      simp only [Ghost.hold, update_self]
      exact Option.some_ne_none _
    · simp only [Ghost.hold, update_of_ne here]
      rw [census.held, Set.mem_insert_iff]
      simp only [here, false_or]
  · intro p living member
    rcases Set.mem_insert_iff.mp member with same | member
    · exact unheld ((census.held _).mpr (Or.inl ⟨p, living, rfl⟩)) same
    · exact census.stack_loan living member
  · intro pipe inside member
    rcases Set.mem_insert_iff.mp member with same | member
    · exact unheld ((census.held _).mpr (Or.inr (Or.inl ⟨pipe, inside, rfl⟩))) same
    · exact census.pipe_loan inside member

theorem Settled.inside (settled : Settled loan g s) (live : (s.ptable p).live = true) :
    (s.ptable p).pgdir ∈ g.dirs := by
  rw [settled.census.dirs, mem_directories]
  exact Or.inr ⟨p, live, rfl⟩

theorem Settled.small (settled : Settled loan g s) (live : (s.ptable p).live = true) :
    (s.ptable p).sz ≤ KERNBASE :=
  (settled.rep.procs p live (by rw [settled.stays]; exact (Option.some_ne_none p).symm)).2

end Xv6Cow
