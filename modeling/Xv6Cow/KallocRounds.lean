import Xv6Cow.Exhaustion
import Xv6Cow.VictimPages

/- kalloc with an empty free list. Every round of swap_out uses up a slot, but a round that
takes a shared page frees nothing, so the rounds are counted by the slots that are free.
They end well as long as the victims are live processes with a page to give;
get_victim_process sees to neither. -/
namespace Xv6Cow

open Prog (Avoids)

variable {loan : Set Nat} {g : Ghost} {s t u : Kernel} {v : Fin NPROC} {n m : Nat}

/-! ## Rounds -/

/-- `n` calls of swap_out, each with the free list empty. -/
inductive Rounds : Nat → Kernel → Kernel → Prop
  | zero (s : Kernel) : Rounds 0 s s
  | succ {n : Nat} {s t u : Kernel} (empty : s.freelist = []) (out : swapOut s = .ok ((), t))
    (more : Rounds n t u) :
      Rounds (n + 1) s u

theorem Rounds.freeSlots_le (rounds : Rounds n s t) : freeSlots t + n ≤ freeSlots s := by
  induction rounds with
  | zero s => exact Nat.le_refl _
  | succ empty out more ih =>
    have less := swapOut_freeSlots out
    omega

theorem Rounds.kalloc_eq (rounds : Rounds n s t) : kalloc s = kalloc t := by
  induction rounds with
  | zero s => rfl
  | succ empty out more ih =>
    rw [kalloc_nil empty, Prog.bind_of_ok out]
    exact ih

/-- There is only one way to go: two numbers of rounds lead past each other or the second
stops short of the first. -/
theorem Rounds.meet (first : Rounds n s t) (second : Rounds m s u) :
    (∃ k, Rounds k t u) ∨ ∃ r, swapOut u = .ok ((), r) := by
  induction first generalizing m with
  | zero s => exact Or.inl ⟨m, second⟩
  | succ empty out more ih =>
    cases second with
    | zero => exact Or.inr ⟨_, out⟩
    | succ _ out' more' =>
      rw [out] at out'
      cases out'
      exact ih more'

/-! ## The invariants -/

/-- The counts and the slots are as they should be and no swap_out is in progress; `g` has
the kernel stacks and the pipes among the pages it holds. -/
structure Steady (g : Ghost) (s : Kernel) : Prop where
  rep : Rep g s
  quiet : Quiet g s.log
  thawed : g.frozen = fun _ => none
  stack : ∀ p, (s.ptable p).live = true → g.held (s.ptable p).kstack ≠ none
  pipe : ∀ x ∈ s.pipes, g.held x.page ≠ none

theorem Sound.steady (sound : Sound loan g s) : Steady g s :=
  ⟨sound.settled.rep, sound.quiet, sound.thawed,
    fun p live => (sound.settled.census.held _).mpr (Or.inl ⟨p, live, rfl⟩),
    fun x member => (sound.settled.census.held _).mpr (Or.inr (Or.inl ⟨x, member, rfl⟩))⟩

/-- The victim that final_page would pick is live. -/
def LiveVictim (g : Ghost) (s : Kernel) : Prop :=
  ∀ v, Wins s v → (s.ptable v).live = true ∧ g.leaving ≠ some v

theorem Steady.round (steady : Steady g s) (live : LiveVictim g s)
    {done : Unit} (out : swapOut s = .ok (done, t)) :
    Steady g t ∧ Evicts g.dirs s t := by
  have calm := swapOut_calm _ _ _ out
  have quiet : Quiet g t.log := by
    obtain ⟨job, r, _, reserve, rfl, -, -, -, -, rfl⟩ := swapOut_ok out
    obtain ⟨u, chosen, -, -, alive, -, -, rfl⟩ := swapReserve_ok reserve
    have calm := finalPage_calm _ _ _ chosen
    obtain ⟨victim, stays⟩ := live _ (finalPage_wins chosen)
    obtain ⟨mem, ptable, rfl⟩ := finalPage_memProc chosen
    intro e member
    unfold swapFinished at member
    dsimp only at member
    rw [kfreed_log, since_cons (by exact steady.rep.base), List.mem_cons] at member
    rcases member with here | earlier
    · cases here
      refine ⟨?_, stays, by rw [steady.thawed]⟩
      dsimp only
      rw [alive, calm.live]
      exact victim
    · exact steady.quiet e earlier
  obtain ⟨rep, evicts⟩ := swapOut_spec steady.rep out quiet
  refine ⟨⟨rep, quiet, steady.thawed, fun p alive => ?_, fun x member => ?_⟩, evicts⟩
  · rw [calm.live] at alive
    rw [calm.kstack]
    exact steady.stack p alive
  · rw [calm.pipes] at member
    exact steady.pipe x member

/-- Every user page has the contents it had; if its entry was evicted they are in its slot. -/
def Kept (dirs : Finset Nat) (s t : Kernel) : Prop :=
  ∀ d ∈ dirs, ∀ v < NUPAGE, spaceOf t d v = spaceOf s d v ∧
    (SameEntry (pteOf s.mem d v) (pteOf t.mem d v) ∨
      has (pteOf s.mem d v) PTE_P = true ∧ isSwapped (pteOf t.mem d v) = true ∧
        ∃ i < NPAGE, ppn (pteOf t.mem d v) = SWAPBASE + i * BPPAGE ∧
        (t.swapSlots i).isFree = false ∧
          diskPage t.disk (SWAPBASE + i * BPPAGE) = s.mem (ppn (pteOf s.mem d v)))

theorem Rep.kept (before : Rep g s) (after : Rep g t) (evicts : Evicts g.dirs s t) :
    Kept g.dirs s t := by
  intro d inside v user
  have same :
    spaceOf t d v = spaceOf s d v := (after.space inside user).trans (before.space inside user).symm
  refine ⟨same, (evicts.entry inside user).imp_right ?_⟩
  rintro ⟨present, swapped, -⟩
  obtain ⟨i, bound, named, -⟩ := after.slots.named inside user swapped
  refine ⟨present, swapped, i, bound, named, (after.slots.busy inside user swapped bound named).1,
    ?_⟩
  unfold spaceOf at same
  rw [pageAt_present present, pageAt_swapped swapped, named] at same
  exact congrArg Prod.snd (Option.some.inj same)

/-- Nothing refers to page `q`: it is mapped nowhere and is no page directory, page table,
kernel stack or pipe. -/
structure Unreferenced (g : Ghost) (s : Kernel) (q : Nat) : Prop where
  mapped : ∀ d ∈ g.dirs, ∀ v < NUPAGE, frameOf (pteOf s.mem d v) ≠ some q
  dir : q ∉ g.dirs
  table : ∀ d ∈ g.dirs, ∀ i, tablePage s.mem d i ≠ some q
  held : g.held q = none
  stack : ∀ p, (s.ptable p).live = true → (s.ptable p).kstack ≠ q
  pipe : ∀ x ∈ s.pipes, x.page ≠ q

theorem Steady.unreferenced {q : Nat} (steady : Steady g s) (free : q ∈ s.freelist) :
    Unreferenced g s q := by
  obtain ⟨-, -, fresh, table⟩ := steady.rep.free_apart free
  refine ⟨fun d inside v user frame => ?_, fresh.1, table, fresh.2, fun p live same => ?_,
    fun x member same => ?_⟩
  · have unmapped := (steady.rep.free_unused free).2.2
    exact RefCount.count_eq_zero_iff.mp unmapped (d, v) (mem_sites.mpr ⟨inside, user⟩) frame
  · exact steady.stack p live (by rw [same]; exact fresh.2)
  · exact steady.pipe x member (by rw [same]; exact fresh.2)

/-! ## One round -/

/-- final_page finds a page of process `v`, or it gets through all of its pages and no slot is free
anyway. -/
def Searchable (s : Kernel) (v : Fin NPROC) : Prop :=
  Gives s (s.ptable v).pgdir (pagesOf (s.ptable v).sz) ∨
    freeSlots s = 0 ∧ Walks s (s.ptable v).pgdir (pagesOf (s.ptable v).sz)

theorem firstFree_none_iff : firstFree s = none ↔ freeSlots s = 0 := by
  unfold firstFree freeSlots
  rw [List.find?_eq_none, List.countP_eq_zero]

theorem swapOut_full {found : Fin NPROC × Option PtePtr} (chosen : finalPage s = .ok (found, u))
    (full : freeSlots s = 0) :
    swapOut s = .error (.panic "Swap full\n") := by
  obtain ⟨mem, ptable, rfl⟩ := finalPage_memProc chosen
  have none :
    firstFree { s with mem := mem, ptable := ptable } = none := firstFree_none_iff.mpr full
  refine Prog.bind_of_error ?_
  unfold swapReserve
  rw [Prog.bind_of_ok chosen]
  dsimp only
  rw [Prog.read_bind, none]
  rfl

theorem Rep.tabled (rep : Rep g s) {d : Nat} (inside : d ∈ g.dirs) (user : n ≤ NUPAGE)
    (walks : Walks s d n) :
    Tabled s.mem d n := by
  refine ⟨rep.dir_lt inside, user, fun u below => ?_, fun u w below _ same => ?_⟩
  · obtain ⟨x, small, table⟩ := walks.2 u below
    refine ⟨x, small, table, ?_⟩
    rintro rfl
    exact rep.layout.table_not_dir inside table inside
  · obtain ⟨x, -, table⟩ := walks.2 u below
    exact (rep.layout.table_unique inside inside table (same.symm.trans table)).2

theorem Steady.progress (steady : Steady g s) (live : LiveVictim g s)
    (search : ∀ v, Wins s v → Searchable s v) :
    (∃ t, swapOut s = .ok ((), t)) ∨ freeSlots s = 0 ∧
      swapOut s = .error (.panic "Swap full\n") := by
  obtain ⟨v, chosen, wins⟩ := getVictimProcess_wins s
  obtain ⟨alive, stays⟩ := live v wins
  obtain ⟨inside, small⟩ := steady.rep.procs v alive stays
  by_cases full : freeSlots s = 0
  · refine Or.inr ⟨full, ?_⟩
    rcases search v wins with gives | ⟨-, walks⟩
    · obtain ⟨w, ptr, u, -, final, -⟩ := victimFine_of_gives steady.rep alive stays wins gives
      exact swapOut_full final full
    · obtain ⟨pte, mem, final, -⟩ :=
        final_page_exact chosen (steady.rep.tabled inside (pagesOf_le small) walks)
      exact swapOut_full final full
  · left
    have gives := (search v wins).resolve_right fun both => full both.1
    obtain ⟨w, ptr, u, -, final, victim, -⟩ := victimFine_of_gives steady.rep alive stays wins gives
    obtain ⟨-, stays'⟩ := live w (finalPage_wins final)
    obtain ⟨rep, -, -, y, candidate⟩ := finalPage_spec steady.rep victim stays' final
    have calm := finalPage_calm _ _ _ final
    obtain ⟨mem, ptable, shape⟩ := finalPage_memProc final
    obtain ⟨i, slot⟩ : ∃ i, firstFree u = some i := by
      refine Option.ne_none_iff_exists'.mp fun none => full ?_
      rw [firstFree_none_iff, shape] at none
      exact none
    have bound := (firstFree_some slot).1
    have inside' :
      (u.ptable w).pgdir ∈ g.dirs := (rep.procs w (by rw [calm.live]; exact victim) stays').1
    have mapped := rep.table_lt inside' candidate.table
    have word : u.mem ptr.page ptr.index = pteOf u.mem (u.ptable w).pgdir y := by
      rw [pteOf_of_table candidate.table]
      exact congrArg (fun z : PtePtr => u.mem ptr.page z.index) candidate.index
    have pooled := (rep.entries.frame inside' candidate.user (frameOf_present candidate.present)).1
    refine ⟨_, swapOut_of_reserve (swapReserve_of_final final slot mapped) ?_ ?_ mapped⟩
    · dsimp only
      unfold reserved
      dsimp only
      rw [Function.update_self]
      dsimp only
      rw [rep.slots.block bound, SWAPBASE_eq, BPPAGE_eq, FSSIZE]
      rw [NPAGE_eq] at bound
      omega
    · dsimp only
      rw [word]
      exact rep.layout.pool_bounds _ pooled

/-- The panics. -/
def Panics (why : Fault) : Prop := ∃ message, why = .panic message

theorem not_panics_unmapped : ¬ Panics .unmapped := by
  rintro ⟨_, impossible⟩
  cases impossible

theorem not_panics_nullDeref : ¬ Panics .nullDeref := by
  rintro ⟨_, impossible⟩
  cases impossible

theorem walkpgdirNoAlloc_avoids (d w : Nat) : Avoids Panics (walkpgdirNoAlloc d w) :=
  .bind (.bind .read fun _ => .ite (.pure _) (.halt not_panics_unmapped)) fun _ =>
    .ite (.pure _) (.pure _)

theorem derefPte_avoids (pte : Option PtePtr) : Avoids Panics (derefPte pte) := by
  cases pte with
  | none => exact .halt not_panics_nullDeref
  | some ptr => exact .bind .read fun _ => .ite (.pure _) (.halt not_panics_unmapped)

theorem victimPageFrom_avoids (d n i : Nat) : Avoids Panics (victimPageFrom d n i) := by
  induction n generalizing i with
  | zero => exact .pure _
  | succ n ih =>
    exact .bind (walkpgdirNoAlloc_avoids d i) fun pte => .bind (derefPte_avoids pte) fun _ =>
    .ite (.pure _) (ih _)

theorem flushFrom_avoids (d n i ctr : Nat) : Avoids Panics (flushFrom d n i ctr) := by
  induction n generalizing i ctr with
  | zero => exact .pure _
  | succ n ih =>
    refine .bind (walkpgdirNoAlloc_avoids d i) fun pte => .bind (derefPte_avoids pte) fun w => ?_
    split
    · exact .bind (.ite (.ite (.update _) (.halt not_panics_unmapped)) (.pure _)) fun _ => ih _ _
    · exact ih _ _

theorem finalPage_avoids : Avoids Panics finalPage := by
  refine .bind .read fun s => ?_
  split
  · exact .halt not_panics_nullDeref
  · refine .bind (.update _) fun _ => .bind (victimPageFrom_avoids _ _ _) fun pte => ?_
    split
    · exact .pure _
    · exact .bind (flushFrom_avoids _ _ _ _) fun _ => .bind (victimPageFrom_avoids _ _ _) fun _ =>
        .pure _

/-- A round that succeeded, or panicked for want of a slot, had a victim to search. -/
theorem Steady.searchable (steady : Steady g s) (live : LiveVictim g s) (wins : Wins s v)
    (outcome : (∃ t, swapOut s = .ok ((), t)) ∨ freeSlots s = 0 ∧
      swapOut s = .error (.panic "Swap full\n")) :
    Searchable s v := by
  obtain ⟨alive, stays⟩ := live v wins
  rcases outcome with ⟨t, out⟩ | ⟨full, panicked⟩
  · obtain ⟨job, r, _, reserve, -⟩ := swapOut_ok out
    obtain ⟨u, final, -⟩ := swapReserve_ok reserve
    rw [(finalPage_wins final).unique wins] at final
    exact (finalPage_gives steady.rep alive stays final).imp_right fun both =>
      absurd both.1 (Option.some_ne_none _)
  · cases final : finalPage s with
    | error why =>
      have stopped : swapOut s = .error why := Prog.bind_of_error (Prog.bind_of_error final)
      rw [panicked] at stopped
      cases stopped
      exact absurd ⟨_, rfl⟩ (finalPage_avoids s _ final)
    | ok result =>
      obtain ⟨⟨w, pte⟩, u⟩ := result
      rw [(finalPage_wins final).unique wins] at final
      exact (finalPage_gives steady.rep alive stays final).imp_right fun both => ⟨full, both.2⟩

/-! ## All rounds -/

/-- The victims of kalloc are live in every round. -/
def LiveVictims (g : Ghost) (s : Kernel) : Prop :=
  ∀ n t, Rounds n s t → t.freelist = [] → LiveVictim g t

theorem Rounds.steady (rounds : Rounds n s t) (steady : Steady g s) (live : LiveVictims g s) :
    Steady g t ∧ Evicts g.dirs s t := by
  induction rounds with
  | zero s => exact ⟨steady, Evicts.refl _ s⟩
  | succ empty out more ih =>
    obtain ⟨next, evicts⟩ := steady.round (live 0 _ (.zero _) empty) out
    obtain ⟨last, rest⟩ := ih next fun n t later => live (n + 1) t (.succ empty out later)
    exact ⟨last, evicts.trans rest⟩

/-- The page that kalloc returns, and the state. -/
structure Delivered (g : Ghost) (s : Kernel) (q : Nat) (t : Kernel) : Prop where
  unreferenced : Unreferenced g t q
  count : t.pageToRefcnt q = 1
  kept : Kept g.dirs s t
  steady : Steady (g.hold q (t.mem q)) t

theorem Steady.delivers {q : Nat} {rest : List Nat} (steady : Steady g t) (kept : Kept g.dirs s t)
    (list : t.freelist = q :: rest) : Delivered g s q (popFree t q rest) := by
  have free : q ∈ t.freelist := by rw [list]; exact List.mem_cons_self
  have kind : ∀ {x}, g.held x ≠ none → (g.hold q (t.mem q)).held x ≠ none := by
    intro x held
    rw [Ghost.held_hold]
    exact Or.inr held
  refine ⟨{ steady.unreferenced free with }, Function.update_self .., kept, ?_⟩
  exact ⟨steady.rep.pop list, steady.quiet, steady.thawed, fun p live => kind (steady.stack p live),
    fun x member => kind (steady.pipe x member)⟩

/-- kalloc ends after no more rounds than slots were free, by the panic when there are none
left or with a page; the invariants hold then and no process has lost anything. -/
def Ends (g : Ghost) (s : Kernel) : Prop :=
  ∃ n t, Rounds n s t ∧ n ≤ freeSlots s ∧
    ((t.freelist = [] ∧ freeSlots t = 0 ∧ kalloc s = .error (.panic "Swap full\n") ∧ Steady g t ∧
      Kept g.dirs s t) ∨
      ∃ q rest, t.freelist = q :: rest ∧ kalloc s = .ok (q, popFree t q rest) ∧
      Delivered g s q (popFree t q rest))

theorem Steady.last_round (steady : Steady g s) (live : LiveVictims g s)
    (search : ∀ n t, Rounds n s t → t.freelist = [] → ∀ v, Wins t v → Searchable t v) :
    ∃ n t, Rounds n s t ∧
      (t.freelist ≠ [] ∨ t.freelist = [] ∧ freeSlots t = 0 ∧
        swapOut t = .error (.panic "Swap full\n")) := by
  induction size : freeSlots s using Nat.strongRecOn generalizing s with
  | ind k ih =>
    by_cases empty : s.freelist = []
    · have first := live 0 s (.zero s) empty
      rcases steady.progress first (search 0 s (.zero s) empty) with ⟨t, out⟩ | full
      · obtain ⟨next, -⟩ := steady.round first out
        obtain ⟨n, u, rounds, last⟩ := ih (freeSlots t) (size ▸ swapOut_freeSlots out) next
          (fun n u later => live (n + 1) u (.succ empty out later))
          (fun n u later => search (n + 1) u (.succ empty out later)) rfl
        exact ⟨n + 1, u, .succ empty out rounds, last⟩
      · exact ⟨0, s, .zero s, Or.inr ⟨empty, full⟩⟩
    · exact ⟨0, s, .zero s, Or.inl empty⟩

/-- kalloc in any state in which the invariants hold, where its victims are live processes:
it ends as it should exactly if in every round the search of the victim's page table comes
to an end. -/
theorem kalloc_ends_iff (steady : Steady g s) (live : LiveVictims g s) :
    Ends g s ↔ ∀ n t, Rounds n s t → t.freelist = [] → ∀ v, Wins t v → Searchable t v := by
  constructor
  · rintro ⟨n, t, rounds, -, outcome⟩ m u reached empty v wins
    refine (reached.steady steady live).1.searchable (live m u reached empty) wins ?_
    rcases rounds.meet reached with ⟨k, later⟩ | more
    · cases later with
      | zero =>
        rcases outcome with ⟨-, full, panicked, -⟩ | ⟨q, rest, list, -⟩
        · refine Or.inr ⟨full, ?_⟩
          rw [rounds.kalloc_eq, kalloc_nil empty, Prog.bind_apply] at panicked
          split at panicked
          · rename_i why stopped
            cases panicked
            exact stopped
          · rename_i done r out
            have less := swapOut_freeSlots out
            omega
        · rw [empty] at list
          cases list
      | succ stuck out _ =>
        rcases outcome with ⟨-, full, -⟩ | ⟨q, rest, list, -⟩
        · have less := swapOut_freeSlots out
          omega
        · rw [stuck] at list
          cases list
    · exact Or.inl more
  · intro search
    obtain ⟨n, t, rounds, last⟩ := steady.last_round live search
    obtain ⟨final, evicts⟩ := rounds.steady steady live
    have kept := steady.rep.kept final.rep evicts
    have bound := rounds.freeSlots_le
    refine ⟨n, t, rounds, by omega, ?_⟩
    rcases last with page | ⟨empty, full, panicked⟩
    · obtain ⟨q, rest, list⟩ := List.exists_cons_of_ne_nil page
      exact Or.inr
        ⟨q, rest, list, by rw [rounds.kalloc_eq, kalloc_cons list], final.delivers kept list⟩
    · refine Or.inl ⟨empty, full, ?_, final, kept⟩
      rw [rounds.kalloc_eq, kalloc_nil empty]
      exact Prog.bind_of_error panicked

/-- The first process has all the memory to itself, and loses a page in one round. -/
theorem kalloc_ends_iff_full :
    ∃ g s, Reachable CleanStep s ∧ s.freelist = [] ∧ Steady g s ∧ Ends g s := by
  obtain ⟨d, kstack, f, s, full, -⟩ := full_start
  obtain ⟨g, sound⟩ := full.sound
  obtain ⟨x, table⟩ := full.table
  obtain ⟨picks, alone⟩ := full.picks (by decide) (by decide) (by decide) table
  have word := userWord_map (full.frames 0 (Nat.le_refl 0) (by decide))
  obtain ⟨t, out, list, -⟩ := swapOut_pressed full.free picks (by rw [word.frame, alone])
  -- one page is free after the first round, so there is no second
  have once : ∀ {n u}, Rounds n s u → u.freelist = [] → u = s := by
    intro n u rounds empty
    cases rounds with
    | zero => rfl
    | succ _ out' more =>
      rw [out] at out'
      cases out'
      cases more with
      | zero =>
        rw [list] at empty
        cases empty
      | succ stuck =>
        rw [list] at stuck
        cases stuck
  have first :
    ∀ {v}, Wins s v → v = 0 := fun wins => wins.unique (getVictimProcess_iff.mp picks.victim)
  refine ⟨g, s, full.reachable, full.free, sound.steady, (kalloc_ends_iff sound.steady ?_).mpr ?_⟩
  · intro n u rounds empty v wins
    rw [once rounds empty] at wins ⊢
    rw [first wins, sound.settled.stays]
    exact ⟨full.live, (Option.some_ne_none _).symm⟩
  · intro n u rounds empty v wins
    rw [once rounds empty] at wins ⊢
    rw [first wins]
    exact Or.inl picks.gives

/-- The entry of a reaped process wins, and its directory has become a page of another
process: kalloc follows a null pointer in the first round. -/
theorem kalloc_follows_null : ∃ g s, Reachable CleanStep s ∧ Steady g s ∧ s.freelist = [] ∧
    kalloc s = .error .nullDeref ∧ ¬ Ends g s := by
  obtain ⟨s, reachable, empty, failed, -⟩ := stale_crashes
  obtain ⟨loan, g, sound⟩ := reachable.sound
  refine ⟨g, s, reachable, sound.steady, empty, failed, ?_⟩
  rintro ⟨n, t, -, -, ⟨-, -, panicked, -⟩ | ⟨q, rest, -, returned, -⟩⟩
  · rw [failed] at panicked
    cases panicked
  · rw [failed] at returned
    cases returned

end Xv6Cow
