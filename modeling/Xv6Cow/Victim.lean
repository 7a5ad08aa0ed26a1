import Xv6Cow.Reaping

/- Whom final_page picks: the process by rss and pid, then one of its pages. -/
namespace Xv6Cow

open Function (update_self update_of_ne)
open Prog (bind_ok_iff bind_of_ok read_bind pure_ok_iff update_bind)

variable {loan : Set Nat} {g : Ghost} {s t : Kernel} {p q : Fin NPROC} {d v n : Nat}

/-! ## The process -/

/-- More rss, or the same and a lower pid. -/
def Beats (s : Kernel) (p q : Fin NPROC) : Prop :=
  (s.ptable q).rss < (s.ptable p).rss ∨
    (s.ptable p).rss = (s.ptable q).rss ∧ (s.ptable p).pid < (s.ptable q).pid

/-- Entry `p` beats the entries before it, and no later one beats it. Free entries
count as much as others. -/
def Wins (s : Kernel) (p : Fin NPROC) : Prop :=
  (∀ q, q < p → Beats s p q) ∧ ∀ q, p < q → ¬ Beats s q p

theorem Wins.unique (first : Wins s p) (second : Wins s q) : p = q := by
  rcases lt_trichotomy p q with before | same | after
  · exact absurd (second.1 p before) (first.2 q before)
  · exact same
  · exact absurd (first.1 q after) (second.2 p after)

theorem Wins.top (wins : Wins s p) (q : Fin NPROC) :
    (s.ptable q).rss ≤ (s.ptable p).rss ∧
      ((s.ptable q).rss = (s.ptable p).rss → (s.ptable p).pid ≤ (s.ptable q).pid) := by
  rcases lt_trichotomy q p with before | same | after
  · rcases wins.1 q before with less | ⟨tie, lower⟩
    · exact ⟨BitVec.le_of_lt less, fun tie => absurd less (by rw [tie]; exact BitVec.lt_irrefl _)⟩
    · exact ⟨by rw [tie]; exact BitVec.le_refl _, fun _ => Nat.le_of_lt lower⟩
  · rw [same]
    exact ⟨BitVec.le_refl _, fun _ => Nat.le_refl _⟩
  · have beaten := wins.2 q after
    refine ⟨?_, fun tie => ?_⟩
    · exact BitVec.not_lt.mp (fun less => beaten (Or.inl less))
    · exact Nat.not_lt.mp (fun lower => beaten (Or.inr ⟨tie, lower⟩))

/-- What the loop over ptable knows after the entries `seen`. -/
def Leads (s : Kernel) (seen : List (Fin NPROC)) (best : Word × Option (Fin NPROC)) : Prop :=
  (best = (0#32, none) ∧ seen = []) ∨
    ∃ p ∈ seen, best = ((s.ptable p).rss, some p) ∧
      ∀ q ∈ seen, (q < p → Beats s p q) ∧ (p < q → ¬ Beats s q p)

theorem Beats.trans {r : Fin NPROC} (first : Beats s p q) (second : Beats s q r) : Beats s p r := by
  unfold Beats at *
  simp only [BitVec.lt_def, ← BitVec.toNat_inj] at *
  omega

theorem Beats.of_leader {r : Fin NPROC} (beats : Beats s p q)
    (leads : (r < q → Beats s q r) ∧ (q < r → ¬ Beats s r q)) : Beats s p r := by
  rcases lt_trichotomy r q with before | same | after
  · exact beats.trans (leads.1 before)
  · rw [same]
    exact beats
  · have beaten := leads.2 after
    unfold Beats at *
    simp only [BitVec.lt_def, ← BitVec.toNat_inj] at *
    omega

theorem Leads.step {seen : List (Fin NPROC)} {best : Word × Option (Fin NPROC)}
    (leads : Leads s seen best) (later : ∀ q ∈ seen, q < p) :
    Leads s (seen ++ [p]) (victimStep s best p) := by
  have last : p ∈ seen ++ [p] := List.mem_append_right _ List.mem_cons_self
  have changes : (∀ q ∈ seen, Beats s p q) →
      ∀ q ∈ seen ++ [p], (q < p → Beats s p q) ∧ (p < q → ¬ Beats s q p) := by
    intro all q member
    rcases List.mem_append.mp member with early | here
    · exact ⟨fun _ => all q early, fun after => absurd after (lt_asymm (later q early))⟩
    · obtain rfl := List.mem_singleton.mp here
      exact ⟨fun self => absurd self (lt_irrefl q), fun self => absurd self (lt_irrefl q)⟩
  rcases leads with ⟨rfl, rfl⟩ | ⟨v, member, rfl, leader⟩
  · refine Or.inr ⟨p, last, ?_, changes (fun q member => by cases member)⟩
    unfold victimStep
    dsimp only
    split
    · rfl
    · rename_i low
      have zero : (s.ptable p).rss = 0#32 := by
        rw [BitVec.lt_def, BitVec.toNat_zero] at low
        rw [← BitVec.toNat_inj, BitVec.toNat_zero]
        omega
      rw [if_pos zero, zero]
  · have stays :
        ¬ Beats s p v → ∀ q ∈ seen ++ [p], (q < v → Beats s v q) ∧ (v < q → ¬ Beats s q v) := by
      intro beaten q here
      rcases List.mem_append.mp here with early | same
      · exact leader q early
      · obtain rfl := List.mem_singleton.mp same
        exact ⟨fun before => absurd before (lt_asymm (later v member)), fun _ => beaten⟩
    unfold victimStep
    dsimp only
    split
    · rename_i more
      exact Or.inr
        ⟨p, last, rfl, changes (fun q early => Beats.of_leader (Or.inl more) (leader q early))⟩
    · rename_i more
      split
      · rename_i tie
        split
        · rename_i lower
          refine Or.inr ⟨p, last, by rw [tie], changes (fun q early => ?_)⟩
          exact Beats.of_leader (Or.inr ⟨tie, lower⟩) (leader q early)
        · rename_i higher
          refine Or.inr ⟨v, List.mem_append_left _ member, rfl, stays ?_⟩
          rintro (less | ⟨-, lower⟩)
          · exact more less
          · exact higher lower
      · rename_i apart
        refine Or.inr ⟨v, List.mem_append_left _ member, rfl, stays ?_⟩
        rintro (less | ⟨tie, -⟩)
        · exact more less
        · exact apart tie

theorem Leads.loop {order seen : List (Fin NPROC)} {best : Word × Option (Fin NPROC)}
    (sorted : (seen ++ order).Pairwise (· < ·)) (leads : Leads s seen best) :
    Leads s (seen ++ order) (order.foldl (victimStep s) best) := by
  induction order generalizing seen best with
  | nil =>
    rw [List.append_nil]
    exact leads
  | cons p rest ih =>
    have later : ∀ q ∈ seen, q < p := fun q member =>
      (List.pairwise_append.mp sorted).2.2 q member p List.mem_cons_self
    rw [List.append_cons] at sorted ⊢
    exact ih sorted (leads.step later)

/-- get_victim_process always finds a process, and it is the one that wins. -/
theorem getVictimProcess_wins (s : Kernel) : ∃ p, getVictimProcess s = some p ∧ Wins s p := by
  have leads := Leads.loop
    (show ([] ++ List.finRange NPROC).Pairwise (· < ·) from List.pairwise_lt_finRange NPROC)
    (show Leads s [] (0#32, none) from Or.inl ⟨rfl, rfl⟩)
  rw [List.nil_append] at leads
  unfold getVictimProcess
  rcases leads with ⟨-, empty⟩ | ⟨p, -, best, leader⟩
  · exact absurd empty (by decide)
  · rw [best]
    exact ⟨p, rfl, fun q => (leader q (List.mem_finRange q)).1, fun q =>
      (leader q (List.mem_finRange q)).2⟩

theorem getVictimProcess_iff : getVictimProcess s = some p ↔ Wins s p := by
  obtain ⟨q, chosen, wins⟩ := getVictimProcess_wins s
  rw [chosen, Option.some_inj]
  constructor
  · rintro rfl
    exact wins
  · intro other
    exact wins.unique other

/-! ## The page -/

/-- The first `n` pages have page tables. -/
def Walks (s : Kernel) (d n : Nat) : Prop :=
  d < NPHYS ∧ ∀ u, u < n → ∃ x < NPHYS, tablePage s.mem d (pdx u) = some x

/-- The directory has a page to give: the search meets one that was not accessed, or it
gets to the end and there is one that was. -/
def Gives (s : Kernel) (d n : Nat) : Prop :=
  (∃ u, u < n ∧ Walks s d (u + 1) ∧ evictable (pteOf s.mem d u) = true) ∨
    Walks s d n ∧ ∃ u, u < n ∧ has (pteOf s.mem d u) PTE_P = true ∧
    has (pteOf s.mem d u) PTE_U = true

theorem Picks.gives {x i : Nat} {w : Word} (picks : Picks s p v x i w) :
    Gives s (s.ptable p).pgdir (pagesOf (s.ptable p).sz) :=
  Or.inl ⟨v, picks.below,
    ⟨picks.dir, fun u low => picks.tables u (by omega)⟩, by rw [picks.entry]; exact picks.hit⟩

theorem victimPageFrom_cases {i : Nat} {pte : Option PtePtr}
    (success : victimPageFrom d n i s = .ok (pte, t)) :
    t = s ∧ ((pte = none ∧ ∀ u, i ≤ u → u < i + n → d < NPHYS ∧
      evictable (pteOf s.mem d u) = false ∧
        ∃ x < NPHYS, tablePage s.mem d (pdx u) = some x) ∨
      ∃ v x, i ≤ v ∧ v < i + n ∧ pte = some ⟨x, ptx v⟩ ∧ tablePage s.mem d (pdx v) = some x ∧
        evictable (pteOf s.mem d v) = true ∧ d < NPHYS ∧
        ∀ u, i ≤ u → u ≤ v → ∃ x < NPHYS, tablePage s.mem d (pdx u) = some x) := by
  induction n generalizing i with
  | zero =>
    obtain ⟨rfl, rfl⟩ := pure_ok_iff.mp success
    exact ⟨rfl, Or.inl ⟨rfl, fun u low high => by omega⟩⟩
  | succ n ih =>
    rw [victimPageFrom] at success
    obtain ⟨dir, x, small, table, rest⟩ := deref_cases success
    rw [Prog.ite_apply] at rest
    split at rest
    · rename_i hit
      obtain ⟨rfl, rfl⟩ := pure_ok_iff.mp rest
      refine ⟨rfl, Or.inr ⟨i, x, Nat.le_refl i, by omega, rfl, table, hit, dir, ?_⟩⟩
      intro u low high
      rw [show u = i by omega]
      exact ⟨x, small, table⟩
    · rename_i missed
      obtain ⟨same, cases'⟩ := ih rest
      refine ⟨same, ?_⟩
      rcases cases' with ⟨none, all⟩ | ⟨v, y, low, high, found, here, hit, dir, tables⟩
      · refine Or.inl ⟨none, fun u low high => ?_⟩
        by_cases first : u = i
        · rw [first]
          exact ⟨dir, Bool.eq_false_iff.mpr missed, x, small, table⟩
        · exact all u (by omega) (by omega)
      · refine Or.inr ⟨v, y, by omega, by omega, found, here, hit, dir, fun u low high => ?_⟩
        by_cases first : u = i
        · rw [first]
          exact ⟨x, small, table⟩
        · exact tables u (by omega) high

theorem victimPageFrom_finds {v : Nat} (below : v < n) (walks : Walks s d (v + 1))
    (hit : evictable (pteOf s.mem d v) = true) :
    ∃ ptr, victimPageFrom d n 0 s = .ok (some ptr, s) := by
  classical
  have exists' : ∃ u, evictable (pteOf s.mem d u) = true := ⟨v, hit⟩
  have first : Nat.find exists' ≤ v := Nat.find_min' exists' hit
  obtain ⟨x, -, here⟩ := walks.2 (Nat.find exists') (by omega)
  refine ⟨_, victimPageFrom_hit (v := Nat.find exists') walks.1 (Nat.zero_le _) (by omega)
    (fun u _ high => walks.2 u (by omega)) (fun u _ before => ?_) (Nat.find_spec exists') here⟩
  exact Bool.eq_false_iff.mpr (Nat.find_min exists' before)

theorem victimPageFrom_misses {i : Nat} (dir : d < NPHYS)
    (tables : ∀ u, i ≤ u → u < i + n → ∃ x < NPHYS, tablePage s.mem d (pdx u) = some x)
    (skip : ∀ u, i ≤ u → u < i + n → evictable (pteOf s.mem d u) = false) :
    victimPageFrom d n i s = .ok (none, s) := by
  induction n generalizing i with
  | zero => rfl
  | succ n ih =>
    obtain ⟨x, small, table⟩ := tables i (Nat.le_refl i) (by omega)
    have missed := skip i (Nat.le_refl i) (by omega)
    unfold evictable at missed
    rw [victimPageFrom, bind_of_ok (walk_of_table dir table),
      bind_of_ok (derefPte_ok_iff.mpr ⟨_, rfl, small, rfl, rfl⟩)]
    dsimp only
    rw [← pteOf_of_table table, missed, if_neg Bool.false_ne_true]
    exact ih (fun u low high => tables u (by omega) (by omega))
      (fun u low high => skip u (by omega) (by omega))

/-- flush_table gets through, and if a page was accessed, then afterwards some page
counts as not accessed. -/
theorem flushFrom_room {i c : Nat} (rep : Rep g s) (live : (s.ptable p).live = true)
    (stays : g.leaving ≠ some p) (fits : i + n ≤ NUPAGE)
    (tables : ∀ u, i ≤ u → u < i + n → ∃ x < NPHYS,
      tablePage s.mem (s.ptable p).pgdir (pdx u) = some x) :
    ∃ t, flushFrom (s.ptable p).pgdir n i c s = .ok ((), t) ∧
      (∀ i, tablePage t.mem (s.ptable p).pgdir i = tablePage s.mem (s.ptable p).pgdir i) ∧
      (∀ w, w < i → pteOf t.mem (s.ptable p).pgdir w = pteOf s.mem (s.ptable p).pgdir w) ∧
      (c = 0 → (∃ u, i ≤ u ∧ u < i + n ∧ has (pteOf s.mem (s.ptable p).pgdir u) PTE_P = true ∧
          has (pteOf s.mem (s.ptable p).pgdir u) PTE_U = true ∧
          has (pteOf s.mem (s.ptable p).pgdir u) PTE_A = true) →
        ∃ u, i ≤ u ∧ u < i + n ∧ evictable (pteOf t.mem (s.ptable p).pgdir u) = true) := by
  induction n generalizing i c s with
  | zero => exact ⟨s, rfl, fun _ => rfl, fun _ _ => rfl, fun _ ⟨u, low, high, _⟩ => by omega⟩
  | succ n ih =>
    have inside := (rep.procs p live stays).1
    obtain ⟨x, small, table⟩ := tables i (Nat.le_refl i) (by omega)
    have word := pteOf_of_table table
    rw [flushFrom, bind_of_ok (walk_of_table (rep.dir_lt inside) table),
      bind_of_ok (derefPte_ok_iff.mpr ⟨_, rfl, small, rfl, rfl⟩)]
    dsimp only
    rw [← word]
    by_cases flags : (has (pteOf s.mem (s.ptable p).pgdir i) PTE_P &&
        has (pteOf s.mem (s.ptable p).pgdir i) PTE_U && has (pteOf s.mem (s.ptable p).pgdir i)
          PTE_A) = true
    · rw [flags]
      dsimp only
      simp only [Bool.and_eq_true] at flags
      by_cases turn : c = 0
      · obtain ⟨rep', evolves⟩ :=
          rep.clearAccessed live stays rfl (by omega) table flags.1.1 flags.2
        have rewrites := rep.layout.rewrites (Keeps.refl g s.mem) inside (user_lt (by omega)) table
          (pteOf s.mem (s.ptable p).pgdir i &&& ~~~PTE_A)
        obtain ⟨t, flushed, same, before, -⟩ :=
          ih (i := i + 1) (c := (c + 1) % 10) rep' live (by omega)
          (fun u low high => by
            obtain ⟨y, bound, there⟩ := tables u (by omega) (by omega)
            exact ⟨y, bound, (rewrites.table inside _).trans there⟩)
        refine ⟨t, ?_, fun j => (same j).trans (rewrites.table inside j), fun w low => ?_,
          fun _ _ => ?_⟩
        · unfold flushEntry
          rw [if_pos turn, bind_of_ok (storeWord_ok_iff.mpr ⟨small, rfl⟩ : _ = Except.ok ((), _))]
          exact flushed
        · refine (before w (by omega)).trans ?_
          exact rewrites.others inside (user_lt (by omega)) (fun both => by omega)
        · refine ⟨i, Nat.le_refl i, by omega, ?_⟩
          have entry := (before i (by omega)).trans rewrites.here
          have idle := SameEntry.idle (pteOf s.mem (s.ptable p).pgdir i)
          rw [entry]
          unfold evictable
          rw [idle.present, flags.1.1, has_U, idle.bit (by decide), ← has_U, flags.1.2, has_A,
            BitVec.getLsbD_and, show BitVec.getLsbD (~~~PTE_A) 5 = false by decide, Bool.and_false]
          rfl
      · obtain ⟨t, flushed, same, before, -⟩ :=
          ih (i := i + 1) (c := (c + 1) % 10) rep live (by omega)
          (fun u low high => tables u (by omega) (by omega))
        refine ⟨t, ?_, same, fun w low => before w (by omega), fun zero => absurd zero turn⟩
        unfold flushEntry
        rw [if_neg turn]
        exact flushed
    · rw [Bool.eq_false_iff.mpr flags]
      dsimp only
      obtain ⟨t, flushed, same, before, finds⟩ := ih (i := i + 1) (c := c) rep live (by omega)
          (fun u low high => tables u (by omega) (by omega))
      refine ⟨t, flushed, same, fun w low => before w (by omega), fun turn => ?_⟩
      rintro ⟨u, low, high, present, user, accessed⟩
      by_cases first : u = i
      · rw [first] at present user accessed
        exact absurd (by rw [present, user, accessed]; rfl) flags
      · obtain ⟨w, low', high', found⟩ :=
          finds turn ⟨u, by omega, by omega, present, user, accessed⟩
        exact ⟨w, by omega, by omega, found⟩

/-! ## final_page -/

/-- final_page picks a live process, with the most rss of all that are in use and, among
equals, the lowest pid; and it returns an entry of its page table that is present and
for the user. -/
def VictimFine (s : Kernel) : Prop :=
  ∃ v ptr t u, finalPage s = .ok ((v, some ptr), t) ∧ (s.ptable v).live = true ∧
    (∀ q, (s.ptable q).state ≠ .unused → (s.ptable q).rss ≤ (s.ptable v).rss ∧
      ((s.ptable q).rss = (s.ptable v).rss → (s.ptable v).pid ≤ (s.ptable q).pid)) ∧
    u < pagesOf (s.ptable v).sz ∧ tablePage t.mem (s.ptable v).pgdir (pdx u) = some ptr.page ∧
    ptr = ⟨ptr.page, ptx u⟩ ∧ has (pteOf t.mem (s.ptable v).pgdir u) PTE_P = true ∧
    has (pteOf t.mem (s.ptable v).pgdir u) PTE_U = true

theorem evictable_flags {w : Word} (fits : evictable w = true) :
    has w PTE_P = true ∧ has w PTE_U = true ∧ has w PTE_A = false := by
  unfold evictable at fits
  simp only [Bool.and_eq_true, Bool.not_eq_true'] at fits
  exact ⟨fits.1.1, fits.1.2, fits.2⟩

theorem flushTable_entry {done : Unit} {u : Nat} (rep : Rep g s) (live : (s.ptable p).live = true)
    (stays : g.leaving ≠ some p) (flushed : flushTable (s.ptable p) s = .ok (done, t))
    (user : u < NUPAGE) :
    SameEntry (pteOf s.mem (s.ptable p).pgdir u) (pteOf t.mem (s.ptable p).pgdir u) := by
  obtain ⟨inside, small⟩ := rep.procs p live stays
  obtain ⟨-, evicts, log⟩ :=
    flushFrom_spec rep live stays (by rw [Nat.zero_add]; exact pagesOf_le small) flushed
  rcases evicts.entry inside user with same | ⟨-, -, x, e, -, -, evicted⟩
  · exact same
  · rw [Evicted, log, since_self] at evicted
    cases evicted

theorem finalPage_wins {pte : Option PtePtr} (success : finalPage s = .ok ((p, pte), t)) :
    Wins s p := by
  unfold finalPage at success
  rw [read_bind] at success
  obtain ⟨v, chosen, wins⟩ := getVictimProcess_wins s
  rw [chosen] at success
  dsimp only at success
  rw [subRss, updateProc, update_bind, bind_ok_iff] at success
  obtain ⟨found, r, -, rest⟩ := success
  cases found with
  | some ptr =>
    cases (pure_ok_iff.mp rest).1
    exact wins
  | none =>
    dsimp only at rest
    rw [bind_ok_iff] at rest
    obtain ⟨_, r, -, rest⟩ := rest
    rw [bind_ok_iff] at rest
    obtain ⟨pte, r', -, rest⟩ := rest
    cases (pure_ok_iff.mp rest).1
    exact wins

/-- When final_page comes back, the victim has a page to give, or the search went through all of its
pages in vain. -/
theorem finalPage_gives {pte : Option PtePtr} (rep : Rep g s) (live : (s.ptable p).live = true)
    (stays : g.leaving ≠ some p) (success : finalPage s = .ok ((p, pte), t)) :
    Gives s (s.ptable p).pgdir (pagesOf (s.ptable p).sz) ∨
      pte = none ∧ Walks s (s.ptable p).pgdir (pagesOf (s.ptable p).sz) := by
  obtain ⟨inside, small⟩ := rep.procs p live stays
  have chosen := getVictimProcess_iff.mpr (finalPage_wins success)
  unfold finalPage at success
  rw [read_bind, chosen] at success
  dsimp only at success
  rw [subRss, updateProc, update_bind, bind_ok_iff] at success
  obtain ⟨found, r, searched, rest⟩ := success
  obtain ⟨rfl, outcome⟩ := victimPageFrom_cases searched
  rcases outcome with ⟨rfl, all⟩ | ⟨w, x, low, high, rfl, here, hit, dir, tables⟩
  · have walks : Walks s (s.ptable p).pgdir (pagesOf (s.ptable p).sz) :=
      ⟨rep.dir_lt inside, fun w low => (all w (Nat.zero_le w) (by omega)).2.2⟩
    dsimp only at rest
    rw [bind_ok_iff] at rest
    obtain ⟨_, r, flushed, rest⟩ := rest
    rw [bind_ok_iff] at rest
    obtain ⟨found, r', again, rest⟩ := rest
    cases (pure_ok_iff.mp rest).1
    obtain ⟨rfl, outcome⟩ := victimPageFrom_cases again
    rcases outcome with ⟨rfl, -⟩ | ⟨u, x, -, below, -, -, hit, -, -⟩
    · exact Or.inr ⟨rfl, walks⟩
    -- what the second search finds was in use before flush_table
    rw [Nat.zero_add] at below
    obtain ⟨present, user, -⟩ := evictable_flags hit
    refine Or.inl (Or.inr ⟨walks, u, below, ?_⟩)
    have entry := @flushTable_entry _ (setProc s p _) _ p _ u
      (rep.setRss p ((s.ptable p).rss - BitVec.ofNat 32 PGSIZE))
      (by rw [setProc]; dsimp only; rw [update_self]; exact live) stays
      (by unfold setProc; dsimp only; rw [update_self]; exact flushed)
      (Nat.lt_of_lt_of_le below (pagesOf_le small))
    unfold setProc at entry
    dsimp only at entry
    rw [update_self] at entry
    dsimp only at entry
    rw [entry.present] at present
    rw [has_U, entry.bit (by decide), ← has_U] at user
    exact ⟨present, user⟩
  · exact Or.inl
      (Or.inl ⟨w, by omega, ⟨dir, fun y before => tables y (Nat.zero_le y) (by omega)⟩, hit⟩)

theorem Walks.mono {m : Nat} (walks : Walks s d n) (le : m ≤ n) : Walks s d m :=
  ⟨walks.1, fun u low => walks.2 u (by omega)⟩

theorem candidate_of_search {proc : Proc} {ptr : PtePtr}
    (searched : getVictimPage proc s = .ok (some ptr, t)) :
    ∃ u, u < pagesOf proc.sz ∧ tablePage s.mem proc.pgdir (pdx u) = some ptr.page ∧
      ptr = ⟨ptr.page, ptx u⟩ ∧ has (pteOf s.mem proc.pgdir u) PTE_P = true ∧
      has (pteOf s.mem proc.pgdir u) PTE_U = true := by
  obtain ⟨-, outcome⟩ := victimPageFrom_cases searched
  rcases outcome with ⟨none, -⟩ | ⟨w, x, -, high, same, here, hit, -, -⟩
  · cases none
  · cases same
    obtain ⟨present, user, -⟩ := evictable_flags hit
    exact ⟨w, by omega, here, rfl, present, user⟩

theorem victimFine_of_gives (rep : Rep g s) (live : (s.ptable p).live = true)
    (stays : g.leaving ≠ some p)
    (wins : Wins s p) (gives : Gives s (s.ptable p).pgdir (pagesOf (s.ptable p).sz)) :
    VictimFine s := by
  classical
  obtain ⟨inside, small⟩ := rep.procs p live stays
  have chosen := getVictimProcess_iff.mpr wins
  obtain ⟨r, lowered⟩ : ∃ r : Kernel, r = setProc s p { s.ptable p with
      rss := (s.ptable p).rss - BitVec.ofNat 32 PGSIZE } := ⟨_, rfl⟩
  have mem : r.mem = s.mem := by rw [lowered]; rfl
  have proc :
      r.ptable p = { s.ptable p with rss := (s.ptable p).rss - BitVec.ofNat 32 PGSIZE } := by
    rw [lowered, setProc]
    dsimp only
    rw [update_self]
  have final : ∀ {ptr t}, (getVictimPage (s.ptable p) r = .ok (some ptr, t) ∨
      getVictimPage (s.ptable p) r = .ok (none, r) ∧ ∃ f, flushTable (s.ptable p) r = .ok ((), f) ∧
        getVictimPage (s.ptable p) f = .ok (some ptr, t)) →
      finalPage s = .ok ((p, some ptr), t) := by
    intro ptr t search
    unfold finalPage
    rw [read_bind, chosen]
    dsimp only
    rw [subRss, updateProc, update_bind, ← lowered]
    rcases search with first | ⟨first, f, flushed, second⟩
    · rw [bind_of_ok first]
      rfl
    · rw [bind_of_ok first]
      dsimp only
      rw [bind_of_ok flushed, bind_of_ok second]
      rfl
  have top : ∀ q, (s.ptable q).state ≠ .unused → _ := fun q _ => wins.top q
  have walks' : ∀ {m}, Walks s (s.ptable p).pgdir m → Walks r (s.ptable p).pgdir m := by
    intro m walks
    unfold Walks
    rw [mem]
    exact walks
  by_cases idle : ∃ u, u < pagesOf (s.ptable p).sz ∧ Walks s (s.ptable p).pgdir (u + 1) ∧
      evictable (pteOf s.mem (s.ptable p).pgdir u) = true
  · obtain ⟨u, below, walks, hit⟩ := idle
    rw [← mem] at hit
    obtain ⟨ptr, searched⟩ := victimPageFrom_finds below (walks' walks) hit
    obtain ⟨w, low, table, shape, present, user⟩ := candidate_of_search
      (show getVictimPage (s.ptable p) _ = _ from searched)
    exact ⟨p, ptr, r, w, final (Or.inl searched), live, top, low, table, shape, present, user⟩
  · obtain ⟨walks, u, below, present, user⟩ := gives.resolve_left idle
    have skip :
        ∀ w, w < pagesOf (s.ptable p).sz → evictable (pteOf s.mem (s.ptable p).pgdir w) = false :=
      fun w low => Bool.eq_false_iff.mpr (fun hit => idle ⟨w, low, walks.mono (by omega), hit⟩)
    have accessed : has (pteOf s.mem (s.ptable p).pgdir u) PTE_A = true := by
      have busy := skip u below
      unfold evictable at busy
      rw [present, user] at busy
      simpa using busy
    have first : getVictimPage (s.ptable p) r = .ok (none, r) :=
      victimPageFrom_misses walks.1 (fun w _ low => (walks' walks).2 w (by omega))
        (fun w _ low => by rw [mem]; exact skip w (by omega))
    have rep' : Rep g r := by
      rw [lowered]
      exact rep.setRss p _
    have alive : (r.ptable p).live = true := by
      rw [proc]
      exact live
    have room := @flushFrom_room _ r p (pagesOf (s.ptable p).sz) 0 0 rep' alive stays
      (by rw [Nat.zero_add]; exact pagesOf_le small)
      (fun w _ low => by rw [proc, mem]; exact walks.2 w (by omega))
    rw [proc] at room
    obtain ⟨f, flushed, tables, -, finds⟩ := room
    rw [mem] at finds tables
    obtain ⟨w, -, low, hit⟩ := finds rfl ⟨u, Nat.zero_le u, by omega, present, user, accessed⟩
    rw [Nat.zero_add] at low
    have walksF : Walks f (s.ptable p).pgdir (w + 1) := by
      refine ⟨walks.1, fun y before => ?_⟩
      obtain ⟨x, bound, table⟩ := walks.2 y (by omega)
      exact ⟨x, bound, (tables (pdx y)).trans table⟩
    obtain ⟨ptr, searched⟩ := victimPageFrom_finds low walksF hit
    obtain ⟨y, below', table, shape, present', user'⟩ := candidate_of_search
      (show getVictimPage (s.ptable p) _ = _ from searched)
    exact ⟨p, ptr, f, y, final (Or.inr ⟨first, f, flushed, searched⟩), live, top, below', table,
      shape, present', user'⟩

/-- Along clean runs, final_page does what it should exactly when the entry of the
process table that wins is that of a live process with a page to give. -/
theorem victim_fine_iff (reachable : Reachable CleanStep s) :
    VictimFine s ↔ ∃ v, Wins s v ∧ (s.ptable v).live = true ∧
      Gives s (s.ptable v).pgdir (pagesOf (s.ptable v).sz) := by
  obtain ⟨loan, g, sound⟩ := reachable.sound
  have stays : ∀ v, g.leaving ≠ some v := by
    intro v
    rw [sound.settled.stays]
    exact (Option.some_ne_none v).symm
  constructor
  · rintro ⟨v, ptr, t, u, final, live, -⟩
    rcases finalPage_gives sound.settled.rep live (stays v) final with gives | ⟨none, -⟩
    · exact ⟨v, finalPage_wins final, live, gives⟩
    · cases none
  · rintro ⟨v, wins, live, gives⟩
    exact victimFine_of_gives sound.settled.rep live (stays v) wins gives

/-- The first process has taken all the memory, and is the victim. -/
theorem victim_fine_iff_full : ∃ s, Reachable CleanStep s ∧ s.freelist = [] ∧ VictimFine s := by
  obtain ⟨d, kstack, f, s, full, -⟩ := full_start
  obtain ⟨x, table⟩ := full.table
  obtain ⟨picks, -⟩ := full.picks (by decide) (by decide) (by decide) table
  exact ⟨s, full.reachable, full.free,
    (victim_fine_iff full.reachable).mpr
      ⟨0, getVictimProcess_iff.mp picks.victim, full.live, picks.gives⟩⟩

/-- The first process forks, its child exits and is waited for, and then it takes all the
memory: the victim is the free entry of the child, whose rss has wrapped around and whose
directory has become a page of the first process. -/
theorem stale_victim :
    ∃ d' np s, Reachable CleanStep s ∧ s.freelist = [] ∧ getVictimProcess s = some np ∧
    s.ptable np = ⟨PGSIZE, -(BitVec.ofNat 32 PGSIZE), d', 0, .unused, 0, none, false⟩ ∧
    s.mem d' = zeroPage ∧ d' < NPHYS ∧ (s.ptable 0).canRun = true ∧
    (∃ m < 1000, (s.ptable 0).sz = m * PGSIZE) ∧ 2 * PGSIZE ≤ (s.ptable 0).sz ∧
    pteOf s.mem (s.ptable 0).pgdir 1 = userWord d' ∧ s.log = [] := by
  obtain ⟨d, kstack, d', np, s, reachable, other, head, table, log, ptable⟩ := reaped_start
  have first : s.ptable 0 = initProc d kstack 1 := by
    rw [ptable, update_of_ne (Ne.symm other), update_self]
  have pgdir : (s.ptable 0).pgdir = d := by rw [first]; rfl
  obtain ⟨loan, g, sound⟩ := reachable.sound
  have short := length_freelist_lt sound.settled.rep
  obtain ⟨rest, list⟩ := List.head?_eq_some_iff.mp head
  obtain ⟨t, reachable', empty, ⟨mem, refcnt, num, shape⟩, -, -, -, pages⟩ :=
    grow_all (m := 1) reachable
    (by rw [first]; rfl) (by rw [first, Nat.one_mul]; rfl) (by decide) (by rw [pgdir]; exact table)
    (by rw [list]; exact List.cons_ne_nil d' rest)
  have left :
      t.ptable np = ⟨PGSIZE, -(BitVec.ofNat 32 PGSIZE), d', 0, .unused, 0, none, false⟩ := by
    rw [shape]
    dsimp only
    rw [update_of_ne other, ptable, update_self]
  have stays : t.ptable 0 = { initProc d kstack 1 with
      sz := (1 + s.freelist.length) * PGSIZE
      rss := BitVec.ofNat 32 (s.freelist.length * PGSIZE) } := by
    rw [shape]
    dsimp only
    rw [update_self, first]
    change Proc.mk _ (0#32 + _) _ _ _ _ _ _ = _
    rw [BitVec.zero_add]
  have rss : (-(BitVec.ofNat 32 PGSIZE)).toNat = 4294963200 := by decide
  obtain ⟨entry, zero⟩ := pages 0 (by rw [list]; exact Nat.succ_pos _)
  have top : s.freelist.getD 0 0 = d' := by
    rw [list]
    rfl
  rw [top] at entry zero
  refine ⟨d', np, t, reachable', empty, victim_of_top (fun q apart => ?_) ?_, left, zero,
    (sound.settled.rep.free_apart (List.mem_of_mem_head? head)).2.1, by rw [stays]; rfl,
      ⟨1 + s.freelist.length,
    ?_, by rw [stays]⟩, ?_, ?_, by rw [shape]; exact log⟩
  · rw [left, BitVec.lt_def, rss]
    by_cases init : q = 0
    · rw [init, stays]
      dsimp only
      rw [BitVec.toNat_ofNat, PGSIZE_eq]
      omega
    · rw [shape]
      dsimp only
      rw [update_of_ne init, ptable, update_of_ne apart, update_of_ne init]
      decide
  · rw [left, BitVec.lt_def, rss]
    decide
  · omega
  · rw [stays, list, List.length_cons]
    dsimp only
    exact Nat.mul_le_mul_right _ (by omega)
  · rw [show (t.ptable 0).pgdir = (s.ptable 0).pgdir by rw [stays, pgdir]; rfl]
    exact entry

/-- final_page picks a free entry. -/
theorem victim_is_unused : ∃ s np, Reachable (Step fork) s ∧ s.freelist = [] ∧
    getVictimProcess s = some np ∧ (s.ptable np).state = .unused := by
  obtain ⟨d', np, s, reachable, empty, victim, left, -⟩ := stale_victim
  exact ⟨s, np, reachable.any, empty, victim, by rw [left]⟩

end Xv6Cow
