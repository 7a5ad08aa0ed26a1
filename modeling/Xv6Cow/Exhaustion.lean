import Xv6Cow.Victim

/- What sbrk, fork and pipe do when memory runs out. kalloc never returns 0, so no error path of
its callers is ever taken: it goes on evicting as long as there are free slots. -/
namespace Xv6Cow

open Prog (bind_ok_iff bind_of_ok bind_of_error read_bind pure_ok_iff update_bind)

variable {loan : Set Nat} {g : Ghost} {s t : Kernel} {p np : Fin NPROC} {label : Label}

/-! ## Too little memory -/

/-- What kalloc can return at most: the free pages, and one page for each free slot. -/
def supply (s : Kernel) : Nat := s.freelist.length + freeSlots s

/-- The program uses up `n` pages of the supply, if it returns. -/
def Spends {α : Type} (n : Nat) (prog : K α) : Prop :=
  ∀ s value t, prog s = .ok (value, t) → supply t + n ≤ supply s

theorem Spends.bind {α β : Type} {first : K α} {next : α → K β} {m n : Nat} (left : Spends m first)
    (right : ∀ value, Spends n (next value)) : Spends (m + n) (first >>= next) := by
  intro s result u success
  obtain ⟨value, t, head, tail⟩ := bind_ok_iff.mp success
  have before := left s value t head
  have after := right value t result u tail
  omega

/-- The size sbrk(n) asks for. -/
def newSize (s : Kernel) (p : Fin NPROC) (n : Int) : Nat := (((s.ptable p).sz + n) % 2 ^ 32).toNat

/-- The pages that growproc(n) adds. -/
def added (s : Kernel) (p : Fin NPROC) (n : Int) : Nat :=
  pagesOf (newSize s p n) - pagesOf (s.ptable p).sz

/-- The pages that a call cannot do without: for fork the kernel stack and the page directory, for
exec the page directory. -/
def demand (s : Kernel) : Label → Nat
  | .sbrk p n => if 0 < n ∧ newSize s p n < KERNBASE then added s p n else 0
  | .fork _ => if firstUnused s = none then 0 else 2
  | .exec _ file _ =>
    match file.bind File.elfhdr with
    | some elf => if elf.magic = ELF_MAGIC then 1 else 0
    | none => 0
  | .pipealloc room => if room < 2 then 0 else 1
  | _ => 0

/-- What a call that returns -1 leaves as it was: the processes, their page tables, the free
pages, and the counts of the others. -/
structure Unharmed (s t : Kernel) : Prop where
  procs : t.ptable = s.ptable
  pages : ∀ p, (s.ptable p).live = true → ∀ v,
    pteOf t.mem (s.ptable p).pgdir v = pteOf s.mem (s.ptable p).pgdir v
  counts : ∀ q, q ∉ s.freelist → t.pageToRefcnt q = s.pageToRefcnt q
  free : ∀ q, q ∈ t.freelist ↔ q ∈ s.freelist

theorem Unharmed.refl (s : Kernel) : Unharmed s s :=
  ⟨rfl, fun _ _ _ => rfl, fun _ _ => rfl, fun _ => Iff.rfl⟩

/-- There are free pages for what growproc(n) adds, and for the page tables. -/
def Affords (s : Kernel) (p : Fin NPROC) (n : Int) : Prop :=
  0 < n → newSize s p n < KERNBASE →
    added s p n + (missing s.mem (s.ptable p).pgdir (pagesOf (s.ptable p).sz) (added s p n)).card ≤
      s.freelist.length

/-- What growproc(n) gives back is not swapped out, and something is left. -/
def Returns (s : Kernel) (p : Fin NPROC) (n : Int) : Prop :=
  n < 0 → (s.ptable p).sz ≤ newSize s p n ∨ newSize s p n ≠ 0 ∧
    Unswapped s.mem (s.ptable p).pgdir (pagesOf (newSize s p n)) (pagesOf (s.ptable p).sz)

theorem growproc_ok {n : Int} {sz : Nat} (moves : n ≠ 0)
    (resized : (if 0 < n then allocuvm p (s.ptable p).pgdir (s.ptable p).sz (newSize s p n)
      else deallocuvm p (s.ptable p).pgdir (s.ptable p).sz (newSize s p n)) s = .ok (sz, t)) :
    growproc p n s = if sz = 0 then .ok (false, t)
      else .ok (true, setProc t p { t.ptable p with sz := sz }) := by
  unfold growproc
  rw [read_bind]
  dsimp only
  rw [if_neg moves]
  by_cases grows : 0 < n
  · rw [if_pos grows] at resized ⊢
    refine (bind_of_ok resized).trans ?_
    split <;> rfl
  · rw [if_neg grows] at resized ⊢
    refine (bind_of_ok resized).trans ?_
    split <;> rfl

/-- kalloc follows the directory of a reaped process, which has been freed and used again. -/
theorem stale_crashes :
    ∃ s, Reachable CleanStep s ∧ s.freelist = [] ∧ kalloc s = .error .nullDeref ∧
    (s.ptable 0).canRun = true ∧ (∃ m < 1000, (s.ptable 0).sz = m * PGSIZE) ∧ s.log = [] := by
  obtain ⟨d', np, s, reachable, empty, victim, left, zero, inside, runs, size, -, -, log⟩ :=
    stale_victim
  refine ⟨s, reachable, empty, ?_, runs, size, log⟩
  have search : ∀ r, r.mem = s.mem → getVictimPage (s.ptable np) r = .error .nullDeref := by
    intro r mem
    unfold getVictimPage
    rw [left]
    dsimp only
    rw [show pagesOf PGSIZE = 1 by decide]
    have absent : tablePage r.mem d' (pdx 0) = none := by
      rw [mem, tablePage, zero]
      rfl
    rw [victimPageFrom, bind_of_ok (walk_of_none inside absent)]
    rfl
  rw [kalloc_nil empty]
  refine bind_of_error (bind_of_error (bind_of_error ?_))
  unfold finalPage
  rw [read_bind, victim]
  dsimp only
  rw [subRss, updateProc, update_bind]
  exact bind_of_error (search _ rfl)

end Xv6Cow
