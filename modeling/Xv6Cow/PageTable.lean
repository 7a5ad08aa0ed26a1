import Xv6Cow.Swap

/- The map a page directory in memory stands for, and how it answers to writes:
a write to a page that is neither the directory nor one of its tables is not
seen, and a write through walkpgdir's pointer changes one entry. -/
namespace Xv6Cow

/-- The page table behind entry `i` of directory `d`. -/
def tablePage (m : Nat → Page) (d : Nat) (i : Fin 1024) : Option Nat :=
  if has (m d i) PTE_P then some (ppn (m d i)) else none

/-- The entry of page `v` in directory `d`; zero where there is no page table. -/
def pteOf (m : Nat → Page) (d v : Nat) : Word :=
  match tablePage m d (pdx v) with
  | some t => m t (ptx v)
  | none => 0#32

/-- The page an entry maps. -/
def frameOf (w : Word) : Option Nat := if has w PTE_P then some (ppn w) else none

/-- The disk block an entry names. -/
def blockOf (w : Word) : Option Nat := if isSwapped w then some (ppn w) else none

theorem frameOf_present {w : Word} (present : has w PTE_P = true) : frameOf w = some (ppn w) := by
  rw [frameOf, if_pos present]

theorem frameOf_eq_some {w : Word} {q : Nat} :
    frameOf w = some q ↔ has w PTE_P = true ∧ ppn w = q := by
  unfold frameOf
  split
  · rename_i present
    simp only [Option.some.injEq, present, true_and]
  · rename_i absent
    simp only [reduceCtorEq, false_iff, not_and]
    intro present
    exact absurd present absent

theorem frameOf_zero : frameOf 0#32 = none := by decide

theorem blockOf_eq_some {w : Word} {b : Nat} :
    blockOf w = some b ↔ isSwapped w = true ∧ ppn w = b := by
  unfold blockOf
  split
  · rename_i swapped
    simp only [Option.some.injEq, swapped, true_and]
  · rename_i other
    simp only [reduceCtorEq, false_iff, not_and]
    intro swapped
    exact absurd swapped other

theorem blockOf_swapped {w : Word} (swapped : isSwapped w = true) :
    blockOf w = some (ppn w) := by
  rw [blockOf, if_pos swapped]

theorem blockOf_present {w : Word} (present : has w PTE_P = true) : blockOf w = none := by
  rw [blockOf, if_neg (by rw [isSwapped_of_present present]; exact Bool.false_ne_true)]

theorem frameOf_swapped {w : Word} (swapped : isSwapped w = true) : frameOf w = none := by
  rw [frameOf, if_neg]
  intro present
  rw [isSwapped_of_present present] at swapped
  cases swapped

theorem blockOf_zero : blockOf 0#32 = none := by decide

theorem vpn_ext {v u : Nat} (small : v < NVPAGE) (small' : u < NVPAGE)
    (dir : pdx v = pdx u) (entry : ptx v = ptx u) : v = u := by
  have high := congrArg Fin.val dir
  have low := congrArg Fin.val entry
  simp only [pdx, ptx, NVPAGE_eq] at *
  omega

theorem tablePage_eq_some {m : Nat → Page} {d t : Nat} {i : Fin 1024} :
    tablePage m d i = some t ↔ has (m d i) PTE_P = true ∧ ppn (m d i) = t :=
  frameOf_eq_some

theorem tablePage_congr {m m' : Nat → Page} {d : Nat} (same : m' d = m d) (i : Fin 1024) :
    tablePage m' d i = tablePage m d i := by
  unfold tablePage
  rw [same]

theorem pteOf_of_table {m : Nat → Page} {d v t : Nat}
    (table : tablePage m d (pdx v) = some t) : pteOf m d v = m t (ptx v) := by
  unfold pteOf
  rw [table]

theorem pteOf_of_none {m : Nat → Page} {d v : Nat}
    (absent : tablePage m d (pdx v) = none) : pteOf m d v = 0#32 := by
  unfold pteOf
  rw [absent]

theorem table_of_pteOf {m : Nat → Page} {d v : Nat} (nonzero : pteOf m d v ≠ 0#32) :
    ∃ t, tablePage m d (pdx v) = some t := by
  cases table : tablePage m d (pdx v) with
  | none => exact absurd (pteOf_of_none table) nonzero
  | some t => exact ⟨t, rfl⟩

theorem ne_zero_of_present {w : Word} (present : has w PTE_P = true) : w ≠ 0#32 := by
  rintro rfl
  revert present
  decide

theorem ne_zero_of_swapped {w : Word} (swapped : isSwapped w = true) : w ≠ 0#32 := by
  rintro rfl
  revert swapped
  decide

theorem pteOf_congr {m m' : Nat → Page} {d v : Nat} (dir : m' d = m d)
    (table : ∀ t, tablePage m d (pdx v) = some t → m' t = m t) :
    pteOf m' d v = pteOf m d v := by
  unfold pteOf
  rw [tablePage_congr dir]
  cases found : tablePage m d (pdx v) with
  | none => rfl
  | some t =>
    simp only
    rw [table t found]

/-! ## walkpgdir -/

theorem walk_some {pgdir v : Nat} {s t : Kernel} {ptr : PtePtr}
    (success : walkpgdirNoAlloc pgdir v s = .ok (some ptr, t)) :
    t = s ∧ pgdir < NPHYS ∧ tablePage s.mem pgdir (pdx v) = some ptr.page ∧
      ptr = ⟨ptr.page, ptx v⟩ := by
  obtain ⟨inside, rfl, found⟩ := walkpgdirNoAlloc_ok_iff.mp success
  split at found
  · rename_i present
    cases found
    exact ⟨rfl, inside, tablePage_eq_some.mpr ⟨present, rfl⟩, rfl⟩
  · cases found

theorem walk_none {pgdir v : Nat} {s t : Kernel}
    (success : walkpgdirNoAlloc pgdir v s = .ok (none, t)) :
    t = s ∧ tablePage s.mem pgdir (pdx v) = none := by
  obtain ⟨inside, rfl, found⟩ := walkpgdirNoAlloc_ok_iff.mp success
  split at found
  · cases found
  · rename_i absent
    exact ⟨rfl, by rw [tablePage, if_neg absent]⟩

section Walk

variable {α : Type} {pgdir v : Nat} {s t : Kernel} {value : α}

/-- What follows a walk goes on in the state before it, with the entry or with none. -/
theorem walk_cases {next : Option PtePtr → K α}
    (success : (walkpgdirNoAlloc pgdir v >>= next) s = .ok (value, t)) :
    (tablePage s.mem pgdir (pdx v) = none ∧ next none s = .ok (value, t)) ∨
      ∃ x, tablePage s.mem pgdir (pdx v) = some x ∧
        next (some ⟨x, ptx v⟩) s = .ok (value, t) := by
  obtain ⟨pte, u, walked, rest⟩ := Prog.bind_ok_iff.mp success
  cases pte with
  | none =>
    obtain ⟨rfl, absent⟩ := walk_none walked
    exact Or.inl ⟨absent, rest⟩
  | some ptr =>
    obtain ⟨rfl, -, table, shape⟩ := walk_some walked
    exact Or.inr ⟨ptr.page, table, by rwa [← shape]⟩

theorem entry_loaded {next : Word → K α} {x : Nat} (table : tablePage s.mem pgdir (pdx v) = some x)
    (success : (loadWord ⟨x, ptx v⟩ >>= next) s = .ok (value, t)) :
    next (pteOf s.mem pgdir v) s = .ok (value, t) := by
  obtain ⟨w, u, loaded, rest⟩ := Prog.bind_ok_iff.mp success
  obtain ⟨-, rfl, rfl⟩ := loadWord_ok_iff.mp loaded
  rwa [pteOf_of_table table]

/-- Where the result of the walk is dereferenced unchecked, there was a page table. -/
theorem deref_cases {next : Option PtePtr → Word → K α}
    (success : (walkpgdirNoAlloc pgdir v >>= fun pte => derefPte pte >>= next pte) s =
      .ok (value, t)) :
    pgdir < NPHYS ∧ ∃ x < NPHYS, tablePage s.mem pgdir (pdx v) = some x ∧
      next (some ⟨x, ptx v⟩) (pteOf s.mem pgdir v) s = .ok (value, t) := by
  obtain ⟨pte, u, walked, rest⟩ := Prog.bind_ok_iff.mp success
  obtain ⟨w, u', loaded, rest⟩ := Prog.bind_ok_iff.mp rest
  obtain ⟨⟨x, i⟩, rfl, small, rfl, rfl⟩ := derefPte_ok_iff.mp loaded
  obtain ⟨rfl, dir, table, shape⟩ := walk_some walked
  obtain rfl : i = ptx v := congrArg PtePtr.index shape
  exact ⟨dir, x, small, table, by rwa [pteOf_of_table table]⟩

end Walk

theorem walk_of_table {pgdir v t : Nat} {s : Kernel} (inside : pgdir < NPHYS)
    (table : tablePage s.mem pgdir (pdx v) = some t) :
    walkpgdirNoAlloc pgdir v s = .ok (some ⟨t, ptx v⟩, s) := by
  obtain ⟨present, rfl⟩ := tablePage_eq_some.mp table
  exact walkpgdirNoAlloc_ok_iff.mpr ⟨inside, rfl, by rw [if_pos present]⟩

theorem walk_of_none {pgdir v : Nat} {s : Kernel} (inside : pgdir < NPHYS)
    (absent : tablePage s.mem pgdir (pdx v) = none) :
    walkpgdirNoAlloc pgdir v s = .ok (none, s) := by
  refine walkpgdirNoAlloc_ok_iff.mpr ⟨inside, rfl, ?_⟩
  rw [if_neg]
  intro present
  rw [tablePage, if_pos present] at absent
  cases absent

/-! ## Writes -/

theorem setWord_page (m : Nat → Page) (ptr : PtePtr) (w : Word) :
    setWord m ptr w ptr.page = Function.update (m ptr.page) ptr.index w := by
  rw [setWord, Function.update_self]

theorem setWord_of_ne {m : Nat → Page} {ptr : PtePtr} {w : Word} {q : Nat} (other : q ≠ ptr.page) :
    setWord m ptr w q = m q := by
  rw [setWord, Function.update_of_ne other]

theorem setWord_self (m : Nat → Page) (ptr : PtePtr) (w : Word) :
    setWord m ptr w ptr.page ptr.index = w := by
  rw [setWord_page, Function.update_self]

theorem setWord_eq_of_ne {m : Nat → Page} {ptr : PtePtr} {w : Word} {q : Nat} {i : Fin 1024}
    (other : q = ptr.page → i ≠ ptr.index) : setWord m ptr w q i = m q i := by
  by_cases page : q = ptr.page
  · subst page
    rw [setWord_page, Function.update_of_ne (other rfl)]
  · rw [setWord_of_ne page]

end Xv6Cow
