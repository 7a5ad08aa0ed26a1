import Xv6Cow.Scenario
import Mathlib.Data.Finset.Sum

/- fetchint and fetchstr of syscall.c and the arguments of sys_exec. A string that sys_exec
accepts lies in the caller's memory, and no memory is larger than the frames and the swap slots
together. -/
namespace Xv6Cow

variable {g : Ghost} {s : Kernel} {p : Fin NPROC} {d v : Nat}

/-- The byte at a user address of the process, wherever its page is. -/
def userMem (s : Kernel) (p : Fin NPROC) (va : Nat) : Option Byte :=
  (spaceOf s (s.ptable p).pgdir (va / PGSIZE)).map fun content => content.2.byte (va % PGSIZE)

def fetchint (s : Kernel) (p : Fin NPROC) (addr : Nat) : Option Nat :=
  if (s.ptable p).sz ≤ addr ∨ (s.ptable p).sz < (addr + 4) % 2 ^ 32 then none
  else do
    let b0 ← userMem s p addr
    let b1 ← userMem s p (addr + 1)
    let b2 ← userMem s p (addr + 2)
    let b3 ← userMem s p (addr + 3)
    some (joinBytes b0 b1 b2 b3).toNat

/-- The loop of fetchstr, over at most `n` bytes. -/
def scanstr (mem : Nat → Option Byte) : Nat → Nat → Option (List Byte)
  | 0, _ => none
  | n + 1, addr => do
    let b ← mem addr
    if b = 0 then some []
    else do
      let rest ← scanstr mem n (addr + 1)
      some (b :: rest)

/-- fetchstr: the string at `addr`, without its NUL. -/
def fetchstr (s : Kernel) (p : Fin NPROC) (addr : Nat) : Option (List Byte) :=
  if (s.ptable p).sz ≤ addr then none else scanstr (userMem s p) ((s.ptable p).sz - addr) addr

/-- The loop of sys_exec, with room for `n` more entries of argv. -/
def fetchArgs (s : Kernel) (p : Fin NPROC) (uargv : Nat) : Nat → Nat → Option (List (List Byte))
  | 0, _ => none
  | n + 1, i => do
    let uarg ← fetchint s p ((uargv + 4 * i) % 2 ^ 32)
    if uarg = 0 then some []
    else do
      let arg ← fetchstr s p uarg
      let rest ← fetchArgs s p uargv n (i + 1)
      some (arg :: rest)

/-- The argument vector that sys_exec passes on to exec. -/
def sysExecArgs (s : Kernel) (p : Fin NPROC) (uargv : Nat) : Option (List (List Byte)) :=
  fetchArgs s p uargv MAXARG 0

/-! ## The size of an address space -/

/-- A page of an address space is in a frame or in a slot, and no other page of it is there. -/
theorem Rep.pages_le (rep : Rep g s) (inside : d ∈ g.dirs) (lo hi : Nat) (user : hi ≤ NUPAGE)
    (mapped : ∀ u, lo ≤ u → u < hi → spaceOf s d u ≠ none) : hi - lo ≤ NPHYS + NPAGE := by
  have place :
      ∀ u, lo ≤ u → u < hi → has (pteOf s.mem d u) PTE_P = true ∨
      isSwapped (pteOf s.mem d u) = true := by
    intro u low high
    by_contra neither
    rw [not_or, Bool.not_eq_true, Bool.not_eq_true] at neither
    refine mapped u low high ?_
    unfold spaceOf
    rw [rep.entries.shape inside (by omega) neither.1 neither.2, pageAt_zero]
  have slot : ∀ u, lo ≤ u → u < hi → isSwapped (pteOf s.mem d u) = true →
      slotOf (pteOf s.mem d u) < NPAGE ∧
      ppn (pteOf s.mem d u) = SWAPBASE + slotOf (pteOf s.mem d u) * BPPAGE := by
    intro u low high swapped
    obtain ⟨i, small, named, -⟩ := rep.slots.named inside (by omega) swapped
    have same : slotOf (pteOf s.mem d u) = i := by
      unfold slotOf
      rw [named, SWAPBASE_eq, BPPAGE_eq]
      omega
    rw [same]
    exact ⟨small, named⟩
  let home : Nat → Nat ⊕ Nat := fun u =>
    if has (pteOf s.mem d u) PTE_P then .inl (ppn (pteOf s.mem d u)) else .inr
    (slotOf (pteOf s.mem d u))
  have card :
      (Finset.Ico lo hi).card ≤ ((Finset.range NPHYS).disjSum (Finset.range NPAGE)).card := by
    refine Finset.card_le_card_of_injOn home ?_ ?_
    · intro u member
      rw [Finset.mem_coe, Finset.mem_Ico] at member
      rw [Finset.mem_coe]
      change (if _ then _ else _ : Nat ⊕ Nat) ∈ _
      split
      · rename_i present
        have pooled := (rep.entries.frame inside (by omega) (frameOf_present present)).1
        exact Finset.inl_mem_disjSum.mpr (Finset.mem_range.mpr (rep.layout.pool_bounds _ pooled).2)
      · rename_i absent
        have swapped := (place u member.1 member.2).resolve_left absent
        exact Finset.inr_mem_disjSum.mpr (Finset.mem_range.mpr (slot u member.1 member.2 swapped).1)
    · intro u member w member' same
      rw [Finset.mem_coe, Finset.mem_Ico] at member member'
      change (if _ then _ else _ : Nat ⊕ Nat) = (if _ then _ else _) at same
      split at same <;> split at same
      · rename_i present present'
        refine (rep.entries.place inside inside (by omega) (by omega) (frameOf_present present)
          ?_).symm
        rw [frameOf_present present', Sum.inl.inj same]
      · cases same
      · cases same
      · rename_i absent absent'
        have swapped := (place u member.1 member.2).resolve_left absent
        have swapped' := (place w member'.1 member'.2).resolve_left absent'
        obtain ⟨small, named⟩ := slot u member.1 member.2 swapped
        have named' := (slot w member'.1 member'.2 swapped').2
        rw [← Sum.inr.inj same] at named'
        have one : owners g.dirs s.mem (SWAPBASE + slotOf (pteOf s.mem d u) * BPPAGE) ≤ 1 := by
          have taken := rep.slots.taken small
          split at taken <;> split at taken <;> omega
        have both := RefCount.count_unique one (mem_sites.mpr ⟨inside, (by omega : u < NUPAGE)⟩)
          (mem_sites.mpr ⟨inside, (by omega : w < NUPAGE)⟩) (blockOf_eq_some.mpr ⟨swapped, named⟩)
          (blockOf_eq_some.mpr ⟨swapped', named'⟩)
        exact congrArg Prod.snd both
  rw [Nat.card_Ico, Finset.card_disjSum, Finset.card_range, Finset.card_range] at card
  exact card

/-! ## Strings -/

theorem scanstr_nil_iff {mem : Nat → Option Byte} {n addr : Nat} :
    scanstr mem (n + 1) addr = some [] ↔ mem addr = some 0 := by
  constructor
  · intro found
    obtain ⟨b, here, found⟩ := Option.bind_eq_some_iff.mp found
    split at found
    · rename_i zero
      rw [here, zero]
    · obtain ⟨rest, -, found⟩ := Option.bind_eq_some_iff.mp found
      cases found
  · intro here
    rw [scanstr, here]
    rfl

theorem scanstr_cons_iff {mem : Nat → Option Byte} {n addr : Nat} {b : Byte} {rest : List Byte} :
    scanstr mem (n + 1) addr = some (b :: rest) ↔ mem addr = some b ∧ b ≠ 0 ∧
      scanstr mem n (addr + 1) = some rest := by
  constructor
  · intro found
    obtain ⟨c, here, found⟩ := Option.bind_eq_some_iff.mp found
    split at found
    · cases found
    · rename_i letter
      obtain ⟨more, later, found⟩ := Option.bind_eq_some_iff.mp found
      cases found
      exact ⟨here, letter, later⟩
  · rintro ⟨here, letter, later⟩
    rw [scanstr, here, later]
    exact if_neg letter

/-- The scan finds exactly the strings that end, with their NUL, before the limit. -/
theorem scanstr_some_iff {mem : Nat → Option Byte} {n addr : Nat} {arg : List Byte} :
    scanstr mem n addr = some arg ↔
      0 ∉ arg ∧ arg.length < n ∧ ∀ k, k ≤ arg.length →
      mem (addr + k) = some ((arg ++ [0#8]).getD k 0) := by
  induction n generalizing addr arg with
  | zero => exact ⟨fun found => (Option.some_ne_none _ found.symm).elim, fun found =>
    absurd found.2.1 (Nat.not_lt_zero _)⟩
  | succ n ih =>
    cases arg with
    | nil =>
      rw [scanstr_nil_iff]
      refine ⟨fun here => ⟨List.not_mem_nil, Nat.succ_pos n, fun k small => ?_⟩, fun found =>
        found.2.2 0 (Nat.le_refl 0)⟩
      rw [Nat.le_zero.mp small]
      exact here
    | cons b rest =>
      rw [scanstr_cons_iff, ih, List.mem_cons, not_or, List.length_cons]
      constructor
      · rintro ⟨here, letter, plain, length, later⟩
        refine ⟨⟨Ne.symm letter, plain⟩, by omega, fun k small => ?_⟩
        cases k with
        | zero => exact here
        | succ k =>
          rw [show addr + (k + 1) = addr + 1 + k by omega]
          exact later k (by omega)
      · rintro ⟨⟨letter, plain⟩, length, bytes⟩
        refine ⟨bytes 0 (Nat.zero_le _), Ne.symm letter, plain, by omega, fun k small => ?_⟩
        rw [show addr + 1 + k = addr + (k + 1) by omega]
        exact bytes (k + 1) (by omega)

/-- A string in the caller's memory is no longer than all frames and slots. -/
theorem Rep.fetchstr_le (rep : Rep g s) (inside : (s.ptable p).pgdir ∈ g.dirs)
    (small : (s.ptable p).sz ≤ KERNBASE)
    {addr : Nat} {arg : List Byte} (found : fetchstr s p addr = some arg) :
    0 ∉ arg ∧ arg.length < (NPHYS + NPAGE) * PGSIZE := by
  unfold fetchstr at found
  split at found
  · cases found
  · rename_i below
    obtain ⟨plain, length, bytes⟩ := scanstr_some_iff.mp found
    have bound := rep.pages_le inside (addr / PGSIZE) ((addr + arg.length) / PGSIZE + 1)
      (by
        rw [KERNBASE_eq] at small
        rw [PGSIZE_eq, NUPAGE_eq]
        omega)
      (fun u low high vacant => by
        -- Some byte of the string is on page `u`.
        have byte : ∃ k, k ≤ arg.length ∧ (addr + k) / PGSIZE = u := by
          refine ⟨max addr (u * PGSIZE) - addr, ?_, ?_⟩ <;> rw [PGSIZE_eq] at * <;> omega
        obtain ⟨k, within, page⟩ := byte
        have here := bytes k within
        unfold userMem at here
        rw [page, vacant] at here
        cases here)
    refine ⟨plain, ?_⟩
    rw [NPHYS_eq, NPAGE_eq, PGSIZE_eq] at *
    omega

theorem fetchArgs_some {uargv n i : Nat} {argv : List (List Byte)}
    (found : fetchArgs s p uargv n i = some argv) :
    argv.length < n ∧ ∀ arg ∈ argv, ∃ addr, fetchstr s p addr = some arg := by
  induction n generalizing i argv with
  | zero => cases found
  | succ n ih =>
    obtain ⟨uarg, -, found⟩ := Option.bind_eq_some_iff.mp found
    split at found
    · cases found
      exact ⟨Nat.succ_pos n, fun arg member => by cases member⟩
    · obtain ⟨arg, here, found⟩ := Option.bind_eq_some_iff.mp found
      obtain ⟨rest, later, found⟩ := Option.bind_eq_some_iff.mp found
      cases found
      obtain ⟨length, strings⟩ := ih later
      refine ⟨Nat.succ_lt_succ length, fun other member => ?_⟩
      rcases List.mem_cons.mp member with rfl | member
      · exact ⟨uarg, here⟩
      · exact strings other member

/-- What sys_exec passes on: fewer than MAXARG strings, none with a NUL in it and none longer than
the memory. -/
theorem Rep.sysExecArgs_le (rep : Rep g s) (inside : (s.ptable p).pgdir ∈ g.dirs)
    (small : (s.ptable p).sz ≤ KERNBASE)
    {uargv : Nat} {argv : List (List Byte)} (accepted : sysExecArgs s p uargv = some argv) :
    argv.length < MAXARG ∧ ∀ arg ∈ argv, 0 ∉ arg ∧ arg.length < (NPHYS + NPAGE) * PGSIZE := by
  obtain ⟨length, strings⟩ := fetchArgs_some accepted
  refine ⟨length, fun arg member => ?_⟩
  obtain ⟨addr, found⟩ := strings arg member
  exact rep.fetchstr_le inside small found

end Xv6Cow
