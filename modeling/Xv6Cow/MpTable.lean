import Mathlib.Logic.Function.Iterate
import Mathlib.Tactic.Basic
import Xv6Cow.Params
import Xv6Cow.Word

/- mp.c: the search for the MP floating pointer structure and its configuration
table, and the loop of mpinit over the table's entries. Memory is what the firmware
left there, byte by byte at virtual addresses; pointers into the table are offsets
that do not wrap. -/
namespace Xv6Cow.Mp

def NCPU : Nat := 1

abbrev Memory : Type := Nat → Byte

/-- P2V of a 32-bit physical address. -/
def p2v (a : Nat) : Nat := (a + KERNBASE) % 0x100000000

/-- A little-endian ushort. -/
def ushort (mem : Memory) (p : Nat) : Nat := (mem p).toNat + 256 * (mem (p + 1)).toNat

/-- A little-endian uint. -/
def uint (mem : Memory) (p : Nat) : Nat := ushort mem p + 65536 * ushort mem (p + 2)

/-- memcmp with the bytes of a string literal. -/
def same (mem : Memory) (p : Nat) (text : List Char) : Bool :=
  (List.range text.length).map (fun i => (mem (p + i)).toNat) == text.map Char.toNat

/-- The sum of `len` bytes, as a uchar. -/
def sum (mem : Memory) (addr len : Nat) : Nat :=
  (List.range len).foldl (fun total i => total + (mem (addr + i)).toNat) 0 % 256

/-! ## The search -/

/-- sizeof(struct mp). -/
def mpSize : Nat := 16

/-- The loop of mpsearch1 with `n` structures to look at from `p`. -/
def mpsearchFrom (mem : Memory) : Nat → Nat → Option Nat
  | 0, _ => none
  | n + 1, p =>
    if same mem p ['_', 'M', 'P', '_'] && sum mem p mpSize == 0 then some p
    else mpsearchFrom mem n (p + mpSize)

def mpsearch1 (mem : Memory) (a len : Nat) : Option Nat :=
  mpsearchFrom mem ((len + mpSize - 1) / mpSize) (p2v a)

/-- The EBDA or the last KB of base memory, then the BIOS ROM. -/
def mpsearch (mem : Memory) : Option Nat :=
  let bda := p2v 0x400
  let ebda := ushort mem (bda + 0x0E) * 16
  let top := ushort mem (bda + 0x13) * 1024
  let first := if ebda ≠ 0 then mpsearch1 mem ebda 1024
    else mpsearch1 mem ((top + 0x100000000 - 1024) % 0x100000000) 1024
  first.or (mpsearch1 mem 0xF0000 0x10000)

/-! Fields of struct mp and struct mpconf. -/

def physaddr (mem : Memory) (mp : Nat) : Nat := uint mem (mp + 4)
def imcrp (mem : Memory) (mp : Nat) : Byte := mem (mp + 12)
def confLength (mem : Memory) (conf : Nat) : Nat := ushort mem (conf + 4)
def confVersion (mem : Memory) (conf : Nat) : Byte := mem (conf + 6)
def lapicaddr (mem : Memory) (conf : Nat) : Nat := uint mem (conf + 36)

/-- sizeof(struct mpconf). -/
def confSize : Nat := 44

/-- The configuration table at `conf` passes the checks. -/
def acceptable (mem : Memory) (conf : Nat) : Bool :=
  same mem conf ['P', 'C', 'M', 'P'] && (confVersion mem conf == 1 || confVersion mem conf == 4) &&
    sum mem conf (confLength mem conf) == 0

/-- The floating pointer structure and the configuration table. -/
def mpconfig (mem : Memory) : Option (Nat × Nat) :=
  (mpsearch mem).bind fun mp =>
    if physaddr mem mp = 0 then none
    else if acceptable mem (p2v (physaddr mem mp)) then some (mp, p2v (physaddr mem mp)) else none

/-! ## The entry loop -/

/-- The table entry types of mp.h. -/
inductive EntryType
  | mpproc
  | mpbus
  | mpioapic
  | mpiointr
  | mplintr
  deriving DecidableEq

def entryType (b : Byte) : Option EntryType :=
  match b.toNat with
  | 0 => some .mpproc
  | 1 => some .mpbus
  | 2 => some .mpioapic
  | 3 => some .mpiointr
  | 4 => some .mplintr
  | _ => none

/-- What the loop works on: its cursor, the globals it sets, and the addresses of the
type bytes it has read, last first. -/
structure Scan where
  p : Nat
  ismp : Bool
  ncpu : Nat
  apicid : Nat → Byte
  ioapicid : Byte
  types : List Nat

/-- case MPPROC. -/
def Scan.processor (s : Scan) (mem : Memory) : Scan :=
  if s.ncpu < NCPU then
    { s with
      p := s.p + 20
      ncpu := s.ncpu + 1
      apicid := fun i => if i = s.ncpu then mem (s.p + 1) else s.apicid i }
  else { s with p := s.p + 20 }

/-- One turn of the loop. The break of the default case leaves the switch only. -/
def Scan.entry (mem : Memory) (s : Scan) : Scan :=
  let read := { s with types := s.p :: s.types }
  match entryType (mem s.p) with
  | some .mpproc => read.processor mem
  | some .mpioapic => { read with ioapicid := mem (s.p + 1), p := s.p + 8 }
  | some .mpbus | some .mpiointr | some .mplintr => { read with p := s.p + 8 }
  | none => { read with ismp := false }

/-- The loop, for at most `fuel` turns. -/
def Scan.loop (mem : Memory) (e : Nat) : Nat → Scan → Option Scan
  | 0, _ => none
  | fuel + 1, s => if s.p < e then loop mem e fuel (s.entry mem) else some s

/-- The loop's start for the table at `conf`: ncpu is a global that starts at zero. -/
def Scan.start (conf : Nat) : Scan where
  p := conf + confSize
  ismp := true
  ncpu := 0
  apicid := fun _ => 0
  ioapicid := 0
  types := []

/-- What mpinit leaves behind: the globals and its writes to I/O ports. -/
structure Machine where
  ncpu : Nat
  apicid : Nat → Byte
  ioapicid : Byte
  lapic : Nat
  outb : List (Nat × Byte)

/-- After the loop; `imcr` is what inb(0x23) reads. -/
def finish (mem : Memory) (imcr : Byte) (mp conf : Nat) (s : Scan) : Except String Machine :=
  if s.ismp then
    .ok { ncpu := s.ncpu, apicid := s.apicid, ioapicid := s.ioapicid, lapic := lapicaddr mem conf,
          outb := if imcrp mem mp ≠ 0 then [(0x22, 0x70), (0x23, imcr ||| 1)] else [] }
  else .error "Didn't find a suitable machine"

/-- mpinit, with a bound on the turns of its loop: `none` where it is still looping. -/
def mpinit (mem : Memory) (imcr : Byte) (fuel : Nat) : Option (Except String Machine) :=
  match mpconfig mem with
  | none => some (.error "Expect to run on an SMP")
  | some (mp, conf) =>
    (Scan.loop mem (conf + confLength mem conf) fuel (.start conf)).map (finish mem imcr mp conf)

/-! ## What one turn does -/

section Turns

variable {mem : Memory} {e : Nat} {s t : Scan}

/-- The switch has a case for the type at the cursor. -/
def Known (mem : Memory) (s : Scan) : Prop := entryType (mem s.p) ≠ none

theorem Scan.entry_types : (s.entry mem).types = s.p :: s.types := by
  unfold Scan.entry Scan.processor
  dsimp only
  split
  · split <;> rfl
  all_goals rfl

theorem Scan.entry_ncpu (few : s.ncpu ≤ NCPU) : (s.entry mem).ncpu ≤ NCPU := by
  unfold Scan.entry Scan.processor
  dsimp only
  split
  · split
    · rename_i room
      exact room
    · exact few
  all_goals exact few

theorem Scan.entry_known (known : Known mem s) :
    s.p + 8 ≤ (s.entry mem).p ∧ (s.entry mem).ismp = s.ismp := by
  unfold Known at known
  unfold Scan.entry Scan.processor
  dsimp only
  split
  · split
    · exact ⟨Nat.add_le_add_left (by decide) _, rfl⟩
    · exact ⟨Nat.add_le_add_left (by decide) _, rfl⟩
  case h_6 unknown => exact absurd unknown known
  all_goals exact ⟨Nat.le_refl _, rfl⟩

theorem Scan.entry_unknown (unknown : ¬ Known mem s) : (s.entry mem).p = s.p := by
  unfold Scan.entry
  rw [Decidable.not_not.mp unknown]

/-! ## What a run of the loop does -/

/-- The loop's state after `k` turns, the last one repeated once the loop has ended. -/
def Scan.after (mem : Memory) (e k : Nat) (s : Scan) : Scan :=
  (fun s : Scan => if s.p < e then s.entry mem else s)^[k] s

theorem Scan.after_succ (k : Nat) (goes : s.p < e) :
    s.after mem e (k + 1) = (s.entry mem).after mem e k := by
  unfold Scan.after
  rw [Function.iterate_succ_apply, if_pos goes]

theorem Scan.after_invariant {I : Scan → Prop} (keep : ∀ s : Scan, s.p < e → I s → I (s.entry mem))
    (k : Nat) (start : I s) : I (s.after mem e k) := by
  unfold Scan.after
  induction k with
  | zero => exact start
  | succ k ih =>
    rw [Function.iterate_succ_apply']
    split
    · rename_i goes
      exact keep _ goes ih
    · exact ih

/-- The loop comes to an entry of unknown type. -/
def MeetsUnknown (mem : Memory) (e : Nat) (s : Scan) : Prop :=
  ∃ k, (s.after mem e k).p < e ∧ ¬ Known mem (s.after mem e k)

theorem MeetsUnknown.later (goes : s.p < e) (meets : MeetsUnknown mem e (s.entry mem)) :
    MeetsUnknown mem e s := by
  obtain ⟨k, inside, unknown⟩ := meets
  rw [← Scan.after_succ k goes] at inside unknown
  exact ⟨k + 1, inside, unknown⟩

theorem known_of_not_meets (goes : s.p < e) (known : ¬ MeetsUnknown mem e s) : Known mem s := by
  by_contra unknown
  exact known ⟨0, goes, unknown⟩

theorem Scan.loop_returns {n : Nat} (left : e - s.p ≤ n) (known : ¬ MeetsUnknown mem e s) :
    ∃ t, Scan.loop mem e (n + 1) s = some t := by
  induction n generalizing s with
  | zero =>
    refine ⟨s, ?_⟩
    rw [Scan.loop, if_neg (by omega)]
  | succ n ih =>
    rw [Scan.loop]
    by_cases goes : s.p < e
    · rw [if_pos goes]
      have moved := (Scan.entry_known (known_of_not_meets goes known)).1
      exact ih (by omega) fun meets => known (meets.later goes)
    · exact ⟨s, if_neg goes⟩

theorem Scan.loop_ismp {fuel : Nat} (known : ¬ MeetsUnknown mem e s)
    (ran : Scan.loop mem e fuel s = some t) : t.ismp = s.ismp := by
  induction fuel generalizing s with
  | zero => cases ran
  | succ fuel ih =>
    rw [Scan.loop] at ran
    split at ran
    · rename_i goes
      exact (ih (fun meets => known (meets.later goes)) ran).trans
        (Scan.entry_known (known_of_not_meets goes known)).2
    · cases ran
      rfl

theorem Scan.loop_stuck (goes : s.p < e) (unknown : ¬ Known mem s) (fuel : Nat) :
    Scan.loop mem e fuel s = none := by
  induction fuel generalizing s with
  | zero => rfl
  | succ fuel ih =>
    have still : (s.entry mem).p = s.p := Scan.entry_unknown unknown
    rw [Scan.loop, if_pos goes]
    refine ih (still ▸ goes) ?_
    unfold Known at unknown ⊢
    rwa [still]

theorem Scan.loop_of_meets (meets : MeetsUnknown mem e s) (fuel : Nat) :
    Scan.loop mem e fuel s = none := by
  obtain ⟨k, inside, unknown⟩ := meets
  induction k generalizing s fuel with
  | zero => exact Scan.loop_stuck inside unknown fuel
  | succ k ih =>
    by_cases goes : s.p < e
    · rw [Scan.after_succ k goes] at inside unknown
      cases fuel with
      | zero => rfl
      | succ fuel =>
        rw [Scan.loop, if_pos goes]
        exact ih fuel inside unknown
    · have ended : (if s.p < e then s.entry mem else s) = s := if_neg goes
      have same : s.after mem e (k + 1) = s :=
        Function.iterate_fixed (f := fun s : Scan => if s.p < e then s.entry mem else s) ended _
      rw [same] at inside
      exact absurd inside goes

/-- Type bytes are read below the end of the table only, and no processor is recorded
beyond the array. -/
theorem Scan.after_bounded (k : Nat) (conf : Nat) :
    (∀ a ∈ ((Scan.start conf).after mem e k).types, a < e) ∧
      ((Scan.start conf).after mem e k).ncpu ≤ NCPU := by
  refine Scan.after_invariant (I := fun s => (∀ a ∈ s.types, a < e) ∧ s.ncpu ≤ NCPU) ?_ k
    ⟨fun a member => absurd member List.not_mem_nil, Nat.zero_le _⟩
  intro s goes bounded
  refine ⟨?_, Scan.entry_ncpu bounded.2⟩
  rw [Scan.entry_types]
  intro a member
  rcases List.mem_cons.mp member with rfl | old
  · exact goes
  · exact bounded.1 a old

end Turns

/-! ## mpinit as a whole -/

/-- What is asked of mpinit on an accepted table: it comes to an end, reads type bytes
inside the table only, records at most NCPU processors, and panics if it meets an
entry it does not know. -/
structure Completes (mem : Memory) (imcr : Byte) (conf : Nat) : Prop where
  ends : ∃ fuel out, mpinit mem imcr fuel = some out
  inside : ∀ k, ∀ a ∈ ((Scan.start conf).after mem (conf + confLength mem conf) k).types,
    a < conf + confLength mem conf
  recorded : ∀ k, ((Scan.start conf).after mem (conf + confLength mem conf) k).ncpu ≤ NCPU
  refuses : MeetsUnknown mem (conf + confLength mem conf) (.start conf) →
    ∃ fuel, mpinit mem imcr fuel = some (.error "Didn't find a suitable machine")

theorem mpinit_of_found {mem : Memory} {mp conf : Nat} (imcr : Byte)
    (found : mpconfig mem = some (mp, conf)) (fuel : Nat) :
    mpinit mem imcr fuel =
      (Scan.loop mem (conf + confLength mem conf) fuel (.start conf)).map
        (finish mem imcr mp conf) := by
  unfold mpinit
  rw [found]

/-- With an accepted table mpinit does what it should exactly when every entry it comes
to has a known type; the panic for the others is never reached. -/
theorem mpinit_completes_iff {mem : Memory} {mp conf : Nat} (imcr : Byte)
    (found : mpconfig mem = some (mp, conf)) :
    (Completes mem imcr conf ↔
        ¬ MeetsUnknown mem (conf + confLength mem conf) (.start conf)) ∧
      (MeetsUnknown mem (conf + confLength mem conf) (.start conf) →
        ∀ fuel, mpinit mem imcr fuel = none) ∧
      ∀ fuel, mpinit mem imcr fuel ≠ some (.error "Didn't find a suitable machine") := by
  have hangs : MeetsUnknown mem (conf + confLength mem conf) (.start conf) →
      ∀ fuel, mpinit mem imcr fuel = none := by
    intro meets fuel
    rw [mpinit_of_found imcr found, Scan.loop_of_meets meets]
    rfl
  have never : ∀ fuel,
      mpinit mem imcr fuel ≠ some (.error "Didn't find a suitable machine") := by
    intro fuel panics
    by_cases meets : MeetsUnknown mem (conf + confLength mem conf) (.start conf)
    · rw [hangs meets] at panics
      cases panics
    · rw [mpinit_of_found imcr found] at panics
      obtain ⟨t, ran, refused⟩ := Option.map_eq_some_iff.mp panics
      have kept : t.ismp = true := Scan.loop_ismp meets ran
      rw [finish, if_pos kept] at refused
      cases refused
  refine ⟨⟨?_, ?_⟩, hangs, never⟩
  · intro completes meets
    obtain ⟨fuel, panics⟩ := completes.refuses meets
    exact never fuel panics
  · intro known
    obtain ⟨turns, t, ran⟩ : ∃ turns t,
        Scan.loop mem (conf + confLength mem conf) turns (.start conf) = some t :=
      ⟨_, Scan.loop_returns (Nat.le_refl _) known⟩
    have returns := mpinit_of_found imcr found turns
    rw [ran] at returns
    exact ⟨⟨_, _, returns⟩, fun k => (Scan.after_bounded k conf).1,
      fun k => (Scan.after_bounded k conf).2, fun meets => absurd meets known⟩

/-! ## Two tables -/

/-- Memory with the floating pointer structure at 0x100, in the EBDA, and the bytes of
a configuration table at 0x200. -/
def firmware (table : List Nat) : Memory := fun a =>
  let physical := a - KERNBASE
  BitVec.ofNat 8 <|
    if physical = 0x40E then 0x10
    else if physical < 0x100 then 0
    else if physical < 0x110 then
      [95, 77, 80, 95, 0, 2, 0, 0, 1, 4, 158, 0, 0, 0, 0, 0].getD (physical - 0x100) 0
    else if physical < 0x200 then 0
    else table.getD (physical - 0x200) 0

/-- The header of a table of `length` bytes, version 4. -/
def header (length checksum : Nat) : List Nat :=
  [80, 67, 77, 80, length, 0, 4, checksum] ++ List.replicate 36 0

/-- One processor entry. -/
def uniprocessor : Memory := firmware (header 64 140 ++ List.replicate 20 0)

/-- One entry of type 5. -/
def unknownEntry : Memory := firmware (header 45 154 ++ [5])

theorem mpinit_completes_iff_uniprocessor :
    mpconfig uniprocessor = some (KERNBASE + 0x100, KERNBASE + 0x200) ∧
      Completes uniprocessor 0 (KERNBASE + 0x200) := by
  have found : mpconfig uniprocessor = some (KERNBASE + 0x100, KERNBASE + 0x200) := by
    decide +kernel
  refine ⟨found, (mpinit_completes_iff 0 found).1.mpr ?_⟩
  intro meets
  have ran : (Scan.loop uniprocessor (KERNBASE + 0x200 + 64) 2
      (.start (KERNBASE + 0x200))).isSome :=
    by decide +kernel
  have length : confLength uniprocessor (KERNBASE + 0x200) = 64 := by decide +kernel
  rw [length] at meets
  rw [Scan.loop_of_meets meets] at ran
  cases ran

/-- mpinit accepts this table and then neither returns nor panics. -/
theorem mpinit_hangs :
    mpconfig unknownEntry = some (KERNBASE + 0x100, KERNBASE + 0x200) ∧
      ∀ imcr fuel, mpinit unknownEntry imcr fuel = none := by
  have found : mpconfig unknownEntry = some (KERNBASE + 0x100, KERNBASE + 0x200) := by
    decide +kernel
  refine ⟨found, fun imcr fuel => ?_⟩
  rw [mpinit_of_found imcr found, Scan.loop_of_meets ⟨0, by decide +kernel, fun known => known ?_⟩]
  · rfl
  · decide +kernel

end Xv6Cow.Mp
