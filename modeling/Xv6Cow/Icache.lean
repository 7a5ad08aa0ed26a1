import Xv6Cow.Lib.Runs
import Xv6Cow.Lib.Tally

/- fs.c: one entry of the inode cache, shared by `n` processes. iput is cut at
its locks: the check under the inode's sleep-lock, the free that follows it
under the same lock, and the decrement of `ref` under icache.lock. -/
namespace Xv6Cow.Icache

open Function (update_self update_of_ne)
open Runs Tally

/-- `struct dinode`, as far as iput reads and writes it. -/
structure Dinode where
  type : Nat
  nlink : Nat
  addrs : List Nat
  deriving DecidableEq

/-- `struct inode`: the cached copy is only meaningful while `valid`. -/
structure Inode where
  ref : Nat
  valid : Bool
  copy : Dinode
  deriving DecidableEq

/-- Where a process stands in iput. `checked` holds the sleep-lock; its argument is
the `r` read when the inode was valid and had no links. -/
inductive Phase
  | idle
  | checked (r : Option Nat)
  | dropping
  deriving DecidableEq

/-- A process: the references it holds and is not dropping, and its iput. -/
structure Holder where
  refs : Nat
  phase : Phase
  deriving DecidableEq

/-- The entry, the inode on disk, the blocks handed to bfree so far, and the
processes. -/
structure Entry (n : Nat) where
  inode : Inode
  disk : Dinode
  bfreed : List Nat
  procs : Fin n → Holder
  deriving DecidableEq

variable {n : Nat}

/-- A critical section of one process. -/
inductive Section (n : Nat)
  | iget (p : Fin n)
  | idup (p : Fin n)
  | ilock (p : Fin n)
  | unlink (p : Fin n)
  | check (p : Fin n)
  | release (p : Fin n)
  | drop (p : Fin n)
  deriving DecidableEq

def Phase.isChecked : Phase → Bool
  | .checked _ => true
  | _ => false

/-- The references a process accounts for in `ref`. -/
def Holder.weight (h : Holder) : Nat := h.refs + if h.phase = .idle then 0 else 1

/-- Nobody is inside the sleep-locked part of iput. -/
def Entry.unlocked (e : Entry n) : Prop := ∀ p, (e.procs p).phase.isChecked = false

instance (e : Entry n) : Decidable e.unlocked :=
  inferInstanceAs (Decidable (∀ _, _))

def Entry.set (e : Entry n) (p : Fin n) (h : Holder) : Entry n :=
  { e with procs := Function.update e.procs p h }

/-- iget: a cached entry gains a reference, an empty one is recycled. -/
def iget (e : Entry n) : Inode :=
  if 0 < e.inode.ref then { e.inode with ref := e.inode.ref + 1 }
  else { e.inode with ref := 1, valid := false }

/-- ilock's load from disk; `none` is panic("ilock: no type"). -/
def load (e : Entry n) : Option Inode :=
  if e.inode.valid then some e.inode
  else if e.disk.type = 0 then none
  else some { e.inode with valid := true, copy := e.disk }

/-- The body of iput's free: itrunc, type = 0, iupdate, valid = 0. -/
def free (e : Entry n) : Entry n :=
  let copy : Dinode := { e.inode.copy with addrs := [], type := 0 }
  { e with
    inode := { e.inode with copy := copy, valid := false }
    disk := copy
    bfreed := e.bfreed ++ e.inode.copy.addrs }

/-- One critical section. `none`: it cannot run now (a lock is held, no reference
to use), or it panics. -/
def step (e : Entry n) : Section n → Option (Entry n)
  | .iget p =>
    if (e.procs p).phase = .idle then
      some (({ e with inode := iget e }).set p ⟨(e.procs p).refs + 1, (e.procs p).phase⟩)
    else none
  | .idup p =>
    if (e.procs p).phase = .idle ∧ 0 < (e.procs p).refs then
      some (({ e with inode := { e.inode with ref := e.inode.ref + 1 } }).set p
        ⟨(e.procs p).refs + 1, (e.procs p).phase⟩)
    else none
  | .ilock p =>
    if (e.procs p).phase = .idle ∧ 0 < (e.procs p).refs ∧ e.unlocked then
      (load e).map fun ip => { e with inode := ip }
    else none
  | .unlink p =>
    -- sys_unlink locks the inode it found, and panics when it has no links
    if (e.procs p).phase = .idle ∧ 0 < (e.procs p).refs ∧ e.unlocked then
      (load e).bind fun ip =>
        if ip.copy.nlink < 1 then none
        else
          let copy := { ip.copy with nlink := ip.copy.nlink - 1 }
          some { e with inode := { ip with copy := copy }, disk := copy }
    else none
  | .check p =>
    if (e.procs p).phase = .idle ∧ 0 < (e.procs p).refs ∧ e.unlocked then
      let r := if e.inode.valid ∧ e.inode.copy.nlink = 0 then some e.inode.ref else none
      some (e.set p ⟨(e.procs p).refs - 1, .checked r⟩)
    else none
  | .release p =>
    match (e.procs p).phase with
    | .checked r =>
      some ((if r = some 1 then free e else e).set p ⟨(e.procs p).refs, .dropping⟩)
    | _ => none
  | .drop p =>
    if (e.procs p).phase = .dropping then
      some (({ e with inode := { e.inode with ref := e.inode.ref - 1 } }).set p
        ⟨(e.procs p).refs, .idle⟩)
    else none

/-- Nobody has the inode open: it has a type, links and blocks on disk. -/
def start (n : Nat) (disk : Dinode) (stale : Dinode) : Entry n :=
  ⟨⟨0, false, stale⟩, disk, [], fun _ => ⟨0, .idle⟩⟩

/-- The sections of any number of processes, in any order. -/
def Interleaved (e : Entry n) (part : Section n) (_ : Unit) (f : Entry n) : Prop :=
  step e part = some f

/-! ## Counting references -/

/-- The references all processes account for. -/
def total (procs : Fin n → Holder) : Nat := tally Holder.weight procs

theorem total_update (procs : Fin n → Holder) (p : Fin n) (h : Holder) :
    total (Function.update procs p h) + (procs p).weight = total procs + h.weight :=
  tally_update procs p h

theorem weight_le_total (procs : Fin n → Holder) (p : Fin n) : (procs p).weight ≤ total procs :=
  le_tally procs p

theorem field_update {β : Type} (f : Holder → β) (procs : Fin n → Holder) (p : Fin n) (h : Holder)
    (same : f h = f (procs p)) (q : Fin n) : f (Function.update procs p h q) = f (procs q) := by
  by_cases here : q = p
  · rw [here, update_self, same]
  · rw [update_of_ne here]

/-! ## What the sections keep when they do not race -/

/-- The condition on a step: a lookup finds the inode through a directory entry
that nlink counts, and a check that sees an unlinked inode with several references
still leaves one whose own check is to come. -/
def Orderly (e : Entry n) : Section n → Prop
  | .iget _ => 0 < e.disk.nlink
  | .check p => e.inode.valid → e.inode.copy.nlink = 0 → e.inode.ref ≠ 1 →
      1 < (e.procs p).refs ∨ ∃ q, q ≠ p ∧ 0 < (e.procs q).refs
  | _ => True

instance (e : Entry n) : (part : Section n) → Decidable (Orderly e part)
  | .iget _ => inferInstanceAs (Decidable (_ < _))
  | .check p =>
      inferInstanceAs (Decidable (e.inode.valid → e.inode.copy.nlink = 0 → e.inode.ref ≠ 1 →
      1 < (e.procs p).refs ∨ ∃ q, q ≠ p ∧ 0 < (e.procs q).refs))
  | .idup _ | .ilock _ | .unlink _ | .release _ | .drop _ => inferInstanceAs (Decidable True)

/-- The invariant of orderly runs on an inode that owns `blocks`. -/
structure Kept (blocks : List Nat) (e : Entry n) : Prop where
  counted : e.inode.ref = total e.procs
  single : ∀ p q, (e.procs p).phase.isChecked → (e.procs q).phase.isChecked → p = q
  copied : e.inode.valid → e.inode.copy = e.disk
  linked : e.disk.type ≠ 0 → e.disk.addrs = blocks ∧ e.bfreed = []
  gone : e.disk.type = 0 → e.disk.nlink = 0 ∧ e.disk.addrs = [] ∧ e.bfreed = blocks ∧
    ∀ p, (e.procs p).refs = 0 ∧ (e.procs p).phase.isChecked = false
  pending : e.disk.type ≠ 0 → e.disk.nlink = 0 →
    e.inode.valid ∧ ∃ p, 0 < (e.procs p).refs ∨ (e.procs p).phase = .checked (some 1)
  alone : ∀ p r, (e.procs p).phase = .checked (some r) →
    e.inode.valid ∧ e.disk.nlink = 0 ∧ e.disk.type ≠ 0 ∧ (r = 1 → e.inode.ref = 1)

section Keeping

variable {blocks : List Nat} {e f : Entry n} {p : Fin n}

theorem Kept.live (kept : Kept blocks e) (holds : 0 < (e.procs p).refs) : e.disk.type ≠ 0 := by
  intro freed
  have none := (kept.gone freed).2.2.2 p
  omega

theorem weight_of_refs (holds : 0 < (e.procs p).refs) : 1 ≤ (e.procs p).weight := by
  unfold Holder.weight
  omega

theorem weight_of_checked {r : Option Nat} (phase : (e.procs p).phase = .checked r) :
    (e.procs p).weight = (e.procs p).refs + 1 := by
  simp [Holder.weight, phase]

/-- A reader of `r = 1` excludes every other reference. -/
theorem Kept.excludes (kept : Kept blocks e) {q : Fin n} (apart : q ≠ p)
    (phase : (e.procs q).phase = .checked (some 1)) : (e.procs p).weight = 0 := by
  have one := (kept.alone q 1 phase).2.2.2 rfl
  have both := add_le_tally (w := Holder.weight) e.procs apart ⟨0, .idle⟩ rfl
  rw [show tally Holder.weight e.procs = e.inode.ref from kept.counted.symm, one,
    weight_of_checked phase] at both
  omega

theorem Kept.iget (kept : Kept blocks e) (linked : 0 < e.disk.nlink)
    (taken : step e (.iget p) = some f) : Kept blocks f := by
  simp only [step] at taken
  split at taken
  case isFalse => cases taken
  rename_i idle
  have live : e.disk.type ≠ 0 := fun freed => by
    have := (kept.gone freed).1
    omega
  have quiet : ∀ q r, (e.procs q).phase ≠ .checked (some r) := fun q r phase => by
    have := (kept.alone q r phase).2.1
    omega
  cases taken
  have moved := total_update e.procs p ⟨(e.procs p).refs + 1, (e.procs p).phase⟩
  have phases := field_update Holder.phase e.procs p ⟨(e.procs p).refs + 1, (e.procs p).phase⟩ rfl
  refine ⟨?_, ?_, ?_, kept.linked, fun freed => absurd freed live, ?_, ?_⟩
  · have counted := kept.counted
    simp only [Holder.weight, Entry.set, Icache.iget] at moved ⊢
    split <;> simp only [] <;> omega
  · intro a b first second
    exact kept.single a b (by rwa [← phases a]) (by rwa [← phases b])
  · simp only [Entry.set, Icache.iget]
    split
    · exact kept.copied
    · intro impossible
      cases impossible
  · intro _ unlinked
    change e.disk.nlink = 0 at unlinked
    omega
  · intro q r phase
    exact absurd ((phases q).symm.trans phase) (quiet q r)

theorem Kept.idup (kept : Kept blocks e) (taken : step e (.idup p) = some f) : Kept blocks f := by
  simp only [step] at taken
  split at taken
  case isFalse => cases taken
  rename_i ready
  obtain ⟨idle, holds⟩ := ready
  have live := kept.live holds
  cases taken
  have moved := total_update e.procs p ⟨(e.procs p).refs + 1, (e.procs p).phase⟩
  have phases := field_update Holder.phase e.procs p ⟨(e.procs p).refs + 1, (e.procs p).phase⟩ rfl
  refine ⟨?_, ?_, kept.copied, kept.linked, fun freed => absurd freed live, ?_, ?_⟩
  · have counted := kept.counted
    simp only [Holder.weight, Entry.set] at moved ⊢
    omega
  · intro a b first second
    exact kept.single a b (by rwa [← phases a]) (by rwa [← phases b])
  · intro typed unlinked
    refine ⟨(kept.pending typed unlinked).1, p, .inl ?_⟩
    simp only [Entry.set, update_self]
    omega
  · intro q r phase
    have before : (e.procs q).phase = .checked (some r) := (phases q).symm.trans phase
    obtain ⟨valid, unlinked, typed, only⟩ := kept.alone q r before
    refine ⟨valid, unlinked, typed, ?_⟩
    intro one
    subst one
    have apart : q ≠ p := fun same => by
      rw [same, idle] at before
      cases before
    have zero := kept.excludes apart before
    have := weight_of_refs holds
    omega

theorem load_spec {ip : Inode} (kept : Kept blocks e) (loaded : load e = some ip) :
    ip.valid = true ∧ ip.copy = e.disk ∧ ip.ref = e.inode.ref := by
  simp only [load] at loaded
  split at loaded
  · rename_i valid
    cases loaded
    exact ⟨valid, kept.copied valid, rfl⟩
  · split at loaded
    · cases loaded
    · cases loaded
      exact ⟨rfl, rfl, rfl⟩

theorem unlocked_not_checked (unlocked : e.unlocked) (q : Fin n) (r : Option Nat) :
    (e.procs q).phase ≠ .checked r := by
  intro phase
  have := unlocked q
  rw [phase] at this
  cases this

theorem Kept.ilock (kept : Kept blocks e) (taken : step e (.ilock p) = some f) : Kept blocks f := by
  simp only [step] at taken
  split at taken
  case isFalse => cases taken
  rename_i ready
  obtain ⟨ip, loaded, rfl⟩ := Option.map_eq_some_iff.mp taken
  obtain ⟨valid, copy, ref⟩ := load_spec kept loaded
  refine ⟨ref.trans kept.counted, kept.single, fun _ => copy, kept.linked, kept.gone, ?_, ?_⟩
  · intro typed unlinked
    exact ⟨valid, (kept.pending typed unlinked).2⟩
  · intro q r phase
    exact absurd phase (unlocked_not_checked ready.2.2 q _)

theorem Kept.unlink (kept : Kept blocks e) (taken : step e (.unlink p) = some f) :
    Kept blocks f := by
  simp only [step] at taken
  split at taken
  case isFalse => cases taken
  rename_i ready
  obtain ⟨ip, loaded, more⟩ := Option.bind_eq_some_iff.mp taken
  obtain ⟨valid, copy, ref⟩ := load_spec kept loaded
  have live := kept.live ready.2.1
  split at more
  · cases more
  cases more
  refine ⟨ref.trans kept.counted, kept.single, fun _ => rfl, ?_, ?_, ?_, ?_⟩
  · intro _
    rw [copy]
    exact kept.linked live
  · intro freed
    exact absurd ((congrArg Dinode.type copy).symm.trans freed) live
  · intro _ _
    exact ⟨valid, p, .inl ready.2.1⟩
  · intro q r phase
    exact absurd phase (unlocked_not_checked ready.2.2 q _)

theorem Kept.check (kept : Kept blocks e) (orderly : Orderly e (.check p))
    (taken : step e (.check p) = some f) : Kept blocks f := by
  simp only [step] at taken
  split at taken
  case isFalse => cases taken
  rename_i ready
  obtain ⟨idle, holds, unlocked⟩ := ready
  have live := kept.live holds
  obtain ⟨r, reads⟩ :
      ∃ r, r = if e.inode.valid ∧ e.inode.copy.nlink = 0 then some e.inode.ref else none :=
    ⟨_, rfl⟩
  rw [← reads] at taken
  cases taken
  have moved := total_update e.procs p ⟨(e.procs p).refs - 1, .checked r⟩
  have others :
      ∀ q, q ≠ p → Function.update e.procs p ⟨(e.procs p).refs - 1, .checked r⟩ q = e.procs q :=
    fun q apart => update_of_ne apart _ _
  refine ⟨?_, ?_, kept.copied, kept.linked, fun freed => absurd freed live, ?_, ?_⟩
  · have counted := kept.counted
    simp only [Holder.weight, idle, Entry.set] at moved ⊢
    simp only [if_true, reduceCtorEq, if_false] at moved
    omega
  · have here :
        ∀ q, ((e.set p ⟨(e.procs p).refs - 1, .checked r⟩).procs q).phase.isChecked → q = p := by
      intro q checked
      by_contra apart
      simp only [Entry.set, others q apart, unlocked q] at checked
      cases checked
    intro a b first second
    rw [here a first, here b second]
  · intro _ unlinked
    obtain ⟨valid, _⟩ := kept.pending live unlinked
    have none : e.inode.copy.nlink = 0 := by rw [kept.copied valid]; exact unlinked
    rw [if_pos ⟨valid, none⟩] at reads
    refine ⟨valid, ?_⟩
    by_cases one : e.inode.ref = 1
    · refine ⟨p, .inr ?_⟩
      simp only [Entry.set, update_self, reads, one]
    · rcases orderly valid none one with more | ⟨q, apart, more⟩
      · refine ⟨p, .inl ?_⟩
        simp only [Entry.set, update_self]
        omega
      · refine ⟨q, .inl ?_⟩
        simp only [Entry.set, others q apart]
        exact more
  · intro q k phase
    by_cases here : q = p
    · rw [here] at phase
      simp only [Entry.set, update_self, Phase.checked.injEq] at phase
      rw [phase] at reads
      split at reads
      · rename_i seen
        cases reads
        exact ⟨seen.1, (congrArg Dinode.nlink (kept.copied seen.1)).symm.trans seen.2, live,
          fun one => one⟩
      · cases reads
    · simp only [Entry.set, others q here] at phase
      exact absurd phase (unlocked_not_checked unlocked q _)

theorem release_eq (taken : step e (.release p) = some f) : ∃ r, (e.procs p).phase = .checked r ∧
    f = (if r = some 1 then free e else e).set p ⟨(e.procs p).refs, .dropping⟩ := by
  simp only [step] at taken
  split at taken
  · rename_i r phase
    exact ⟨r, phase, (Option.some.inj taken).symm⟩
  · cases taken

theorem total_release {r : Option Nat} (phase : (e.procs p).phase = .checked r) :
    total (Function.update e.procs p ⟨(e.procs p).refs, .dropping⟩) = total e.procs := by
  have moved := total_update e.procs p ⟨(e.procs p).refs, .dropping⟩
  simp only [Holder.weight, phase, reduceCtorEq, if_false] at moved
  omega

/-- The free itself: the reader of `r = 1` was the only one. -/
theorem Kept.free (kept : Kept blocks e) (phase : (e.procs p).phase = .checked (some 1)) :
    Kept blocks ((Icache.free e).set p ⟨(e.procs p).refs, .dropping⟩) := by
  obtain ⟨valid, unlinked, typed, one⟩ := kept.alone p 1 phase
  have copy := kept.copied valid
  have refs : (e.procs p).refs = 0 := by
    have := weight_le_total e.procs p
    rw [← kept.counted, one rfl, weight_of_checked phase] at this
    omega
  have idle :
    ∀ q, q ≠ p → (e.procs q).weight = 0 := fun q apart => kept.excludes (Ne.symm apart) phase
  have none : ∀ q, (Function.update e.procs p ⟨(e.procs p).refs, .dropping⟩ q).refs = 0 ∧
      (Function.update e.procs p ⟨(e.procs p).refs, .dropping⟩ q).phase.isChecked = false := by
    intro q
    by_cases here : q = p
    · rw [here, update_self]
      exact ⟨refs, rfl⟩
    · rw [update_of_ne here]
      have zero := idle q here
      unfold Holder.weight at zero
      split at zero
      · rename_i still
        exact ⟨by omega, by rw [still]; rfl⟩
      · omega
  refine ⟨?_, ?_, ?_, ?_, ?_, ?_, ?_⟩
  · exact kept.counted.trans (total_release phase).symm
  · intro a b first _
    exact absurd ((none a).2.symm.trans first) Bool.false_ne_true
  · intro impossible
    cases impossible
  · intro nonzero
    exact absurd rfl nonzero
  · intro _
    refine ⟨(congrArg Dinode.nlink copy).trans unlinked, rfl, ?_, none⟩
    change e.bfreed ++ e.inode.copy.addrs = blocks
    rw [copy, (kept.linked typed).1, (kept.linked typed).2, List.nil_append]
  · intro nonzero
    exact absurd rfl nonzero
  · intro q r checked
    have := (none q).2
    rw [show (Function.update e.procs p ⟨(e.procs p).refs, .dropping⟩ q).phase = _
      from checked] at this
    cases this

theorem Kept.release (kept : Kept blocks e) (taken : step e (.release p) = some f) :
    Kept blocks f := by
  obtain ⟨r, phase, rfl⟩ := release_eq taken
  by_cases frees : r = some 1
  · rw [if_pos frees]
    subst frees
    exact kept.free phase
  rw [if_neg frees]
  have refs := field_update Holder.refs e.procs p ⟨(e.procs p).refs, .dropping⟩ rfl
  have checked : ∀ q k, (Function.update e.procs p ⟨(e.procs p).refs, .dropping⟩ q).phase =
      .checked k ↔ q ≠ p ∧ (e.procs q).phase = .checked k := by
    intro q k
    by_cases here : q = p
    · rw [here, update_self]
      simp
    · rw [update_of_ne here]
      exact ⟨fun phase => ⟨here, phase⟩, fun both => both.2⟩
  have nobody : ∀ q, (Function.update e.procs p ⟨(e.procs p).refs, .dropping⟩ q).phase.isChecked =
      false := by
    intro q
    by_cases here : q = p
    · rw [here, update_self]
      rfl
    · rw [update_of_ne here]
      by_contra other
      have mine : (e.procs p).phase.isChecked := by rw [phase]; rfl
      exact here (kept.single q p (by simpa using other) mine)
  refine ⟨kept.counted.trans (total_release phase).symm, ?_, kept.copied, kept.linked, ?_, ?_, ?_⟩
  · intro a b first _
    exact absurd ((nobody a).symm.trans first) Bool.false_ne_true
  · intro freed
    obtain ⟨unlinked, addrs, bfreed, none⟩ := kept.gone freed
    exact ⟨unlinked, addrs, bfreed, fun q => ⟨(refs q).trans (none q).1, nobody q⟩⟩
  · intro typed unlinked
    obtain ⟨valid, q, more⟩ := kept.pending typed unlinked
    refine ⟨valid, q, ?_⟩
    rcases more with holds | reads
    · exact .inl (Nat.lt_of_lt_of_eq holds (refs q).symm)
    · refine .inr ((checked q _).mpr ⟨?_, reads⟩)
      intro here
      rw [here, phase] at reads
      exact frees (Phase.checked.inj reads)
  · intro q k reads
    exact kept.alone q k ((checked q _).mp reads).2

theorem Kept.drop (kept : Kept blocks e) (taken : step e (.drop p) = some f) : Kept blocks f := by
  simp only [step] at taken
  split at taken
  case isFalse => cases taken
  rename_i dropping
  cases taken
  have moved := total_update e.procs p ⟨(e.procs p).refs, .idle⟩
  have mine : (e.procs p).weight = (e.procs p).refs + 1 := by simp [Holder.weight, dropping]
  have refs := field_update Holder.refs e.procs p ⟨(e.procs p).refs, .idle⟩ rfl
  have checked : ∀ q k, (Function.update e.procs p ⟨(e.procs p).refs, .idle⟩ q).phase =
      .checked k ↔ (e.procs q).phase = .checked k := by
    intro q k
    by_cases here : q = p
    · rw [here, update_self, dropping]
      simp
    · rw [update_of_ne here]
  have isChecked : ∀ q, (Function.update e.procs p ⟨(e.procs p).refs, .idle⟩ q).phase.isChecked =
      (e.procs q).phase.isChecked := by
    intro q
    by_cases here : q = p
    · rw [here, update_self, dropping]
      rfl
    · rw [update_of_ne here]
  refine ⟨?_, ?_, kept.copied, kept.linked, ?_, ?_, ?_⟩
  · have counted := kept.counted
    simp only [Holder.weight, dropping, if_true, reduceCtorEq, if_false] at moved
    simp only [Entry.set]
    omega
  · intro a b first second
    exact kept.single a b ((isChecked a).symm.trans first) ((isChecked b).symm.trans second)
  · intro freed
    obtain ⟨unlinked, addrs, bfreed, none⟩ := kept.gone freed
    exact ⟨unlinked, addrs, bfreed, fun q =>
      ⟨(refs q).trans (none q).1, (isChecked q).trans (none q).2⟩⟩
  · intro typed unlinked
    obtain ⟨valid, q, more⟩ := kept.pending typed unlinked
    exact ⟨valid, q, more.imp (fun holds => Nat.lt_of_lt_of_eq holds (refs q).symm)
      (checked q _).mpr⟩
  · intro q k reads
    have before := (checked q _).mp reads
    obtain ⟨valid, unlinked, typed, _⟩ := kept.alone q k before
    refine ⟨valid, unlinked, typed, ?_⟩
    intro one
    subst one
    have apart : q ≠ p := fun here => by
      rw [here, dropping] at before
      cases before
    have := kept.excludes apart before
    omega

end Keeping

theorem Kept.step {blocks : List Nat} {e f : Entry n} {part : Section n} (kept : Kept blocks e)
    (orderly : Orderly e part) (taken : Icache.step e part = some f) : Kept blocks f := by
  cases part with
  | iget p => exact kept.iget orderly taken
  | idup p => exact kept.idup taken
  | ilock p => exact kept.ilock taken
  | unlink p => exact kept.unlink taken
  | check p => exact kept.check orderly taken
  | release p => exact kept.release taken
  | drop p => exact kept.drop taken

theorem Kept.start {disk : Dinode} (stale : Dinode) (typed : disk.type ≠ 0)
    (linked : 0 < disk.nlink) :
    Kept disk.addrs (Icache.start n disk stale) := by
  refine ⟨?_, ?_, ?_, fun _ => ⟨rfl, rfl⟩, fun freed => absurd freed typed, ?_, ?_⟩
  · exact (tally_eq_zero_iff.mpr fun _ => rfl).symm
  · intro a b first
    cases first
  · intro impossible
    cases impossible
  · intro _ unlinked
    change disk.nlink = 0 at unlinked
    omega
  · intro q r phase
    cases phase

/-! ## Freed once, by its last user -/

/-- Once the last reference is gone from an unlinked inode, it is free on disk and
each of its blocks was freed once. -/
def FreedOnce (blocks : List Nat) (e : Entry n) : Prop :=
  (e.bfreed = [] ∨ e.bfreed = blocks) ∧
    (e.inode.ref = 0 → e.disk.nlink = 0 → e.disk.type = 0 ∧ e.bfreed = blocks)

/-- Whoever frees the inode holds the only reference. -/
def FreesAlone (e : Entry n) : Prop :=
  ∀ p f, step e (.release p) = some f → f.disk.type ≠ e.disk.type ∨ f.bfreed ≠ e.bfreed →
    (e.procs p).refs = 0 ∧ ∀ q, q ≠ p → (e.procs q).weight = 0

theorem Kept.freedOnce {blocks : List Nat} {e : Entry n} (kept : Kept blocks e) :
    FreedOnce blocks e := by
  by_cases freed : e.disk.type = 0
  · have bfreed := (kept.gone freed).2.2.1
    exact ⟨.inr bfreed, fun _ _ => ⟨freed, bfreed⟩⟩
  · refine ⟨.inl (kept.linked freed).2, ?_⟩
    intro last unlinked
    obtain ⟨_, p, more⟩ := kept.pending freed unlinked
    have bound := weight_le_total e.procs p
    rw [← kept.counted, last] at bound
    rcases more with holds | reads
    · have := weight_of_refs holds
      omega
    · have := weight_of_checked reads
      omega

theorem Kept.freesAlone {blocks : List Nat} {e : Entry n} (kept : Kept blocks e) :
    FreesAlone e := by
  intro p f taken changed
  obtain ⟨r, phase, rfl⟩ := release_eq taken
  by_cases frees : r = some 1
  · subst frees
    refine ⟨?_, fun q apart => kept.excludes (Ne.symm apart) phase⟩
    have bound := weight_le_total e.procs p
    rw [← kept.counted, (kept.alone p 1 phase).2.2.2 rfl, weight_of_checked phase] at bound
    omega
  · rw [if_neg frees] at changed
    exact changed.elim (fun type => absurd rfl type) (fun bfreed => absurd rfl bfreed)

/-- In every run of orderly sections the inode is freed once, by its last user. -/
theorem iput_frees_once {disk stale : Dinode} (typed : disk.type ≠ 0) (linked : 0 < disk.nlink)
    {trace : List (Section n × Unit)} {e : Entry n}
    (run : Run (fun e part out f => Interleaved e part out f ∧ Orderly e part)
      (start n disk stale) trace e) :
    FreedOnce disk.addrs e ∧ FreesAlone e := by
  have kept : Kept disk.addrs e :=
    run.invariant (fun kept taken => kept.step taken.2 taken.1) (Kept.start stale typed linked)
  exact ⟨kept.freedOnce, kept.freesAlone⟩

/-- Two processes have the file open and one unlinks it. The second looks at the inode
between the sections of the first's iput, and its own iput frees it. -/
theorem iput_frees_once_two : ∃ e : Entry 2, e.inode.ref = 0 ∧ e.disk.nlink = 0 ∧
    e.bfreed = [60, 61] ∧ FreedOnce [60, 61] e ∧ FreesAlone e := by
  have ends : ([Section.iget 0, .iget 1, .unlink 0, .check 0, .release 0, .ilock 1, .drop 0,
      .check 1, .release 1, .drop 1].foldlM (fun e part => if Orderly e part then step e part else none)
      (start 2 ⟨2, 1, [60, 61]⟩ ⟨0, 0, []⟩)).isSome := by decide
  refine ⟨Option.get _ ends, by decide +revert, by decide +revert, by decide +revert, ?_⟩
  refine @iput_frees_once 2 ⟨2, 1, [60, 61]⟩ ⟨0, 0, []⟩ (by decide) (by decide) _ _
    ((Run.of_foldlM (Option.some_get ends).symm).mono ?_)
  intro e part _ f taken
  by_cases orderly : Orderly e part
  · exact ⟨(if_pos orderly).symm.trans taken, orderly⟩
  · cases (if_neg orderly).symm.trans taken

/-- Two processes that check before either has dropped its reference both see
two of them: the unlinked inode is never freed. -/
theorem iput_leaks :
    ¬ ∀ (n : Nat) (disk stale : Dinode) (trace : List (Section n × Unit)) (e : Entry n),
      disk.type ≠ 0 → 0 < disk.nlink → Run Interleaved (start n disk stale) trace e →
        FreedOnce disk.addrs e ∧ FreesAlone e := by
  intro always
  have ends :
    ([Section.iget 0, .iget 1, .unlink 0, .check 0, .release 0, .check 1, .release 1, .drop 0,
      .drop 1].foldlM step (start 2 ⟨2, 1, [60, 61]⟩ ⟨0, 0, []⟩)).isSome := by decide
  have last : (Option.get _ ends).inode.ref = 0 ∧ (Option.get _ ends).disk.nlink = 0 ∧
      (Option.get _ ends).disk.type ≠ 0 := by decide +revert
  have once := (always 2 _ _ _ _ (by decide) (by decide)
    (Run.of_foldlM (Option.some_get ends).symm)).1
  exact last.2.2 (once.2 last.1 last.2.1).1

end Xv6Cow.Icache
