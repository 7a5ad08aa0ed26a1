import Mathlib.Data.List.FinRange
import Xv6Cow.Kernel
import Xv6Cow.Lib.LinkedRing
import Xv6Cow.Lib.Runs
import Xv6Cow.Lib.Tally

/- bio.c: the buffer cache, used by any number of processes. -/
namespace Xv6Cow.Bio

open Function (update_self update_of_ne)
open LinkedRing (Links Ring Path scan remove pushFront)

def NBUF : Nat := 30
def ROOTDEV : Nat := 1

/-- Processes. -/
abbrev Pid (nproc : Nat) : Type := Fin nproc

/-- struct buf, without its place in the MRU list. `holder` has the sleep lock. -/
structure Buf (nproc : Nat) where
  valid : Bool
  dirty : Bool
  dev : Nat
  blockno : Nat
  refcnt : Nat
  data : Block
  holder : Option (Pid nproc)

/-- What a process is doing in bio.c: it waits for a buffer's lock at the end of bget, or it
has given up the lock and not yet its reference, in brelse. -/
inductive Phase
  | running
  | waiting (b : Fin NBUF)
  | leaving (b : Fin NBUF)
deriving DecidableEq

/-- `unsaved` marks the buffers that were modified since the last bwrite or log_write. -/
structure State (nproc : Nat) where
  bufs : Fin NBUF → Buf nproc
  links : Links (Fin NBUF)
  phase : Pid nproc → Phase
  disk : Nat → Block
  unsaved : Fin NBUF → Bool

variable {nproc : Nat}

/-- The loop of binit. -/
def binitLinks : List (Fin NBUF) → Links (Fin NBUF)
  | [] => LinkedRing.empty
  | b :: rest => pushFront (binitLinks rest) b

/-- After binit; static memory is zero. -/
def boot (nproc : Nat) (disk : Nat → Block) : State nproc where
  bufs := fun _ => ⟨false, false, 0, 0, 0, fun _ => 0, none⟩
  links := binitLinks (List.finRange NBUF).reverse
  phase := fun _ => .running
  disk := disk
  unsaved := fun _ => false

def State.setBuf (s : State nproc) (b : Fin NBUF) (buf : Buf nproc) : State nproc :=
  { s with bufs := Function.update s.bufs b buf }

def State.setPhase (s : State nproc) (p : Pid nproc) (phase : Phase) : State nproc :=
  { s with phase := Function.update s.phase p phase }

/-- The first loop of bget. -/
def lookup (s : State nproc) (dev blockno : Nat) : Option (Fin NBUF) :=
  scan s.links.next (fun b => (s.bufs b).dev = dev ∧ (s.bufs b).blockno = blockno) (NBUF + 1)
  (s.links.next none)

/-- The second loop of bget. -/
def unused (s : State nproc) : Option (Fin NBUF) :=
  scan s.links.prev (fun b => (s.bufs b).refcnt = 0 ∧ (s.bufs b).dirty = false) (NBUF + 1)
  (s.links.prev none)

/-- bget, as far as acquiresleep; `none` is panic("bget: no buffers"). -/
def bget (s : State nproc) (p : Pid nproc) (blockno : Nat) : Option (State nproc) :=
  match lookup s ROOTDEV blockno with
  | some b =>
  some ((s.setBuf b { s.bufs b with refcnt := (s.bufs b).refcnt + 1 }).setPhase p (.waiting b))
  | none =>
    match unused s with
    | some b => some ((s.setBuf b { s.bufs b with
        dev := ROOTDEV, blockno := blockno, valid := false, dirty := false, refcnt := 1 }).setPhase
        p (.waiting b))
    | none => none

/-- iderw, on a disk without errors. -/
def iderw (s : State nproc) (b : Fin NBUF) : State nproc :=
  let buf := s.bufs b
  if buf.dirty then
    { s.setBuf b { buf with valid := true, dirty := false } with
      disk := Function.update s.disk buf.blockno buf.data }
  else s.setBuf b { buf with valid := true, dirty := false, data := s.disk buf.blockno }

/-- What a process does next. -/
inductive Event (nproc : Nat)
  | bget (p : Pid nproc) (blockno : Nat)
  | acquire (p : Pid nproc)
  | bread (p : Pid nproc) (b : Fin NBUF)
  | modify (p : Pid nproc) (b : Fin NBUF) (data : Block)
  | bwrite (p : Pid nproc) (b : Fin NBUF)
  | logWrite (p : Pid nproc) (b : Fin NBUF)
  | release (p : Pid nproc) (b : Fin NBUF)
  | drop (p : Pid nproc)

/-- A process uses a buffer only while it has the lock. -/
def Uses (s : State nproc) (p : Pid nproc) (b : Fin NBUF) : Prop :=
  s.phase p = .running ∧ (s.bufs b).holder = some p

instance (s : State nproc) (p : Pid nproc) (b : Fin NBUF) : Decidable (Uses s p b) := by
  unfold Uses
  infer_instance

/-- The steps. bread returns the contents of its buffer. A buffer that was modified goes through
bwrite or log_write before brelse. -/
def next (s : State nproc) : Event nproc → Option (Option Block × State nproc)
  | .bget p blockno =>
    if s.phase p = .running then (bget s p blockno).map fun t => (none, t) else none
  | .acquire p =>
    match s.phase p with
    | .waiting b =>
      if (s.bufs b).holder = none then
        some (none, (s.setBuf b { s.bufs b with holder := some p }).setPhase p .running)
      else none
    | _ => none
  | .bread p b =>
    if Uses s p b then
      let t := if (s.bufs b).valid then s else iderw s b
      some (some (t.bufs b).data, t)
    else none
  | .modify p b data =>
    if Uses s p b ∧ (s.bufs b).valid = true then
      some (none, { s.setBuf b { s.bufs b with data := data } with
        unsaved := Function.update s.unsaved b true })
    else none
  | .bwrite p b =>
    if Uses s p b ∧ (s.bufs b).valid = true then
      some (none, { iderw (s.setBuf b { s.bufs b with dirty := true }) b with
        unsaved := Function.update s.unsaved b false })
    else none
  | .logWrite p b =>
    if Uses s p b ∧ (s.bufs b).valid = true then
      some (none, { s.setBuf b { s.bufs b with dirty := true } with
        unsaved := Function.update s.unsaved b false })
    else none
  | .release p b =>
    if Uses s p b ∧ s.unsaved b = false then
      some (none, (s.setBuf b { s.bufs b with holder := none }).setPhase p (.leaving b))
    else none
  | .drop p =>
    match s.phase p with
    | .leaving b =>
      let t := (s.setBuf b { s.bufs b with refcnt := (s.bufs b).refcnt - 1 }).setPhase p .running
      some (none, if (s.bufs b).refcnt - 1 = 0 then
        { t with links := pushFront (remove s.links b) b } else t)
    | _ => none

/-! ## What holds in every state -/

/-- One buffer a block, and the contents that `array` says. -/
structure Coherent (s : State nproc) (array : Nat → Block) : Prop where
  unique : ∀ b b', (s.bufs b).dev = ROOTDEV → (s.bufs b').dev = ROOTDEV →
    (s.bufs b).blockno = (s.bufs b').blockno → b = b'
  cached : ∀ b, (s.bufs b).dev = ROOTDEV → (s.bufs b).valid = true →
    (s.bufs b).data = array (s.bufs b).blockno
  clean : ∀ b, (s.bufs b).dev = ROOTDEV → (s.bufs b).dirty = false → s.unsaved b = false →
    s.disk (s.bufs b).blockno = array (s.bufs b).blockno
  fresh : ∀ b, (s.bufs b).valid = false → (s.bufs b).dirty = false ∧ s.unsaved b = false
  held : ∀ b, s.unsaved b = true → (s.bufs b).holder ≠ none
  away : ∀ k, (∀ b, (s.bufs b).dev = ROOTDEV → (s.bufs b).blockno ≠ k) → s.disk k = array k
  used : ∀ b, 0 < (s.bufs b).refcnt → (s.bufs b).dev = ROOTDEV

/-- Whether a process has a reference to `b` without the lock. -/
def weight (b : Fin NBUF) (phase : Phase) : Nat :=
  if phase = .waiting b ∨ phase = .leaving b then 1 else 0

/-- The reference of the process that has the lock. -/
def Buf.locks (buf : Buf nproc) : Nat := if buf.holder = none then 0 else 1

/-- References are counted. -/
def Counted (s : State nproc) : Prop :=
  ∀ b, (s.bufs b).refcnt = (s.bufs b).locks + Tally.tally (weight b) s.phase

/-- The MRU list has every buffer once. -/
def Listed (s : State nproc) : Prop := ∃ l, Ring s.links l ∧ l.Perm (List.finRange NBUF)

structure Inv (s : State nproc) (array : Nat → Block) : Prop where
  coherent : Coherent s array
  counted : Counted s
  listed : Listed s

/-- One array of blocks, instead of the cache and the disk. -/
def effect (s : State nproc) (array : Nat → Block) : Event nproc → Nat → Block
  | .modify _ b data => Function.update array (s.bufs b).blockno data
  | _ => array

variable {s t : State nproc} {array : Nat → Block} {p : Pid nproc} {b : Fin NBUF}

/-! ## The loops of bget -/

theorem Listed.lookup_eq (listed : Listed s) (dev blockno : Nat) :
    (∀ b, lookup s dev blockno = some b → (s.bufs b).dev = dev ∧ (s.bufs b).blockno = blockno) ∧
      (lookup s dev blockno = none →
        ∀ b, ¬((s.bufs b).dev = dev ∧ (s.bufs b).blockno = blockno)) := by
  obtain ⟨l, ring, perm⟩ := listed
  have short : l.length < NBUF + 1 := by
    rw [perm.length_eq, List.length_finRange]
    exact Nat.lt_succ_self _
  unfold lookup
  rw [ring.path.scan_eq short]
  refine ⟨fun b found => by simpa using List.find?_some found, fun missing b => ?_⟩
  rw [List.find?_eq_none] at missing
  simpa using missing b (perm.mem_iff.mpr (List.mem_finRange b))

theorem Listed.unused_eq (listed : Listed s) :
    (∀ b, unused s = some b → (s.bufs b).refcnt = 0 ∧ (s.bufs b).dirty = false) ∧
      (unused s = none → ∀ b, ¬((s.bufs b).refcnt = 0 ∧ (s.bufs b).dirty = false)) := by
  obtain ⟨l, ring, perm⟩ := listed
  have short : l.reverse.length < NBUF + 1 := by
    rw [List.length_reverse, perm.length_eq, List.length_finRange]
    exact Nat.lt_succ_self _
  have back := @Path.scan_eq _ _ _ _
    (fun b => decide ((s.bufs b).refcnt = 0 ∧ (s.bufs b).dirty = false)) ring.path.reverse _ short
  unfold unused
  rw [back]
  refine ⟨fun b found => by simpa using List.find?_some found, fun missing b => ?_⟩
  rw [List.find?_eq_none] at missing
  simpa using missing b (List.mem_reverse.mpr (perm.mem_iff.mpr (List.mem_finRange b)))

/-! ## Reference counts -/

theorem Counted.move (counted : Counted s) {buf : Buf nproc} {phase : Phase}
    (mine : buf.refcnt + (s.bufs b).locks + weight b (s.phase p) = (s.bufs b).refcnt + buf.locks +
      weight b phase) (others : ∀ b', b' ≠ b → weight b' phase = weight b' (s.phase p)) :
    Counted ((s.setBuf b buf).setPhase p phase) := by
  intro b'
  have moved := Tally.tally_update (w := weight b') s.phase p phase
  have before := counted b'
  unfold State.setBuf State.setPhase
  dsimp only
  by_cases same : b' = b
  · subst same
    rw [update_self]
    omega
  · rw [update_of_ne same]
    have other := others b' same
    omega

theorem Counted.buffer (counted : Counted s)
    {buf : Buf nproc} (refcnt : buf.refcnt = (s.bufs b).refcnt)
    (holder : buf.holder = (s.bufs b).holder) : Counted (s.setBuf b buf) := by
  intro b'
  have before := counted b'
  unfold State.setBuf
  dsimp only
  by_cases same : b' = b
  · subst same
    unfold Buf.locks at *
    rw [update_self, refcnt, holder]
    exact before
  · rw [update_of_ne same]
    exact before

theorem Counted.holder_none (counted : Counted s) (zero : (s.bufs b).refcnt = 0) :
    (s.bufs b).holder = none := by
  have count := counted b
  by_contra some
  unfold Buf.locks at count
  rw [zero, if_neg some] at count
  omega

theorem Counted.pos_of_weight (counted : Counted s) (has : weight b (s.phase p) = 1) :
    0 < (s.bufs b).refcnt := by
  have count := counted b
  have one := Tally.le_tally (w := weight b) s.phase p
  omega

theorem Counted.pos_of_holder (counted : Counted s) (has : (s.bufs b).holder = some p) :
    0 < (s.bufs b).refcnt := by
  have count := counted b
  unfold Buf.locks at count
  rw [has, if_neg (Option.some_ne_none p)] at count
  omega

/-! ## The steps -/

@[grind =] theorem bufs_setBuf (s : State nproc) (b : Fin NBUF) (buf : Buf nproc) (b' : Fin NBUF) :
    (s.setBuf b buf).bufs b' = if b' = b then buf else s.bufs b' := by
  unfold State.setBuf
  dsimp only
  rw [Function.update_apply]

theorem weight_running (b : Fin NBUF) : weight b .running = 0 := by
  simp [weight]

theorem weight_waiting (b b' : Fin NBUF) : weight b' (.waiting b) = if b' = b then 1 else 0 := by
  unfold weight
  by_cases same : b' = b
  · simp [same]
  · simp [same, Ne.symm same]

theorem weight_leaving (b b' : Fin NBUF) : weight b' (.leaving b) = if b' = b then 1 else 0 := by
  unfold weight
  by_cases same : b' = b
  · simp [same]
  · simp [same, Ne.symm same]

/-- What is the same but for one buffer. -/
structure Only (b : Fin NBUF) (buf : Buf nproc) (s t : State nproc) : Prop where
  here : t.bufs b = buf
  others : ∀ b', b' ≠ b → t.bufs b' = s.bufs b'

theorem Coherent.hit (inv : Coherent s array) (dev : (s.bufs b).dev = ROOTDEV)
    (only : Only b { s.bufs b with refcnt := (s.bufs b).refcnt + 1 } s t) (disk : t.disk = s.disk)
    (unsaved : t.unsaved = s.unsaved) : Coherent t array := by
  obtain ⟨unique, cached, clean, fresh, held, away, used⟩ := inv
  obtain ⟨here, others⟩ := only
  constructor <;> grind

theorem Coherent.recycle (inv : Coherent s array) {k : Nat}
    (missing : ∀ b, ¬((s.bufs b).dev = ROOTDEV ∧ (s.bufs b).blockno = k))
    (free : (s.bufs b).holder = none) (clean : (s.bufs b).dirty = false)
    (only : Only b
      { s.bufs b with dev := ROOTDEV, blockno := k, valid := false, dirty := false, refcnt := 1 }
      s t) (disk : t.disk = s.disk) (unsaved : t.unsaved = s.unsaved) : Coherent t array := by
  obtain ⟨unique, cached, clean, fresh, held, away, used⟩ := inv
  obtain ⟨here, others⟩ := only
  constructor <;> grind

theorem Coherent.drop (inv : Coherent s array)
    (only : Only b { s.bufs b with refcnt := (s.bufs b).refcnt - 1 } s t) (disk : t.disk = s.disk)
    (unsaved : t.unsaved = s.unsaved) : Coherent t array := by
  obtain ⟨unique, cached, clean, fresh, held, away, used⟩ := inv
  obtain ⟨here, others⟩ := only
  constructor <;> grind

theorem Coherent.hand (inv : Coherent s array) (holder : Option (Pid nproc))
    (saved : s.unsaved b = false)
    (only : Only b { s.bufs b with holder := holder } s t) (disk : t.disk = s.disk)
    (unsaved : t.unsaved = s.unsaved) : Coherent t array := by
  obtain ⟨unique, cached, clean, fresh, held, away, used⟩ := inv
  obtain ⟨here, others⟩ := only
  constructor <;> grind

theorem Coherent.fill (inv : Coherent s array) (dev : (s.bufs b).dev = ROOTDEV)
    (stale : (s.bufs b).valid = false)
    (only : Only b
      { s.bufs b with valid := true, dirty := false, data := s.disk (s.bufs b).blockno } s t)
    (disk : t.disk = s.disk) (unsaved : t.unsaved = s.unsaved) : Coherent t array := by
  obtain ⟨unique, cached, clean, fresh, held, away, used⟩ := inv
  obtain ⟨here, others⟩ := only
  constructor <;> grind

theorem Coherent.modify (inv : Coherent s array) (data : Block) (dev : (s.bufs b).dev = ROOTDEV)
    (valid : (s.bufs b).valid = true) (locked : (s.bufs b).holder ≠ none)
    (only : Only b { s.bufs b with data := data } s t) (disk : t.disk = s.disk)
    (unsaved : ∀ b', t.unsaved b' = if b' = b then true else s.unsaved b') {array' : Nat → Block}
    (written : ∀ k, array' k = if k = (s.bufs b).blockno then data else array k) :
    Coherent t array' := by
  obtain ⟨unique, cached, clean, fresh, held, away, used⟩ := inv
  obtain ⟨here, others⟩ := only
  constructor <;> grind

theorem Coherent.bwrite (inv : Coherent s array) (dev : (s.bufs b).dev = ROOTDEV)
    (valid : (s.bufs b).valid = true)
    (only : Only b { s.bufs b with valid := true, dirty := false } s t)
    (disk : ∀ k, t.disk k = if k = (s.bufs b).blockno then (s.bufs b).data else s.disk k)
    (unsaved : ∀ b', t.unsaved b' = if b' = b then false else s.unsaved b') : Coherent t array := by
  obtain ⟨unique, cached, clean, fresh, held, away, used⟩ := inv
  obtain ⟨here, others⟩ := only
  constructor <;> grind

theorem Coherent.logWrite (inv : Coherent s array) (valid : (s.bufs b).valid = true)
    (only : Only b { s.bufs b with dirty := true } s t) (disk : t.disk = s.disk)
    (unsaved : ∀ b', t.unsaved b' = if b' = b then false else s.unsaved b') : Coherent t array := by
  obtain ⟨unique, cached, clean, fresh, held, away, used⟩ := inv
  obtain ⟨here, others⟩ := only
  constructor <;> grind

theorem Listed.front (listed : Listed s) (b : Fin NBUF)
    (links : t.links = pushFront (remove s.links b) b) :
    Listed t := by
  obtain ⟨l, ring, perm⟩ := listed
  obtain ⟨l1, l2, split⟩ := List.append_of_mem (perm.mem_iff.mpr (List.mem_finRange b))
  subst split
  have apart := List.nodup_middle.mp ring.nodup
  rw [List.nodup_cons] at apart
  refine ⟨b :: (l1 ++ l2), ?_, List.perm_middle.symm.trans perm⟩
  rw [links]
  exact ring.removed.pushed apart.1

theorem Inv.bget (inv : Inv s array) (idle : s.phase p = .running)
    {k : Nat} (taken : bget s p k = some t) :
    Inv t array := by
  obtain ⟨found, missing⟩ := inv.listed.lookup_eq ROOTDEV k
  unfold Bio.bget at taken
  split at taken
  · rename_i b hit
    cases taken
    refine ⟨inv.coherent.hit (found b hit).1 ⟨?_, ?_⟩ rfl rfl, ?_, inv.listed⟩
    · exact update_self ..
    · exact fun b' apart => update_of_ne apart ..
    · refine inv.counted.move ?_ ?_
      · rw [idle, weight_running, weight_waiting, if_pos rfl]
        change (s.bufs b).refcnt + 1 +
          (s.bufs b).locks + 0 = (s.bufs b).refcnt + (s.bufs b).locks + 1
        omega
      · intro b' apart
        rw [idle, weight_running, weight_waiting, if_neg apart]
  · rename_i miss
    split at taken
    · rename_i b free
      cases taken
      obtain ⟨zero, clean⟩ := inv.listed.unused_eq.1 _ free
      have unlocked := inv.counted.holder_none zero
      refine ⟨inv.coherent.recycle (missing miss) unlocked clean ⟨?_, ?_⟩ rfl rfl, ?_, inv.listed⟩
      · exact update_self ..
      · exact fun b' apart => update_of_ne apart ..
      · refine inv.counted.move ?_ ?_
        · rw [idle, weight_running, weight_waiting, if_pos rfl, zero]
          change 1 + (s.bufs b).locks + 0 = 0 + (s.bufs b).locks + 1
          omega
        · intro b' apart
          rw [idle, weight_running, weight_waiting, if_neg apart]
    · cases taken

theorem Inv.on_device (inv : Inv s array) (uses : Uses s p b) : (s.bufs b).dev = ROOTDEV :=
  inv.coherent.used b (inv.counted.pos_of_holder uses.2)

theorem iderw_read (stale : (s.bufs b).dirty = false) :
    iderw s b = s.setBuf b { s.bufs b with
      valid := true, dirty := false, data := s.disk (s.bufs b).blockno } := by
  unfold iderw
  dsimp only
  rw [if_neg (by rw [stale]; exact Bool.false_ne_true)]

theorem iderw_write (s : State nproc) (b : Fin NBUF) :
    iderw (s.setBuf b { s.bufs b with dirty := true }) b =
    { s.setBuf b { s.bufs b with valid := true, dirty := false } with
      disk := Function.update s.disk (s.bufs b).blockno (s.bufs b).data } := by
  have here :
      (s.setBuf b { s.bufs b with dirty := true }).bufs b = { s.bufs b with dirty := true } :=
    update_self ..
  unfold iderw
  dsimp only
  rw [here, if_pos rfl]
  unfold State.setBuf
  simp

theorem Inv.bread (inv : Inv s array) (uses : Uses s p b) :
    Inv (if (s.bufs b).valid then s else iderw s b) array ∧
      ((if (s.bufs b).valid then s else iderw s b).bufs b).data = array (s.bufs b).blockno := by
  have dev := inv.on_device uses
  by_cases valid : (s.bufs b).valid = true
  · rw [if_pos valid]
    exact ⟨inv, inv.coherent.cached b dev valid⟩
  · rw [if_neg valid]
    have stale : (s.bufs b).valid = false := Bool.eq_false_iff.mpr valid
    obtain ⟨undirty, saved⟩ := inv.coherent.fresh b stale
    rw [iderw_read undirty]
    refine ⟨⟨inv.coherent.fill dev stale ⟨?_, ?_⟩
      rfl rfl, inv.counted.buffer rfl rfl, inv.listed⟩, ?_⟩
    · exact update_self ..
    · exact fun b' apart => update_of_ne apart ..
    · rw [bufs_setBuf, if_pos rfl]
      exact inv.coherent.clean b dev undirty saved

theorem Inv.step (inv : Inv s array)
    {e : Event nproc} {out : Option Block} (taken : next s e = some (out, t)) :
    Inv t (effect s array e) := by
  cases e with
  | bget p k =>
    simp only [next] at taken
    split at taken
    · rename_i idle
      rw [Option.map_eq_some_iff] at taken
      obtain ⟨u, got, same⟩ := taken
      cases same
      exact inv.bget idle got
    · cases taken
  | acquire p =>
    simp only [next] at taken
    split at taken
    · rename_i b waits
      split at taken
      · rename_i unlocked
        cases taken
        have saved : s.unsaved b = false := by
          by_contra unsaved
          exact inv.coherent.held b (by simpa using unsaved) unlocked
        refine ⟨inv.coherent.hand (some p) saved ⟨?_, ?_⟩ rfl rfl, ?_, inv.listed⟩
        · exact update_self ..
        · exact fun b' apart => update_of_ne apart ..
        · refine inv.counted.move ?_ ?_
          · rw [waits, weight_running, weight_waiting, if_pos rfl]
            unfold Buf.locks
            rw [if_pos unlocked, if_neg (Option.some_ne_none p)]
          · intro b' apart
            rw [waits, weight_running, weight_waiting, if_neg apart]
      · cases taken
    · cases taken
  | bread p b =>
    simp only [next] at taken
    split at taken
    · rename_i uses
      cases taken
      exact (inv.bread uses).1
    · cases taken
  | modify p b data =>
    simp only [next] at taken
    split at taken
    · rename_i guard
      cases taken
      have locked : (s.bufs b).holder ≠ none := by
        rw [guard.1.2]
        exact Option.some_ne_none p
      refine ⟨?_, ?_, inv.listed⟩
      · refine inv.coherent.modify data (inv.on_device guard.1) guard.2 locked ⟨?_, ?_⟩ ?_ ?_ ?_
        · exact update_self ..
        · exact fun b' apart => update_of_ne apart ..
        · rfl
        · exact fun b' => Function.update_apply ..
        · exact fun k => Function.update_apply ..
      · exact @Counted.buffer _ s b inv.counted { s.bufs b with data := data } rfl rfl
    · cases taken
  | bwrite p b =>
    simp only [next] at taken
    split at taken
    · rename_i guard
      cases taken
      rw [iderw_write]
      refine ⟨inv.coherent.bwrite (inv.on_device guard.1) guard.2 ⟨?_, ?_⟩
        (fun k => Function.update_apply ..)
        (fun b' => Function.update_apply ..), ?_, inv.listed⟩
      · exact update_self ..
      · exact fun b' apart => update_of_ne apart ..
      · exact @Counted.buffer _ s b inv.counted { s.bufs b with valid := true, dirty := false }
          rfl rfl
    · cases taken
  | logWrite p b =>
    simp only [next] at taken
    split at taken
    · rename_i guard
      cases taken
      refine ⟨inv.coherent.logWrite guard.2 ⟨?_, ?_⟩ rfl (fun b' => Function.update_apply ..), ?_,
        inv.listed⟩
      · exact update_self ..
      · exact fun b' apart => update_of_ne apart ..
      · exact @Counted.buffer _ s b inv.counted { s.bufs b with dirty := true } rfl rfl
    · cases taken
  | release p b =>
    simp only [next] at taken
    split at taken
    · rename_i guard
      cases taken
      refine ⟨inv.coherent.hand none guard.2 ⟨?_, ?_⟩ rfl rfl, ?_, inv.listed⟩
      · exact update_self ..
      · exact fun b' apart => update_of_ne apart ..
      · refine inv.counted.move ?_ ?_
        · rw [guard.1.1, weight_running, weight_leaving, if_pos rfl]
          unfold Buf.locks
          rw [guard.1.2, if_neg (Option.some_ne_none p), if_pos rfl]
        · intro b' apart
          rw [guard.1.1, weight_running, weight_leaving, if_neg apart]
    · cases taken
  | drop p =>
    simp only [next] at taken
    split at taken
    · rename_i b leaves
      cases taken
      have positive := inv.counted.pos_of_weight (p := p) (b := b)
        (by rw [leaves, weight_leaving, if_pos rfl])
      have counted :
        Counted ((s.setBuf b { s.bufs b with refcnt := (s.bufs b).refcnt - 1 }).setPhase p
          .running) := by
        refine inv.counted.move ?_ ?_
        · rw [leaves, weight_running, weight_leaving, if_pos rfl]
          change (s.bufs b).refcnt - 1 + (s.bufs b).locks + 1 =
            (s.bufs b).refcnt + (s.bufs b).locks + 0
          omega
        · intro b' apart
          rw [leaves, weight_running, weight_leaving, if_neg apart]
      have coherent :
        Coherent ((s.setBuf b { s.bufs b with refcnt := (s.bufs b).refcnt - 1 }).setPhase p
          .running) array := by
        refine inv.coherent.drop (b := b) ⟨?_, ?_⟩ rfl rfl
        · exact update_self ..
        · exact fun b' apart => update_of_ne apart ..
      split
      · exact ⟨⟨coherent.unique, coherent.cached, coherent.clean, coherent.fresh, coherent.held,
          coherent.away, coherent.used⟩, counted, inv.listed.front b rfl⟩
      · exact ⟨coherent, counted, inv.listed⟩
    · cases taken

theorem ring_binit (l : List (Fin NBUF)) (nodup : l.Nodup) : Ring (binitLinks l) l := by
  induction l with
  | nil => exact LinkedRing.ring_empty
  | cons b rest ih =>
    rw [List.nodup_cons] at nodup
    exact (ih nodup.2).pushed nodup.1

theorem boot_inv (disk : Nat → Block) : Inv (boot nproc disk) disk := by
  refine ⟨⟨?_, ?_, ?_, fun _ _ => ⟨rfl, rfl⟩, ?_, fun _ _ => rfl, ?_⟩, ?_, ?_⟩
  · intro b b' dev
    cases dev
  · intro b dev
    cases dev
  · intro b dev
    cases dev
  · intro b unsaved
    cases unsaved
  · intro b positive
    exact absurd positive (Nat.lt_irrefl 0)
  · intro b
    have none : Tally.tally (weight b) (boot nproc disk).phase = 0 :=
      Tally.tally_eq_zero_iff.mpr fun p => weight_running b
    rw [none]
    rfl
  · refine ⟨_, ring_binit _ (List.nodup_reverse.mpr (List.nodup_finRange NBUF)),
      List.reverse_perm _⟩

/-- Steps of the cache next to the one array. -/
def Step (now : State nproc × (Nat → Block)) (e : Event nproc) (out : Option Block)
    (later : State nproc × (Nat → Block)) : Prop :=
  next now.1 e = some (out, later.1) ∧ later.2 = effect now.1 now.2 e

/-- The block of a buffer. -/
def key (buf : Buf nproc) : Nat × Nat := (buf.dev, buf.blockno)

theorem key_setBuf {buf : Buf nproc} (same : key buf = key (s.bufs b)) (b' : Fin NBUF) :
    key ((s.setBuf b buf).bufs b') = key (s.bufs b') := by
  rw [bufs_setBuf]
  split
  · rename_i here
    rw [here, same]
  · rfl

theorem key_iderw (s : State nproc) (b b' : Fin NBUF) :
    key ((iderw s b).bufs b') = key (s.bufs b') := by
  unfold iderw
  dsimp only
  split <;> exact key_setBuf (by rfl) b'

theorem Inv.recycled (inv : Inv s array)
    {e : Event nproc} {out : Option Block} (taken : next s e = some (out, t))
    (b : Fin NBUF) (moved : key (t.bufs b) ≠ key (s.bufs b)) :
    (s.bufs b).refcnt = 0 ∧ (s.bufs b).dirty = false := by
  cases e with
  | bget p k =>
    simp only [next] at taken
    split at taken
    · rw [Option.map_eq_some_iff] at taken
      obtain ⟨u, got, same⟩ := taken
      cases same
      unfold Bio.bget at got
      split at got
      · cases got
        exact absurd (key_setBuf (by rfl) b) moved
      · split at got
        · rename_i c free
          cases got
          by_cases here : b = c
          · rw [here]
            exact inv.listed.unused_eq.1 _ free
          · refine absurd (congrArg key ?_) moved
            exact update_of_ne here ..
        · cases got
    · cases taken
  | acquire p =>
    simp only [next] at taken
    split at taken
    · split at taken
      · cases taken
        exact absurd (key_setBuf (by rfl) b) moved
      · cases taken
    · cases taken
  | bread p c =>
    simp only [next] at taken
    split at taken
    · cases taken
      refine absurd ?_ moved
      split
      · rfl
      · exact key_iderw s c b
    · cases taken
  | bwrite p c =>
    simp only [next] at taken
    split at taken
    · cases taken
      exact absurd ((key_iderw _ c b).trans (key_setBuf (by rfl) b)) moved
    · cases taken
  | modify p c data | logWrite p c | release p c =>
    simp only [next] at taken
    split at taken
    · cases taken
      exact absurd (key_setBuf (by rfl) b) moved
    · cases taken
  | drop p =>
    simp only [next] at taken
    split at taken
    · rename_i c leaves
      cases taken
      refine absurd ?_ moved
      split <;> exact key_setBuf (by rfl) b
    · cases taken

theorem Inv.bget_none (inv : Inv s array) {k : Nat} (panics : Bio.bget s p k = none) :
    ∀ b, key (s.bufs b) ≠ (ROOTDEV, k) ∧ (0 < (s.bufs b).refcnt ∨ (s.bufs b).dirty = true) := by
  unfold Bio.bget at panics
  split at panics
  · cases panics
  · rename_i missing
    split at panics
    · cases panics
    · rename_i full
      intro b
      have away := (inv.listed.lookup_eq ROOTDEV k).2 missing b
      have busy := inv.listed.unused_eq.2 full b
      refine ⟨fun here => away ⟨congrArg Prod.fst here, congrArg Prod.snd here⟩, ?_⟩
      by_contra idle
      rw [not_or, Nat.not_lt, Nat.le_zero, Bool.not_eq_true] at idle
      exact busy idle

theorem Inv.bget_key (inv : Inv s array) {k : Nat} (taken : Bio.bget s p k = some t) :
    ∃ b, t.phase p = .waiting b ∧ key (t.bufs b) = (ROOTDEV, k) := by
  obtain ⟨found, -⟩ := inv.listed.lookup_eq ROOTDEV k
  unfold Bio.bget at taken
  split at taken
  · rename_i b hit
    cases taken
    refine ⟨b, update_self .., (key_setBuf (by rfl) b).trans ?_⟩
    exact Prod.ext (found b hit).1 (found b hit).2
  · split at taken
    · rename_i b free
      cases taken
      refine ⟨b, update_self .., ?_⟩
      refine (congrArg key (bufs_setBuf s b _ b)).trans ?_
      rw [if_pos rfl]
      rfl
    · cases taken

/-- In every run from boot, by any number of processes: no two buffers have one block; `next`
leads from the head through every buffer once and back, and `prev` the same way in reverse; a
buffer with references or B_DIRTY is not recycled; bget waits for a buffer of its block, unless
every buffer is in use; a buffer whose lock is free is locked by who waits for it; and bread
returns to who has the lock what the one array has. -/
theorem buffer_cache_transparent {nproc : Nat} {disk array : Nat → Block} {s : State nproc}
    {trace : List (Event nproc × Option Block)}
    (run : Runs.Run Step (boot nproc disk, disk) trace (s, array)) :
    (∀ b b', (s.bufs b).dev = ROOTDEV → (s.bufs b').dev = ROOTDEV →
      (s.bufs b).blockno = (s.bufs b').blockno → b = b') ∧
    (∃ l, l.Perm (List.finRange NBUF) ∧ Path s.links none l none ∧
      Path ⟨s.links.prev, s.links.next⟩ none l.reverse none) ∧
    (∀ e out t, next s e = some (out, t) → ∀ b, key (t.bufs b) ≠ key (s.bufs b) →
      (s.bufs b).refcnt = 0 ∧ (s.bufs b).dirty = false) ∧
    (∀ p k, s.phase p = .running →
      (∃ b t, next s (.bget p k) = some (none, t) ∧ t.phase p = .waiting b ∧
        key (t.bufs b) = (ROOTDEV, k)) ∨
      ∀ b, key (s.bufs b) ≠ (ROOTDEV, k) ∧ (0 < (s.bufs b).refcnt ∨ (s.bufs b).dirty = true)) ∧
    (∀ p b, s.phase p = .waiting b → (s.bufs b).holder = none →
      ∃ t, next s (.acquire p) = some (none, t) ∧ Uses t p b ∧
        key (t.bufs b) = key (s.bufs b)) ∧
    ∀ p b, Uses s p b →
      ∃ t, next s (.bread p b) = some (some (array (s.bufs b).blockno), t) := by
  have inv : Inv s array := by
    refine run.invariant (I := fun now => Inv now.1 now.2) ?_ (boot_inv disk)
    rintro now e out later inv ⟨taken, same⟩
    rw [same]
    exact inv.step taken
  obtain ⟨l, ring, perm⟩ := inv.listed
  refine ⟨inv.coherent.unique, ⟨l, perm, ring.path, ring.path.reverse⟩,
    fun e out t taken b moved => inv.recycled taken b moved, fun p k idle => ?_,
    fun p b waits free => ?_, fun p b uses => ?_⟩
  · cases got : Bio.bget s p k with
    | none => exact .inr (inv.bget_none got)
    | some t =>
      obtain ⟨b, waits, here⟩ := inv.bget_key got
      exact .inl ⟨b, t, by simp only [next, idle, if_true, got, Option.map_some], waits, here⟩
  · refine ⟨(s.setBuf b { s.bufs b with holder := some p }).setPhase p .running, ?_, ⟨?_, ?_⟩, ?_⟩
    · simp only [next, waits, free, if_true]
    · exact update_self ..
    · have buf := bufs_setBuf s b { s.bufs b with holder := some p } b
      rw [if_pos rfl] at buf
      exact congrArg Buf.holder buf
    · exact key_setBuf (by rfl) b
  · refine ⟨if (s.bufs b).valid then s else iderw s b, ?_⟩
    simp only [next, if_pos uses]
    rw [(inv.bread uses).2]

/-- The steps of the cache and of the array, for evaluation. -/
def nextBoth (now : State nproc × (Nat → Block)) (e : Event nproc) :
    Option (Option Block × State nproc × (Nat → Block)) :=
  (next now.1 e).map fun done => (done.1, done.2, effect now.1 now.2 e)

theorem Step.of_nextBoth {now later : State nproc × (Nat → Block)} {e : Event nproc}
    {out : Option Block} (taken : nextBoth now e = some (out, later)) : Step now e out later := by
  obtain ⟨⟨out', t⟩, moved, same⟩ := Option.map_eq_some_iff.mp taken
  cases same
  exact ⟨moved, rfl⟩

/-- The buffer that bget recycles first. -/
def firstBuf : Fin NBUF := ⟨0, by decide⟩

/-- One process modifies block 5 and puts it in the log; another one takes its lock. -/
def logsThenTakes : List (Event 2) :=
  [.bget 0 5, .acquire 0, .bread 0 firstBuf, .modify 0 firstBuf fun _ => 7, .logWrite 0 firstBuf,
    .release 0 firstBuf, .bget 1 5, .drop 0, .acquire 1]

/-- The second process reads what the first one wrote; the disk does not have it yet. -/
theorem buffer_cache_transparent_logged : ∃ trace s array,
    Runs.Run Step (boot 2 fun _ _ => 0, fun _ _ => 0) trace (s, array) ∧
      trace.map Prod.fst = logsThenTakes ∧ s.disk 5 0 = 0 ∧
      ∃ block t, next s (.bread 1 firstBuf) = some (some block, t) ∧ block 0 = 7 := by
  have ends : (Runs.exec nextBoth (boot 2 fun _ _ => 0, fun _ _ => 0) logsThenTakes).map
      (fun done => (done.2.1.disk 5 0, decide (Uses done.2.1 1 firstBuf),
        done.2.2 (done.2.1.bufs firstBuf).blockno 0)) = some (0, true, 7) := by
    decide +kernel
  obtain ⟨⟨trace, s, array⟩, done, facts⟩ := Option.map_eq_some_iff.mp ends
  simp only [Prod.mk.injEq, decide_eq_true_eq] at facts
  obtain ⟨disk, uses, block⟩ := facts
  have run := (Runs.Run.of_exec done).mono Step.of_nextBoth
  obtain ⟨-, -, -, -, -, reads⟩ := buffer_cache_transparent run
  obtain ⟨t, read⟩ := reads 1 firstBuf uses
  exact ⟨trace, s, array, run, Runs.exec_labels done, disk, _, t, read, block⟩

end Xv6Cow.Bio
