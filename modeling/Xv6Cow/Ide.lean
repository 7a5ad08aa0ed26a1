import Xv6Cow.Swap
import Xv6Cow.Lib.Runs

/- ide.c: the queue of disk requests, the device, and the processes `ι` that wait in iderw
for the buffers `β`. A section holds idelock; the device works on its own. -/
namespace Xv6Cow.Ide

open Runs
open Function (update update_self update_of_ne)

/-- `struct buf`, without its links. -/
structure Buf where
  dev : Nat
  blockno : Nat
  valid : Bool
  dirty : Bool
  data : Block

/-- (flags & (B_VALID|B_DIRTY)) == B_VALID. -/
@[grind] def Buf.synced (buf : Buf) : Bool := buf.valid && !buf.dirty

/-- The drive and the sector. -/
def Buf.place (buf : Buf) : Nat × Nat := (buf.dev % 2, buf.blockno)

inductive Device
  | ready
  | reading (place : Nat × Nat)
  | writing (place : Nat × Nat) (data : Block)
  /-- The interrupt is raised. A read that went well has brought the sector. -/
  | finished (sector : Option Block)

/-- Where a process stands in iderw. -/
inductive Phase (β : Type)
  | out
  | asleep (b : β)
  | awake (b : β)

/-- `holder` has b->lock, and `queue` is idequeue along qnext. -/
structure State (ι β : Type) where
  bufs : β → Buf
  holder : β → Option ι
  procs : ι → Phase β
  queue : List β
  device : Device
  disk : Nat × Nat → Block
  havedisk1 : Bool

section

variable {ι β : Type} [DecidableEq ι] [DecidableEq β]

/-- What idestart tells the device. -/
@[grind] def command (buf : Buf) : Device :=
  if buf.dirty then .writing buf.place buf.data else .reading buf.place

def idestart (s : State ι β) (b : β) : Except String (State ι β) :=
  if FSSIZE ≤ (s.bufs b).blockno then .error "incorrect blockno"
  else .ok { s with device := command (s.bufs b) }

/-- iderw up to its sleep. -/
def iderw (s : State ι β) (p : ι) (b : β) : Except String (State ι β) :=
  if s.holder b ≠ some p then .error "iderw: buf not locked"
  else if (s.bufs b).synced then .error "iderw: nothing to do"
  else if (s.bufs b).dev ≠ 0 ∧ s.havedisk1 = false then .error "iderw: ide disk 1 not present"
  else
    let s := { s with queue := s.queue ++ [b], procs := update s.procs p (.asleep b) }
    if s.queue.head? = some b then idestart s b else .ok s

@[grind] def wakeup (b : β) : Phase β → Phase β
  | .asleep c => if c = b then .awake c else .asleep c
  | phase => phase

/-- The buffer after its interrupt; a failed read leaves the data. -/
@[grind] def served (sector : Option Block) (buf : Buf) : Buf :=
  { buf with valid := true, dirty := false, data :=
    if buf.dirty then buf.data else sector.getD buf.data }

@[grind] def Device.sector : Device → Option Block
  | .finished sector => sector
  | _ => none

def ideintr (s : State ι β) : Except String (State ι β) :=
  match s.queue with
  | [] => .ok s
  | b :: rest =>
    let s := { s with
      bufs := update s.bufs b (served s.device.sector (s.bufs b))
      procs := fun p => wakeup b (s.procs p)
      queue := rest
      device := .ready }
    match rest with
    | [] => .ok s
    | c :: _ => idestart s c

/-- The device carries out its command, or fails. -/
def complete (s : State ι β) (ok : Bool) : Option (State ι β) :=
  match s.device with
  | .reading place => some { s with device := .finished (if ok then some (s.disk place) else none) }
  | .writing place data =>
    some { s with device := .finished none, disk :=
      if ok then update s.disk place data else s.disk }
  | _ => none

inductive Label (ι β : Type)
  | hold (p : ι) (b : β) (on : Bool)
  | change (p : ι) (b : β)
  | iderw (p : ι) (b : β)
  | complete (ok : Bool)
  | ideintr
  | kill (p : ι)
  | resume (p : ι)

/-- The sections, and what the buffer holds when iderw returns. Outside iderw the holder of
the lock may do anything to the buffer. -/
inductive Step : State ι β → Label ι β → Option Buf → State ι β → Prop
  | hold {s p b on} (out : s.procs p = .out) (was : s.holder b = if on then none else some p) :
    Step s (.hold p b on) none { s with holder := update s.holder b (if on then some p else none) }
  | change {s p b} (out : s.procs p = .out) (mine : s.holder b = some p) (buf : Buf) :
    Step s (.change p b) none { s with bufs := update s.bufs b buf }
  | iderw {s p b t} (out : s.procs p = .out) (called : Ide.iderw s p b = .ok t) :
    Step s (.iderw p b) none t
  | complete {s ok t} (worked : Ide.complete s ok = some t) : Step s (.complete ok) none t
  | ideintr {s t} (raised : s.queue = [] ∨ ∃ sector, s.device = .finished sector)
    (ran : Ide.ideintr s = .ok t) : Step s .ideintr none t
  | kill {s p b} (asleep : s.procs p = .asleep b) :
    Step s (.kill p) none { s with procs := update s.procs p (.awake b) }
  | again {s p b} (awake : s.procs p = .awake b) (waits : (s.bufs b).synced = false) :
    Step s (.resume p) none { s with procs := update s.procs p (.asleep b) }
  | finish {s p b} (awake : s.procs p = .awake b) (synced : (s.bufs b).synced = true) :
    Step s (.resume p) (some (s.bufs b)) { s with procs := update s.procs p .out }

def boot (bufs : β → Buf) (disk : Nat × Nat → Block) (havedisk1 : Bool) : State ι β :=
  ⟨bufs, fun _ => none, fun _ => .out, [], .ready, disk, havedisk1⟩

/-! ## A disk without a driver -/

/-- Each request moves its block at once, the oldest first. -/
structure Atomic (ι β : Type) where
  bufs : β → Buf
  holder : β → Option ι
  inside : ι → Option β
  waiting : List β
  disk : Nat × Nat → Block

inductive Atomic.Step : Atomic ι β → Label ι β → Option Buf → Atomic ι β → Prop
  | hold {a p b on} (out : a.inside p = none) (was : a.holder b = if on then none else some p) :
    Step a (.hold p b on) none { a with holder := update a.holder b (if on then some p else none) }
  | change {a p b} (out : a.inside p = none) (mine : a.holder b = some p) (buf : Buf) :
    Step a (.change p b) none { a with bufs := update a.bufs b buf }
  | iderw {a p b} (out : a.inside p = none) (mine : a.holder b = some p) :
    Step a (.iderw p b) none { a with
      inside := update a.inside p (some b), waiting := a.waiting ++ [b] }
  | transfer {a b rest ok} (first : a.waiting = b :: rest) :
    Step a (.complete ok) none { a with
      bufs := update a.bufs b (served (if ok then some (a.disk (a.bufs b).place) else none)
        (a.bufs b))
      disk :=
        if ok ∧ (a.bufs b).dirty then update a.disk (a.bufs b).place (a.bufs b).data else a.disk
      waiting := rest }
  | ideintr {a} : Step a .ideintr none a
  | kill {a p} : Step a (.kill p) none a
  | again {a p} : Step a (.resume p) none a
  | finish {a p b} (inside : a.inside p = some b) (served : b ∉ a.waiting) :
    Step a (.resume p) (some (a.bufs b)) { a with inside := update a.inside p none }

end

/-! ## The invariant -/

variable {ι β : Type} {s t : State ι β} {a : Atomic ι β} {label : Label ι β} {out : Option Buf}
  {p : ι} {b : β}

@[grind] def Phase.buf : Phase β → Option β
  | .out => none
  | .asleep b => some b
  | .awake b => some b

structure Inv (s : State ι β) : Prop where
  nodup : s.queue.Nodup
  queued : ∀ b ∈ s.queue, (s.bufs b).synced = false
  held : ∀ b ∈ s.queue, s.holder b ≠ none ∧ ∀ p, s.holder b = some p → (s.procs p).buf = some b
  mine : ∀ p b, (s.procs p).buf = some b → s.holder b = some p
  done : ∀ p b, (s.procs p).buf = some b → b ∉ s.queue → (s.bufs b).synced = true ∧
    s.procs p = .awake b
  idle : s.queue = [] → s.device = .ready
  busy : ∀ b, s.queue.head? = some b → s.device = command (s.bufs b) ∨
    ∃ sector, s.device = .finished sector

/-- A buffer whose lock is free, or held by a process outside iderw, is not queued, and
nobody waits for it. -/
theorem Inv.untouched (inv : Inv s) (out : s.procs p = .out)
    (free : s.holder b = none ∨ s.holder b = some p) :
    b ∉ s.queue ∧ ∀ q c, (s.procs q).buf = some c → c ≠ b := by
  have unused : ∀ q c, (s.procs q).buf = some c → c ≠ b := by
    rintro q c inside rfl
    have holder := inv.mine q c inside
    rcases free with none | mine
    · rw [none] at holder
      cases holder
    · rw [← Option.some.inj (mine.symm.trans holder), out] at inside
      cases inside
  refine ⟨fun member => ?_, unused⟩
  obtain ⟨taken, waits⟩ := inv.held b member
  obtain ⟨q, holder⟩ := Option.ne_none_iff_exists'.mp taken
  exact unused q b (waits q holder) rfl

theorem complete_some {ok : Bool} (worked : complete s ok = some t) (inv : Inv s) :
    ∃ b rest, s.queue = b :: rest ∧ s.device = command (s.bufs b) ∧
      t = { s with
        device := .finished (if ok ∧
          (s.bufs b).dirty = false then some (s.disk (s.bufs b).place) else none)
        disk := if ok ∧
          (s.bufs b).dirty then update s.disk (s.bufs b).place (s.bufs b).data else s.disk } := by
  have idle := inv.idle
  have busy := inv.busy
  unfold complete at worked
  cases shape : s.queue with
  | nil => grind
  | cons b rest => exact ⟨b, rest, rfl, by grind⟩

section

variable [DecidableEq β]

theorem ideintr_ok (ran : ideintr s = .ok t) :
    s.queue = [] ∧ t = s ∨ ∃ b rest device, s.queue = b :: rest ∧
    t = { s with
      bufs := update s.bufs b (served s.device.sector (s.bufs b))
      procs := fun p => wakeup b (s.procs p)
      queue := rest
      device := device } ∧ (rest = [] → device = .ready) ∧
      ∀ c, rest.head? = some c → device = command (t.bufs c) := by
  unfold ideintr idestart at ran
  split at ran
  · grind
  · rename_i b rest shape
    refine .inr ⟨b, rest, t.device, shape, ?_⟩
    cases rest <;> dsimp only at ran
    · cases ran
      exact ⟨rfl, fun _ => rfl, nofun⟩
    · split at ran <;> cases ran
      exact ⟨rfl, nofun, fun d head => Option.some.inj head ▸ rfl⟩

@[grind =] theorem wakeup_buf (b : β) (phase : Phase β) : (wakeup b phase).buf = phase.buf := by
  cases phase <;> grind

theorem Inv.hold {on : Bool} (inv : Inv s) (out : s.procs p = .out)
    (was : s.holder b = if on then none else some p) :
    Inv { s with holder := update s.holder b (if on then some p else none) } := by
  obtain ⟨absent, unused⟩ := inv.untouched (b := b) out (by
    rw [was]
    cases on
    · exact .inr rfl
    · exact .inl rfl)
  refine ⟨inv.nodup, inv.queued, fun c member => ?_, fun q c inside => ?_, inv.done, inv.idle,
    inv.busy⟩ <;> dsimp only
  · rw [update_of_ne (ne_of_mem_of_not_mem member absent)]
    exact inv.held c member
  · rw [update_of_ne (unused q c inside)]
    exact inv.mine q c inside

theorem Inv.change (inv : Inv s) (out : s.procs p = .out) (mine : s.holder b = some p) (buf : Buf) :
    Inv { s with bufs := update s.bufs b buf } := by
  obtain ⟨absent, unused⟩ := inv.untouched out (.inr mine)
  refine ⟨inv.nodup, fun c member => ?_, inv.held, inv.mine, fun q c inside gone => ?_, inv.idle,
    fun c head => ?_⟩ <;> dsimp only
  · rw [update_of_ne (ne_of_mem_of_not_mem member absent)]
    exact inv.queued c member
  · rw [update_of_ne (unused q c inside)]
    exact inv.done q c inside gone
  · rw [update_of_ne (ne_of_mem_of_not_mem (List.mem_of_head? head) absent)]
    exact inv.busy c head

theorem Inv.ideintr {c : β} {rest : List β} {device : Device} (inv : Inv s)
    (shape : s.queue = c :: rest) (last : rest = [] → device = .ready) {bufs : β → Buf}
    (serves : bufs = update s.bufs c (served s.device.sector (s.bufs c)))
    (next : ∀ d, rest.head? = some d → device = command (bufs d)) : Inv { s with
      bufs := bufs
      procs := fun p => wakeup c (s.procs p)
      queue := rest
      device := device } := by
  have unique := inv.nodup
  rw [shape, List.nodup_cons] at unique
  have later : ∀ d ∈ rest, d ∈ s.queue ∧ bufs d = s.bufs d := by
    intro d member
    rw [shape, serves, update_of_ne (ne_of_mem_of_not_mem member unique.1)]
    exact ⟨List.mem_cons_of_mem _ member, rfl⟩
  refine ⟨unique.2, fun d member => ?_, fun d member => ?_, fun q d inside => ?_,
    fun q d inside gone => ?_, last, fun d head => .inl (next d head)⟩ <;> dsimp only at *
  · rw [(later d member).2]
    exact inv.queued d (later d member).1
  · obtain ⟨taken, waits⟩ := inv.held d (later d member).1
    exact ⟨taken, fun q holder => (wakeup_buf c _).trans (waits q holder)⟩
  · exact inv.mine q d ((wakeup_buf c _).symm.trans inside)
  · rw [wakeup_buf] at inside
    by_cases here : d = c
    · subst here
      rw [serves, update_self]
      refine ⟨rfl, ?_⟩
      cases phase : s.procs q with
      | out =>
        rw [phase] at inside
        cases inside
      | asleep e | awake e =>
        rw [phase] at inside
        cases inside
        simp only [wakeup, if_true]
    · obtain ⟨synced, awake⟩ := inv.done q d inside (by
        rw [shape, List.mem_cons, not_or]
        exact ⟨here, gone⟩)
      rw [serves, update_of_ne here, awake]
      exact ⟨synced, rfl⟩

end

section

variable [DecidableEq ι]

theorem update_buf {phase : Phase β} (same : phase.buf = (s.procs p).buf) (q : ι) :
    (update s.procs p phase q).buf = (s.procs q).buf := by
  by_cases here : q = p
  · rw [here, update_self, same]
  · rw [update_of_ne here]

theorem Inv.move {phase : Phase β} (inv : Inv s) (same : phase.buf = (s.procs p).buf)
    (wakes : ∀ c, phase.buf = some c → c ∉ s.queue → phase = .awake c) :
    Inv { s with procs := update s.procs p phase } := by
  refine ⟨inv.nodup, inv.queued, fun c member => ⟨(inv.held c member).1, fun q holder => ?_⟩,
    fun q c inside => ?_, fun q c inside gone => ?_, inv.idle, inv.busy⟩ <;> dsimp only at *
  · rw [update_buf same]
    exact (inv.held c member).2 q holder
  · rw [update_buf same] at inside
    exact inv.mine q c inside
  · have before := inside
    rw [update_buf same] at before
    obtain ⟨synced, awake⟩ := inv.done q c before gone
    refine ⟨synced, ?_⟩
    by_cases here : q = p
    · subst here
      rw [update_self] at inside ⊢
      exact wakes c inside gone
    · rw [update_of_ne here]
      exact awake

theorem Inv.finish (inv : Inv s) (awake : s.procs p = .awake b)
    (synced : (s.bufs b).synced = true) :
    Inv { s with procs := update s.procs p .out } := by
  have other :
      ∀ q c, (update s.procs p .out q).buf = some c → q ≠ p ∧ (s.procs q).buf = some c := by
    intro q c inside
    by_cases here : q = p
    · rw [here, update_self] at inside
      cases inside
    · rw [update_of_ne here] at inside
      exact ⟨here, inside⟩
  refine ⟨inv.nodup, inv.queued, fun c member => ⟨(inv.held c member).1, fun q holder => ?_⟩,
    fun q c inside => inv.mine q c (other q c inside).2, fun q c inside gone => ?_, inv.idle,
    inv.busy⟩ <;>
    dsimp only at *
  · have inside := (inv.held c member).2 q holder
    by_cases here : q = p
    · rw [here, awake] at inside
      cases inside
      rw [inv.queued b member] at synced
      cases synced
    · rw [update_of_ne here]
      exact inside
  · obtain ⟨away, inside⟩ := other q c inside
    rw [update_of_ne away]
    exact inv.done q c inside gone

end

variable [DecidableEq ι] [DecidableEq β]

theorem iderw_ok (called : iderw s p b = .ok t) :
    s.holder b = some p ∧ (s.bufs b).synced = false ∧
      t = { s with
        queue := s.queue ++ [b]
        procs := update s.procs p (.asleep b)
        device := if (s.queue ++ [b]).head? = some b then command (s.bufs b) else s.device } := by
  unfold iderw idestart at called
  grind

theorem Inv.iderw (inv : Inv s) (out : s.procs p = .out) (mine : s.holder b = some p)
    (pending : (s.bufs b).synced = false) : Inv { s with
      queue := s.queue ++ [b]
      procs := update s.procs p (.asleep b)
      device := if (s.queue ++ [b]).head? = some b then command (s.bufs b) else s.device } := by
  have absent := (inv.untouched out (.inr mine)).1
  have others :
    ∀ q, q ≠ p → update s.procs p (.asleep b) q = s.procs q := fun q => (update_of_ne · _ _)
  have own : (update s.procs p (.asleep b) p).buf = some b := by rw [update_self]; rfl
  refine ⟨?_, fun c member => ?_, fun c member => ?_, fun q c inside => ?_,
    fun q c inside gone => ?_, fun empty => ?_, fun c head => ?_⟩
  · exact List.nodup_append.mpr ⟨inv.nodup, List.nodup_singleton b, fun c member d last =>
      List.mem_singleton.mp last ▸ ne_of_mem_of_not_mem member absent⟩
  · rcases List.mem_append.mp member with old | last
    · exact inv.queued c old
    · rw [List.mem_singleton.mp last]
      exact pending
  · rcases List.mem_append.mp member with old | last
    · obtain ⟨taken, waits⟩ := inv.held c old
      refine ⟨taken, fun q holder => ?_⟩
      dsimp only
      rw [others q fun same => ?_]
      · exact waits q holder
      · have inside := waits q holder
        rw [same, out] at inside
        cases inside
    · rw [List.mem_singleton.mp last]
      refine ⟨by dsimp only; rw [mine]; nofun, fun q holder => ?_⟩
      rw [← Option.some.inj (mine.symm.trans holder)]
      exact own
  · dsimp only at inside ⊢
    by_cases here : q = p
    · rw [here, own] at inside
      rw [here, ← Option.some.inj inside, mine]
    · rw [others q here] at inside
      exact inv.mine q c inside
  · dsimp only at inside gone ⊢
    rw [List.mem_append, List.mem_singleton, not_or] at gone
    by_cases here : q = p
    · rw [here, own] at inside
      exact absurd (Option.some.inj inside).symm gone.2
    · rw [others q here] at inside ⊢
      exact inv.done q c inside gone.1
  · exact absurd empty (List.append_ne_nil_of_right_ne_nil _ (List.cons_ne_nil _ _))
  · dsimp only at head ⊢
    rw [head]
    split
    · rename_i same
      exact .inl (by rw [Option.some.inj same])
    · rename_i other
      refine inv.busy c ?_
      cases shape : s.queue with
      | nil =>
        rw [shape] at head
        exact absurd head.symm other
      | cons d rest =>
        rw [shape] at head
        exact head

theorem Inv.step (inv : Inv s) (taken : Step s label out t) : Inv t := by
  cases taken with
  | hold out was => exact inv.hold out was
  | change out mine buf => exact inv.change out mine buf
  | iderw out called =>
    obtain ⟨mine, pending, rfl⟩ := iderw_ok called
    exact inv.iderw out mine pending
  | complete worked =>
    obtain ⟨c, rest, shape, device, rfl⟩ := complete_some worked inv
    refine ⟨inv.nodup, inv.queued, inv.held, inv.mine, inv.done, fun empty => ?_, fun _ _ =>
      .inr ⟨_, rfl⟩⟩
    rw [shape] at empty
    cases empty
  | ideintr raised ran =>
    rcases ideintr_ok ran with ⟨-, rfl⟩ | ⟨c, rest, device, shape, rfl, last, next⟩
    · exact inv
    · exact inv.ideintr shape last rfl next
  | kill asleep => exact inv.move (by rw [asleep]; rfl) (fun c inside _ => by cases inside; rfl)
  | @again q c awake waits =>
    refine inv.move (by rw [awake]; rfl) (fun d inside gone => ?_)
    cases inside
    have synced := (inv.done q c (by rw [awake]; rfl) gone).1
    rw [waits] at synced
    cases synced
  | finish awake synced => exact inv.finish awake synced

/-! ## Refinement -/

/-- From the moment the device has finished, the first request is served. -/
structure Matches (s : State ι β) (a : Atomic ι β) : Prop where
  inv : Inv s
  holder : a.holder = s.holder
  inside : ∀ p, a.inside p = (s.procs p).buf
  disk : a.disk = s.disk
  served : (∀ sector, s.device ≠ .finished sector) ∧ s.queue = a.waiting ∧ a.bufs = s.bufs ∨
    ∃ sector b, s.device = .finished sector ∧ s.queue = b :: a.waiting ∧
      a.bufs = update s.bufs b (served sector (s.bufs b))

omit [DecidableEq ι] in
theorem Matches.unqueued (same : Matches s a) (absent : b ∉ s.queue) : a.bufs b = s.bufs b := by
  rcases same.served with ⟨-, -, bufs⟩ | ⟨sector, c, -, queue, bufs⟩
  · rw [bufs]
  · rw [bufs, update_of_ne (by grind)]

omit [DecidableEq β] in
theorem update_inside {a : ι → Option β} {procs : ι → Phase β} (same : ∀ q, a q = (procs q).buf)
    (phase : Phase β) (q : ι) : update a p phase.buf q = (update procs p phase q).buf := by
  by_cases here : q = p
  · rw [here, update_self, update_self]
  · rw [update_of_ne here, update_of_ne here, same]

theorem Matches.imitate (same : Matches s a) (taken : Step s label out t) :
    ∃ b, a.Step label out b ∧ Matches t b := by
  have after := same.inv.step taken
  obtain ⟨inv, holder, inside, disk, served⟩ := id same
  have unfinished : ∀ buf sector, command buf ≠ .finished sector := by grind
  cases taken with
  | @hold p _ _ out was =>
    exact ⟨_, .hold (by rw [inside p, out]; rfl) (holder ▸ was),
      after, by rw [holder], inside, disk, served⟩
  | @change p c out mine buf =>
    have absent := (inv.untouched out (.inr mine)).1
    refine ⟨_, .change (by rw [inside p, out]; rfl) (holder ▸ mine) buf, after,
      holder, inside, disk, ?_⟩
    rcases served with ⟨working, queue, bufs⟩ | ⟨sector, d, finished, queue, bufs⟩
    · exact .inl ⟨working, queue, by rw [bufs]⟩
    · have apart : d ≠ c := by grind
      refine .inr ⟨sector, d, finished, queue, ?_⟩
      dsimp only
      rw [bufs, Function.update_comm apart, update_of_ne apart]
  | @iderw p c _ out called =>
    obtain ⟨mine, -, rfl⟩ := iderw_ok called
    have absent := (inv.untouched out (.inr mine)).1
    refine ⟨_, .iderw (by rw [inside p, out]; rfl) (holder ▸ mine), after, holder,
      update_inside inside (.asleep c), disk, ?_⟩
    rcases served with ⟨working, queue, bufs⟩ | ⟨sector, d, finished, queue, bufs⟩
    · exact .inl ⟨by grind, by grind, bufs⟩
    · exact .inr ⟨sector, d, by grind, by grind, bufs⟩
  | complete worked =>
    obtain ⟨c, rest, shape, device, rfl⟩ := complete_some worked inv
    rcases served with ⟨-, queue, bufs⟩ | ⟨sector, d, finished, -, -⟩
    · refine ⟨_, .transfer (queue ▸ shape), after, holder, inside, ?_,
        .inr ⟨_, c, rfl, shape, ?_⟩⟩ <;> dsimp only <;> rw [bufs, disk]
      · cases dirty : (s.bufs c).dirty <;> simp [Ide.served, dirty]
    · exact absurd (device.symm.trans finished) (unfinished _ _)
  | ideintr raised ran =>
    rcases ideintr_ok ran with ⟨-, rfl⟩ | ⟨c, rest, device, shape, rfl, last, next⟩
    · exact ⟨a, .ideintr, after, holder, inside, disk, served⟩
    rcases served with ⟨working, -, -⟩ | ⟨sector, d, finished, queue, bufs⟩
    · grind
    · refine ⟨a, .ideintr, after, holder, fun p => (inside p).trans (wakeup_buf c _).symm, disk,
        .inl ⟨?_, ?_, ?_⟩⟩
      · cases rest with
        | nil => exact last rfl ▸ nofun
        | cons e rest => exact next e rfl ▸ unfinished _
      · grind
      · rw [bufs, finished]
        grind
  | kill asleep =>
    exact ⟨a, .kill, after, holder,
      fun q => (inside q).trans (update_buf (by rw [asleep]; rfl) q).symm,
      disk, served⟩
  | again awake waits =>
    exact ⟨a, .again, after, holder,
      fun q => (inside q).trans (update_buf (by rw [awake]; rfl) q).symm,
      disk, served⟩
  | @finish p c awake synced =>
    have absent : c ∉ s.queue := fun member => by
      rw [inv.queued c member] at synced
      cases synced
    rw [← same.unqueued absent]
    exact ⟨_, .finish (by rw [inside p, awake]; rfl) (by grind), after, holder,
      update_inside inside .out, disk, served⟩

/-- The driver, its interrupts and any number of processes do what a disk would do that moves
the block of each request at once, in the order of the calls: iderw returns with the buffer as
the transfer left it. -/
theorem ide_refines_atomic {bufs : β → Buf} {disk : Nat × Nat → Block} {havedisk1 : Bool}
    {trace : List (Label ι β × Option Buf)} (run : Run Step (boot bufs disk havedisk1) trace s) :
    ∃ a : Atomic ι β, Run Atomic.Step ⟨bufs, fun _ => none, fun _ => none, [], disk⟩ trace a ∧
      a.disk = s.disk ∧ ∀ b ∉ s.queue, a.bufs b = s.bufs b := by
  have start :
      Matches (boot bufs disk havedisk1 : State ι β)
      ⟨bufs, fun _ => none, fun _ => none, [], disk⟩ :=
    ⟨⟨List.nodup_nil, nofun, nofun, nofun, nofun, fun _ => rfl, nofun⟩, rfl, fun _ => rfl, rfl,
      .inl ⟨nofun, rfl, rfl⟩⟩
  have imitate : ∀ {s label out t} {a : Atomic ι β}, Matches s a → Step s label out t →
      ∃ b, a.Step label out b ∧ Matches t b := Matches.imitate
  obtain ⟨a, run', same⟩ := run.simulate imitate start
  exact ⟨a, run', same.disk, fun b => same.unqueued⟩

def unread : Buf := ⟨0, 3, false, false, fun _ => 0#32⟩

def reads : List (Label Unit Unit × Option Buf) :=
  [(.hold () () true, none), (.iderw () (), none), (.complete true, none), (.ideintr, none),
    (.resume (), some ⟨0, 3, true, false, fun _ => 7#32⟩)]

theorem ide_refines_atomic_read : ∃ a, Run Atomic.Step
    ⟨fun _ => unread, fun _ => none, fun _ => none, [], fun _ _ => 7#32⟩ reads a := by
  obtain ⟨a, run, -⟩ := @ide_refines_atomic Unit Unit _ _ _ (fun _ => unread)
    (fun _ _ => 7#32) false reads
    (.cons (.hold rfl rfl) (.cons (.iderw rfl rfl) (.cons (.complete rfl)
      (.cons (.ideintr (.inr ⟨_, rfl⟩) rfl) (.cons (.finish (b := ()) rfl rfl) .nil)))))
  exact ⟨a, run⟩

end Xv6Cow.Ide
