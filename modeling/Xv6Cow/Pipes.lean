import Mathlib.Data.List.Basic
import Xv6Cow.Lib.Ring
import Xv6Cow.Lib.Runs
import Xv6Cow.Word

/- pipe.c: one pipe and the processes `ι` that use it. A section runs from the
acquire of the pipe's lock to its release or to a sleep, which gives the lock up. -/
namespace Xv6Cow.Pipes

open Runs RingBuffer

def PIPESIZE : Nat := 512

structure Pipe where
  ring : Buffer 32 Byte
  readopen : Bool
  writeopen : Bool

/-- What a process waits for: `&p->nread` or `&p->nwrite`. -/
inductive Chan
  | nread
  | nwrite
  deriving DecidableEq

/-- The call a process is in. A pipewrite has a number and the bytes that are left
of its buffer. -/
inductive Task
  | idle
  | writing (call : Nat) (rest : List Byte)
  | reading (n : Nat)
  deriving DecidableEq

structure Proc where
  task : Task
  sleeping : Option Chan
  killed : Bool
  deriving DecidableEq

/-- `sources`, `appended` and `delivered` are not in the source: the buffers of the
pipewrites so far, the bytes stored by them and the bytes returned by pipereads. -/
structure State (ι : Type) where
  pipe : Pipe
  procs : ι → Proc
  calls : Nat
  sources : Nat → List Byte
  appended : List (Nat × Byte)
  delivered : List Byte

variable {ι : Type} [DecidableEq ι]

inductive Label (ι : Type)
  | enterWrite (p : ι) (src : List Byte)
  | enterRead (p : ι) (n : Nat)
  | run (p : ι)
  | kill (p : ι)
  | close (writable : Bool)

/-- What a section returns, if it does not sleep. -/
inductive Out
  | none
  | slept
  | minusOne
  | wrote
  | got (bytes : List Byte)
  deriving DecidableEq

def wakeup (chan : Chan) (procs : ι → Proc) : ι → Proc := fun p =>
  if (procs p).sleeping = some chan then { procs p with sleeping := none } else procs p

/-- pipewrite's loop, up to the byte that finds the pipe full. -/
def fill (ring : Buffer 32 Byte) : List Byte → Buffer 32 Byte × List Byte
  | [] => (ring, [])
  | b :: rest =>
    if ring.isFull PIPESIZE then (ring, b :: rest) else fill (ring.put PIPESIZE b) rest

/-- The bytes the loop stores. -/
def stored (ring : Buffer 32 Byte) (src : List Byte) : List Byte :=
  src.take (src.length - (fill ring src).2.length)

/-- piperead's second loop. -/
def drain (ring : Buffer 32 Byte) : Nat → Buffer 32 Byte × List Byte
  | 0 => (ring, [])
  | n + 1 =>
    if ring.isEmpty then (ring, [])
    else
      let (after, bytes) := drain ring.advance n
      (after, ring.front PIPESIZE :: bytes)

def State.setProc (s : State ι) (p : ι) (proc : Proc) : State ι :=
  { s with procs := Function.update s.procs p proc }

def pipewrite (s : State ι) (p : ι) (call : Nat) (src : List Byte) : Out × State ι :=
  let (ring, rest) := fill s.pipe.ring src
  let s' := { s with
    pipe := { s.pipe with ring := ring }
    appended := s.appended ++ (stored s.pipe.ring src).map fun b => (call, b) }
  match rest with
  | [] =>
    (.wrote, { s' with procs := wakeup .nread s.procs }.setProc p
      { s.procs p with task := .idle })
  | _ =>
    if !s.pipe.readopen || (s.procs p).killed then
      (.minusOne, s'.setProc p { s.procs p with task := .idle })
    else
      (.slept, { s' with procs := wakeup .nread s.procs }.setProc p
        { s.procs p with task := .writing call rest, sleeping := some .nwrite })

def piperead (s : State ι) (p : ι) (n : Nat) : Out × State ι :=
  if s.pipe.ring.isEmpty ∧ s.pipe.writeopen then
    if (s.procs p).killed then (.minusOne, s.setProc p { s.procs p with task := .idle })
    else (.slept, s.setProc p { s.procs p with sleeping := some .nread })
  else
    let (ring, bytes) := drain s.pipe.ring n
    (.got bytes, { s with
      pipe := { s.pipe with ring := ring }
      delivered := s.delivered ++ bytes
      procs := wakeup .nwrite s.procs }.setProc p { s.procs p with task := .idle })

def pipeclose (s : State ι) (writable : Bool) : State ι :=
  if writable then
    { s with pipe := { s.pipe with writeopen := false }, procs := wakeup .nread s.procs }
  else { s with pipe := { s.pipe with readopen := false }, procs := wakeup .nwrite s.procs }

def Task.uses (writable : Bool) : Task → Prop
  | .idle => False
  | .writing .. => writable = true
  | .reading .. => writable = false

/-- One section. A process enters a call with a descriptor of that end, which keeps
the end open until the call returns: fileclose calls pipeclose for the last one. -/
inductive Step (s : State ι) : Label ι → Out → State ι → Prop
  | enterWrite {p : ι} {src : List Byte} (idle : (s.procs p).task = .idle)
      (open' : s.pipe.writeopen = true) :
      Step s (.enterWrite p src) .none ({ s with
        calls := s.calls + 1
        sources := Function.update s.sources s.calls src }.setProc p
          { s.procs p with task := .writing s.calls src })
  | enterRead {p : ι} {n : Nat} (idle : (s.procs p).task = .idle)
      (open' : s.pipe.readopen = true) :
      Step s (.enterRead p n) .none (s.setProc p { s.procs p with task := .reading n })
  | write {p : ι} {call : Nat} {rest : List Byte} (awake : (s.procs p).sleeping = none)
      (here : (s.procs p).task = .writing call rest) :
      Step s (.run p) (pipewrite s p call rest).1 (pipewrite s p call rest).2
  | read {p : ι} {n : Nat} (awake : (s.procs p).sleeping = none)
      (here : (s.procs p).task = .reading n) :
      Step s (.run p) (piperead s p n).1 (piperead s p n).2
  | kill {p : ι} :
      Step s (.kill p) .none (s.setProc p { s.procs p with killed := true, sleeping := none })
  | close {writable : Bool} (unused : ∀ p, ¬(s.procs p).task.uses writable) :
      Step s (.close writable) .none (pipeclose s writable)

/-- pipealloc has returned; the counters start at 0. -/
def start (cells : Nat → Byte) : State ι :=
  { pipe := ⟨⟨cells, 0, 0⟩, true, true⟩
    procs := fun _ => ⟨.idle, none, false⟩
    calls := 0
    sources := fun _ => []
    appended := []
    delivered := [] }

/-! ## The two loops -/

variable {s t : State ι} {p : ι} {label : Label ι} {out : Out} {trace : List (Label ι × Out)}
  {ring : Buffer 32 Byte} {queue : List Byte}

theorem pipesize_dvd : PIPESIZE ∣ 2 ^ 32 := ⟨2 ^ 23, by decide⟩

theorem pipesize_lt : PIPESIZE < 2 ^ 32 := by decide

theorem stored_append {src taken : List Byte} (split : src = taken ++ (fill ring src).2) :
    stored ring src = taken := by
  have len := congrArg List.length split
  rw [List.length_append] at len
  unfold stored
  rw [show src.length - (fill ring src).2.length = taken.length by omega]
  rw [split]
  simp

theorem fill_spec (holds : Holds PIPESIZE ring queue) (src : List Byte) :
    src = stored ring src ++ (fill ring src).2 ∧
      Holds PIPESIZE (fill ring src).1 (queue ++ stored ring src) ∧
      ((fill ring src).2 ≠ [] → (queue ++ stored ring src).length = PIPESIZE) := by
  suffices found : ∃ taken, src = taken ++ (fill ring src).2 ∧
      Holds PIPESIZE (fill ring src).1 (queue ++ taken) ∧
      ((fill ring src).2 ≠ [] → (queue ++ taken).length = PIPESIZE) by
    obtain ⟨taken, split, rest⟩ := found
    rw [stored_append split]
    exact ⟨split, rest⟩
  induction src generalizing ring queue with
  | nil => exact ⟨[], rfl, by simpa [fill] using holds, fun rest => absurd rfl rest⟩
  | cons b rest ih =>
    unfold fill
    split
    · rename_i full
      have size := (holds.isFull_iff pipesize_lt).mp full
      exact ⟨[], rfl, by simpa using holds, fun _ => by simpa using size⟩
    · rename_i notFull
      have room : queue.length < PIPESIZE :=
        lt_of_le_of_ne holds.length_le fun size => notFull ((holds.isFull_iff pipesize_lt).mpr size)
      obtain ⟨taken, split, holds', size⟩ := ih (holds.put pipesize_dvd room b)
      rw [List.append_assoc, List.singleton_append] at holds' size
      exact ⟨b :: taken, by rw [List.cons_append, ← split], holds', size⟩

theorem fill_full (full : ring.isFull PIPESIZE) (src : List Byte) :
    fill ring src = (ring, src) := by
  cases src with
  | nil => rfl
  | cons b rest => rw [fill, if_pos full]

theorem drain_spec (holds : Holds PIPESIZE ring queue) (n : Nat) :
    ∃ left, queue = (drain ring n).2 ++ left ∧ Holds PIPESIZE (drain ring n).1 left := by
  induction n generalizing ring queue with
  | zero => exact ⟨queue, rfl, holds⟩
  | succ n ih =>
    unfold drain
    split
    · exact ⟨queue, rfl, holds⟩
    · rename_i notEmpty
      cases queue with
      | nil => exact absurd ((holds.isEmpty_iff pipesize_lt).mpr rfl) notEmpty
      | cons b rest =>
        obtain ⟨left, split, holds'⟩ := ih (holds.advance pipesize_dvd)
        refine ⟨left, ?_, holds'⟩
        rw [holds.front, List.cons_append, ← split]

/-! ## The sections -/

theorem pipewrite_cases (s : State ι) (p : ι) (call : Nat) (src : List Byte) :
    ((fill s.pipe.ring src).2 = [] ∧ (pipewrite s p call src).1 = .wrote ∧
      (pipewrite s p call src).2.procs =
        Function.update (wakeup .nread s.procs) p { s.procs p with task := .idle }) ∨
    ((fill s.pipe.ring src).2 ≠ [] ∧ (s.pipe.readopen = false ∨ (s.procs p).killed = true) ∧
      (pipewrite s p call src).1 = .minusOne ∧
      (pipewrite s p call src).2.procs =
        Function.update s.procs p { s.procs p with task := .idle }) ∨
    ((fill s.pipe.ring src).2 ≠ [] ∧ s.pipe.readopen = true ∧
      (pipewrite s p call src).1 = .slept ∧
      (pipewrite s p call src).2.procs = Function.update (wakeup .nread s.procs) p
        { s.procs p with
          task := .writing call (fill s.pipe.ring src).2, sleeping := some .nwrite }) := by
  unfold pipewrite
  dsimp only
  split
  · rename_i done
    exact .inl ⟨done, rfl, rfl⟩
  · rename_i more
    split
    · rename_i gives
      refine .inr (.inl ⟨more, ?_, rfl, rfl⟩)
      simpa using gives
    · rename_i stays
      refine .inr (.inr ⟨more, ?_, rfl, rfl⟩)
      simp only [Bool.or_eq_true, Bool.not_eq_true', not_or, Bool.not_eq_false] at stays
      exact stays.1

theorem pipewrite_rest (s : State ι) (p : ι) (call : Nat) (src : List Byte) :
    (pipewrite s p call src).2.pipe = { s.pipe with ring := (fill s.pipe.ring src).1 } ∧
      (pipewrite s p call src).2.appended =
        s.appended ++ (stored s.pipe.ring src).map (fun b => (call, b)) ∧
      (pipewrite s p call src).2.delivered = s.delivered ∧
      (pipewrite s p call src).2.calls = s.calls ∧
      (pipewrite s p call src).2.sources = s.sources := by
  unfold pipewrite
  dsimp only
  split
  · exact ⟨rfl, rfl, rfl, rfl, rfl⟩
  · split <;> exact ⟨rfl, rfl, rfl, rfl, rfl⟩

theorem piperead_cases (s : State ι) (p : ι) (n : Nat) :
    (s.pipe.ring.isEmpty ∧ s.pipe.writeopen = true ∧
      piperead s p n = (.minusOne, s.setProc p { s.procs p with task := .idle })) ∨
    (s.pipe.ring.isEmpty ∧ s.pipe.writeopen = true ∧
      piperead s p n = (.slept, s.setProc p { s.procs p with sleeping := some .nread })) ∨
    (¬(s.pipe.ring.isEmpty ∧ s.pipe.writeopen = true) ∧
      piperead s p n = (.got (drain s.pipe.ring n).2, { s with
        pipe := { s.pipe with ring := (drain s.pipe.ring n).1 }
        delivered := s.delivered ++ (drain s.pipe.ring n).2
        procs := wakeup .nwrite s.procs }.setProc p { s.procs p with task := .idle })) := by
  unfold piperead
  split
  · rename_i waits
    split
    · exact .inl ⟨waits.1, waits.2, rfl⟩
    · exact .inr (.inl ⟨waits.1, waits.2, rfl⟩)
  · rename_i ready
    exact .inr (.inr ⟨ready, rfl⟩)

/-! ## First in, first out -/

/-- What one pipewrite has stored. -/
def bytesOf (appended : List (Nat × Byte)) (call : Nat) : List Byte :=
  (appended.filter fun entry => entry.1 = call).map Prod.snd

theorem bytesOf_append_same (appended : List (Nat × Byte)) (call : Nat) (bytes : List Byte) :
    bytesOf (appended ++ bytes.map fun b => (call, b)) call = bytesOf appended call ++ bytes := by
  unfold bytesOf
  have all : (bytes.map fun b => (call, b)).filter (fun entry => entry.1 = call) =
      bytes.map fun b => (call, b) := by
    simp [List.filter_eq_self]
  rw [List.filter_append, List.map_append, all]
  simp [Function.comp_def]

theorem bytesOf_append_other (appended : List (Nat × Byte))
    {call other : Nat} (apart : other ≠ call) (bytes : List Byte) :
    bytesOf (appended ++ bytes.map fun b => (call, b)) other = bytesOf appended other := by
  unfold bytesOf
  have none : (bytes.map fun b => (call, b)).filter (fun entry => entry.1 = other) = [] := by
    simp [List.filter_eq_nil_iff, Ne.symm apart]
  rw [List.filter_append, none, List.append_nil]

/-- What is stored is what the readers have had and what the pipe holds. -/
def Queued (s : State ι) : Prop :=
  ∃ queue, Holds PIPESIZE s.pipe.ring queue ∧ s.appended.map Prod.snd = s.delivered ++ queue

/-- Every pipewrite stores its own buffer from the front. -/
structure Sourced (s : State ι) : Prop where
  fresh : ∀ c, s.calls ≤ c → bytesOf s.appended c = []
  pending : ∀ p c rest, (s.procs p).task = .writing c rest →
    c < s.calls ∧ bytesOf s.appended c ++ rest = s.sources c
  apart : ∀ p q c rest rest', (s.procs p).task = .writing c rest →
    (s.procs q).task = .writing c rest' → p = q
  inOrder : ∀ c, bytesOf s.appended c <+: s.sources c

omit [DecidableEq ι] in
theorem wakeup_task (chan : Chan) (procs : ι → Proc) (p : ι) :
    (wakeup chan procs p).task = (procs p).task := by
  unfold wakeup
  split <;> rfl

theorem Queued.step (queued : Queued s) (taken : Step s label out t) : Queued t := by
  obtain ⟨queue, holds, split⟩ := queued
  cases taken with
  | enterWrite => exact ⟨queue, holds, split⟩
  | enterRead => exact ⟨queue, holds, split⟩
  | kill => exact ⟨queue, holds, split⟩
  | close =>
    refine ⟨queue, ?_, ?_⟩ <;> unfold pipeclose <;> split <;> assumption
  | @write p call rest awake here =>
    obtain ⟨pipe, appended, delivered, -, -⟩ := pipewrite_rest s p call rest
    obtain ⟨-, holds', -⟩ := fill_spec holds rest
    refine ⟨queue ++ stored s.pipe.ring rest, by rw [pipe]; exact holds', ?_⟩
    rw [appended, delivered, List.map_append, split, List.append_assoc]
    simp [Function.comp_def]
  | @read p n awake here =>
    rcases piperead_cases s p n with ⟨-, -, ends⟩ | ⟨-, -, ends⟩ | ⟨-, ends⟩
    · rw [ends]
      exact ⟨queue, holds, split⟩
    · rw [ends]
      exact ⟨queue, holds, split⟩
    · obtain ⟨left, divide, holds'⟩ := drain_spec holds n
      rw [ends]
      refine ⟨left, holds', ?_⟩
      change s.appended.map Prod.snd = (s.delivered ++ _) ++ left
      rw [split, divide, List.append_assoc]

omit [DecidableEq ι] in
theorem Sourced.of_tasks (sourced : Sourced s) (appended : t.appended = s.appended)
    (calls : t.calls = s.calls) (sources : t.sources = s.sources)
    (tasks : ∀ p c rest, (t.procs p).task = .writing c rest → (s.procs p).task = .writing c rest) :
    Sourced t := by
  obtain ⟨⟩ := sourced
  constructor <;> grind

theorem update_task (procs : ι → Proc) (p q : ι) (proc : Proc) :
    (Function.update procs p proc q).task = if q = p then proc.task else (procs q).task := by
  by_cases same : q = p
  · simp [same]
  · simp [same]

theorem Sourced.write (sourced : Sourced s) (queued : Queued s) {call : Nat} {src : List Byte}
    (here : (s.procs p).task = .writing call src) : Sourced (pipewrite s p call src).2 := by
  obtain ⟨queue, holds, -⟩ := queued
  obtain ⟨split, -, -⟩ := fill_spec holds src
  obtain ⟨-, appended, -, calls, sources⟩ := pipewrite_rest s p call src
  have mine := bytesOf_append_same s.appended call (stored s.pipe.ring src)
  have others : ∀ c, c ≠ call → _ := fun c apart =>
    bytesOf_append_other s.appended apart (stored s.pipe.ring src)
  obtain ⟨below, whole⟩ := sourced.pending p call src here
  rw [split, ← List.append_assoc] at whole
  have tasks : ∀ q c rest, ((pipewrite s p call src).2.procs q).task = .writing c rest →
      q = p ∧ c = call ∧ rest = (fill s.pipe.ring src).2 ∨
        q ≠ p ∧ (s.procs q).task = .writing c rest := by
    intro q c rest task
    rcases pipewrite_cases s p call src with ⟨-, -, procs⟩ | ⟨-, -, -, procs⟩ | ⟨-, -, -, procs⟩ <;>
      rw [procs, update_task] at task <;> grind [wakeup_task]
  constructor
  · intro c new
    rw [appended, others c (by omega)]
    exact sourced.fresh c (by omega)
  · intro q c rest task
    rw [calls, sources, appended]
    rcases tasks q c rest task with ⟨-, rfl, rfl⟩ | ⟨apart, before⟩
    · rw [mine]
      exact ⟨below, whole⟩
    · have different : c ≠ call := by
        rintro rfl
        exact apart (sourced.apart q p c rest src before here)
      rw [others c different]
      exact sourced.pending q c rest before
  · intro q r c rest rest' first second
    rcases tasks q c rest first with ⟨rfl, rfl, -⟩ | ⟨apart, before⟩ <;>
      rcases tasks r c rest' second with ⟨same, same', -⟩ | ⟨apart', before'⟩
    · exact same.symm
    · exact sourced.apart q r c src rest' here before'
    · subst same same'
      exact sourced.apart q r c rest src before here
    · exact sourced.apart q r c rest rest' before before'
  · intro c
    rw [appended, sources]
    by_cases same : c = call
    · subst same
      rw [mine]
      exact ⟨_, whole⟩
    · rw [others c same]
      exact sourced.inOrder c

theorem Sourced.enterWrite (sourced : Sourced s) {src : List Byte} :
    Sourced ({ s with
      calls := s.calls + 1
      sources := Function.update s.sources s.calls src }.setProc p
        { s.procs p with task := .writing s.calls src }) := by
  have tasks : ∀ q c rest, (Function.update s.procs p
      { s.procs p with task := .writing s.calls src } q).task = .writing c rest →
      q = p ∧ c = s.calls ∧ rest = src ∨ q ≠ p ∧ (s.procs q).task = .writing c rest := by
    intro q c rest task
    rw [update_task] at task
    grind
  have old : ∀ c, c ≠ s.calls → Function.update s.sources s.calls src c = s.sources c :=
    fun c apart => Function.update_of_ne apart ..
  have new : Function.update s.sources s.calls src s.calls = src := Function.update_self ..
  constructor
  · exact fun c above => sourced.fresh c (Nat.le_of_succ_le above)
  · intro q c rest task
    change c < s.calls + 1 ∧ bytesOf s.appended c ++ rest = Function.update s.sources s.calls src c
    rcases tasks q c rest task with ⟨-, rfl, rfl⟩ | ⟨-, before⟩
    · rw [new, sourced.fresh _ le_rfl]
      exact ⟨Nat.lt_succ_self _, rfl⟩
    · obtain ⟨below, whole⟩ := sourced.pending q c rest before
      rw [old c (by omega)]
      exact ⟨by omega, whole⟩
  · intro q r c rest rest' first second
    rcases tasks q c rest first with ⟨rfl, rfl, -⟩ | ⟨-, before⟩ <;>
      rcases tasks r _ rest' second with ⟨same, same', -⟩ | ⟨-, before'⟩
    · exact same.symm
    · exact absurd (sourced.pending r _ rest' before').1 (lt_irrefl _)
    · subst same'
      exact absurd (sourced.pending q _ rest before).1 (lt_irrefl _)
    · exact sourced.apart q r c rest rest' before before'
  · intro c
    change bytesOf s.appended c <+: Function.update s.sources s.calls src c
    by_cases same : c = s.calls
    · subst same
      rw [sourced.fresh _ le_rfl]
      exact List.nil_prefix
    · rw [old c same]
      exact sourced.inOrder c

theorem Sourced.step (sourced : Sourced s) (queued : Queued s) (taken : Step s label out t) :
    Sourced t := by
  cases taken with
  | enterWrite => exact sourced.enterWrite
  | enterRead =>
    refine sourced.of_tasks rfl rfl rfl fun q c rest task => ?_
    unfold State.setProc at task
    grind [update_task]
  | kill =>
    refine sourced.of_tasks rfl rfl rfl fun q c rest task => ?_
    unfold State.setProc at task
    grind [update_task]
  | close =>
    unfold pipeclose
    split <;>
      exact sourced.of_tasks rfl rfl rfl fun q c rest task => (wakeup_task _ _ q).symm.trans task
  | write _ here => exact sourced.write queued here
  | @read p n awake here =>
    rcases piperead_cases s p n with ⟨-, -, ends⟩ | ⟨-, -, ends⟩ | ⟨-, ends⟩ <;> rw [ends] <;>
      refine sourced.of_tasks rfl rfl rfl fun q c rest task => ?_ <;>
      unfold State.setProc at task <;> grind [update_task, wakeup_task]

/-- The bytes that the pipereads of a run have returned. -/
def deliveredIn (trace : List (Label ι × Out)) : List Byte :=
  trace.flatMap fun call => match call.2 with
    | .got bytes => bytes
    | _ => []

theorem delivered_run (run : Run Step s trace t) : t.delivered =
    s.delivered ++ deliveredIn trace := by
  induction run with
  | nil => exact (List.append_nil _).symm
  | @cons s u t label out rest first later ih =>
    rw [ih]
    unfold deliveredIn
    rw [List.flatMap_cons, ← List.append_assoc]
    congr 1
    cases first with
    | enterWrite => simp [State.setProc]
    | enterRead => simp [State.setProc]
    | kill => simp [State.setProc]
    | close =>
      unfold pipeclose
      split <;> simp
    | @write p call src _ _ =>
      rw [(pipewrite_rest s p call src).2.2.1]
      rcases pipewrite_cases s p call src with ⟨-, ends, -⟩ | ⟨-, -, ends, -⟩ | ⟨-, -, ends, -⟩ <;>
        simp [ends]
    | @read p n _ _ =>
      rcases piperead_cases s p n with ⟨-, -, ends⟩ | ⟨-, -, ends⟩ | ⟨-, ends⟩ <;>
        simp [ends, State.setProc]

omit [DecidableEq ι] in
theorem queued_start (cells : Nat → Byte) : Queued (start cells : State ι) :=
  ⟨[], ⟨Nat.zero_le _, rfl, nofun⟩, rfl⟩

omit [DecidableEq ι] in
theorem sourced_start (cells : Nat → Byte) : Sourced (start cells : State ι) :=
  ⟨fun _ _ => rfl, nofun, nofun, fun _ => List.nil_prefix⟩

/-- A pipewrite that returns n has stored its whole buffer. -/
theorem wrote_all (queued : Queued s) (sourced : Sourced s) (taken : Step s (.run p) .wrote t) :
    ∃ c rest, (s.procs p).task = .writing c rest ∧ bytesOf t.appended c = t.sources c := by
  obtain ⟨queue, holds, -⟩ := queued
  generalize ends : Out.wrote = o at taken
  cases taken with
  | @write _ call src _ here =>
    obtain ⟨-, appended, -, -, sources⟩ := pipewrite_rest s p call src
    obtain ⟨split, -, -⟩ := fill_spec holds src
    rcases pipewrite_cases s p call src with ⟨empty, -, -⟩ | ⟨-, -, other, -⟩ | ⟨-, -, other, -⟩
    · refine ⟨call, src, here, ?_⟩
      rw [empty, List.append_nil] at split
      rw [appended, sources, bytesOf_append_same, ← split]
      exact (sourced.pending p call src here).2
    · rw [other] at ends
      cases ends
    · rw [other] at ends
      cases ends
  | @read _ n _ _ =>
    rcases piperead_cases s p n with ⟨-, -, other⟩ | ⟨-, -, other⟩ | ⟨-, other⟩ <;>
      rw [other] at ends <;> cases ends

/-- In every run, however far the counters have wrapped, the pipe holds at most
PIPESIZE bytes, the pipereads have returned what the pipewrites stored, in that
order, up to what the pipe still holds, and every pipewrite stores its buffer from
the front, all of it before it returns n. -/
theorem pipe_fifo {cells : Nat → Byte} (run : Run Step (start cells) trace s) :
    (s.pipe.ring.nwrite - s.pipe.ring.nread).toNat ≤ PIPESIZE ∧
      deliveredIn trace <+: s.appended.map Prod.snd ∧
      (∃ queue, Holds PIPESIZE s.pipe.ring queue ∧
        s.appended.map Prod.snd = deliveredIn trace ++ queue) ∧
      (∀ c, bytesOf s.appended c <+: s.sources c) ∧
      ∀ p t, Step s (.run p) .wrote t →
        ∃ c rest, (s.procs p).task = .writing c rest ∧ bytesOf t.appended c = t.sources c := by
  obtain ⟨queued, sourced⟩ : Queued s ∧ Sourced s :=
    run.invariant (I := fun s => Queued s ∧ Sourced s)
      (fun both taken => ⟨both.1.step taken, both.2.step both.1 taken⟩)
      ⟨queued_start cells, sourced_start cells⟩
  have delivered : s.delivered = deliveredIn trace := delivered_run run
  obtain ⟨queue, holds, split⟩ := queued
  rw [delivered] at split
  refine ⟨?_, ⟨queue, split.symm⟩, ⟨queue, holds, split⟩, sourced.inOrder,
    fun p t => wrote_all ⟨queue, holds, by rw [delivered]; exact split⟩ sourced⟩
  have size := holds.length_le
  have narrow := pipesize_lt
  rw [holds.counted, BitVec.add_comm, BitVec.add_sub_cancel, BitVec.toNat_ofNat,
    Nat.mod_eq_of_lt (by omega)]
  exact size

/-- One process writes two bytes, the other reads one. -/
theorem pipe_fifo_two : ∃ trace, ∃ s : State Bool, Run Step (start fun _ => 0) trace s ∧
    deliveredIn trace = [7] ∧ (s.pipe.ring.nwrite - s.pipe.ring.nread).toNat ≤ PIPESIZE := by
  have run : ∃ trace, ∃ s : State Bool, Run Step (start fun _ => 0) trace s ∧
      deliveredIn trace = [7] :=
    ⟨_, _, .cons (@Step.enterWrite Bool _ _ false [7, 8] rfl rfl)
      (.cons (@Step.write Bool _ _ false 0 [7, 8] rfl rfl)
      (.cons (@Step.enterRead Bool _ _ true 1 rfl rfl)
      (.cons (@Step.read Bool _ _ true 1 rfl rfl) .nil))), by decide⟩
  obtain ⟨trace, s, run, bytes⟩ := run
  exact ⟨trace, s, run, bytes, (pipe_fifo run).1⟩

end Xv6Cow.Pipes
