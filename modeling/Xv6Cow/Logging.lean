import Mathlib.Data.List.Basic
import Xv6Cow.Lib.Runs
import Xv6Cow.Lib.Tally

/- log.c: the in-memory log and its admission control. -/
namespace Xv6Cow.Logging

open Runs Tally

def MAXOPBLOCKS : Nat := 10
def LOGSIZE : Nat := MAXOPBLOCKS * 3

/-- mkfs's nlog, which initlog reads back from the superblock as log.size. -/
def nlog : Nat := LOGSIZE

/-- `struct log`. `lh` is `lh.block[0 .. lh.n)`. -/
structure Log where
  start : Nat
  size : Nat
  outstanding : Nat
  committing : Bool
  lh : List Nat
  deriving DecidableEq

inductive Panic
  | tooBig
  | outsideTrans
  | committing
  deriving DecidableEq

/-- One turn of begin_op's loop; `none` is the sleep. -/
def beginOp (log : Log) : Option Log :=
  if log.committing then none
  else if log.lh.length + (log.outstanding + 1) * MAXOPBLOCKS > LOGSIZE then none
  else some { log with outstanding := log.outstanding + 1 }

/-- log_write: absorbed when the block is already listed. -/
def logWrite (blockno : Nat) (log : Log) : Except Panic Log :=
  if log.lh.length ≥ LOGSIZE ∨ log.lh.length ≥ log.size - 1 then .error .tooBig
  else if log.outstanding < 1 then .error .outsideTrans
  else .ok { log with lh := if blockno ∈ log.lh then log.lh else log.lh ++ [blockno] }

/-- end_op up to the commit, and whether this caller commits. -/
def endOp (log : Log) : Except Panic (Log × Bool) :=
  let outstanding := log.outstanding - 1
  if log.committing then .error .committing
  else if outstanding =
    0 then .ok ({ log with outstanding := outstanding, committing := true }, true)
  else .ok ({ log with outstanding := outstanding }, false)

/-- The disk blocks write_log writes. -/
def writeLog (log : Log) : List Nat :=
  (List.range log.lh.length).map fun tail => log.start + tail + 1

/-- The in-memory effect of commit and of the end of end_op. -/
def committed (log : Log) : Log := { log with lh := [], committing := false }

/-! ## Operations -/

/-- The log and, for each process, the blocks its operation has logged. -/
structure Ops (m : Nat) where
  log : Log
  ops : Fin m → Option (List Nat)

inductive Event (m : Nat)
  | begin (p : Fin m)
  | write (p : Fin m) (blockno : Nat)
  | end (p : Fin m)
  | commit

variable {m quota : Nat}

/-- The distinct blocks of an operation after one more log_write. -/
def logged (blockno : Nat) (blocks : List Nat) : List Nat :=
  if blockno ∈ blocks then blocks else blockno :: blocks

/-- The next log_write of an operation that keeps to its quota of distinct blocks. -/
def Admissible (quota : Nat) (s : Ops m) (p : Fin m) (blockno : Nat) : Prop :=
  ∃ blocks, s.ops p = some blocks ∧ (logged blockno blocks).length ≤ quota

/-- One event. `none`: the process sleeps, the event is not its next one, or the
kernel panics. -/
def next (quota : Nat) (s : Ops m) : Event m → Option (Ops m)
  | .begin p =>
    match s.ops p with
    | some _ => none
    | none => (beginOp s.log).map fun log => ⟨log, Function.update s.ops p (some [])⟩
  | .write p blockno =>
    match s.ops p with
    | none => none
    | some blocks =>
      if (logged blockno blocks).length ≤ quota then
        match logWrite blockno s.log with
        | .error _ => none
        | .ok log => some ⟨log, Function.update s.ops p (some (logged blockno blocks))⟩
      else none
  | .end p =>
    match s.ops p with
    | none => none
    | some _ =>
      match endOp s.log with
      | .error _ => none
      | .ok (log, _) => some ⟨log, Function.update s.ops p none⟩
  | .commit => if s.log.committing then some ⟨committed s.log, s.ops⟩ else none

/-- Any number of processes run operations of at most `quota` distinct blocks. -/
def Follows (quota : Nat) (s : Ops m) (event : Event m) (_ : Unit) (t : Ops m) : Prop :=
  next quota s event = some t

/-- After initlog: log.size is sb.nlog. -/
def initlog (m logstart : Nat) : Ops m := ⟨⟨logstart, nlog, 0, false, []⟩, fun _ => none⟩

/-- No admissible log_write panics with "too big a transaction", and write_log
stays inside the log area. -/
def Safe (quota : Nat) (s : Ops m) : Prop :=
  (∀ p blockno, Admissible quota s p blockno → logWrite blockno s.log ≠ .error .tooBig) ∧
    ∀ blockno ∈ writeLog s.log, s.log.start ≤ blockno ∧ blockno < s.log.start + nlog

/-! ## The reservation -/

/-- One for each operation in progress. -/
def active (op : Option (List Nat)) : Nat := if op.isSome then 1 else 0

/-- What an operation may still add to the log. -/
def claim (quota : Nat) : Option (List Nat) → Nat
  | none => 0
  | some blocks => quota - blocks.length

/-- What holds between events while every operation keeps to a quota below
MAXOPBLOCKS. -/
structure Reserved (quota : Nat) (s : Ops m) : Prop where
  size : s.log.size = nlog
  counted : s.log.outstanding = tally active s.ops
  listed : ∀ p blocks, s.ops p = some blocks → ∀ b ∈ blocks, b ∈ s.log.lh
  bounded : s.log.lh.length + tally (claim quota) s.ops + 2 ≤ LOGSIZE
  closed : s.log.committing = true → s.log.outstanding = 0
  cleared : s.log.committing = false → s.log.outstanding = 0 → s.log.lh = []

theorem claim_le (quota : Nat) (op : Option (List Nat)) : claim quota op ≤ quota * active op := by
  cases op with
  | none => simp [claim]
  | some blocks => simp [claim, active]

theorem claims_le (quota : Nat) (ops : Fin m → Option (List Nat)) :
    tally (claim quota) ops ≤ quota * tally active ops := by
  have each : tally (claim quota) ops ≤ tally (fun op => quota * active op) ops :=
    tally_le_tally ops fun p => claim_le quota (ops p)
  unfold tally at each ⊢
  rwa [Finset.mul_sum]

theorem length_logged (blockno : Nat) (blocks : List Nat) :
    (logged blockno blocks).length = blocks.length + if blockno ∈ blocks then 0 else 1 := by
  unfold logged
  split <;> simp

section Keeping

variable {s t : Ops m} {p : Fin m} {blockno : Nat}

theorem Reserved.begin (reserved : Reserved quota s) (small : quota < MAXOPBLOCKS)
    (taken : next quota s (.begin p) = some t) : Reserved quota t := by
  simp only [next] at taken
  split at taken
  · cases taken
  rename_i idle
  obtain ⟨log, begun, rfl⟩ := Option.map_eq_some_iff.mp taken
  simp only [beginOp] at begun
  split at begun
  · cases begun
  rename_i open'
  split at begun
  · cases begun
  rename_i fits
  cases begun
  have claims := tally_update (w := claim quota) s.ops p (some [])
  have actives := tally_update (w := active) s.ops p (some [])
  have below := claims_le quota s.ops
  simp only [idle, claim, active, List.length_nil, Option.isSome] at claims actives
  refine ⟨reserved.size, ?_, ?_, ?_, ?_, ?_⟩
  · have := reserved.counted
    simp only [Bool.false_eq_true, if_false, if_true] at actives
    dsimp only
    omega
  · intro q blocks started b member
    dsimp only at started ⊢
    by_cases here : q = p
    · rw [here, Function.update_self] at started
      cases started
      cases member
    · rw [Function.update_of_ne here] at started
      exact reserved.listed q blocks started b member
  · rw [← reserved.counted] at below
    unfold MAXOPBLOCKS at small
    dsimp only
    unfold LOGSIZE MAXOPBLOCKS at fits ⊢
    by_cases first : s.log.outstanding = 0
    · rw [first, Nat.mul_zero] at below
      rw [reserved.cleared (by simpa using open') first, List.length_nil]
      omega
    · have share : quota * s.log.outstanding ≤ 9 * s.log.outstanding :=
        Nat.mul_le_mul_right _ (by omega)
      omega
  · intro committing
    exact absurd committing open'
  · intro _ none
    cases none

theorem logWrite_eq {log next : Log} (written : logWrite blockno log = .ok next) :
    next = { log with lh := if blockno ∈ log.lh then log.lh else log.lh ++ [blockno] } ∧
      1 ≤ log.outstanding := by
  simp only [logWrite] at written
  split at written
  · cases written
  split at written
  · cases written
  · cases written
    exact ⟨rfl, by omega⟩

theorem Reserved.write (reserved : Reserved quota s)
    (taken : next quota s (.write p blockno) = some t) : Reserved quota t := by
  simp only [next] at taken
  split at taken
  · cases taken
  rename_i blocks started
  split at taken
  case isFalse => cases taken
  rename_i within
  split at taken
  · cases taken
  rename_i log written
  obtain ⟨rfl, running⟩ := logWrite_eq written
  cases taken
  have claims := tally_update (w := claim quota) s.ops p (some (logged blockno blocks))
  have actives := tally_update (w := active) s.ops p (some (logged blockno blocks))
  simp only [started, claim, active, Option.isSome] at claims actives
  rw [length_logged] at claims within
  refine ⟨reserved.size, ?_, ?_, ?_, reserved.closed, ?_⟩
  · have := reserved.counted
    dsimp only
    omega
  · intro q more started' b member
    dsimp only at started' ⊢
    have kept :
        ∀ b ∈ s.log.lh, b ∈ if blockno ∈ s.log.lh then s.log.lh else s.log.lh ++ [blockno] := by
      intro b member
      split
      · exact member
      · exact List.mem_append_left _ member
    have new : blockno ∈ if blockno ∈ s.log.lh then s.log.lh else s.log.lh ++ [blockno] := by
      split
      · assumption
      · simp
    by_cases here : q = p
    · rw [here, Function.update_self] at started'
      cases started'
      unfold logged at member
      split at member
      · exact kept b (reserved.listed p blocks started b member)
      · rcases List.mem_cons.mp member with rfl | old
        · exact new
        · exact kept b (reserved.listed p blocks started b old)
    · rw [Function.update_of_ne here] at started'
      exact kept b (reserved.listed q more started' b member)
  · have bounded := reserved.bounded
    dsimp only
    by_cases old : blockno ∈ blocks
    · rw [if_pos (reserved.listed p blocks started _ old)]
      rw [if_pos old] at claims within
      omega
    · rw [if_neg old] at claims within
      split
      · omega
      · rw [List.length_append, List.length_singleton]
        omega
  · intro _ none
    change s.log.outstanding = 0 at none
    omega

theorem Reserved.end (reserved : Reserved quota s) (taken : next quota s (.end p) = some t) :
    Reserved quota t := by
  simp only [next] at taken
  split at taken
  · cases taken
  rename_i blocks started
  have claims := tally_update (w := claim quota) s.ops p none
  have actives := tally_update (w := active) s.ops p none
  simp only [started, claim, active, Option.isSome] at claims actives
  simp only [Bool.false_eq_true, if_false, if_true] at actives
  have listed :
      ∀ q more, Function.update s.ops p none q = some more → ∀ b ∈ more, b ∈ s.log.lh := by
    intro q more started'
    by_cases here : q = p
    · rw [here, Function.update_self] at started'
      cases started'
    · rw [Function.update_of_ne here] at started'
      exact reserved.listed q more started'
  have counted := reserved.counted
  have bounded := reserved.bounded
  split at taken
  · cases taken
  rename_i log _ ended
  cases taken
  simp only [endOp] at ended
  split at ended
  · cases ended
  split at ended
  · rename_i last
    cases ended
    exact ⟨reserved.size, (by dsimp only; omega), listed,
      (by dsimp only; omega), fun _ => last, fun impossible => nomatch impossible⟩
  · rename_i committing more
    cases ended
    exact ⟨reserved.size, (by dsimp only; omega), listed,
      (by dsimp only; omega), fun yes => absurd yes committing,
      fun _ none => absurd none more⟩

theorem Reserved.commit (reserved : Reserved quota s) (taken : next quota s .commit = some t) :
    Reserved quota t := by
  simp only [next] at taken
  split at taken
  case isFalse => cases taken
  rename_i committing
  cases taken
  have none : tally active s.ops = 0 := by
    rw [← reserved.counted]
    exact reserved.closed committing
  have idle : ∀ q, s.ops q = Option.none := by
    intro q
    have := tally_eq_zero_iff.mp none q
    cases started : s.ops q with
    | none => rfl
    | some blocks =>
      rw [started] at this
      cases this
  refine ⟨reserved.size, reserved.counted, ?_, ?_, ?_, fun _ _ => rfl⟩
  · intro q blocks started
    rw [idle q] at started
    cases started
  · have bounded := reserved.bounded
    dsimp only [committed]
    rw [List.length_nil]
    omega
  · intro impossible
    cases impossible

end Keeping

theorem Reserved.next {s t : Ops m} {event : Event m} (reserved : Reserved quota s)
    (small : quota < MAXOPBLOCKS) (taken : Logging.next quota s event = some t) :
    Reserved quota t := by
  cases event with
  | begin p => exact reserved.begin small taken
  | write p blockno => exact reserved.write taken
  | «end» p => exact reserved.end taken
  | commit => exact reserved.commit taken

theorem Reserved.initlog (m logstart quota : Nat) :
    Reserved quota (Logging.initlog m logstart) := by
  have empty : ∀ w : Option (List Nat) → Nat, w none = 0 →
      tally w (Logging.initlog m logstart).ops = 0 :=
    fun w zero => tally_eq_zero_iff.mpr fun _ => zero
  refine ⟨rfl, (empty active rfl).symm, ?_, ?_, (fun impossible => nomatch impossible),
    fun _ _ => rfl⟩
  · intro p blocks started
    cases started
  · rw [empty _ rfl]
    change 0 + 0 + 2 ≤ LOGSIZE
    decide

theorem Reserved.safe {s : Ops m} (reserved : Reserved quota s) : Safe quota s := by
  have bounded := reserved.bounded
  have small : s.log.lh.length + 2 ≤ LOGSIZE := by omega
  refine ⟨?_, ?_⟩
  · intro p blockno _ panics
    simp only [logWrite] at panics
    split at panics
    · rename_i full
      rw [reserved.size] at full
      unfold nlog at full
      omega
    · split at panics <;> cases panics
  · intro blockno member
    obtain ⟨tail, inside, rfl⟩ := List.mem_map.mp member
    have := List.mem_range.mp inside
    unfold nlog
    omega

/-! ## The quota that the reservation covers -/

/-- Three operations of ten blocks each, up to the twenty-ninth block. -/
def crowd : List (Event 3) :=
  [.begin 0, .begin 1, .begin 2] ++ (List.range 10).map (fun i => .write 0 (100 + i)) ++
    (List.range 10).map (fun i => .write 1 (110 + i)) ++ (List.range 9).map fun i =>
      .write 2 (120 + i)

/-- All three were admitted, and the next block of the third is one too many for
log_write: log.size counts the header block. -/
theorem crowd_panics : ∃ s : Ops 3,
    Run (Follows MAXOPBLOCKS) (initlog 3 3202) (crowd.map fun event => (event, ())) s ∧
      Admissible MAXOPBLOCKS s 2 129 ∧ logWrite 129 s.log = .error .tooBig := by
  have ends : (crowd.foldlM (next MAXOPBLOCKS) (initlog 3 3202)).isSome := by decide
  have third : (Option.get _ ends).ops 2 = some ((List.range 9).map fun i => 128 - i) := by
    decide +revert
  have full : logWrite 129 (Option.get _ ends).log = .error .tooBig := by decide +revert
  exact ⟨Option.get _ ends, Run.of_foldlM (Option.some_get ends).symm, ⟨_, third, by decide⟩, full⟩

theorem next_mono {m small large : Nat} (le : small ≤ large) {s t : Ops m} {event : Event m}
    (taken : next small s event = some t) : next large s event = some t := by
  cases event with
  | begin p => exact taken
  | «end» p => exact taken
  | commit => exact taken
  | write p blockno =>
    simp only [next] at taken ⊢
    split at taken
    · cases taken
    split at taken
    · rename_i within
      rw [if_pos (by omega)]
      exact taken
    · cases taken

/-- begin_op's reservation covers operations of fewer than MAXOPBLOCKS blocks, and
no more. -/
theorem admission_sufficient_iff (quota : Nat) :
    (∀ (m logstart : Nat) (trace : List (Event m × Unit)) (s : Ops m),
      Run (Follows quota) (initlog m logstart) trace s → Safe quota s) ↔ quota < MAXOPBLOCKS := by
  constructor
  · intro always
    by_contra large
    have le : MAXOPBLOCKS ≤ quota := by omega
    obtain ⟨s, run, ⟨blocks, started, within⟩, panics⟩ := crowd_panics
    have safe := always 3 3202 _ s (run.mono fun taken => next_mono le taken)
    exact safe.1 2 129 ⟨blocks, started, by omega⟩ panics
  · intro small m logstart trace s run
    exact (run.invariant (fun reserved taken => reserved.next small taken)
      (Reserved.initlog m logstart quota)).safe

/-- At the quota the comments promise, the log can be too small. -/
theorem admission_insufficient :
    ¬ ∀ (m logstart : Nat) (trace : List (Event m × Unit)) (s : Ops m),
      Run (Follows MAXOPBLOCKS) (initlog m logstart) trace s → Safe MAXOPBLOCKS s := by
  intro always
  obtain ⟨s, run, admissible, panics⟩ := crowd_panics
  exact (always 3 3202 _ s run).1 2 129 admissible panics

end Xv6Cow.Logging
