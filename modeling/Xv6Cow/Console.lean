import Mathlib.Data.List.Basic
import Xv6Cow.Lib.Ring
import Xv6Cow.Lib.Runs
import Xv6Cow.Word

/- The line discipline of console.c: consoleintr, fed with keys by the keyboard and
the serial port, and any number of consoleread calls by the processes `ι`. What
consputc echoes is left out. -/
namespace Xv6Cow.Console

open Runs RingBuffer

def INPUT_BUF : Nat := 128

/-- struct input. -/
structure Input where
  buf : Nat → Byte
  r : BitVec 32
  w : BitVec 32
  e : BitVec 32

/-- C(x). -/
def ctrl (x : Char) : Byte := BitVec.ofNat 8 (x.toNat - '@'.toNat)

def newline : Byte := BitVec.ofNat 8 '\n'.toNat
def carriageReturn : Byte := BitVec.ofNat 8 '\r'.toNat
def delete : Byte := 0x7f#8

/-! ## consoleintr -/

theorem pred_sub_lt {e w : BitVec 32} (apart : e ≠ w) : (e - 1 - w).toNat < (e - w).toNat := by
  have first : e.toNat < 2 ^ 32 := e.isLt
  have second : w.toNat < 2 ^ 32 := w.isLt
  have differ : e.toNat ≠ w.toNat := fun same => apart (BitVec.eq_of_toNat_eq same)
  have one : (1 : BitVec 32).toNat = 1 := rfl
  rw [BitVec.toNat_sub, BitVec.toNat_sub, BitVec.toNat_sub, one]
  omega

/-- The loop of ^U. -/
def killLine (input : Input) : Input :=
  if input.e ≠ input.w ∧ input.buf ((input.e - 1).toNat % INPUT_BUF) ≠ newline then
    killLine { input with e := input.e - 1 }
  else input
termination_by (input.e - input.w).toNat
decreasing_by
  rename_i goes
  exact pred_sub_lt goes.1

def backspace (input : Input) : Input :=
  if input.e ≠ input.w then { input with e := input.e - 1 } else input

/-- A byte is stored; the line is committed with a newline, with ^D or when the
buffer is full. -/
def store (input : Input) (c : Byte) : Input :=
  let stored : Input := { input with
    buf := Function.update input.buf (input.e.toNat % INPUT_BUF) c
    e := input.e + 1 }
  if c = newline ∨ c = ctrl 'D' ∨ stored.e = input.r + BitVec.ofNat 32 INPUT_BUF then
    { stored with w := stored.e }
  else stored

/-- The default case of the switch. -/
def insert (input : Input) (c : Byte) : Input :=
  if c ≠ 0 ∧ (input.e - input.r).toNat < INPUT_BUF then
    store input (if c = carriageReturn then newline else c)
  else input

/-- The switch. ^P only asks for a process listing. -/
def press (input : Input) (c : Byte) : Input :=
  if c = ctrl 'P' then input
  else if c = ctrl 'U' then killLine input
  else if c = ctrl 'H' ∨ c = delete then backspace input
  else insert input c

/-- consoleintr, when getc returns these keys and then -1. -/
def consoleintr (input : Input) (keys : List Byte) : Input := keys.foldl press input

/-! ## consoleread -/

/-- The loop of consoleread with `n` bytes to go and `dst` stored. It returns, or
sleeps with some bytes to go. -/
def readLoop (target : Nat) : Nat → Input → List Byte → Input × List Byte × Option Nat
  | 0, input, dst => (input, dst, none)
  | n + 1, input, dst =>
    if input.r = input.w then (input, dst, some (n + 1))
    else
      let c := input.buf (input.r.toNat % INPUT_BUF)
      let next := { input with r := input.r + 1 }
      if c = ctrl 'D' then
        (if n + 1 < target then { next with r := next.r - 1 } else next, dst, none)
      else if c = newline then (next, dst ++ [c], none)
      else readLoop target n next (dst ++ [c])

/-- A call of consoleread that has not returned. -/
structure Read where
  call : Nat
  target : Nat
  n : Nat
  dst : List Byte

/-- Some device that takes keys and serves reads, and the processes that read from it.
A read of the device stores bytes and returns, or sleeps with some bytes to go. -/
structure Device (δ : Type) where
  keys : δ → List Byte → δ
  read : δ → Read → δ × List Byte × Option Nat

structure State (ι δ : Type) where
  device : δ
  reads : ι → Option Read
  killed : ι → Bool
  calls : Nat

inductive Label (ι : Type)
  | keys (keys : List Byte)
  | enter (p : ι) (n : Int)
  | run (p : ι)
  | kill (p : ι)

inductive Out
  | none
  | slept
  | minusOne (call : Nat)
  | got (call : Nat) (bytes : List Byte)
  deriving DecidableEq

variable {ι δ : Type} [DecidableEq ι]

/-- How a section of a call ends: the call returns, or goes to sleep unless the process
was killed. -/
def Read.leave (read : Read) (killed : Bool) (dst : List Byte) : Option Nat → Out × Option Read
  | none => (.got read.call dst, none)
  | some n =>
    if killed then (.minusOne read.call, none)
    else (.slept, some { read with n := n, dst := dst })

/-- consoleread from the acquire of the lock, or its return from sleep, to the release
or to the next sleep. -/
def consoleread (dev : Device δ) (s : State ι δ) (p : ι) (read : Read) : Out × State ι δ :=
  let served := dev.read s.device read
  let left := read.leave (s.killed p) served.2.1 served.2.2
  (left.1, { s with device := served.1, reads := Function.update s.reads p left.2 })

/-- A call of consoleread for `n` bytes begins. With `n` negative its loop does not
run and `target - n` is 0, as for `n` zero. -/
def begin (call : Nat) (n : Int) : Read := ⟨call, n.toNat, n.toNat, []⟩

/-- One section under the console's lock. A process that sleeps may run at any time:
it tests the loop condition again. -/
inductive Step (dev : Device δ) (s : State ι δ) : Label ι → Out → State ι δ → Prop
  | keys {keys : List Byte} :
      Step dev s (.keys keys) .none { s with device := dev.keys s.device keys }
  | enter {p : ι} {n : Int} (idle : s.reads p = none) :
      Step dev s (.enter p n) .none { s with
        reads := Function.update s.reads p (some (begin s.calls n))
        calls := s.calls + 1 }
  | run {p : ι} {read : Read} (here : s.reads p = some read) :
      Step dev s (.run p) (consoleread dev s p read).1 (consoleread dev s p read).2
  | kill {p : ι} : Step dev s (.kill p) .none { s with killed := Function.update s.killed p true }

def start (device : δ) : State ι δ :=
  { device := device, reads := fun _ => none, killed := fun _ => false, calls := 0 }

def console : Device Input :=
  ⟨consoleintr, fun input read => readLoop read.target read.n input read.dst⟩

/-! ## The reference line editor -/

/-- The line being typed, all bytes of the lines committed so far, and for each of
these bytes that has been read the call that read it. -/
structure Editor where
  line : List Byte
  lines : List Byte
  readers : List Nat

/-- The committed bytes that wait for a reader. -/
def Editor.queue (ed : Editor) : List Byte := ed.lines.drop ed.readers.length

def Editor.pending (ed : Editor) : Nat := ed.queue.length + ed.line.length

def Editor.add (ed : Editor) (c : Byte) : Editor := { ed with line := ed.line ++ [c] }

def Editor.commit (ed : Editor) : Editor := { ed with line := [], lines := ed.lines ++ ed.line }

def Editor.store (ed : Editor) (c : Byte) : Editor :=
  if c = newline ∨ c = ctrl 'D' ∨ (ed.add c).pending = INPUT_BUF then (ed.add c).commit
  else ed.add c

def Editor.press (ed : Editor) (c : Byte) : Editor :=
  if c = ctrl 'P' then ed
  else if c = ctrl 'U' then { ed with line := [] }
  else if c = ctrl 'H' ∨ c = delete then { ed with line := ed.line.dropLast }
  else if c ≠ 0 ∧ ed.pending < INPUT_BUF then
    ed.store (if c = carriageReturn then newline else c)
  else ed

/-- What a read takes from the queue, and how many bytes it still waits for if it does.
A newline ends the read. So does ^D: a read that has stored bytes leaves it where it is,
one that has not takes it and returns none. -/
def takeLine (target : Nat) : Nat → List Byte → List Byte × Option Nat
  | 0, _ => ([], none)
  | n + 1, [] => ([], some (n + 1))
  | n + 1, c :: queue =>
    if c = ctrl 'D' then (if n + 1 < target then [] else [c], none)
    else if c = newline then ([c], none)
    else (c :: (takeLine target n queue).1, (takeLine target n queue).2)

/-- The bytes of these that a read stores. -/
def stored (bytes : List Byte) : List Byte := bytes.filter (· ≠ ctrl 'D')

def Editor.read (ed : Editor) (read : Read) : Editor × List Byte × Option Nat :=
  let (taken, left) := takeLine read.target read.n ed.queue
  ({ ed with readers := ed.readers ++ List.replicate taken.length read.call },
    read.dst ++ stored taken, left)

def lineEditor : Device Editor := ⟨fun ed keys => keys.foldl Editor.press ed, Editor.read⟩

/-! ## The ring of the console holds what the editor holds -/

def Input.ring (input : Input) : Buffer 32 Byte := ⟨input.buf, input.r, input.e⟩

/-- The ring from `r` on holds the queue, up to `w`, and then the line. The line has no
newline in it, and is empty when the ring is full. -/
structure Shows (input : Input) (ed : Editor) : Prop where
  holds : Holds INPUT_BUF input.ring (ed.queue ++ ed.line)
  committed : input.w = input.r + BitVec.ofNat 32 ed.queue.length
  oneLine : newline ∉ ed.line
  full : ed.pending = INPUT_BUF → ed.line = []
  read : ed.readers.length ≤ ed.lines.length

variable {input : Input} {ed : Editor}

theorem inputBuf_dvd : INPUT_BUF ∣ 2 ^ 32 := ⟨2 ^ 25, by decide⟩

theorem inputBuf_lt : INPUT_BUF < 2 ^ 32 := by decide

theorem Shows.pending_le (shows : Shows input ed) : ed.pending ≤ INPUT_BUF := by
  have size := shows.holds.length_le
  rwa [List.length_append] at size

theorem Shows.pending (shows : Shows input ed) : (input.e - input.r).toNat = ed.pending := by
  have counted : input.e = input.r + BitVec.ofNat 32 (ed.queue ++ ed.line).length :=
    shows.holds.counted
  have small := shows.pending_le
  have narrow := inputBuf_lt
  rw [counted, BitVec.add_comm, BitVec.add_sub_cancel, List.length_append, BitVec.toNat_ofNat]
  exact Nat.mod_eq_of_lt (by unfold Editor.pending at small; omega)

theorem Shows.unread (shows : Shows input ed) : (input.w - input.r).toNat = ed.queue.length := by
  have small := shows.pending_le
  have narrow := inputBuf_lt
  rw [shows.committed, BitVec.add_comm, BitVec.add_sub_cancel, BitVec.toNat_ofNat]
  exact Nat.mod_eq_of_lt (by unfold Editor.pending at small; omega)

theorem Shows.e_eq_w_iff (shows : Shows input ed) : input.e = input.w ↔ ed.line = [] := by
  have apart := shows.pending
  have unread := shows.unread
  unfold Editor.pending at apart
  constructor
  · intro same
    rw [same, unread] at apart
    exact List.eq_nil_of_length_eq_zero (by omega)
  · intro empty
    rw [empty, List.length_nil] at apart
    have same : input.e - input.r = input.w - input.r :=
      BitVec.eq_of_toNat_eq (by rw [apart, unread, Nat.add_zero])
    exact (BitVec.sub_left_inj input.r).mp same

theorem Shows.r_eq_w_iff (shows : Shows input ed) : input.r = input.w ↔ ed.queue = [] := by
  have unread := shows.unread
  constructor
  · intro same
    rw [same, BitVec.sub_self] at unread
    exact List.eq_nil_of_length_eq_zero unread.symm
  · intro empty
    rw [shows.committed, empty]
    simp

theorem Shows.erase {front : List Byte} {c : Byte} (shows : Shows input ed)
    (split : ed.line = front ++ [c]) :
    Shows { input with e := input.e - 1 } { ed with line := front } := by
  have holds := shows.holds
  rw [split, ← List.append_assoc] at holds
  refine ⟨holds.retract, shows.committed, fun member => shows.oneLine ?_, fun size => ?_,
    shows.read⟩
  · rw [split]
    exact List.mem_append_left _ member
  · have small := shows.pending_le
    change ed.queue.length + front.length = INPUT_BUF at size
    rw [Editor.pending, split, List.length_append, List.length_singleton] at small
    omega

theorem Shows.backspace (shows : Shows input ed) :
    Shows (backspace input) { ed with line := ed.line.dropLast } := by
  unfold Console.backspace
  split
  · rename_i some
    have nonempty : ed.line ≠ [] := fun empty => some (shows.e_eq_w_iff.mpr empty)
    exact shows.erase (List.dropLast_append_getLast nonempty).symm
  · rename_i none
    have empty := shows.e_eq_w_iff.mp (not_not.mp none)
    rw [empty, List.dropLast_nil, ← empty]
    exact shows

theorem Shows.killLine (shows : Shows input ed) :
    Shows (killLine input) { ed with line := [] } := by
  obtain ⟨line, lines, readers⟩ := ed
  induction line using List.reverseRecOn generalizing input with
  | nil =>
    unfold Console.killLine
    have none : ¬ (input.e ≠ input.w) := not_not.mpr (shows.e_eq_w_iff.mpr rfl)
    rw [if_neg (fun both => none both.1)]
    exact shows
  | append_singleton front c ih =>
    have some : input.e ≠ input.w := by
      intro same
      exact List.append_ne_nil_of_right_ne_nil _ (List.cons_ne_nil _ _) (shows.e_eq_w_iff.mp same)
    have holds := shows.holds
    rw [← List.append_assoc] at holds
    have last : input.buf ((input.e - 1).toNat % INPUT_BUF) = c := holds.last inputBuf_dvd
    have other : c ≠ newline := by
      rintro rfl
      exact shows.oneLine (List.mem_append_right _ (List.mem_singleton_self _))
    unfold Console.killLine
    rw [if_pos ⟨some, by rwa [last]⟩]
    exact ih (shows.erase rfl)

theorem Shows.put (shows : Shows input ed) (room : ed.pending < INPUT_BUF) (c : Byte) :
    Holds INPUT_BUF (input.ring.put INPUT_BUF c) (ed.queue ++ (ed.add c).line) := by
  have holds := shows.holds.put inputBuf_dvd (by rwa [List.length_append]) c
  rwa [List.append_assoc] at holds

theorem Editor.queue_commit (read : ed.readers.length ≤ ed.lines.length) :
    ed.commit.queue = ed.queue ++ ed.line := List.drop_append_of_le_length read

theorem Shows.store (shows : Shows input ed) (room : ed.pending < INPUT_BUF) (c : Byte) :
    Shows (store input c) (ed.store c) := by
  have holds := shows.put room c
  have isFull : input.e + 1 = input.r + BitVec.ofNat 32 INPUT_BUF ↔
      (ed.add c).pending = INPUT_BUF := by
    have full := holds.isFull_iff inputBuf_lt
    rwa [List.length_append] at full
  unfold Console.store Editor.store
  dsimp only
  by_cases commits : c = newline ∨ c = ctrl 'D' ∨ (ed.add c).pending = INPUT_BUF
  · have queue : (ed.add c).commit.queue = ed.queue ++ (ed.add c).line :=
      Editor.queue_commit shows.read
    rw [if_pos commits, if_pos (by rwa [isFull])]
    refine ⟨?_, ?_, List.not_mem_nil, fun _ => rfl, ?_⟩
    · rw [queue]
      change Holds INPUT_BUF _ (_ ++ [])
      rw [List.append_nil]
      exact holds
    · rw [queue]
      exact holds.counted
    · exact Nat.le_trans shows.read (by simp [Editor.commit, Editor.add])
  · rw [if_neg commits, if_neg (by rwa [isFull])]
    push Not at commits
    refine ⟨holds, shows.committed, ?_, fun full => absurd full commits.2.2, shows.read⟩
    intro member
    rcases List.mem_append.mp member with old | new
    · exact shows.oneLine old
    · exact commits.1 (List.mem_singleton.mp new).symm

theorem Shows.press (shows : Shows input ed) (c : Byte) : Shows (press input c) (ed.press c) := by
  unfold Console.press Editor.press
  by_cases listing : c = ctrl 'P'
  · rw [if_pos listing, if_pos listing]
    exact shows
  rw [if_neg listing, if_neg listing]
  by_cases kill : c = ctrl 'U'
  · rw [if_pos kill, if_pos kill]
    exact shows.killLine
  rw [if_neg kill, if_neg kill]
  by_cases back : c = ctrl 'H' ∨ c = delete
  · rw [if_pos back, if_pos back]
    exact shows.backspace
  rw [if_neg back, if_neg back]
  unfold Console.insert
  rw [shows.pending]
  by_cases room : c ≠ 0 ∧ ed.pending < INPUT_BUF
  · rw [if_pos room, if_pos room]
    exact shows.store room.2 _
  · rw [if_neg room, if_neg room]
    exact shows

theorem Shows.keys (shows : Shows input ed) (keys : List Byte) :
    Shows (consoleintr input keys) (lineEditor.keys ed keys) := by
  induction keys generalizing input ed with
  | nil => exact shows
  | cons c rest ih => exact ih (shows.press c)

/-! ## Reads -/

/-- `n` bytes of the queue go to a call. -/
def Editor.serve (ed : Editor) (call n : Nat) : Editor :=
  { ed with readers := ed.readers ++ List.replicate n call }

theorem Editor.serve_serve (call m n : Nat) :
    (ed.serve call m).serve call n = ed.serve call (m + n) := by
  simp [Editor.serve, List.append_assoc, List.replicate_append_replicate]

theorem Editor.queue_serve (call n : Nat) : (ed.serve call n).queue = ed.queue.drop n := by
  simp [Editor.serve, Editor.queue, List.drop_drop]

theorem Shows.front {c : Byte} {rest : List Byte} (shows : Shows input ed)
    (first : ed.queue = c :: rest) : input.buf (input.r.toNat % INPUT_BUF) = c := by
  have holds := shows.holds
  rw [first, List.cons_append] at holds
  exact holds.front

theorem Shows.advance {c : Byte} {rest : List Byte} (shows : Shows input ed)
    (first : ed.queue = c :: rest) (call : Nat) :
    Shows { input with r := input.r + 1 } (ed.serve call 1) := by
  have queue : (ed.serve call 1).queue = rest := by
    rw [Editor.queue_serve, first, List.drop_one, List.tail_cons]
  have holds := shows.holds
  rw [first, List.cons_append] at holds
  have size := congrArg List.length first
  rw [Editor.queue, List.length_drop, List.length_cons] at size
  refine ⟨?_, ?_, shows.oneLine, ?_, ?_⟩
  · rw [queue]
    exact holds.advance inputBuf_dvd
  · rw [queue, shows.committed, first, List.length_cons, Nat.add_comm, BitVec.ofNat_add,
      ← BitVec.add_assoc]
    rfl
  · intro full
    have small := shows.pending_le
    rw [Editor.pending, first, List.length_cons] at small
    rw [Editor.pending, queue] at full
    change rest.length + ed.line.length = INPUT_BUF at full
    omega
  · change (ed.readers ++ [call]).length ≤ ed.lines.length
    rw [List.length_append, List.length_singleton]
    omega

/-- The loop of consoleread takes from the ring what the reference takes from the
queue. -/
theorem Shows.readLoop (shows : Shows input ed) (target n : Nat) (dst : List Byte) (call : Nat) :
    ∃ after, readLoop target n input dst =
        (after, dst ++ stored (takeLine target n ed.queue).1, (takeLine target n ed.queue).2) ∧
      Shows after (ed.serve call (takeLine target n ed.queue).1.length) := by
  have none : ed.serve call 0 = ed := by simp [Editor.serve]
  induction n generalizing input ed dst with
  | zero => exact ⟨input, by simp [Console.readLoop, takeLine, stored], by rwa [← none] at shows⟩
  | succ n ih =>
    unfold Console.readLoop
    cases queue : ed.queue with
    | nil =>
      rw [if_pos (shows.r_eq_w_iff.mpr queue)]
      exact ⟨input, by simp [takeLine, stored], by rwa [← none] at shows⟩
    | cons c rest =>
      have some : input.r ≠ input.w := by
        intro same
        rw [shows.r_eq_w_iff.mp same] at queue
        cases queue
      have moved := shows.advance queue call
      have later : (ed.serve call 1).queue = rest := by
        rw [Editor.queue_serve, queue, List.drop_one, List.tail_cons]
      dsimp only
      rw [if_neg some, shows.front queue]
      unfold takeLine
      by_cases eof : c = ctrl 'D'
      · rw [if_pos eof, if_pos eof]
        by_cases saved : n + 1 < target
        · rw [if_pos saved, if_pos saved]
          refine ⟨input, ?_, by rwa [← none] at shows⟩
          rw [show input.r + 1 - 1 = input.r from BitVec.add_sub_cancel _ _]
          simp [stored]
        · rw [if_neg saved, if_neg saved]
          exact ⟨_, by simp [stored, eof], moved⟩
      rw [if_neg eof, if_neg eof]
      by_cases ends : c = newline
      · rw [if_pos ends, if_pos ends]
        exact ⟨_, by simp [stored, eof], moved⟩
      rw [if_neg ends, if_neg ends]
      obtain ⟨after, taken, shown⟩ :=
        ih moved (dst ++ [c]) (by simp [Editor.serve])
      rw [later] at taken shown
      refine ⟨after, ?_, ?_⟩
      · rw [taken]
        simp [stored, eof]
      · rwa [Editor.serve_serve, Nat.add_comm] at shown

end Xv6Cow.Console
