import Mathlib.Data.List.Flatten
import Xv6Cow.Logging

/- log.c over the buffer cache and the disk: commit and recovery, one block write
at a time, with a crash possible between any two of them. -/
namespace Xv6Cow.Logging

open Function (update_self update_of_ne)
open Runs

/-- A disk block, as words. -/
abbrev Block : Type := Nat → Nat

/-- Where the log lies, the blocks the file system logs and the swap blocks. -/
structure Layout where
  start : Nat
  size : Nat
  home : Nat → Bool
  swap : Nat → Bool
  room : 0 < size
  home_outside : ∀ b, home b = true → b < start ∨ start + size ≤ b
  swap_outside : ∀ b, swap b = true → (b < start ∨ start + size ≤ b) ∧ home b = false

/-- `struct buf`: a dirty buffer is pinned. -/
structure Buf where
  data : Block
  dirty : Bool

/-- What the committing or recovering thread does next: write_log's or
install_trans's loop at `tail`. The header is written when a loop is through. -/
inductive Stage
  | ready
  | writing (tail : Nat)
  | installing (tail : Nat)
  deriving DecidableEq

/-- A log_write of an operation. -/
structure Write where
  op : Nat
  blockno : Nat
  data : Block

/-- Memory and disk. The last four fields say what the run has done so far; no
code reads them. -/
structure Sys where
  log : Log
  cache : Nat → Option Buf
  disk : Nat → Block
  stage : Stage
  recovering : Bool
  active : List Nat
  used : List Nat
  pending : List Write
  history : List (List Write)
  wrote : Nat → List Write

/-- write_head's update of the header block. -/
def writeHead (old : Block) (lh : List Nat) : Block := fun i =>
  if i = 0 then lh.length else if i ≤ lh.length then lh.getD (i - 1) 0 else old i

/-- read_head. -/
def readHead (head : Block) : List Nat := (List.range (head 0)).map fun i => head (i + 1)

/-- What bread returns. -/
def Sys.bread (s : Sys) (b : Nat) : Block := (s.cache b).elim (s.disk b) Buf.data

def Sys.bwrite (s : Sys) (b : Nat) (data : Block) : Sys :=
  { s with
    cache := Function.update s.cache b (some ⟨data, false⟩)
    disk := Function.update s.disk b data }

inductive Act
  | begin (op : Nat)
  | write (op blockno : Nat) (data : Block)
  | end (op : Nat)
  | swap (blockno : Nat) (data : Block)
  | load (blockno : Nat)
  | evict (blockno : Nat)
  | advance
  | crash

/-- The next block write of commit or of recover_from_log. -/
def advance (s : Sys) : Option Sys :=
  match s.stage with
  | .ready => none
  | .writing tail =>
    match s.log.lh[tail]? with
    | some b =>
    some { s.bwrite (s.log.start + tail + 1) (s.bread b) with stage := .writing (tail + 1) }
    | none =>
      -- the commit point
      some { s.bwrite s.log.start (writeHead (s.bread s.log.start) s.log.lh) with
        stage := .installing 0
        history := s.history ++ [s.pending]
        pending := [] }
  | .installing tail =>
    match s.log.lh[tail]? with
    | some b =>
      some { s.bwrite b (s.bread (s.log.start + tail + 1)) with stage := .installing (tail + 1) }
    | none =>
      some { s.bwrite s.log.start (writeHead (s.bread s.log.start) []) with
        stage := .ready
        recovering := false
        log := committed s.log }

/-- Power fails and initlog starts over: only the disk is left. -/
def crash (layout : Layout) (s : Sys) : Sys :=
  { s with
    log := ⟨layout.start, layout.size, 0, false, readHead (s.disk layout.start)⟩
    cache := fun _ => none
    stage := .installing 0
    recovering := true
    active := []
    pending := [] }

def finish (s : Sys) (op : Nat) (log : Log) (doCommit : Bool) : Sys :=
  let s := { s with log := log, active := s.active.erase op }
  if doCommit then
    if log.lh = [] then { s with log := committed log } else { s with stage := .writing 0 }
  else s

def act (layout : Layout) (s : Sys) : Act → Option Sys
  | .begin op =>
    if s.recovering ∨ op ∈ s.used then none
    else (beginOp s.log).map fun log =>
      { s with log := log, active := op :: s.active, used := op :: s.used }
  | .write op b data =>
    if op ∈ s.active ∧ layout.home b then
      match logWrite b s.log with
      | .error _ => none
      | .ok log =>
        some { s with
          log := log
          cache := Function.update s.cache b (some ⟨data, true⟩)
          pending := s.pending ++ [⟨op, b, data⟩]
          wrote := Function.update s.wrote op (s.wrote op ++ [⟨op, b, data⟩]) }
    else none
  | .end op =>
    if op ∈ s.active then
      match endOp s.log with
      | .error _ => none
      | .ok (log, doCommit) => some (finish s op log doCommit)
    else none
  | .swap b data => if layout.swap b then some (s.bwrite b data) else none
  | .load b =>
    if (s.cache b).isNone then
      some { s with cache := Function.update s.cache b (some ⟨s.disk b, false⟩) }
    else none
  | .evict b =>
    match s.cache b with
    | some ⟨_, false⟩ => some { s with cache := Function.update s.cache b none }
    | _ => none
  | .advance => advance s
  | .crash => some (crash layout s)

/-- Any interleaving of operations, swap writes, cache traffic, disk writes of the
log and crashes. -/
def Acts (layout : Layout) (s : Sys) (event : Act) (_ : Unit) (t : Sys) : Prop :=
  act layout s event = some t

/-- The first boot from an image. -/
def boot (layout : Layout) (image : Nat → Block) : Sys :=
  crash layout ⟨⟨0, 0, 0, false, []⟩, fun _ => none, image, .ready, false, [], [], [], [],
    fun _ => []⟩

/-! ## What recovery makes of a disk -/

/-- install_trans from `tail` on, with `n` blocks left. -/
def installTrans (start : Nat) (lh : List Nat) : Nat → Nat → (Nat → Block) → Nat → Block
  | _, 0, disk => disk
  | tail, n + 1, disk =>
    installTrans start lh (tail + 1) n
    (Function.update disk (lh.getD tail 0) (disk (start + tail + 1)))

/-- recover_from_log, uninterrupted. -/
def recoverFromLog (start : Nat) (disk : Nat → Block) : Nat → Block :=
  let lh := readHead (disk start)
  let installed := installTrans start lh 0 lh.length disk
  Function.update installed start (writeHead (installed start) [])

/-- The blocks after a list of writes. -/
def replay (writes : List Write) (base : Nat → Block) : Nat → Block :=
  writes.foldl (fun blocks w => Function.update blocks w.blockno w.data) base

/-- The writes of one operation. -/
def ofOp (op : Nat) (writes : List Write) : List Write := writes.filter fun w => w.op = op

/-- The blocks after the committed transactions. -/
def Sys.final (s : Sys) (image : Nat → Block) : Nat → Block := replay s.history.flatten image

theorem readHead_writeHead (old : Block) (lh : List Nat) : readHead (writeHead old lh) = lh := by
  apply List.ext_getElem?
  intro i
  simp only [readHead, writeHead, if_true, List.getElem?_map]
  by_cases inside : i < lh.length
  · rw [List.getElem?_range inside, List.getElem?_eq_getElem inside]
    rw [Option.map_some, if_neg (Nat.succ_ne_zero i), if_pos (Nat.succ_le_of_lt inside),
      Nat.add_sub_cancel, List.getD_eq_getElem?_getD, List.getElem?_eq_getElem inside,
      Option.getD_some]
  · rw [List.getElem?_eq_none (by simpa using inside), List.getElem?_eq_none (by omega)]
    rfl

theorem replay_append (first second : List Write) (base : Nat → Block) :
    replay (first ++ second) base = replay second (replay first base) :=
  List.foldl_append

theorem replay_push (writes : List Write) (w : Write) (base : Nat → Block) :
    replay (writes ++ [w]) base = Function.update (replay writes base) w.blockno w.data := by
  rw [replay_append]
  rfl

/-! ## The invariant -/

/-- What holds at every point. -/
structure Frame (layout : Layout) (s : Sys) : Prop where
  start : s.log.start = layout.start
  size : s.log.size = layout.size
  clean : ∀ b buf, s.cache b = some buf → buf.dirty = false → buf.data = s.disk b
  dirty : ∀ b buf, s.cache b = some buf → buf.dirty = true → b ∈ s.log.lh
  homes : ∀ b ∈ s.log.lh, layout.home b = true
  fits : s.log.lh.length ≤ layout.size - 1
  counted : s.log.outstanding = s.active.length
  busy : s.stage ≠ .ready → s.active = []
  locked : s.stage ≠ .ready → s.recovering = true ∨ s.log.committing = true
  early : s.recovering = true → ∃ tail, s.stage = .installing tail

/-- Before the commit point: the disk is the committed state, and the cache shows
the pending writes on top of it. -/
structure Before (layout : Layout) (image : Nat → Block) (s : Sys) : Prop where
  header : readHead (s.disk layout.start) = []
  settled : ∀ b, layout.home b = true → s.disk b = s.final image b
  view : ∀ b, layout.home b = true → s.bread b = replay s.pending (s.final image) b

/-- write_log has copied the first `tail` blocks. -/
def Copied (layout : Layout) (image : Nat → Block) (s : Sys) (tail : Nat) : Prop :=
  ∀ i b, i < tail → s.log.lh[i]? = some b →
    s.disk (layout.start + i + 1) = replay s.pending (s.final image) b

/-- After the commit point, with the first `tail` blocks installed. -/
structure After (layout : Layout) (image : Nat → Block) (s : Sys) (tail : Nat) : Prop where
  header : readHead (s.disk layout.start) = s.log.lh
  logged : ∀ i b, s.log.lh[i]? = some b → s.disk (layout.start + i + 1) = s.final image b
  installed : ∀ i b, i < tail → s.log.lh[i]? = some b → s.disk b = s.final image b ∧
    ∀ buf, s.cache b = some buf → buf.dirty = false
  rest : ∀ b, layout.home b = true → b ∉ s.log.lh → s.disk b = s.final image b
  nothing : s.pending = []

def Staged (layout : Layout) (image : Nat → Block) (s : Sys) : Prop :=
  match s.stage with
  | .ready => Before layout image s
  | .writing tail => Before layout image s ∧ Copied layout image s tail
  | .installing tail => After layout image s tail

structure Inv (layout : Layout) (image : Nat → Block) (s : Sys) : Prop where
  frame : Frame layout s
  staged : Staged layout image s

section Bwrite

variable {layout : Layout} {image : Nat → Block} {s : Sys} {b c : Nat} {data : Block}

theorem bread_bwrite_of_ne (apart : c ≠ b) : (s.bwrite b data).bread c = s.bread c := by
  simp only [Sys.bread, Sys.bwrite, update_of_ne apart]

theorem disk_bwrite_of_ne (apart : c ≠ b) : (s.bwrite b data).disk c = s.disk c :=
  update_of_ne apart _ _

theorem disk_bwrite_self : (s.bwrite b data).disk b = data := update_self ..

theorem Frame.bread_of_clean (frame : Frame layout s)
    (clean : ∀ buf, s.cache b = some buf → buf.dirty = false) : s.bread b = s.disk b := by
  unfold Sys.bread
  cases cached : s.cache b with
  | none => rfl
  | some buf => exact frame.clean b buf cached (clean buf cached)

theorem Frame.bread_of_notMem (frame : Frame layout s) (absent : b ∉ s.log.lh) :
    s.bread b = s.disk b := by
  refine frame.bread_of_clean fun buf cached => ?_
  by_contra dirty
  exact absent (frame.dirty b buf cached (by simpa using dirty))

theorem Frame.bread_of_not_home (frame : Frame layout s) (other : layout.home b ≠ true) :
    s.bread b = s.disk b :=
  frame.bread_of_notMem fun member => other (frame.homes b member)

theorem Frame.bwrite (frame : Frame layout s) (b : Nat) (data : Block) :
    Frame layout (s.bwrite b data) := by
  refine ⟨frame.start, frame.size, ?_, ?_, frame.homes, frame.fits, frame.counted, frame.busy,
    frame.locked, frame.early⟩
  · intro c buf cached clean
    by_cases here : c = b
    · subst here
      simp only [Sys.bwrite, update_self, Option.some.injEq] at cached ⊢
      rw [← cached]
    · simp only [Sys.bwrite, update_of_ne here] at cached ⊢
      exact frame.clean c buf cached clean
  · intro c buf cached dirty
    by_cases here : c = b
    · subst here
      simp only [Sys.bwrite, update_self, Option.some.injEq] at cached
      rw [← cached] at dirty
      cases dirty
    · simp only [Sys.bwrite, update_of_ne here] at cached
      exact frame.dirty c buf cached dirty

theorem Layout.start_not_home (layout : Layout) : layout.home layout.start ≠ true := by
  intro home
  have := layout.room
  rcases layout.home_outside _ home with below | above <;> omega

theorem Layout.log_not_home (layout : Layout) {i : Nat} (inside : i + 1 < layout.size) :
    layout.home (layout.start + i + 1) ≠ true := by
  intro home
  rcases layout.home_outside _ home with below | above <;> omega

theorem Frame.index_lt (frame : Frame layout s) {i : Nat} (listed : s.log.lh[i]? = some b) :
    i + 1 < layout.size := by
  have := (List.getElem?_eq_some_iff.mp listed).1
  have := frame.fits
  omega

theorem Frame.listed_home (frame : Frame layout s) {i : Nat} (listed : s.log.lh[i]? = some b) :
    layout.home b = true :=
  frame.homes b (List.mem_of_getElem? listed)

theorem Inv.bwrite_outside (inv : Inv layout image s)
    (outside : b < layout.start ∨ layout.start + layout.size ≤ b) (other : layout.home b = false) :
    Inv layout image (s.bwrite b data) := by
  have frame := inv.frame
  have apart : ∀ c, layout.home c = true → c ≠ b := by
    intro c home same
    rw [same, other] at home
    cases home
  have start : layout.start ≠ b := by
    have := layout.room
    omega
  have logged : ∀ {i c}, s.log.lh[i]? = some c → layout.start + i + 1 ≠ b := by
    intro i c listed
    have := frame.index_lt listed
    omega
  have before : Before layout image s → Before layout image (s.bwrite b data) := by
    intro before
    refine ⟨?_, ?_, ?_⟩
    · rw [disk_bwrite_of_ne start]
      exact before.header
    · intro c home
      rw [disk_bwrite_of_ne (apart c home)]
      exact before.settled c home
    · intro c home
      rw [bread_bwrite_of_ne (apart c home)]
      exact before.view c home
  refine ⟨frame.bwrite b data, ?_⟩
  have staged := inv.staged
  unfold Staged at staged ⊢
  change match s.stage with
    | .ready => _
    | .writing tail => _
    | .installing tail => _
  split at staged
  · exact before staged
  · refine ⟨before staged.1, ?_⟩
    intro i c below listed
    rw [disk_bwrite_of_ne (logged listed)]
    exact staged.2 i c below listed
  · refine ⟨?_, ?_, ?_, ?_, staged.nothing⟩
    · rw [disk_bwrite_of_ne start]
      exact staged.header
    · intro i c listed
      rw [disk_bwrite_of_ne (logged listed)]
      exact staged.logged i c listed
    · intro i c below listed
      have home := frame.listed_home listed
      rw [disk_bwrite_of_ne (apart c home)]
      refine ⟨(staged.installed i c below listed).1, ?_⟩
      intro buf cached
      simp only [Sys.bwrite, update_of_ne (apart c home)] at cached
      exact (staged.installed i c below listed).2 buf cached
    · intro c home absent
      rw [disk_bwrite_of_ne (apart c home)]
      exact staged.rest c home absent

end Bwrite

section Steps

variable {layout : Layout} {image : Nat → Block} {s t : Sys}

theorem Inv.recache {cache : Nat → Option Buf} (inv : Inv layout image s)
    (same : ∀ b, cache b = s.cache b ∨ ∀ buf, cache b = some buf → buf = ⟨s.disk b, false⟩)
    (view : ∀ b, (cache b).elim (s.disk b) Buf.data = s.bread b) :
    Inv layout image { s with cache := cache } := by
  have frame := inv.frame
  refine ⟨⟨frame.start, frame.size, ?_, ?_, frame.homes, frame.fits, frame.counted, frame.busy,
    frame.locked, frame.early⟩, ?_⟩
  · intro b buf cached clean
    rcases same b with old | new
    · exact frame.clean b buf (old ▸ cached) clean
    · rw [new buf cached]
  · intro b buf cached dirty
    rcases same b with old | new
    · exact frame.dirty b buf (old ▸ cached) dirty
    · rw [new buf cached] at dirty
      cases dirty
  · have before : Before layout image s → Before layout image { s with cache := cache } :=
      fun before =>
      ⟨before.header, before.settled, fun b home => (view b).trans (before.view b home)⟩
    have staged := inv.staged
    unfold Staged at staged ⊢
    dsimp only
    split at staged
    · exact before staged
    · exact ⟨before staged.1, staged.2⟩
    · refine ⟨staged.header, staged.logged, ?_, staged.rest, staged.nothing⟩
      intro i b below listed
      refine ⟨(staged.installed i b below listed).1, ?_⟩
      intro buf cached
      rcases same b with old | new
      · exact (staged.installed i b below listed).2 buf (old ▸ cached)
      · rw [new buf cached]

theorem Inv.load {b : Nat} (inv : Inv layout image s) (taken : act layout s (.load b) = some t) :
    Inv layout image t := by
  simp only [act] at taken
  split at taken
  case isFalse => cases taken
  rename_i absent
  cases taken
  have none : s.cache b = Option.none := by simpa using absent
  refine inv.recache (fun c => ?_) fun c => ?_
  all_goals by_cases here : c = b
  · subst here
    rw [update_self]
    exact .inr fun buf cached => (Option.some.inj cached).symm
  · rw [update_of_ne here]
    exact .inl rfl
  · subst here
    rw [update_self, Sys.bread, none]
    rfl
  · rw [update_of_ne here]
    rfl

theorem Inv.evict {b : Nat} (inv : Inv layout image s) (taken : act layout s (.evict b) = some t) :
    Inv layout image t := by
  simp only [act] at taken
  split at taken
  case h_2 => cases taken
  rename_i data cached
  cases taken
  refine inv.recache (fun c => ?_) fun c => ?_
  all_goals by_cases here : c = b
  · subst here
    rw [update_self]
    exact .inr fun buf impossible => nomatch impossible
  · rw [update_of_ne here]
    exact .inl rfl
  · subst here
    rw [update_self, Sys.bread, cached]
    exact (inv.frame.clean c _ cached rfl).symm
  · rw [update_of_ne here]
    rfl

theorem Inv.ready_of_active {op : Nat} (inv : Inv layout image s) (running : op ∈ s.active) :
    s.stage = .ready := by
  by_contra other
  rw [inv.frame.busy other] at running
  cases running

theorem Inv.before_of_ready (inv : Inv layout image s) (ready : s.stage = .ready) :
    Before layout image s := by
  have staged := inv.staged
  unfold Staged at staged
  rw [ready] at staged
  exact staged

theorem Inv.after_of_installing {tail : Nat} (inv : Inv layout image s)
    (stage : s.stage = .installing tail) : After layout image s tail := by
  have staged := inv.staged
  unfold Staged at staged
  rw [stage] at staged
  exact staged

theorem Inv.of_ready (frame : Frame layout s) (ready : s.stage = .ready)
    (before : Before layout image s) : Inv layout image s := by
  refine ⟨frame, ?_⟩
  unfold Staged
  rw [ready]
  exact before

theorem Inv.begin {op : Nat} (inv : Inv layout image s)
    (taken : act layout s (.begin op) = some t) : Inv layout image t := by
  simp only [act] at taken
  split at taken
  · cases taken
  rename_i guard
  obtain ⟨log, begun, rfl⟩ := Option.map_eq_some_iff.mp taken
  simp only [beginOp] at begun
  split at begun
  · cases begun
  rename_i unlocked
  split at begun
  · cases begun
  cases begun
  have frame := inv.frame
  have ready : s.stage = .ready := by
    by_contra other
    rcases frame.locked other with recovering | committing
    · exact guard (.inl recovering)
    · exact unlocked committing
  have before := inv.before_of_ready ready
  refine .of_ready ⟨frame.start, frame.size, frame.clean, frame.dirty, frame.homes, frame.fits,
    congrArg (· + 1) frame.counted, fun other => absurd ready other,
    fun other => absurd ready other,
    frame.early⟩ ready ⟨before.header, before.settled, before.view⟩

theorem Inv.write {op b : Nat} {data : Block} (inv : Inv layout image s)
    (taken : act layout s (.write op b data) = some t) : Inv layout image t := by
  simp only [act] at taken
  split at taken
  case isFalse => cases taken
  rename_i guard
  obtain ⟨running, home⟩ := guard
  split at taken
  · cases taken
  rename_i log written
  have frame := inv.frame
  have ready := inv.ready_of_active running
  have before := inv.before_of_ready ready
  have limit : s.log.lh.length < layout.size - 1 := by
    simp only [logWrite] at written
    split at written
    · cases written
    rename_i small
    rw [frame.size] at small
    omega
  obtain ⟨rfl, _⟩ := logWrite_eq written
  cases taken
  have kept : ∀ c ∈ s.log.lh, c ∈ if b ∈ s.log.lh then s.log.lh else s.log.lh ++ [b] := by
    intro c member
    split
    · exact member
    · exact List.mem_append_left _ member
  have added :
      ∀ c ∈ (if b ∈ s.log.lh then s.log.lh else s.log.lh ++ [b]), c ∈ s.log.lh ∨ c = b := by
    intro c member
    split at member
    · exact .inl member
    · simpa using member
  have listed : b ∈ if b ∈ s.log.lh then s.log.lh else s.log.lh ++ [b] := by
    split
    · assumption
    · simp
  refine .of_ready ⟨frame.start, frame.size, ?_, ?_, ?_, ?_, frame.counted,
    fun other => absurd ready other, fun other => absurd ready other, frame.early⟩ ready
    ⟨before.header, before.settled, ?_⟩
  · intro c buf cached clean
    by_cases here : c = b
    · subst here
      simp only [update_self, Option.some.injEq] at cached
      rw [← cached] at clean
      cases clean
    · simp only [update_of_ne here] at cached
      exact frame.clean c buf cached clean
  · intro c buf cached dirty
    by_cases here : c = b
    · rw [here]
      exact listed
    · simp only [update_of_ne here] at cached
      exact kept c (frame.dirty c buf cached dirty)
  · intro c member
    rcases added c member with old | rfl
    · exact frame.homes c old
    · exact home
  · dsimp only
    split
    · omega
    · rw [List.length_append, List.length_singleton]
      omega
  · intro c inside
    refine Eq.trans ?_ (congrFun (replay_push s.pending ⟨op, b, data⟩ (s.final image)) c).symm
    by_cases here : c = b
    · subst here
      simp only [Sys.bread, update_self]
      rfl
    · simp only [Sys.bread, update_of_ne here]
      exact before.view c inside

theorem Inv.end {op : Nat} (inv : Inv layout image s)
    (taken : act layout s (.end op) = some t) : Inv layout image t := by
  simp only [act] at taken
  split at taken
  case isFalse => cases taken
  rename_i running
  have frame := inv.frame
  have ready := inv.ready_of_active running
  have before := inv.before_of_ready ready
  have fewer : (s.active.erase op).length = s.active.length - 1 := List.length_erase_of_mem running
  split at taken
  · cases taken
  rename_i log doCommit ended
  cases taken
  simp only [endOp] at ended
  split at ended
  · cases ended
  rename_i unlocked
  split at ended
  · rename_i last
    cases ended
    have idle : s.active.erase op = [] := by
      apply List.eq_nil_of_length_eq_zero
      rw [fewer, ← frame.counted]
      exact last
    have counted : s.log.outstanding - 1 = (s.active.erase op).length := by
      rw [fewer, frame.counted]
    simp only [finish, if_true]
    split
    · rename_i empty
      refine .of_ready ⟨frame.start, frame.size, frame.clean, ?_, ?_, Nat.zero_le _, counted,
        fun other => absurd ready other, fun other => absurd ready other, frame.early⟩ ready
        ⟨before.header, before.settled, before.view⟩
      · intro b buf cached dirty
        have := frame.dirty b buf cached dirty
        rw [empty] at this
        cases this
      · intro b member
        cases member
    · refine ⟨⟨frame.start, frame.size, frame.clean, frame.dirty, frame.homes, frame.fits, counted,
        fun _ => idle, fun _ => .inr rfl, ?_⟩, ⟨before.header, before.settled, before.view⟩, ?_⟩
      · intro recovering
        obtain ⟨tail, stage⟩ := frame.early recovering
        rw [ready] at stage
        cases stage
      · intro i b impossible
        exact absurd impossible (Nat.not_lt_zero i)
  · cases ended
    simp only [finish, Bool.false_eq_true, if_false]
    refine .of_ready ⟨frame.start, frame.size, frame.clean, frame.dirty, frame.homes, frame.fits,
      ?_, fun other => absurd ready other, fun other => absurd ready other, frame.early⟩ ready
      ⟨before.header, before.settled, before.view⟩
    dsimp only
    rw [fewer, frame.counted]

theorem lt_of_through {l : List Nat} {i tail b : Nat} (there : l[i]? = some b)
    (through : l[tail]? = none) : i < tail :=
  Nat.lt_of_lt_of_le (List.getElem?_eq_some_iff.mp there).1 (List.getElem?_eq_none_iff.mp through)

theorem Inv.copy {tail b : Nat} (inv : Inv layout image s) (stage : s.stage = .writing tail)
    (listed : s.log.lh[tail]? = some b) :
    Inv layout image
      { s.bwrite (s.log.start + tail + 1) (s.bread b) with stage := .writing (tail + 1) } := by
  have frame := inv.frame
  have staged := inv.staged
  unfold Staged at staged
  rw [stage] at staged
  obtain ⟨before, copied⟩ := staged
  have busy : s.stage ≠ .ready := by simp [stage]
  have wide := frame.bwrite (s.log.start + tail + 1) (s.bread b)
  rw [frame.start] at wide ⊢
  have inside := frame.index_lt listed
  have apart : ∀ c, layout.home c = true → c ≠ layout.start + tail + 1 := by
    intro c home same
    rw [same] at home
    exact layout.log_not_home inside home
  refine ⟨⟨wide.start, wide.size, wide.clean, wide.dirty, wide.homes, wide.fits, wide.counted,
    fun _ => frame.busy busy, fun _ => frame.locked busy, ?_⟩, ⟨?_, ?_, ?_⟩, ?_⟩
  · intro recovering
    obtain ⟨other, installing⟩ := frame.early recovering
    rw [stage] at installing
    cases installing
  · exact (congrArg readHead (disk_bwrite_of_ne (by omega))).trans before.header
  · intro c home
    exact (disk_bwrite_of_ne (apart c home)).trans (before.settled c home)
  · intro c home
    exact (bread_bwrite_of_ne (apart c home)).trans (before.view c home)
  · intro i c below there
    by_cases here : i = tail
    · subst here
      have same : c = b := Option.some.inj (there.symm.trans listed)
      rw [same]
      exact disk_bwrite_self.trans (before.view b (frame.listed_home listed))
    · exact (disk_bwrite_of_ne (by omega)).trans (copied i c (by omega) there)

theorem Inv.head {tail : Nat} (inv : Inv layout image s) (stage : s.stage = .writing tail)
    (through : s.log.lh[tail]? = none) :
    Inv layout image { s.bwrite s.log.start (writeHead (s.bread s.log.start) s.log.lh) with
      stage := .installing 0, history := s.history ++ [s.pending], pending := [] } := by
  have frame := inv.frame
  have staged := inv.staged
  unfold Staged at staged
  rw [stage] at staged
  obtain ⟨before, copied⟩ := staged
  have busy : s.stage ≠ .ready := by simp [stage]
  have wide := frame.bwrite s.log.start (writeHead (s.bread s.log.start) s.log.lh)
  rw [frame.start] at wide ⊢
  have apart : ∀ c, layout.home c = true → c ≠ layout.start :=
    fun c home same => layout.start_not_home (same ▸ home)
  have final :
      replay (s.history ++ [s.pending]).flatten image = replay s.pending (s.final image) := by
    rw [List.flatten_append, replay_append, List.flatten_singleton]
    rfl
  refine ⟨⟨wide.start, wide.size, wide.clean, wide.dirty, wide.homes, wide.fits, wide.counted,
    fun _ => frame.busy busy, fun _ => frame.locked busy, fun _ => ⟨0, rfl⟩⟩, ?_⟩
  refine ⟨?_, ?_, ?_, ?_, rfl⟩
  · exact (congrArg readHead disk_bwrite_self).trans (readHead_writeHead _ _)
  · intro i b listed
    change s.log.lh[i]? = some b at listed
    refine (disk_bwrite_of_ne (by omega)).trans ?_
    exact (copied i b (lt_of_through listed through) listed).trans (congrFun final b).symm
  · intro i b impossible
    exact absurd impossible (Nat.not_lt_zero i)
  · intro b home absent
    refine (disk_bwrite_of_ne (apart b home)).trans ?_
    rw [← frame.bread_of_notMem absent, before.view b home]
    exact (congrFun final b).symm

theorem Inv.install {tail b : Nat} (inv : Inv layout image s) (stage : s.stage = .installing tail)
    (listed : s.log.lh[tail]? = some b) :
    Inv layout image
      { s.bwrite b (s.bread (s.log.start + tail + 1)) with stage := .installing (tail + 1) } := by
  have frame := inv.frame
  have after := inv.after_of_installing stage
  have busy : s.stage ≠ .ready := by simp [stage]
  have wide := frame.bwrite b (s.bread (s.log.start + tail + 1))
  rw [frame.start] at wide ⊢
  have home := frame.listed_home listed
  have start : layout.start ≠ b := fun same => layout.start_not_home (same ▸ home)
  have logs : ∀ {i c}, s.log.lh[i]? = some c → layout.start + i + 1 ≠ b := by
    intro i c there same
    exact layout.log_not_home (frame.index_lt there) (same ▸ home)
  have data : s.bread (layout.start + tail + 1) = s.final image b := by
    rw [frame.bread_of_not_home (layout.log_not_home (frame.index_lt listed))]
    exact after.logged tail b listed
  refine ⟨⟨wide.start, wide.size, wide.clean, wide.dirty, wide.homes, wide.fits, wide.counted,
    fun _ => frame.busy busy, fun _ => frame.locked busy, fun _ => ⟨tail + 1, rfl⟩⟩, ?_⟩
  refine ⟨?_, ?_, ?_, ?_, after.nothing⟩
  · exact (congrArg readHead (disk_bwrite_of_ne start)).trans after.header
  · intro i c there
    exact (disk_bwrite_of_ne (logs there)).trans (after.logged i c there)
  · intro i c below there
    by_cases here : c = b
    · subst here
      refine ⟨disk_bwrite_self.trans data, ?_⟩
      intro buf cached
      simp only [Sys.bwrite, update_self, Option.some.injEq] at cached
      rw [← cached]
    · have older : i < tail := by
        by_contra newer
        have same : i = tail := by omega
        rw [same] at there
        exact here (Option.some.inj (there.symm.trans listed))
      refine ⟨(disk_bwrite_of_ne here).trans (after.installed i c older there).1, ?_⟩
      intro buf cached
      simp only [Sys.bwrite, update_of_ne here] at cached
      exact (after.installed i c older there).2 buf cached
  · intro c inside absent
    have member : b ∈ s.log.lh := List.mem_of_getElem? listed
    have here : c ≠ b := fun same => absent (same ▸ member)
    exact (disk_bwrite_of_ne here).trans (after.rest c inside absent)

theorem After.settled {tail b : Nat} (after : After layout image s tail)
    (through : s.log.lh[tail]? = none) (home : layout.home b = true) :
    s.disk b = s.final image b := by
  by_cases listed : b ∈ s.log.lh
  · obtain ⟨i, there⟩ := List.mem_iff_getElem?.mp listed
    exact (after.installed i b (lt_of_through there through) there).1
  · exact after.rest b home listed

theorem Inv.clear {tail : Nat} (inv : Inv layout image s) (stage : s.stage = .installing tail)
    (through : s.log.lh[tail]? = none) :
    Inv layout image { s.bwrite s.log.start (writeHead (s.bread s.log.start) []) with
      stage := .ready, recovering := false, log := committed s.log } := by
  have frame := inv.frame
  have after := inv.after_of_installing stage
  have busy : s.stage ≠ .ready := by simp [stage]
  have wide := frame.bwrite s.log.start (writeHead (s.bread s.log.start) [])
  rw [frame.start] at wide ⊢
  have apart : ∀ c, layout.home c = true → c ≠ layout.start :=
    fun c home same => layout.start_not_home (same ▸ home)
  have undirty : ∀ b buf, s.cache b = some buf → buf.dirty = false := by
    intro b buf cached
    by_contra dirty
    obtain ⟨i, there⟩ := List.mem_iff_getElem?.mp (frame.dirty b buf cached (by simpa using dirty))
    exact dirty ((after.installed i b (lt_of_through there through) there).2 buf cached)
  refine .of_ready ⟨wide.start, wide.size, wide.clean, ?_, ?_, Nat.zero_le _, wide.counted,
    fun other => absurd rfl other, fun other => absurd rfl other,
    fun impossible => nomatch impossible⟩
    rfl ⟨?_, ?_, ?_⟩
  · intro b buf cached dirty
    by_cases here : b = layout.start
    · subst here
      simp only [Sys.bwrite, update_self, Option.some.injEq] at cached
      rw [← cached] at dirty
      cases dirty
    · simp only [Sys.bwrite, update_of_ne here] at cached
      exact absurd ((undirty b buf cached).symm.trans dirty) Bool.false_ne_true
  · intro b member
    cases member
  · exact (congrArg readHead disk_bwrite_self).trans (readHead_writeHead _ _)
  · intro b home
    exact (disk_bwrite_of_ne (apart b home)).trans (after.settled through home)
  · intro b home
    refine (bread_bwrite_of_ne (apart b home)).trans ?_
    rw [frame.bread_of_clean (undirty b), after.settled through home]
    change _ = replay s.pending (s.final image) b
    rw [after.nothing]
    rfl

theorem Inv.advance (inv : Inv layout image s) (taken : Logging.advance s = some t) :
    Inv layout image t := by
  simp only [Logging.advance] at taken
  split at taken
  · cases taken
  · rename_i tail stage
    split at taken
    · rename_i b listed
      cases taken
      exact inv.copy stage listed
    · rename_i through
      cases taken
      exact inv.head stage through
  · rename_i tail stage
    split at taken
    · rename_i b listed
      cases taken
      exact inv.install stage listed
    · rename_i through
      cases taken
      exact inv.clear stage through

/-- What the disk holds at every moment: the transactions whose header was written,
the last one perhaps only in the log. -/
structure Durable (layout : Layout) (disk final : Nat → Block) : Prop where
  homes : ∀ b ∈ readHead (disk layout.start), layout.home b = true
  short : (readHead (disk layout.start)).length ≤ layout.size - 1
  logged : ∀ i b, (readHead (disk layout.start))[i]? = some b →
    disk (layout.start + i + 1) = final b
  rest : ∀ b, layout.home b = true → b ∉ readHead (disk layout.start) → disk b = final b

theorem Before.durable (before : Before layout image s) :
    Durable layout s.disk (s.final image) := by
  refine ⟨?_, ?_, ?_, fun b home _ => before.settled b home⟩ <;> rw [before.header]
  · intro b member
    cases member
  · exact Nat.zero_le _
  · intro i b listed
    cases listed

theorem Inv.durable (inv : Inv layout image s) : Durable layout s.disk (s.final image) := by
  have staged := inv.staged
  unfold Staged at staged
  split at staged
  · exact staged.durable
  · exact staged.1.durable
  · refine ⟨?_, ?_, ?_, ?_⟩ <;> rw [staged.header]
    · exact inv.frame.homes
    · exact inv.frame.fits
    · exact staged.logged
    · exact staged.rest

/-- A crash loses the pending writes, or finds the transaction in the log. -/
theorem Inv.crash (inv : Inv layout image s) : Inv layout image (Logging.crash layout s) := by
  have durable := inv.durable
  refine ⟨⟨rfl, rfl, ?_, ?_, durable.homes, durable.short, rfl, fun _ => rfl, fun _ => .inl rfl,
    fun _ => ⟨0, rfl⟩⟩, ⟨rfl, durable.logged, ?_, durable.rest, rfl⟩⟩
  · intro b buf cached
    cases cached
  · intro b buf cached
    cases cached
  · intro i b impossible
    exact absurd impossible (Nat.not_lt_zero i)

theorem Inv.act {event : Act} (inv : Inv layout image s)
    (taken : Logging.act layout s event = some t) :
    Inv layout image t := by
  cases event with
  | begin op => exact inv.begin taken
  | write op b data => exact inv.write taken
  | «end» op => exact inv.end taken
  | load b => exact inv.load taken
  | evict b => exact inv.evict taken
  | advance => exact inv.advance taken
  | crash =>
    cases taken
    exact inv.crash
  | swap b data =>
    simp only [Logging.act] at taken
    split at taken
    case isFalse => cases taken
    rename_i swap
    cases taken
    obtain ⟨outside, other⟩ := layout.swap_outside b swap
    exact inv.bwrite_outside outside other

theorem Inv.boot (empty : readHead (image layout.start) = []) :
    Inv layout image (Logging.boot layout image) := by
  refine ⟨⟨rfl, rfl, ?_, ?_, ?_, ?_, rfl, fun _ => rfl, fun _ => .inl rfl, fun _ => ⟨0, rfl⟩⟩,
    ⟨rfl, ?_, ?_, fun _ _ _ => rfl, rfl⟩⟩
  · intro b buf cached
    cases cached
  · intro b buf cached
    cases cached
  · intro b member
    change b ∈ readHead (image layout.start) at member
    rw [empty] at member
    cases member
  · change (readHead (image layout.start)).length ≤ _
    rw [empty]
    exact Nat.zero_le _
  · intro i b listed
    change (readHead (image layout.start))[i]? = some b at listed
    rw [empty] at listed
    cases listed
  · intro i b impossible
    exact absurd impossible (Nat.not_lt_zero i)

end Steps

/-! ## Uninterrupted recovery -/

section Recovery

variable {layout : Layout} {final : Nat → Block} {lh : List Nat}

/-- The induction is on the blocks still to install; those before `tail` are done. -/
theorem installTrans_settles (homes : ∀ b ∈ lh, layout.home b = true)
    (short : lh.length ≤ layout.size - 1) :
    ∀ (n tail : Nat) (disk : Nat → Block), tail + n = lh.length →
      (∀ i b, lh[i]? = some b → disk (layout.start + i + 1) = final b) →
      (∀ i b, i < tail → lh[i]? = some b → disk b = final b) →
      (∀ b, layout.home b = true → b ∉ lh → disk b = final b) →
      ∀ b, layout.home b = true → installTrans layout.start lh tail n disk b = final b := by
  intro n
  induction n with
  | zero =>
    intro tail disk whole _ installed rest b home
    by_cases listed : b ∈ lh
    · obtain ⟨i, there⟩ := List.mem_iff_getElem?.mp listed
      have := (List.getElem?_eq_some_iff.mp there).1
      exact installed i b (by omega) there
    · exact rest b home listed
  | succ n ih =>
    intro tail disk whole logged installed rest b home
    have inside : tail < lh.length := by omega
    obtain ⟨c, there⟩ : ∃ c, lh[tail]? = some c := ⟨_, List.getElem?_eq_getElem inside⟩
    have member : c ∈ lh := List.mem_of_getElem? there
    have target : lh.getD tail 0 = c := by simp [there]
    rw [installTrans, target]
    refine ih (tail + 1) _ (by omega) ?_ ?_ ?_ b home
    · intro i d listed
      have below := (List.getElem?_eq_some_iff.mp listed).1
      rw [update_of_ne]
      · exact logged i d listed
      · intro same
        exact layout.log_not_home (i := i) (by omega) (same ▸ homes c member)
    · intro i d below listed
      by_cases here : d = c
      · rw [here, update_self]
        exact logged tail c there
      · rw [update_of_ne here]
        refine installed i d ?_ listed
        by_contra late
        have same : i = tail := by omega
        rw [same] at listed
        exact here (Option.some.inj (listed.symm.trans there))
    · intro d inner absent
      have here : d ≠ c := fun same => absent (by rw [same]; exact member)
      rw [update_of_ne here]
      exact rest d inner absent

/-- Recovery brings the home blocks to the committed state. -/
theorem Durable.recover {disk : Nat → Block} (durable : Durable layout disk final) {b : Nat}
    (home : layout.home b = true) : recoverFromLog layout.start disk b = final b := by
  have apart : b ≠ layout.start := fun same => layout.start_not_home (same ▸ home)
  unfold recoverFromLog
  rw [update_of_ne apart]
  exact installTrans_settles durable.homes durable.short _ 0 disk (by omega) durable.logged
    (fun i c impossible => absurd impossible (Nat.not_lt_zero i)) durable.rest b home

end Recovery

/-! ## Operations are whole -/

theorem ofOp_append (op : Nat) (first second : List Write) :
    ofOp op (first ++ second) = ofOp op first ++ ofOp op second := List.filter_append ..

theorem ofOp_push_self (op b : Nat) (data : Block) (writes : List Write) :
    ofOp op (writes ++ [⟨op, b, data⟩]) = ofOp op writes ++ [⟨op, b, data⟩] := by
  rw [ofOp_append]
  simp [ofOp]

theorem ofOp_push_of_ne {op other : Nat} (apart : other ≠ op) (b : Nat) (data : Block)
    (writes : List Write) : ofOp op (writes ++ [⟨other, b, data⟩]) = ofOp op writes := by
  rw [ofOp_append]
  simp [ofOp, apart]

/-- Where the writes of each operation are: all pending while it runs, then all
pending, all committed or all lost. -/
structure Whole (s : Sys) : Prop where
  known : ∀ op ∈ s.active, op ∈ s.used
  fresh : ∀ op, op ∉ s.used →
    s.wrote op = [] ∧ ofOp op s.pending = [] ∧ ofOp op s.history.flatten = []
  running : ∀ op ∈ s.active, ofOp op s.history.flatten = [] ∧ ofOp op s.pending = s.wrote op
  ended : ∀ op, (ofOp op s.history.flatten = [] ∨ ofOp op s.history.flatten = s.wrote op) ∧
    (ofOp op s.pending ≠ [] → ofOp op s.history.flatten = [] ∧ ofOp op s.pending = s.wrote op)

section Whole

variable {layout : Layout} {s t : Sys}

theorem Whole.congr (whole : Whole s) (active : t.active = s.active ∨ t.active = [])
    (used : t.used = s.used) (pending : t.pending = s.pending ∨ t.pending = [] ∧ t.active = [])
    (history : t.history = s.history) (wrote : t.wrote = s.wrote) : Whole t := by
  have running : ∀ op ∈ t.active, op ∈ s.active ∧ t.pending = s.pending := by
    intro op member
    rcases pending with same | ⟨_, none⟩
    · rcases active with old | none
      · exact ⟨old ▸ member, same⟩
      · rw [none] at member
        cases member
    · rw [none] at member
      cases member
  refine ⟨?_, ?_, ?_, ?_⟩
  · intro op member
    rw [used]
    exact whole.known op (running op member).1
  · intro op unused
    rw [used] at unused
    obtain ⟨nothing, none, absent⟩ := whole.fresh op unused
    rw [wrote, history]
    refine ⟨nothing, ?_, absent⟩
    rcases pending with same | ⟨empty, _⟩
    · rw [same]
      exact none
    · rw [empty]
      rfl
  · intro op member
    obtain ⟨old, same⟩ := running op member
    rw [history, same, wrote]
    exact whole.running op old
  · intro op
    rw [history, wrote]
    refine ⟨(whole.ended op).1, ?_⟩
    intro some'
    rcases pending with same | ⟨empty, _⟩
    · rw [same] at some' ⊢
      exact (whole.ended op).2 some'
    · rw [empty] at some'
      exact absurd rfl some'

theorem Whole.begin {op : Nat} (whole : Whole s) (taken : act layout s (.begin op) = some t) :
    Whole t := by
  simp only [act] at taken
  split at taken
  · cases taken
  rename_i guard
  have unused : op ∉ s.used := fun member => guard (.inr member)
  obtain ⟨log, begun, rfl⟩ := Option.map_eq_some_iff.mp taken
  obtain ⟨nothing, none, absent⟩ := whole.fresh op unused
  refine ⟨?_, ?_, ?_, whole.ended⟩
  · intro other member
    rcases List.mem_cons.mp member with rfl | old
    · exact List.mem_cons_self
    · exact List.mem_cons_of_mem _ (whole.known other old)
  · intro other missing
    exact whole.fresh other fun member => missing (List.mem_cons_of_mem _ member)
  · intro other member
    rcases List.mem_cons.mp member with rfl | old
    · exact ⟨absent, none.trans nothing.symm⟩
    · exact whole.running other old

theorem Whole.write {op b : Nat} {data : Block} (whole : Whole s)
    (taken : act layout s (.write op b data) = some t) : Whole t := by
  simp only [act] at taken
  split at taken
  case isFalse => cases taken
  rename_i guard
  have active := guard.1
  split at taken
  · cases taken
  cases taken
  obtain ⟨absent, same⟩ := whole.running op active
  have mine : ofOp op (s.pending ++ [⟨op, b, data⟩]) =
      Function.update s.wrote op (s.wrote op ++ [⟨op, b, data⟩]) op := by
    rw [ofOp_push_self, same, update_self]
  have others : ∀ other, other ≠ op →
      ofOp other (s.pending ++ [⟨op, b, data⟩]) = ofOp other s.pending ∧
      Function.update s.wrote op (s.wrote op ++ [⟨op, b, data⟩]) other = s.wrote other :=
    fun other apart => ⟨ofOp_push_of_ne (Ne.symm apart) b data s.pending,
      update_of_ne apart _ _⟩
  refine ⟨whole.known, ?_, ?_, ?_⟩
  · intro other unused
    have apart : other ≠ op := fun same => unused (by rw [same]; exact whole.known op active)
    obtain ⟨nothing, none, missing⟩ := whole.fresh other unused
    exact ⟨(others other apart).2.trans nothing, (others other apart).1.trans none, missing⟩
  · intro other member
    by_cases here : other = op
    · subst here
      exact ⟨absent, mine⟩
    · obtain ⟨missing, all⟩ := whole.running other member
      exact ⟨missing, (others other here).1.trans (all.trans (others other here).2.symm)⟩
  · intro other
    by_cases here : other = op
    · subst here
      exact ⟨.inl absent, fun _ => ⟨absent, mine⟩⟩
    · dsimp only
      rw [(others other here).1, (others other here).2]
      exact whole.ended other

theorem Whole.finish {op : Nat} {log : Log} {doCommit : Bool} (whole : Whole s) :
    Whole (Logging.finish s op log doCommit) := by
  have kept : Whole { s with log := log, active := s.active.erase op } :=
    ⟨fun other member => whole.known other (List.mem_of_mem_erase member), whole.fresh,
      fun other member => whole.running other (List.mem_of_mem_erase member), whole.ended⟩
  simp only [Logging.finish]
  split
  · split
    · exact kept.congr (.inl rfl) rfl (.inl rfl) rfl rfl
    · exact kept.congr (.inl rfl) rfl (.inl rfl) rfl rfl
  · exact kept

theorem Whole.commit (whole : Whole s) (idle : s.active = []) (used : t.used = s.used)
    (active : t.active = s.active) (pending : t.pending = [])
    (history : t.history = s.history ++ [s.pending]) (wrote : t.wrote = s.wrote) : Whole t := by
  have flat : ∀ op, ofOp op t.history.flatten = ofOp op s.history.flatten ++ ofOp op s.pending := by
    intro op
    rw [history, List.flatten_append, ofOp_append, List.flatten_singleton]
  refine ⟨?_, ?_, ?_, ?_⟩
  · intro op member
    rw [active, idle] at member
    cases member
  · intro op unused
    obtain ⟨nothing, none, absent⟩ := whole.fresh op (used ▸ unused)
    rw [flat, wrote, pending, none, absent]
    exact ⟨nothing, rfl, rfl⟩
  · intro op member
    rw [active, idle] at member
    cases member
  · intro op
    obtain ⟨present, waiting⟩ := whole.ended op
    rw [flat, wrote, pending]
    refine ⟨?_, fun impossible => absurd rfl impossible⟩
    by_cases none : ofOp op s.pending = []
    · rw [none, List.append_nil]
      exact present
    · obtain ⟨absent, all⟩ := waiting none
      rw [absent, all]
      exact .inr rfl

/-- The next disk write of the log. Only write_head at the commit point touches the
operations. -/
theorem advance_history (taken : advance s = some t) :
    (∃ tail, s.stage = .writing tail ∧ s.log.lh[tail]? = none ∧
      t.history = s.history ++ [s.pending] ∧ t.pending = []) ∧ t.active = s.active ∧
        t.used = s.used ∧ t.wrote = s.wrote ∨
    t.history = s.history ∧ t.pending = s.pending ∧ t.active = s.active ∧ t.used = s.used ∧
      t.wrote = s.wrote := by
  simp only [advance] at taken
  split at taken
  · cases taken
  · rename_i tail stage
    split at taken
    · cases taken
      exact .inr ⟨rfl, rfl, rfl, rfl, rfl⟩
    · rename_i through
      cases taken
      exact .inl ⟨⟨tail, stage, through, rfl, rfl⟩, rfl, rfl, rfl⟩
  · split at taken
    · cases taken
      exact .inr ⟨rfl, rfl, rfl, rfl, rfl⟩
    · cases taken
      exact .inr ⟨rfl, rfl, rfl, rfl, rfl⟩

theorem Whole.act {event : Act} (whole : Whole s) (frame : Frame layout s)
    (taken : Logging.act layout s event = some t) : Whole t := by
  cases event with
  | begin op => exact whole.begin taken
  | write op b data => exact whole.write taken
  | «end» op =>
    simp only [Logging.act] at taken
    split at taken
    case isFalse => cases taken
    split at taken
    · cases taken
    cases taken
    exact whole.finish
  | swap b data | load b =>
    simp only [Logging.act] at taken
    split at taken
    case isFalse => cases taken
    cases taken
    exact whole.congr (.inl rfl) rfl (.inl rfl) rfl rfl
  | evict b =>
    simp only [Logging.act] at taken
    split at taken
    case h_2 => cases taken
    cases taken
    exact whole.congr (.inl rfl) rfl (.inl rfl) rfl rfl
  | advance =>
    rcases advance_history taken with ⟨⟨tail, stage, _, history, pending⟩, active, used, wrote⟩ |
      ⟨history, pending, active, used, wrote⟩
    · exact whole.commit (frame.busy (by simp [stage])) used active pending history wrote
    · exact whole.congr (.inl active) used (.inl pending) history wrote
  | crash =>
    cases taken
    exact whole.congr (.inr rfl) rfl (.inr ⟨rfl, rfl⟩) rfl rfl

theorem act_disk {event : Act} (taken : Logging.act layout s event = some t) :
    t.disk = s.disk ∧ t.history = s.history ∨
      (∃ b data, layout.swap b = true ∧ t = s.bwrite b data) ∨ advance s = some t := by
  cases event with
  | begin op =>
    simp only [Logging.act] at taken
    split at taken
    · cases taken
    obtain ⟨log, _, rfl⟩ := Option.map_eq_some_iff.mp taken
    exact .inl ⟨rfl, rfl⟩
  | write op b data =>
    simp only [Logging.act] at taken
    split at taken
    case isFalse => cases taken
    split at taken
    · cases taken
    cases taken
    exact .inl ⟨rfl, rfl⟩
  | «end» op =>
    simp only [Logging.act] at taken
    split at taken
    case isFalse => cases taken
    split at taken
    · cases taken
    cases taken
    simp only [Logging.finish]
    split
    · split <;> exact .inl ⟨rfl, rfl⟩
    · exact .inl ⟨rfl, rfl⟩
  | swap b data =>
    simp only [Logging.act] at taken
    split at taken
    case isFalse => cases taken
    rename_i swap
    cases taken
    exact .inr (.inl ⟨b, data, swap, rfl⟩)
  | load b =>
    simp only [Logging.act] at taken
    split at taken
    case isFalse => cases taken
    cases taken
    exact .inl ⟨rfl, rfl⟩
  | evict b =>
    simp only [Logging.act] at taken
    split at taken
    case h_2 => cases taken
    cases taken
    exact .inl ⟨rfl, rfl⟩
  | advance => exact .inr (.inr taken)
  | crash =>
    cases taken
    exact .inl ⟨rfl, rfl⟩

theorem act_history {event : Act} (taken : Logging.act layout s event = some t) :
    s.history <+: t.history := by
  rcases act_disk taken with ⟨_, same⟩ | ⟨b, data, _, rfl⟩ | advanced
  · rw [same]
  · exact List.prefix_rfl
  · rcases advance_history advanced with ⟨⟨_, _, _, history, _⟩, _⟩ | ⟨history, _⟩
    · rw [history]
      exact List.prefix_append _ _
    · rw [history]

/-- The header on disk only comes to list blocks at a commit point. -/
theorem advance_header (frame : Frame layout s) (taken : advance s = some t) :
    readHead (t.disk layout.start) = readHead (s.disk layout.start) ∨
      readHead (t.disk layout.start) = [] ∨ t.history = s.history ++ [s.pending] := by
  simp only [advance] at taken
  split at taken
  · cases taken
  · split at taken
    · cases taken
      refine .inl (congrArg readHead (disk_bwrite_of_ne ?_))
      have := frame.start
      omega
    · cases taken
      exact .inr (.inr rfl)
  · split at taken
    · rename_i b listed
      cases taken
      refine .inl (congrArg readHead (disk_bwrite_of_ne ?_))
      intro same
      exact layout.start_not_home (same ▸ frame.listed_home listed)
    · cases taken
      refine .inr (.inl ?_)
      rw [← frame.start]
      exact (congrArg readHead disk_bwrite_self).trans (readHead_writeHead _ _)

theorem act_header {event : Act} (frame : Frame layout s)
    (taken : Logging.act layout s event = some t) :
    readHead (t.disk layout.start) = readHead (s.disk layout.start) ∨
      readHead (t.disk layout.start) = [] ∨ t.history = s.history ++ [s.pending] := by
  rcases act_disk taken with ⟨same, _⟩ | ⟨b, data, swap, rfl⟩ | advanced
  · rw [same]
    exact .inl rfl
  · refine .inl (congrArg readHead (disk_bwrite_of_ne ?_))
    have := (layout.swap_outside b swap).1
    have := layout.room
    omega
  · exact advance_header frame advanced

end Whole

/-! ## Crash atomicity -/

section Atomicity

variable {layout : Layout} {image : Nat → Block} {s : Sys} {trace : List (Act × Unit)}

theorem run_keeps (empty : readHead (image layout.start) = [])
    (run : Run (Acts layout) (boot layout image) trace s) : Inv layout image s ∧ Whole s := by
  refine run.invariant (I := fun s => Inv layout image s ∧ Whole s) ?_ ⟨.boot empty, ?_⟩
  · intro s event _ t kept taken
    exact ⟨kept.1.act taken, kept.2.act kept.1.frame taken⟩
  · exact ⟨(fun op member => nomatch member), fun op _ => ⟨rfl, rfl, rfl⟩,
      (fun op member => nomatch member), fun op =>
        ⟨.inl rfl, fun impossible => absurd rfl impossible⟩⟩

/-- At every point of every run, whatever the interleaving and however often the
machine crashed before, recovery leaves the home blocks as the committed
transactions made them: those whose header was written, each operation whole. -/
theorem log_crash_atomic (empty : readHead (image layout.start) = [])
    (run : Run (Acts layout) (boot layout image) trace s) :
    (∀ b, layout.home b = true →
      recoverFromLog layout.start s.disk b = replay s.history.flatten image b) ∧
    (s.stage = .ready → ∀ b, layout.home b = true → s.disk b = replay s.history.flatten image b) ∧
    (∀ op, ofOp op s.history.flatten = [] ∨ ofOp op s.history.flatten = s.wrote op) ∧
    (∀ event t, act layout s event = some t → readHead (s.disk layout.start) = [] →
      readHead (t.disk layout.start) ≠ [] → t.history = s.history ++ [s.pending]) ∧
    ∀ later t, Run (Acts layout) s later t → s.history <+: t.history := by
  obtain ⟨inv, whole⟩ := run_keeps empty run
  refine ⟨fun b home => inv.durable.recover home, ?_, fun op => (whole.ended op).1, ?_, ?_⟩
  · intro ready b home
    exact (inv.before_of_ready ready).settled b home
  · intro event t taken before after
    rcases act_header inv.frame taken with same | none | commits
    · exact absurd (same.trans before) after
    · exact absurd none after
    · exact commits
  · intro later t further
    refine further.related (R := fun s t => s.history <+: t.history) ?_ ?_ ?_
    · intro s
      exact List.prefix_rfl
    · intro s t u first second
      exact first.trans second
    · intro s event _ t taken
      exact act_history taken

end Atomicity

/-- The areas mkfs lays out: swap from block 2 on, then the log, then the rest. -/
def mkfsLayout : Layout where
  start := 3202
  size := nlog
  home b := 3232 ≤ b
  swap b := 2 ≤ b ∧ b < 3202
  room := by decide
  home_outside b home := by
    simp only [decide_eq_true_eq] at home
    exact .inr home
  swap_outside b swap := by
    simp only [decide_eq_true_eq] at swap
    simp only [decide_eq_false_iff_not]
    omega

/-- An operation commits, the machine crashes before anything is installed, and
recovery installs it. -/
theorem log_crash_atomic_once : ∃ s : Sys, s.stage = .ready ∧ s.history.flatten.length = 1 ∧
    (∀ b, mkfsLayout.home b = true →
      recoverFromLog mkfsLayout.start s.disk b = replay s.history.flatten (fun _ _ => 0) b) ∧
    s.disk 4000 = replay s.history.flatten (fun _ _ => 0) 4000 := by
  have ends : ([Act.advance, .begin 7, .write 7 4000 (fun _ => 1), .swap 5 (fun _ => 2), .end 7,
      .advance, .advance, .crash, .advance, .advance].foldlM (act mkfsLayout)
      (boot mkfsLayout fun _ _ => 0)).isSome := by decide
  have through : (Option.get _ ends).stage = .ready ∧
      (Option.get _ ends).history.flatten.length = 1 := by decide +revert
  obtain ⟨recovered, ready, _⟩ := @log_crash_atomic mkfsLayout _ _ _ (by decide)
    (Run.of_foldlM (Option.some_get ends).symm)
  exact ⟨Option.get _ ends, through.1, through.2, recovered, ready through.1 4000 (by decide)⟩

end Xv6Cow.Logging
