import Xv6Cow.Console

/- Runs of keys and reads: each byte of the committed lines goes to one call of
consoleread. -/
namespace Xv6Cow.Console

open Runs RingBuffer

variable {ι δ : Type} [DecidableEq ι] {input : Input} {ed : Editor}

/-! ## Who reads what in the reference -/

theorem takeLine_append (target n : Nat) (queue : List Byte) :
    (takeLine target n queue).1 <+: queue := by
  induction n generalizing queue with
  | zero => exact List.nil_prefix
  | succ n ih =>
    cases queue with
    | nil => exact List.nil_prefix
    | cons c rest =>
      unfold takeLine
      have one : [c] <+: c :: rest := ⟨rest, rfl⟩
      split
      · split
        · exact List.nil_prefix
        · exact one
      · split
        · exact one
        · exact (List.prefix_cons_inj c).mpr (ih rest)

/-- Only a read that has stored nothing takes a ^D, and it takes nothing else. -/
theorem takeLine_eof {target n : Nat} {queue : List Byte} (le : n ≤ target)
    (eof : ctrl 'D' ∈ (takeLine target n queue).1) :
    n = target ∧ (takeLine target n queue).1 = [ctrl 'D'] ∧ (takeLine target n queue).2 = none := by
  induction n generalizing queue with
  | zero => cases eof
  | succ n ih =>
    cases queue with
    | nil => cases eof
    | cons c rest =>
      unfold takeLine at eof ⊢
      split
      · rename_i same
        rw [if_pos same] at eof
        split
        · rename_i saved
          rw [if_pos saved] at eof
          cases eof
        · rename_i first
          exact ⟨by omega, by rw [same], rfl⟩
      · rename_i other
        rw [if_neg other] at eof
        split
        · rename_i ends
          rw [if_pos ends] at eof
          exact absurd (List.mem_singleton.mp eof).symm other
        · rename_i goes
          rw [if_neg goes] at eof
          rcases List.mem_cons.mp eof with here | later
          · exact absurd here.symm other
          · exact absurd (ih (by omega) later).1 (by omega)

/-- A read that goes on to wait has stored every byte it took. -/
theorem takeLine_left {target n left : Nat} {queue : List Byte}
    (waits : (takeLine target n queue).2 = some left) :
    left + (takeLine target n queue).1.length = n := by
  induction n generalizing queue with
  | zero => cases waits
  | succ n ih =>
    cases queue with
    | nil =>
      obtain rfl := Option.some.inj waits
      rfl
    | cons c rest =>
      unfold takeLine at waits ⊢
      split
      · rename_i same
        rw [if_pos same] at waits
        cases waits
      · rename_i other
        rw [if_neg other] at waits
        split
        · rename_i ends
          rw [if_pos ends] at waits
          cases waits
        · rename_i goes
          rw [if_neg goes] at waits
          have rest := ih waits
          dsimp only
          rw [List.length_cons]
          omega

/-- The committed bytes that a call has read. -/
def Editor.share (ed : Editor) (call : Nat) : List Byte :=
  ((ed.readers.zip ed.lines).filter (·.1 = call)).map Prod.snd

theorem filter_zip_replicate (call other : Nat) (taken : List Byte) :
    (((List.replicate taken.length call).zip taken).filter (·.1 = other)).map Prod.snd =
      if call = other then taken else [] := by
  induction taken with
  | nil => simp
  | cons c rest ih =>
    rw [List.length_cons, List.replicate_succ, List.zip_cons_cons, List.filter_cons]
    by_cases same : call = other
    · rw [if_pos same] at ih ⊢
      rw [if_pos (decide_eq_true same), List.map_cons, ih]
    · rw [if_neg same] at ih ⊢
      rw [if_neg (by simpa using same), ih]

theorem zip_append_right {xs : List Nat} {ys : List Byte} (le : xs.length ≤ ys.length)
    (zs : List Byte) : xs.zip (ys ++ zs) = xs.zip ys := by
  induction xs generalizing ys with
  | nil => rfl
  | cons x xs ih =>
    cases ys with
    | nil => simp at le
    | cons y ys =>
      rw [List.cons_append, List.zip_cons_cons, List.zip_cons_cons,
        ih (Nat.le_of_succ_le_succ le)]

theorem Editor.share_serve {taken : List Byte} (part : taken <+: ed.queue)
    (read : ed.readers.length ≤ ed.lines.length) (call other : Nat) :
    (ed.serve call taken.length).share other =
      ed.share other ++ if call = other then taken else [] := by
  obtain ⟨rest, split⟩ := part
  have front : ed.readers.length = (ed.lines.take ed.readers.length).length := by
    rw [List.length_take, Nat.min_eq_left read]
  have lines : ed.lines = ed.lines.take ed.readers.length ++ (taken ++ rest) := by
    rw [split]
    exact (List.take_append_drop _ _).symm
  have after : (ed.readers ++ List.replicate taken.length call).zip ed.lines =
      ed.readers.zip ed.lines ++ (List.replicate taken.length call).zip taken := by
    generalize ed.lines.take ed.readers.length = read at front lines
    rw [lines, List.zip_append front, zip_append_right (Nat.le_of_eq front),
      zip_append_right (by rw [List.length_replicate])]
  unfold Editor.share Editor.serve
  dsimp only
  rw [after, List.filter_append, List.map_append, filter_zip_replicate]

variable {a b : State ι Editor} {label : Label ι} {out : Out} {trace : List (Label ι × Out)}
  {p : ι} {call : Nat}

theorem stored_of_not_mem {bytes : List Byte} (none : ctrl 'D' ∉ bytes) : stored bytes = bytes := by
  refine List.filter_eq_self.mpr fun c member => decide_eq_true ?_
  rintro rfl
  exact none member

/-- Where a call stands: its buffer holds what it has read, and no ^D was in it. -/
structure Served (ed : Editor) (read : Read) : Prop where
  dst : ed.share read.call = read.dst
  noEof : ctrl 'D' ∉ read.dst
  left : read.n + read.dst.length = read.target

structure Tidy (a : State ι Editor) : Prop where
  served : ∀ p read, a.reads p = some read → Served a.device read ∧ read.call < a.calls
  apart : ∀ p q x y, a.reads p = some x → a.reads q = some y → x.call = y.call → p = q
  known : ∀ c ∈ a.device.readers, c < a.calls
  read : a.device.readers.length ≤ a.device.lines.length

/-- A call that has returned. -/
def Closed (a : State ι Editor) (call : Nat) : Prop :=
  call < a.calls ∧ ∀ p read, a.reads p = some read → read.call ≠ call

theorem Editor.share_fresh (known : ∀ c ∈ ed.readers, c < call) : ed.share call = [] := by
  unfold Editor.share
  rw [List.map_eq_nil_iff, List.filter_eq_nil_iff]
  rintro ⟨c, x⟩ member
  have old := known c (List.of_mem_zip member).1
  simp only [decide_eq_true_eq]
  omega

theorem Editor.press_lines (ed : Editor) (c : Byte) :
    ed.lines <+: (ed.press c).lines ∧ (ed.press c).readers = ed.readers := by
  have whole := List.prefix_refl ed.lines
  unfold Editor.press Editor.store
  split
  · exact ⟨whole, rfl⟩
  split
  · exact ⟨whole, rfl⟩
  split
  · exact ⟨whole, rfl⟩
  split
  · split
    · split
      · exact ⟨List.prefix_append _ _, rfl⟩
      · exact ⟨whole, rfl⟩
    · split
      · exact ⟨List.prefix_append _ _, rfl⟩
      · exact ⟨whole, rfl⟩
  · exact ⟨whole, rfl⟩

theorem Editor.keys_lines (ed : Editor) (keys : List Byte) :
    ed.lines <+: (lineEditor.keys ed keys).lines ∧
      (lineEditor.keys ed keys).readers = ed.readers := by
  induction keys generalizing ed with
  | nil => exact ⟨List.prefix_refl _, rfl⟩
  | cons c rest ih =>
    obtain ⟨lines, readers⟩ := ed.press_lines c
    obtain ⟨later, same⟩ := ih (ed.press c)
    exact ⟨lines.trans later, same.trans readers⟩

theorem Editor.share_of_prefix {ed' : Editor} (read : ed.readers.length ≤ ed.lines.length)
    (lines : ed.lines <+: ed'.lines) (readers : ed'.readers = ed.readers) (call : Nat) :
    ed'.share call = ed.share call := by
  obtain ⟨more, split⟩ := lines
  unfold Editor.share
  rw [readers, ← split, zip_append_right read]

theorem Tidy.enter (tidy : Tidy a) {n : Int} :
    Tidy { a with
      reads := Function.update a.reads p (some (begin a.calls n))
      calls := a.calls + 1 } := by
  have fresh : a.device.share a.calls = [] := Editor.share_fresh tidy.known
  refine ⟨fun q read here => ?_, fun q q' x y here here' same => ?_,
    fun c member => Nat.lt_succ_of_lt (tidy.known c member), tidy.read⟩
  · dsimp only at here
    rw [Function.update_apply] at here
    split at here
    · obtain rfl := Option.some.inj here
      exact ⟨⟨fresh, List.not_mem_nil, rfl⟩, Nat.lt_succ_self _⟩
    · obtain ⟨served, old⟩ := tidy.served q read here
      exact ⟨served, Nat.lt_succ_of_lt old⟩
  · dsimp only at here here'
    rw [Function.update_apply] at here here'
    split at here <;> split at here'
    · rename_i first second
      rw [first, second]
    · obtain rfl := Option.some.inj here
      exact absurd same.symm (Nat.ne_of_lt (tidy.served q' y here').2)
    · obtain rfl := Option.some.inj here'
      exact absurd same (Nat.ne_of_lt (tidy.served q x here).2)
    · exact tidy.apart q q' x y here here' same

omit [DecidableEq ι] in
theorem Tidy.keys (tidy : Tidy a) (keys : List Byte) :
    Tidy { a with device := lineEditor.keys a.device keys } := by
  obtain ⟨lines, readers⟩ := a.device.keys_lines keys
  refine ⟨fun p read here => ?_, tidy.apart, ?_, ?_⟩
  · obtain ⟨served, old⟩ := tidy.served p read here
    refine ⟨⟨?_, served.noEof, served.left⟩, old⟩
    rw [Editor.share_of_prefix tidy.read lines readers, served.dst]
  · dsimp only
    rw [readers]
    exact tidy.known
  · dsimp only
    rw [readers]
    exact Nat.le_trans tidy.read lines.length_le

omit [DecidableEq ι] in
/-- What one section of a read does to the shares: only the reader's own grows, by what
it takes. -/
theorem Tidy.share_read (tidy : Tidy a) (read : Read) (other : Nat) :
    (lineEditor.read a.device read).1.share other = a.device.share other ++
      if read.call = other then (takeLine read.target read.n a.device.queue).1 else [] :=
  Editor.share_serve (takeLine_append _ _ _) tidy.read _ _

/-- The device after a section of a read, with the reader's call open or closed. -/
theorem Tidy.section (tidy : Tidy a) {read : Read} (here : a.reads p = some read)
    {next : Option Read} (goes : ∀ x, next = some x → x.call = read.call ∧
      Served (lineEditor.read a.device read).1 x) :
    Tidy { a with
      device := (lineEditor.read a.device read).1
      reads := Function.update a.reads p next } := by
  have own := (tidy.served p read here).2
  have calls : ∀ q x, Function.update a.reads p next q = some x →
      ∃ y, a.reads q = some y ∧ x.call = y.call := by
    intro q x found
    rw [Function.update_apply] at found
    split at found
    · rename_i same
      rw [same]
      exact ⟨read, here, (goes x found).1⟩
    · exact ⟨x, found, rfl⟩
  refine ⟨fun q x found => ?_, fun q q' x y found found' same => ?_, ?_, ?_⟩
  · obtain ⟨y, open', same⟩ := calls q x found
    refine ⟨?_, by rw [same]; exact (tidy.served q y open').2⟩
    dsimp only at found
    rw [Function.update_apply] at found
    split at found
    · exact (goes x found).2
    · rename_i other
      have served := (tidy.served q x found).1
      refine ⟨?_, served.noEof, served.left⟩
      have differ :
        read.call ≠ x.call := fun same => other (tidy.apart q p x read found here same.symm)
      rw [tidy.share_read, if_neg differ, List.append_nil, served.dst]
  · obtain ⟨x', open', first⟩ := calls q x found
    obtain ⟨y', open'', second⟩ := calls q' y found'
    exact tidy.apart q q' x' y' open' open'' (by rw [← first, ← second, same])
  · intro c member
    rcases List.mem_append.mp member with old | new
    · exact tidy.known c old
    · rw [(List.mem_replicate.mp new).2]
      exact own
  · have part := (takeLine_append read.target read.n a.device.queue).length_le
    rw [Editor.queue, List.length_drop] at part
    change (a.device.readers ++ List.replicate _ _).length ≤ a.device.lines.length
    rw [List.length_append, List.length_replicate]
    have := tidy.read
    rw [Editor.queue]
    omega

omit [DecidableEq ι] in
theorem Tidy.waits (tidy : Tidy a) {read : Read} (here : a.reads p = some read) {left : Nat}
    (waits : (lineEditor.read a.device read).2.2 = some left) :
    Served (lineEditor.read a.device read).1
      { read with n := left, dst := (lineEditor.read a.device read).2.1 } := by
  obtain ⟨served, -⟩ := tidy.served p read here
  have le : read.n ≤ read.target := by have := served.left; omega
  have none : ctrl 'D' ∉ (takeLine read.target read.n a.device.queue).1 := by
    intro eof
    have ends := (takeLine_eof le eof).2.2
    change (takeLine read.target read.n a.device.queue).2 = some left at waits
    rw [ends] at waits
    cases waits
  have count := takeLine_left waits
  have bytes : (lineEditor.read a.device read).2.1 =
      read.dst ++ (takeLine read.target read.n a.device.queue).1 := by
    change read.dst ++ stored _ = _
    rw [stored_of_not_mem none]
  refine ⟨?_, ?_, ?_⟩
  · dsimp only
    rw [tidy.share_read, if_pos rfl, served.dst, bytes]
  · dsimp only
    rw [bytes]
    exact fun member => (List.mem_append.mp member).elim served.noEof none
  · dsimp only
    have total := served.left
    rw [bytes, List.length_append]
    omega

theorem Read.leave_some {read x : Read} {killed : Bool} {dst : List Byte} {left : Option Nat}
    (stays : (read.leave killed dst left).2 = some x) :
    ∃ n, left = some n ∧ x = { read with n := n, dst := dst } := by
  cases left with
  | none => cases stays
  | some n =>
    unfold Read.leave at stays
    dsimp only at stays
    split at stays
    · cases stays
    · exact ⟨n, rfl, (Option.some.inj stays).symm⟩

theorem Read.leave_got {read : Read} {killed : Bool} {dst bytes : List Byte} {left : Option Nat}
    (returns : (read.leave killed dst left).1 = .got call bytes) :
    call = read.call ∧ bytes = dst ∧ (read.leave killed dst left).2 = none := by
  cases left with
  | none =>
    cases returns
    exact ⟨rfl, rfl, rfl⟩
  | some n =>
    unfold Read.leave at returns
    dsimp only at returns
    split at returns <;> cases returns

theorem Tidy.step (tidy : Tidy a) (taken : Step lineEditor a label out b) : Tidy b := by
  cases taken with
  | keys => exact tidy.keys _
  | enter _ => exact tidy.enter
  | @run p read here =>
    refine tidy.section here fun x stays => ?_
    obtain ⟨n, waits, rfl⟩ := Read.leave_some stays
    exact ⟨rfl, tidy.waits here waits⟩
  | kill => exact ⟨tidy.served, tidy.apart, tidy.known, tidy.read⟩

theorem Closed.step (closed : Closed a call) (tidy : Tidy a)
    (taken : Step lineEditor a label out b) :
    Closed b call ∧ b.device.share call = a.device.share call := by
  cases taken with
  | @keys keys =>
    obtain ⟨lines, readers⟩ := a.device.keys_lines keys
    exact ⟨closed, Editor.share_of_prefix tidy.read lines readers call⟩
  | enter _ =>
    refine ⟨⟨Nat.lt_succ_of_lt closed.1, fun q x found => ?_⟩, rfl⟩
    dsimp only at found
    rw [Function.update_apply] at found
    split at found
    · obtain rfl := Option.some.inj found
      exact (Nat.ne_of_lt closed.1).symm
    · exact closed.2 q x found
  | @run p read here =>
    have other := closed.2 p read here
    refine ⟨⟨closed.1, fun q x found => ?_⟩, ?_⟩
    · change Function.update a.reads p _ q = some x at found
      rw [Function.update_apply] at found
      split at found
      · obtain ⟨n, -, rfl⟩ := Read.leave_some found
        exact other
      · exact closed.2 q x found
    · change (lineEditor.read a.device read).1.share call = _
      rw [tidy.share_read, if_neg other, List.append_nil]
  | kill => exact ⟨closed, rfl⟩

/-- A read returns what it has read. If there is a ^D in that, it is the only byte, and
the read returns none. -/
theorem Tidy.got {bytes : List Byte} (tidy : Tidy a)
    (taken : Step lineEditor a label (.got call bytes) b) :
    Closed b call ∧ bytes = stored (b.device.share call) ∧
      (ctrl 'D' ∈ b.device.share call → b.device.share call = [ctrl 'D']) := by
  generalize returned : Out.got call bytes = out at taken
  cases taken with
  | keys => cases returned
  | enter _ => cases returned
  | kill => cases returned
  | @run p read here =>
    obtain ⟨served, old⟩ := tidy.served p read here
    obtain ⟨rfl, rfl, closes⟩ := Read.leave_got returned.symm
    have share : (lineEditor.read a.device read).1.share read.call =
        read.dst ++ (takeLine read.target read.n a.device.queue).1 := by
      rw [tidy.share_read, if_pos rfl, served.dst]
    refine ⟨⟨old, fun q x found => ?_⟩, ?_, ?_⟩
    · change Function.update a.reads p _ q = some x at found
      rw [Function.update_apply, closes] at found
      split at found
      · cases found
      · rename_i other
        exact fun equal => other (tidy.apart q p x read found here equal)
    · change read.dst ++ stored _ = stored ((lineEditor.read a.device read).1.share read.call)
      unfold stored
      rw [share, List.filter_append]
      exact congrArg (· ++ _) (stored_of_not_mem served.noEof).symm
    · change ctrl 'D' ∈ (lineEditor.read a.device read).1.share read.call →
        (lineEditor.read a.device read).1.share read.call = _
      rw [share]
      intro eof
      have total := served.left
      rcases List.mem_append.mp eof with stale | fresh
      · exact absurd stale served.noEof
      · obtain ⟨first, single, -⟩ := takeLine_eof (by omega) fresh
        rw [single, List.eq_nil_of_length_eq_zero (show read.dst.length = 0 by omega)]
        rfl

theorem run_shares (tidy : Tidy a) (run : Run (Step lineEditor) a trace b) :
    (∀ call, Closed a call → b.device.share call = a.device.share call) ∧
      ∀ call bytes, .got call bytes ∈ trace.map Prod.snd →
        bytes = stored (b.device.share call) ∧
          (ctrl 'D' ∈ b.device.share call → b.device.share call = [ctrl 'D']) := by
  induction run with
  | nil => exact ⟨fun _ _ => rfl, fun _ _ none => by cases none⟩
  | @cons a b c label out rest first later ih =>
    obtain ⟨kept, returned⟩ := ih (tidy.step first)
    refine ⟨fun call closed => ?_, fun call bytes member => ?_⟩
    · obtain ⟨still, same⟩ := closed.step tidy first
      rw [kept call still, same]
    · rcases List.mem_cons.mp member with now | then'
      · obtain rfl : Out.got call bytes = out := now
        obtain ⟨closed, bytes, eof⟩ := tidy.got first
        rw [kept call closed]
        exact ⟨bytes, eof⟩
      · exact returned call bytes then'

/-! ## Every run -/

/-- The same processes, over the console and over the reference. -/
structure Imitates (s : State ι Input) (a : State ι Editor) : Prop where
  shows : Shows s.device a.device
  reads : a.reads = s.reads
  killed : a.killed = s.killed
  calls : a.calls = s.calls

theorem Imitates.step {s t : State ι Input} (same : Imitates s a)
    (taken : Step console s label out t) :
    ∃ b, Step lineEditor a label out b ∧ Imitates t b := by
  obtain ⟨device, reads, killed, calls⟩ := s
  obtain ⟨device', reads', killed', calls'⟩ := a
  obtain ⟨shows, rfl, rfl, rfl⟩ := same
  cases taken with
  | keys => exact ⟨_, .keys, ⟨shows.keys _, rfl, rfl, rfl⟩⟩
  | enter idle => exact ⟨_, .enter idle, ⟨shows, rfl, rfl, rfl⟩⟩
  | @run p read here =>
    obtain ⟨after, loop, shown⟩ := shows.readLoop read.target read.n read.dst read.call
    have bytes : (console.read device read).2 = (lineEditor.read device' read).2 := by
      change (readLoop read.target read.n device read.dst).2 = _
      rw [loop]
      rfl
    have shown' : Shows (console.read device read).1 (lineEditor.read device' read).1 := by
      change Shows (readLoop read.target read.n device read.dst).1 _
      rw [loop]
      exact shown
    refine ⟨(consoleread lineEditor ⟨device', reads', killed', calls'⟩ p read).2, ?_,
      ⟨shown', ?_, rfl, rfl⟩⟩
    · have taken := @Step.run ι Editor _ lineEditor ⟨device', reads', killed', calls'⟩ p read here
      unfold consoleread at taken ⊢
      dsimp only at taken ⊢
      rwa [bytes]
    · unfold consoleread
      dsimp only
      rw [bytes]
  | kill => exact ⟨_, .kill, ⟨shows, rfl, rfl, rfl⟩⟩

/-- `r <= w <= e <= r + INPUT_BUF`, modulo 2^32. -/
def Input.Ordered (input : Input) : Prop :=
  (input.w - input.r).toNat ≤ (input.e - input.r).toNat ∧ (input.e - input.r).toNat ≤ INPUT_BUF

/-- The bytes from `r` to `w`. -/
def Input.committed (input : Input) : List Byte :=
  (List.range (input.w - input.r).toNat).map fun k => input.buf ((input.r.toNat + k) % INPUT_BUF)

theorem Shows.ordered (shows : Shows input ed) : input.Ordered := by
  unfold Input.Ordered
  rw [shows.pending, shows.unread]
  exact ⟨Nat.le_add_right _ _, shows.pending_le⟩

theorem Shows.committed_eq (shows : Shows input ed) : input.committed = ed.queue := by
  unfold Input.committed
  rw [shows.unread]
  refine List.ext_getElem (by simp) fun k inside inside' => ?_
  have cell := shows.holds.stored k (by rw [List.length_append]; omega)
  rw [List.getElem_append_left inside'] at cell
  rw [List.getElem_map, List.getElem_range]
  exact cell

theorem Shows.committed_prefix (shows : Shows input ed) (keys : List Byte) :
    input.committed <+: (consoleintr input keys).committed := by
  obtain ⟨⟨more, lines⟩, readers⟩ := ed.keys_lines keys
  rw [shows.committed_eq, (shows.keys keys).committed_eq, Editor.queue, Editor.queue, readers,
    ← lines, List.drop_append_of_le_length shows.read]
  exact List.prefix_append _ _

theorem shows_start (buf : Nat → Byte) : Shows ⟨buf, 0, 0, 0⟩ ⟨[], [], []⟩ :=
  ⟨⟨Nat.zero_le _, rfl, fun _ inside => absurd inside (Nat.not_lt_zero _)⟩, rfl, List.not_mem_nil,
    fun _ => rfl, Nat.le_refl 0⟩

omit [DecidableEq ι] in
theorem tidy_start : Tidy (start ⟨[], [], []⟩ : State ι Editor) :=
  ⟨fun _ _ none => absurd none.symm (Option.some_ne_none _),
    fun _ _ _ _ none => absurd none.symm (Option.some_ne_none _),
    fun _ none => absurd none List.not_mem_nil, Nat.le_refl 0⟩

/-- In every run of keys and reads the indices stay in order however far they have
wrapped, no later key touches a committed byte that nobody has read, and the reads
return what they would with the reference line editor: each byte of its committed
lines goes, in order, to one call, and a ^D that a call takes is all it takes, so
that it returns no bytes. -/
theorem line_discipline {buf : Nat → Byte} {s : State ι Input}
    (run : Run (Step console) (start ⟨buf, 0, 0, 0⟩) trace s) :
    s.device.Ordered ∧
      (∀ keys, s.device.committed <+: (consoleintr s.device keys).committed) ∧
      ∃ a, Run (Step lineEditor) (start ⟨[], [], []⟩) trace a ∧
        s.device.committed = a.device.queue ∧
        a.device.readers.length ≤ a.device.lines.length ∧
        ∀ call bytes, .got call bytes ∈ trace.map Prod.snd →
          bytes = stored (a.device.share call) ∧
            (ctrl 'D' ∈ a.device.share call → a.device.share call = [ctrl 'D']) := by
  have begins : Imitates (start ⟨buf, 0, 0, 0⟩ : State ι Input) (start ⟨[], [], []⟩) :=
    ⟨shows_start buf, rfl, rfl, rfl⟩
  have imitates : ∀ {s : State ι Input} {label : Label ι} {out : Out} {t : State ι Input}
      {a : State ι Editor}, Imitates s a → Step console s label out t →
        ∃ b, Step lineEditor a label out b ∧ Imitates t b := Imitates.step
  obtain ⟨a, reference, same⟩ := run.simulate imitates begins
  have shows := same.shows
  exact ⟨shows.ordered, shows.committed_prefix, a, reference, shows.committed_eq, shows.read,
    (run_shares tidy_start reference).2⟩

/-- Two keys, one of them erased, and ^D: a read gets one byte, the next read none. -/
theorem line_discipline_eof : ∃ trace, ∃ s : State Unit Input,
    Run (Step console) (start ⟨fun _ => 0, 0, 0, 0⟩) trace s ∧ s.device.Ordered ∧
      trace.map Prod.snd = [.none, .none, .got 0 [0x61], .none, .got 1 []] := by
  have run : ∃ trace, ∃ s : State Unit Input,
      Run (Step console) (start ⟨fun _ => 0, 0, 0, 0⟩) trace s ∧
        trace.map Prod.snd = [.none, .none, .got 0 [0x61], .none, .got 1 []] :=
    ⟨_, _, .cons (@Step.keys Unit Input _ _ _ [0x61, 0x62, ctrl 'H', ctrl 'D'])
      (.cons (@Step.enter Unit Input _ _ _ () 5 rfl)
      (.cons (@Step.run Unit Input _ _ _ () (begin 0 5) rfl)
      (.cons (@Step.enter Unit Input _ _ _ () 5 rfl)
      (.cons (@Step.run Unit Input _ _ _ () (begin 1 5) rfl) .nil)))), by decide⟩
  obtain ⟨trace, s, run, outs⟩ := run
  exact ⟨trace, s, run, (line_discipline run).1, outs⟩

end Xv6Cow.Console
