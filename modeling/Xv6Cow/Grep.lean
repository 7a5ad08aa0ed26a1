import Mathlib.Data.List.Basic
import Mathlib.Tactic.Basic
import Xv6Cow.GrepMatch

/- The loop of grep over what read brings: lines are cut out of a fixed buffer in place,
and the rest of an incomplete line is moved to its front for the next read. -/
namespace Xv6Cow.Grep

open Pattern

/-- sizeof(buf). -/
def BUFSIZE : Nat := 1024

def newline : Byte := 0x0a#8

/-- The global array, with the bytes from its address on. -/
abbrev Buffer : Type := Nat → Byte

def Buffer.set (buf : Buffer) (i : Nat) (b : Byte) : Buffer := fun j => if j = i then b else buf j

/-- Bytes stored one after the other from `i` on, as read does. -/
def Buffer.fill (buf : Buffer) (i : Nat) : List Byte → Buffer
  | [] => buf
  | b :: rest => (buf.set i b).fill (i + 1) rest

/-- The loop of memmove. -/
def Buffer.move (buf : Buffer) (dst src : Nat) : Nat → Buffer
  | 0 => buf
  | n + 1 => (buf.set dst (buf src)).move (dst + 1) (src + 1) n

/-- The bytes of the string at `p`; the string has at most `n` of them. -/
def Buffer.string (buf : Buffer) : Nat → Nat → List Byte
  | 0, _ => []
  | n + 1, p => if buf p = 0#8 then [] else buf p :: buf.string n (p + 1)

theorem Buffer.string_terminated (buf : Buffer) (n p : Nat) : 0#8 ∉ buf.string n p := by
  induction n generalizing p with
  | zero => exact List.not_mem_nil
  | succ n ih =>
    rw [Buffer.string]
    split
    · exact List.not_mem_nil
    · rename_i letter
      intro member
      rcases List.mem_cons.mp member with zero | later
      · exact letter zero.symm
      · exact ih (p + 1) later

/-- The C string at `p`. -/
def Buffer.cstring (buf : Buffer) (p : Nat) : CString where
  bytes := buf.string (BUFSIZE - p) p
  terminated := buf.string_terminated _ _

/-- strchr(buf + p, c), with at most `n` bytes to look at. -/
def Buffer.strchr (buf : Buffer) (c : Byte) : Nat → Nat → Option Nat
  | 0, _ => none
  | n + 1, p =>
    if buf p = 0#8 then none else if buf p = c then some p else buf.strchr c n (p + 1)

theorem Buffer.strchr_bounds {buf : Buffer} {c : Byte} {n p q : Nat}
    (found : buf.strchr c n p = some q) : p ≤ q ∧ q < p + n := by
  induction n generalizing p with
  | zero => cases found
  | succ n ih =>
    rw [Buffer.strchr] at found
    split at found
    · cases found
    · split at found
      · cases found
        omega
      · have later := ih found
        omega

/-- The buffer and what has been written to standard output. -/
structure Sink where
  buf : Buffer
  out : List Byte

/-- The bytes from `p` to `q`, both included. -/
def Buffer.slice (buf : Buffer) (p q : Nat) : List Byte :=
  (List.range (q + 1 - p)).map fun i => buf (p + i)

/-- One line, from `p` to its newline at `q`. -/
def Sink.line (pattern : CString) (p q : Nat) (s : Sink) : Sink :=
  let cut := s.buf.set q 0#8
  if matchText pattern (cut.cstring p) = some true then
    let whole := cut.set q newline
    { buf := whole, out := s.out ++ whole.slice p q }
  else { s with buf := cut }

/-- The inner loop; it returns the place behind the last newline. -/
def Sink.lines (pattern : CString) (p : Nat) (s : Sink) : Nat × Sink :=
  match _ : s.buf.strchr newline (BUFSIZE - p) p with
  | none => (p, s)
  | some q => (s.line pattern p q).lines pattern (q + 1)
termination_by BUFSIZE - p
decreasing_by
  have bounds := Buffer.strchr_bounds ‹s.buf.strchr newline (BUFSIZE - p) p = some q›
  omega

/-- What the outer loop works on. -/
structure State where
  buf : Buffer
  m : Nat
  out : List Byte

/-- One turn of the outer loop, with the bytes that read has brought. -/
def State.turn (pattern : CString) (chunk : List Byte) (s : State) : State :=
  let m := s.m + chunk.length
  let filled := (s.buf.fill s.m chunk).set m 0#8
  let (p, sink) := Sink.lines pattern 0 { buf := filled, out := s.out }
  let m := if p = 0 then 0 else m
  if 0 < m then { buf := sink.buf.move 0 p (m - p), m := m - p, out := sink.out }
  else { buf := sink.buf, m := m, out := sink.out }

/-- grep, reading the chunks and then the end of the input. -/
def grep (pattern : CString) (chunks : List (List Byte)) (s : State) : State :=
  chunks.foldl (fun s chunk => s.turn pattern chunk) s

/-- The buffer may still hold what an earlier file left in it. -/
def State.start (buf : Buffer) : State := { buf := buf, m := 0, out := [] }

/-- The chunks are answers to the reads that grep makes: not empty, and no longer than
what is asked for. -/
def Answers (pattern : CString) : List (List Byte) → State → Prop
  | [], _ => True
  | chunk :: rest, s =>
    chunk ≠ [] ∧ chunk.length ≤ BUFSIZE - s.m - 1 ∧ Answers pattern rest (s.turn pattern chunk)

/-! ## What it should write -/

/-- The lines of the input that end in a newline, without it. -/
def completeLines (input : List Byte) : List (List Byte) := (input.splitOn newline).dropLast

/-- What follows the last newline. -/
def remainder (input : List Byte) : List Byte := (input.splitOn newline).getLastD []

open Classical in
/-- The complete lines that match, each with its newline. -/
noncomputable def matching (pattern : CString) (input : List Byte) : List Byte :=
  ((completeLines input).filter fun line => (expression pattern.bytes).Matches line).flatMap
    fun line => line ++ [newline]

section Lines

variable {line rest : List Byte}

theorem beq_newline_of_notMem (whole : newline ∉ line) :
    ∀ b ∈ line, (b == newline) = false := by
  intro b member
  refine beq_eq_false_iff_ne.mpr ?_
  rintro rfl
  exact whole member

theorem splitOn_cons (whole : newline ∉ line) :
    (line ++ newline :: rest).splitOn newline = line :: rest.splitOn newline :=
  List.splitOnP_append_cons_of_forall_mem (beq_newline_of_notMem whole) newline
    (beq_self_eq_true _) rest

theorem splitOn_single (whole : newline ∉ line) : line.splitOn newline = [line] :=
  List.splitOnP_eq_singleton (beq_newline_of_notMem whole)

theorem splitOn_ne_nil : rest.splitOn newline ≠ [] := List.splitOnP_ne_nil _ _

theorem completeLines_cons (whole : newline ∉ line) :
    completeLines (line ++ newline :: rest) = line :: completeLines rest := by
  unfold completeLines
  rw [splitOn_cons whole, List.dropLast_cons_of_ne_nil splitOn_ne_nil]

theorem completeLines_of_notMem (whole : newline ∉ line) : completeLines line = [] := by
  unfold completeLines
  rw [splitOn_single whole]
  rfl

theorem remainder_cons (whole : newline ∉ line) :
    remainder (line ++ newline :: rest) = remainder rest := by
  unfold remainder
  rw [splitOn_cons whole]
  cases split : rest.splitOn newline with
  | nil => exact absurd split splitOn_ne_nil
  | cons first later => rfl

theorem remainder_of_notMem (whole : newline ∉ line) : remainder line = line := by
  unfold remainder
  rw [splitOn_single whole]
  rfl

/-- Induction on an input by its lines. -/
theorem lines_induction {motive : List Byte → Prop}
    (last : ∀ line, newline ∉ line → motive line)
    (more : ∀ line rest, newline ∉ line → motive rest → motive (line ++ newline :: rest))
    (input : List Byte) : motive input := by
  induction size : input.length using Nat.strong_induction_on generalizing input with
  | _ n ih =>
    by_cases ends : newline ∈ input
    · obtain ⟨line, rest, rfl, whole⟩ := List.eq_append_cons_of_mem ends
      refine more line rest whole (ih _ ?_ rest rfl)
      rw [← size, List.length_append, List.length_cons]
      omega
    · exact last input ends

theorem newline_notMem_remainder (input : List Byte) : newline ∉ remainder input := by
  induction input using lines_induction with
  | last line whole => rwa [remainder_of_notMem whole]
  | more line rest whole ih => rwa [remainder_cons whole]

theorem mem_of_mem_remainder {input : List Byte} {b : Byte} (member : b ∈ remainder input) :
    b ∈ input := by
  induction input using lines_induction with
  | last line whole => rwa [remainder_of_notMem whole] at member
  | more line rest whole ih =>
    rw [remainder_cons whole] at member
    exact List.mem_append_right _ (List.mem_cons_of_mem _ (ih member))

theorem completeLines_append (a b : List Byte) :
    completeLines (a ++ b) = completeLines a ++ completeLines (remainder a ++ b) := by
  induction a using lines_induction with
  | last line whole =>
  rw [completeLines_of_notMem whole, remainder_of_notMem whole, List.nil_append]
  | more line rest whole ih =>
    rw [List.append_assoc, List.cons_append, completeLines_cons whole, ih, completeLines_cons whole,
      remainder_cons whole, List.cons_append]

theorem remainder_append {a b : List Byte} (ends : newline ∈ b) :
    remainder (a ++ b) = remainder b := by
  induction a using lines_induction with
  | last line whole =>
    obtain ⟨first, rest, rfl, cut⟩ := List.eq_append_cons_of_mem ends
    have joined : newline ∉ line ++ first := by
      rw [List.mem_append]
      exact fun either => either.elim whole cut
    rw [← List.append_assoc, remainder_cons joined, remainder_cons cut]
  | more line rest whole ih =>
    rw [List.append_assoc, List.cons_append, remainder_cons whole, ih]

theorem matching_append (pattern : CString) (a b : List Byte) :
    matching pattern (a ++ b) = matching pattern a ++ matching pattern (remainder a ++ b) := by
  unfold matching
  rw [completeLines_append, List.filter_append, List.flatMap_append]

open Classical in
theorem matching_cons (pattern : CString) (whole : newline ∉ line) :
    matching pattern (line ++ newline :: rest) =
      (if (expression pattern.bytes).Matches line then line ++ [newline] else []) ++
        matching pattern rest := by
  unfold matching
  rw [completeLines_cons whole, List.filter_cons]
  by_cases found : (expression pattern.bytes).Matches line
  · rw [if_pos (decide_eq_true found), if_pos found, List.flatMap_cons]
  · rw [if_neg (by simpa using found), if_neg found, List.nil_append]

theorem matching_of_notMem {pattern : CString} (whole : newline ∉ line) :
    matching pattern line = [] := by
  unfold matching
  rw [completeLines_of_notMem whole]
  rfl

end Lines

/-! ## Bytes in the buffer -/

/-- The buffer holds the bytes from `p` on. -/
def Cells (buf : Buffer) : Nat → List Byte → Prop
  | _, [] => True
  | p, b :: rest => buf p = b ∧ Cells buf (p + 1) rest

section Cells

variable {buf : Buffer} {p q n i : Nat} {bytes rest : List Byte}

theorem cells_append :
    Cells buf p (bytes ++ rest) ↔ Cells buf p bytes ∧ Cells buf (p + bytes.length) rest := by
  induction bytes generalizing p with
  | nil => simp [Cells]
  | cons b bytes ih =>
    have next : p + (b :: bytes).length = p + 1 + bytes.length := by
      rw [List.length_cons]
      omega
    rw [List.cons_append, Cells, Cells, ih, next, and_assoc]

theorem Cells.set {b : Byte} (cells : Cells buf p bytes) (outside : i < p ∨ p + bytes.length ≤ i) :
    Cells (buf.set i b) p bytes := by
  induction bytes generalizing p with
  | nil => trivial
  | cons c bytes ih =>
    rw [List.length_cons] at outside
    refine ⟨?_, ih cells.2 (by omega)⟩
    have other : p ≠ i := by omega
    exact (if_neg other).trans cells.1

theorem cells_fill (buf : Buffer) (i : Nat) (bytes : List Byte) :
    Cells (buf.fill i bytes) i bytes ∧ ∀ j < i, buf.fill i bytes j = buf j := by
  induction bytes generalizing buf i with
  | nil => exact ⟨trivial, fun j _ => rfl⟩
  | cons b bytes ih =>
    obtain ⟨cells, below⟩ := ih (buf.set i b) (i + 1)
    refine ⟨⟨(below i (by omega)).trans (if_pos rfl), cells⟩, fun j low => ?_⟩
    have other : j ≠ i := by omega
    exact (below j (by omega)).trans (if_neg other)

theorem Cells.fill_after (cells : Cells buf p bytes) (before : p + bytes.length ≤ i)
    (more : List Byte) : Cells (buf.fill i more) p bytes := by
  induction bytes generalizing p with
  | nil => trivial
  | cons b bytes ih =>
    rw [List.length_cons] at before
    exact ⟨((cells_fill buf i more).2 p (by omega)).trans cells.1, ih cells.2 (by omega)⟩

/-- memmove to a lower address: a byte is overwritten only when it has been copied. -/
theorem Cells.move {dst : Nat} (cells : Cells buf p bytes) (down : dst ≤ p) :
    Cells (buf.move dst p bytes.length) dst bytes ∧
      ∀ j < dst, buf.move dst p bytes.length j = buf j := by
  induction bytes generalizing buf p dst with
  | nil => exact ⟨trivial, fun j _ => rfl⟩
  | cons b bytes ih =>
    have later : Cells (buf.set dst (buf p)) (p + 1) bytes := cells.2.set (Or.inl (by omega))
    obtain ⟨moved, below⟩ := ih later (Nat.succ_le_succ down)
    rw [List.length_cons, Buffer.move]
    refine ⟨⟨?_, moved⟩, fun j low => ?_⟩
    · rw [below dst (by omega)]
      exact (if_pos rfl).trans cells.1
    · have other : j ≠ dst := by omega
      rw [below j (by omega)]
      exact if_neg other

theorem Cells.slice (cells : Cells buf p bytes) :
    (List.range bytes.length).map (fun i => buf (p + i)) = bytes := by
  induction bytes generalizing p with
  | nil => rfl
  | cons b bytes ih =>
    rw [List.length_cons, List.range_succ_eq_map, List.map_cons, List.map_map]
    congr 1
    · exact cells.1
    · conv_rhs => rw [← ih cells.2]
      refine List.map_congr_left fun i _ => ?_
      change buf (p + (i + 1)) = buf (p + 1 + i)
      rw [Nat.add_assoc, Nat.add_comm 1 i]

theorem Cells.string (cells : Cells buf p (bytes ++ [0#8])) (letters : 0#8 ∉ bytes)
    (room : bytes.length < n) : buf.string n p = bytes := by
  induction bytes generalizing p n with
  | nil =>
    cases n with
    | zero => exact absurd room (Nat.not_lt_zero _)
    | succ n => exact if_pos cells.1
  | cons b bytes ih =>
    cases n with
    | zero => exact absurd room (Nat.not_lt_zero _)
    | succ n =>
      rw [List.length_cons] at room
      rw [List.mem_cons, not_or] at letters
      have here : buf p = b := cells.1
      rw [Buffer.string, here, if_neg (Ne.symm letters.1), ih cells.2 letters.2 (by omega)]

theorem Cells.strchr_none {c : Byte} (cells : Cells buf p (bytes ++ [0#8]))
    (absent : c ∉ bytes) : buf.strchr c n p = none := by
  induction bytes generalizing p n with
  | nil =>
    cases n with
    | zero => rfl
    | succ n => exact if_pos cells.1
  | cons b bytes ih =>
    cases n with
    | zero => rfl
    | succ n =>
      rw [List.mem_cons, not_or] at absent
      have here : buf p = b := cells.1
      rw [Buffer.strchr, here]
      split
      · rfl
      · rw [if_neg (Ne.symm absent.1)]
        exact ih cells.2 absent.2

theorem Cells.strchr_some {c : Byte} (cells : Cells buf p (bytes ++ c :: rest))
    (letters : 0#8 ∉ bytes) (letter : c ≠ 0#8) (absent : c ∉ bytes) (room : bytes.length < n) :
    buf.strchr c n p = some (p + bytes.length) := by
  induction bytes generalizing p n with
  | nil =>
    cases n with
    | zero => exact absurd room (Nat.not_lt_zero _)
    | succ n =>
      have here : buf p = c := cells.1
      rw [Buffer.strchr, here, if_neg letter, if_pos rfl]
      rfl
  | cons b bytes ih =>
    cases n with
    | zero => exact absurd room (Nat.not_lt_zero _)
    | succ n =>
      rw [List.length_cons] at room
      rw [List.mem_cons, not_or] at letters absent
      have here : buf p = b := cells.1
      rw [Buffer.strchr, here, if_neg (Ne.symm letters.1), if_neg (Ne.symm absent.1),
        ih cells.2 letters.2 absent.2 (by omega), List.length_cons]
      congr 1
      omega

end Cells

/-! ## The loops -/

section Loops

variable {pattern : CString}

open Classical in
/-- One line is cut out, and written if it matches; what follows it stays in place. -/
theorem Sink.line_spec {s : Sink} {p : Nat} {line rest : List Byte}
    (cells : Cells s.buf p (line ++ newline :: (rest ++ [0#8]))) (letters : 0#8 ∉ line)
    (room : p + line.length < BUFSIZE) :
    Cells (s.line pattern p (p + line.length)).buf (p + line.length + 1) (rest ++ [0#8]) ∧
      (s.line pattern p (p + line.length)).out =
        s.out ++ (if (expression pattern.bytes).Matches line then line ++ [newline] else []) := by
  obtain ⟨before, -, after⟩ := cells_append.mp cells
  have cut : Cells (s.buf.set (p + line.length) 0#8) p (line ++ [0#8]) :=
    cells_append.mpr ⟨before.set (Or.inr (Nat.le_refl _)), if_pos rfl, trivial⟩
  have bytes : ((s.buf.set (p + line.length) 0#8).cstring p).bytes = line :=
    cut.string letters (by omega)
  have answer := matchText_eq_true pattern ((s.buf.set (p + line.length) 0#8).cstring p)
  rw [bytes] at answer
  have kept : Cells (s.buf.set (p + line.length) 0#8) (p + line.length + 1) (rest ++ [0#8]) :=
    after.set (Or.inl (by omega))
  unfold Sink.line
  dsimp only
  by_cases found : (expression pattern.bytes).Matches line
  · rw [if_pos (answer.mpr found), if_pos found]
    refine ⟨kept.set (Or.inl (by omega)), ?_⟩
    have whole : Cells ((s.buf.set (p + line.length) 0#8).set (p + line.length) newline) p
        (line ++ [newline]) :=
      cells_append.mpr ⟨(cells_append.mp cut).1.set (Or.inr (Nat.le_refl _)), if_pos rfl, trivial⟩
    have size : p + line.length + 1 - p = (line ++ [newline]).length := by
      rw [List.length_append, List.length_singleton]
      omega
    unfold Buffer.slice
    rw [size, whole.slice]
  · rw [if_neg (fun holds => found (answer.mp holds)), if_neg found]
    exact ⟨kept, (List.append_nil _).symm⟩

theorem length_remainder_le (input : List Byte) : (remainder input).length ≤ input.length := by
  induction input using lines_induction with
  | last line whole => rw [remainder_of_notMem whole]
  | more line rest whole ih =>
    rw [remainder_cons whole, List.length_append, List.length_cons]
    omega

theorem length_remainder_lt {input : List Byte} (ends : newline ∈ input) :
    (remainder input).length < input.length := by
  obtain ⟨line, rest, rfl, whole⟩ := List.eq_append_cons_of_mem ends
  have short := length_remainder_le rest
  rw [remainder_cons whole, List.length_append, List.length_cons]
  omega

/-- The inner loop writes the matching lines and stops behind the last one. -/
theorem Sink.lines_spec {input : List Byte} {s : Sink} {p : Nat}
    (cells : Cells s.buf p (input ++ [0#8])) (letters : 0#8 ∉ input)
    (room : p + input.length < BUFSIZE) :
    ∃ t, s.lines pattern p = (p + (input.length - (remainder input).length), t) ∧
      t.out = s.out ++ matching pattern input ∧
      Cells t.buf (p + (input.length - (remainder input).length)) (remainder input) := by
  induction input using lines_induction generalizing s p with
  | last line whole =>
    refine ⟨s, ?_, ?_, ?_⟩
    · rw [Sink.lines]
      split
      · rw [remainder_of_notMem whole, Nat.sub_self]
        rfl
      · rename_i q found
        rw [cells.strchr_none whole] at found
        cases found
    · rw [matching_of_notMem whole, List.append_nil]
    · rw [remainder_of_notMem whole, Nat.sub_self]
      exact (cells_append.mp cells).1
  | more line rest whole ih =>
    rw [List.append_assoc, List.cons_append] at cells
    rw [List.mem_append, List.mem_cons, not_or, not_or] at letters
    rw [List.length_append, List.length_cons] at room
    have found : s.buf.strchr newline (BUFSIZE - p) p = some (p + line.length) :=
      cells.strchr_some letters.1 (by decide) whole (by omega)
    obtain ⟨kept, written⟩ := @Sink.line_spec pattern _ _ _ _ cells letters.1 (by omega)
    obtain ⟨t, ran, out, tail⟩ := ih kept letters.2.2 (by omega)
    have short := length_remainder_le rest
    have place : p + line.length + 1 + (rest.length - (remainder rest).length) =
        p + ((line ++ newline :: rest).length - (remainder (line ++ newline :: rest)).length) := by
      rw [remainder_cons whole, List.length_append, List.length_cons]
      omega
    rw [place] at ran tail
    refine ⟨t, ?_, ?_, ?_⟩
    · rw [Sink.lines]
      split
      · rename_i absent
        rw [found] at absent
        cases absent
      · rename_i q here
        rw [found] at here
        cases here
        exact ran
    · rw [out, written, matching_cons pattern whole, List.append_assoc]
    · rw [remainder_cons whole] at tail ⊢
      exact tail

/-- The front of the buffer holds the beginning of a line. -/
structure Carries (s : State) (carry : List Byte) : Prop where
  count : s.m = carry.length
  cells : Cells s.buf 0 carry
  whole : newline ∉ carry
  letters : 0#8 ∉ carry

theorem carries_start (buf : Buffer) : Carries (State.start buf) [] where
  count := rfl
  cells := trivial
  whole := List.not_mem_nil
  letters := List.not_mem_nil

/-- A read that completes a line leaves the rest of the input in the buffer; one that
does not is forgotten together with what was carried. -/
theorem State.turn_spec {s : State} {carry chunk : List Byte} (carries : Carries s carry)
    (letters : 0#8 ∉ chunk) (nonempty : chunk ≠ []) (room : chunk.length ≤ BUFSIZE - s.m - 1) :
    Carries (s.turn pattern chunk) (if newline ∈ chunk then remainder (carry ++ chunk) else []) ∧
      (s.turn pattern chunk).out =
        s.out ++ (if newline ∈ chunk then matching pattern (carry ++ chunk) else []) := by
  have size : s.m + chunk.length = (carry ++ chunk).length := by
    rw [List.length_append, carries.count]
  have some' : 0 < chunk.length := List.length_pos_iff.mpr nonempty
  have noNul : 0#8 ∉ carry ++ chunk := by
    rw [List.mem_append]
    exact fun either => either.elim carries.letters letters
  have filled : Cells ((s.buf.fill s.m chunk).set (s.m + chunk.length) 0#8) 0
      (carry ++ chunk ++ [0#8]) := by
    refine cells_append.mpr ⟨Cells.set (cells_append.mpr ⟨?_, ?_⟩) (Or.inr ?_), if_pos ?_, trivial⟩
    · exact carries.cells.fill_after (by rw [carries.count]; omega) chunk
    · rw [carries.count, Nat.zero_add]
      exact (cells_fill _ _ _).1
    · omega
    · omega
  obtain ⟨t, ran, out, tail⟩ := @Sink.lines_spec pattern _
    { buf := (s.buf.fill s.m chunk).set (s.m + chunk.length) 0#8, out := s.out } _
    filled noNul (by omega)
  rw [Nat.zero_add] at ran tail
  unfold State.turn
  dsimp only
  rw [ran, size]
  dsimp only
  by_cases ends : newline ∈ chunk
  · have short := length_remainder_lt (List.mem_append_right carry ends)
    have rest : (carry ++ chunk).length - ((carry ++ chunk).length -
        (remainder (carry ++ chunk)).length) = (remainder (carry ++ chunk)).length := by omega
    have behind : (carry ++ chunk).length - (remainder (carry ++ chunk)).length ≠ 0 := by omega
    have positive : 0 < (carry ++ chunk).length := by omega
    rw [if_neg behind, if_pos positive, if_pos ends, if_pos ends, rest]
    refine ⟨⟨rfl, (tail.move (Nat.zero_le _)).1, newline_notMem_remainder _, ?_⟩, out⟩
    exact fun member => noNul (mem_of_mem_remainder member)
  · have whole : newline ∉ carry ++ chunk := by
      rw [List.mem_append]
      exact fun either => either.elim carries.whole ends
    rw [remainder_of_notMem whole, Nat.sub_self, if_pos rfl, if_neg (Nat.lt_irrefl 0), if_neg ends,
      if_neg ends]
    refine ⟨⟨rfl, trivial, List.not_mem_nil, List.not_mem_nil⟩, ?_⟩
    rw [out, matching_of_notMem whole]

/-- What grep writes, by the chunks. -/
noncomputable def written (pattern : CString) : List Byte → List (List Byte) → List Byte
  | _, [] => []
  | carry, chunk :: rest =>
    if newline ∈ chunk then
      matching pattern (carry ++ chunk) ++ written pattern (remainder (carry ++ chunk)) rest
    else written pattern [] rest

theorem grep_out {chunks : List (List Byte)} {s : State} {carry : List Byte}
    (carries : Carries s carry) (letters : ∀ chunk ∈ chunks, 0#8 ∉ chunk)
    (answers : Answers pattern chunks s) :
    (grep pattern chunks s).out = s.out ++ written pattern carry chunks := by
  induction chunks generalizing s carry with
  | nil => exact (List.append_nil _).symm
  | cons chunk rest ih =>
    obtain ⟨nonempty, room, later⟩ := answers
    obtain ⟨next, out⟩ := @State.turn_spec pattern _ _ _ carries
      (letters chunk List.mem_cons_self) nonempty room
    have tail := ih next (fun c member => letters c (List.mem_cons_of_mem _ member)) later
    rw [out] at tail
    refine tail.trans ?_
    rw [written]
    split
    · rw [List.append_assoc]
    · rw [List.append_nil]

end Loops

/-! ## Chunks that keep lines together -/

/-- No newline comes after a chunk without one. -/
def Steady (chunks : List (List Byte)) : Prop :=
  chunks.Pairwise fun earlier later => newline ∈ later → newline ∈ earlier

theorem written_of_notMem {pattern : CString} {chunks : List (List Byte)} {carry : List Byte}
    (none' : ∀ chunk ∈ chunks, newline ∉ chunk) : written pattern carry chunks = [] := by
  induction chunks generalizing carry with
  | nil => rfl
  | cons chunk rest ih =>
    rw [written, if_neg (none' chunk List.mem_cons_self)]
    exact ih fun c member => none' c (List.mem_cons_of_mem _ member)

theorem newline_mem_flatten {chunks : List (List Byte)} :
    newline ∈ chunks.flatten ↔ ∃ chunk ∈ chunks, newline ∈ chunk := List.mem_flatten

theorem written_of_steady {pattern : CString} {chunks : List (List Byte)} {carry : List Byte}
    (whole : newline ∉ carry) (steady : Steady chunks) :
    written pattern carry chunks = matching pattern (carry ++ chunks.flatten) := by
  induction chunks generalizing carry with
  | nil =>
    rw [List.flatten_nil, List.append_nil, matching_of_notMem whole]
    rfl
  | cons chunk rest ih =>
    obtain ⟨first, later⟩ := List.pairwise_cons.mp steady
    rw [written, List.flatten_cons, ← List.append_assoc]
    by_cases ends : newline ∈ chunk
    · rw [if_pos ends, ih (newline_notMem_remainder _) later, ← matching_append]
    · have none' : ∀ c ∈ rest, newline ∉ c := fun c member there => ends (first c member there)
      have bare : newline ∉ carry ++ chunk ++ rest.flatten := by
        rw [List.mem_append, List.mem_append, newline_mem_flatten]
        rintro ((inCarry | inChunk) | ⟨c, member, there⟩)
        · exact whole inCarry
        · exact ends inChunk
        · exact none' c member there
      rw [if_neg ends, written_of_notMem none', matching_of_notMem bare]

/-! ### The empty expression matches every line -/

def emptyPattern : CString where
  bytes := []
  terminated := List.not_mem_nil

theorem emptyPattern_matches (line : List Byte) : (expression emptyPattern.bytes).Matches line :=
  ⟨[], [], line, rfl, rfl, fun _ => rfl, fun closed => absurd closed (by decide)⟩

theorem length_matching_empty (input : List Byte) :
    (matching emptyPattern input).length + (remainder input).length = input.length := by
  induction input using lines_induction with
  | last line whole =>
  rw [matching_of_notMem whole, remainder_of_notMem whole, List.length_nil, Nat.zero_add]
  | more line rest whole ih =>
    rw [matching_cons _ whole, if_pos (emptyPattern_matches line), remainder_cons whole]
    simp only [List.length_append, List.length_cons, List.length_nil]
    omega

theorem length_written_empty {chunks : List (List Byte)} {carry : List Byte}
    (whole : newline ∉ carry) (nonempty : ∀ chunk ∈ chunks, chunk ≠ []) :
    (written emptyPattern carry chunks).length ≤
        (matching emptyPattern (carry ++ chunks.flatten)).length ∧
      ((written emptyPattern carry chunks).length =
        (matching emptyPattern (carry ++ chunks.flatten)).length → Steady chunks) := by
  induction chunks generalizing carry with
  | nil => exact ⟨Nat.zero_le _, fun _ => List.Pairwise.nil⟩
  | cons chunk rest ih =>
    have others : ∀ c ∈ rest, c ≠ [] := fun c member => nonempty c (List.mem_cons_of_mem _ member)
    rw [written, List.flatten_cons, ← List.append_assoc]
    by_cases ends : newline ∈ chunk
    · obtain ⟨le, steady⟩ := ih (newline_notMem_remainder (carry ++ chunk)) others
      rw [if_pos ends, matching_append _ (carry ++ chunk), List.length_append, List.length_append]
      refine ⟨by omega, fun same => List.pairwise_cons.mpr ⟨fun _ _ _ => ends, steady (by omega)⟩⟩
    · obtain ⟨le, steady⟩ := @ih [] List.not_mem_nil others
      rw [List.nil_append] at le steady
      rw [if_neg ends]
      have some' : 0 < chunk.length :=
        List.length_pos_iff.mpr (nonempty chunk List.mem_cons_self)
      by_cases more : newline ∈ rest.flatten
      · have all := length_matching_empty (carry ++ chunk ++ rest.flatten)
        have tail := length_matching_empty rest.flatten
        rw [remainder_append more, List.length_append, List.length_append] at all
        exact ⟨by omega, fun same => by omega⟩
      · have bare : newline ∉ carry ++ chunk ++ rest.flatten := by
          rw [List.mem_append, List.mem_append]
          exact fun either => either.elim (fun front => front.elim whole ends) more
        rw [matching_of_notMem more] at le steady
        rw [matching_of_notMem bare]
        refine ⟨le, fun same => List.pairwise_cons.mpr ⟨fun c member there => ?_, steady same⟩⟩
        exact absurd (newline_mem_flatten.mpr ⟨c, member, there⟩) more

theorem Answers.nonempty {pattern : CString} {chunks : List (List Byte)} {s : State}
    (answers : Answers pattern chunks s) : ∀ chunk ∈ chunks, chunk ≠ [] := by
  induction chunks generalizing s with
  | nil => exact fun c member => absurd member List.not_mem_nil
  | cons chunk rest ih =>
    obtain ⟨nonempty, -, later⟩ := answers
    intro c member
    rcases List.mem_cons.mp member with rfl | old
    · exact nonempty
    · exact ih later c old

/-- grep writes the matching lines of a NUL-free input, whatever the pattern, exactly when
the reads never bring a piece without a newline ahead of one with a newline. -/
theorem grep_writes_matching_iff (buf : Buffer) (chunks : List (List Byte))
    (letters : ∀ chunk ∈ chunks, 0#8 ∉ chunk)
    (answers : ∀ pattern, Answers pattern chunks (.start buf)) :
    (∀ pattern, (grep pattern chunks (.start buf)).out = matching pattern chunks.flatten) ↔
      Steady chunks := by
  have out : ∀ pattern, (grep pattern chunks (.start buf)).out = written pattern [] chunks :=
    fun pattern => grep_out (carries_start buf) letters (answers pattern)
  constructor
  · intro right
    have same := congrArg List.length (right emptyPattern)
    rw [out] at same
    exact (length_written_empty List.not_mem_nil (answers emptyPattern).nonempty).2 same
  · intro steady pattern
    rw [out, written_of_steady List.not_mem_nil steady, List.nil_append]

/-! ### One input, two ways to read it -/

def letterA : Byte := 0x61#8
def letterB : Byte := 0x62#8

/-- "a", and "bb" cut in the middle by two reads. -/
theorem grep_writes_matching_iff_two : Steady [[letterA, newline, letterB], [letterB, newline]] ∧
    ∀ pattern, (grep pattern [[letterA, newline, letterB], [letterB, newline]]
      (.start fun _ => 0#8)).out =
        matching pattern [letterA, newline, letterB, letterB, newline] := by
  have steady : Steady [[letterA, newline, letterB], [letterB, newline]] :=
    List.pairwise_pair.mpr fun _ => by decide
  refine ⟨steady, (grep_writes_matching_iff (fun _ => 0#8) [_, _] (by decide) fun pattern => ?_).mpr
    steady⟩
  have carried := (@State.turn_spec pattern _ _ [letterA, newline, letterB]
    (carries_start fun _ => 0#8) (by decide) (by decide) (by decide)).1.count
  refine ⟨by decide, by decide, by decide, ?_, trivial⟩
  rw [carried]
  decide

/-- The expression "ab". -/
def patternAB : CString where
  bytes := [letterA, letterB]
  terminated := by decide

theorem patternAB_matches : (expression patternAB.bytes).Matches [letterA, letterB] := by
  refine matches_unanchored.mpr (occurs_cons.mpr (Or.inl ?_))
  refine starts_one.mpr ⟨letterA, [letterB], rfl, Or.inr rfl, ?_⟩
  refine starts_one.mpr ⟨letterB, [], rfl, Or.inr rfl, ?_⟩
  exact starts_nil.mpr fun _ => rfl

theorem patternAB_rejects : ¬ (expression patternAB.bytes).Matches [letterB] := by
  intro found
  rcases occurs_cons.mp (matches_unanchored.mp found) with here | later
  · obtain ⟨b, rest, same, accepted, -⟩ := starts_one.mp here
    cases same
    rcases accepted with impossible | impossible
    · exact absurd impossible (by decide)
    · exact absurd impossible (by decide)
  · obtain ⟨b, rest, impossible, -⟩ := starts_one.mp (occurs_nil.mp later)
    cases impossible

/-- The line "ab" is printed when one read brings it, and lost when two do. -/
theorem grep_loses_line :
    Answers patternAB [[letterA, letterB, newline]] (.start fun _ => 0#8) ∧
      Answers patternAB [[letterA], [letterB, newline]] (.start fun _ => 0#8) ∧
      (grep patternAB [[letterA, letterB, newline]] (.start fun _ => 0#8)).out =
        [letterA, letterB, newline] ∧
      (grep patternAB [[letterA], [letterB, newline]] (.start fun _ => 0#8)).out = [] := by
  have carries := carries_start fun _ => 0#8
  have whole : Answers patternAB [[letterA, letterB, newline]] (.start fun _ => 0#8) :=
    ⟨by decide, by decide, trivial⟩
  have dropped := (@State.turn_spec patternAB _ _ [letterA] carries
    (by decide) (by decide) (by decide)).1.count
  have pieces : Answers patternAB [[letterA], [letterB, newline]] (.start fun _ => 0#8) := by
    refine ⟨by decide, by decide, by decide, ?_, trivial⟩
    rw [dropped]
    decide
  refine ⟨whole, pieces, ?_, ?_⟩
  · have line := @matching_cons [letterA, letterB] [] patternAB (by decide)
    rw [if_pos patternAB_matches, matching_of_notMem List.not_mem_nil] at line
    rw [grep_out carries (by decide) whole, written, if_pos (by decide), written, List.append_nil]
    exact line
  · have line := @matching_cons [letterB] [] patternAB (by decide)
    rw [if_neg patternAB_rejects, matching_of_notMem List.not_mem_nil] at line
    rw [grep_out carries (by decide) pieces, written, if_neg (by decide), written,
      if_pos (by decide), written, List.append_nil]
    exact line

end Xv6Cow.Grep
