import Mathlib.Data.List.DropRight
import Xv6Cow.PathRefs

/- fs.c: path lookup once more, with the sleep locks of the inodes, and what namei and
nameiparent have to do with each other. -/
namespace Xv6Cow.Fs

open Prog (read update halt bind_of_ok bind_of_error read_bind halt_ok_iff)

/-! ## The elements of a path -/

/-- The names that skipelem yields one after the other. -/
def elements (path : List Byte) : List (List Byte) :=
  match _next : skipelem path with
  | none => []
  | some (elem, rest) => elem :: elements rest
termination_by path.length
decreasing_by exact skipelem_shorter _next

/-- The maximal nonempty parts of a path without a slash, cut to DIRSIZ bytes. -/
def components (path : List Byte) : List (List Byte) :=
  ((path.splitOn slash).filter fun part => part ≠ []).map fun part => part.take DIRSIZ

section Elements

variable {word rest path : List Byte}

theorem beq_slash_of_notMem (plain : slash ∉ word) : ∀ b ∈ word, (b == slash) = false := by
  intro b member
  refine beq_eq_false_iff_ne.mpr ?_
  rintro rfl
  exact plain member

theorem splitOn_slash (plain : slash ∉ word) :
    (word ++ slash :: rest).splitOn slash = word :: rest.splitOn slash :=
  List.splitOnP_append_cons_of_forall_mem (beq_slash_of_notMem plain) slash (beq_self_eq_true _)
  rest

theorem components_word (nonempty : word ≠ []) (plain : slash ∉ word) :
    components word = [word.take DIRSIZ] := by
  have single :
    word.splitOn slash = [word] := List.splitOnP_eq_singleton (beq_slash_of_notMem plain)
  unfold components
  rw [single, List.filter_cons, if_pos (decide_eq_true nonempty)]
  rfl

theorem components_cons (nonempty : word ≠ []) (plain : slash ∉ word) :
    components (word ++ slash :: rest) = word.take DIRSIZ :: components rest := by
  unfold components
  rw [splitOn_slash plain, List.filter_cons, if_pos (decide_eq_true nonempty), List.map_cons]

theorem components_slash : components (slash :: rest) = components rest := by
  have split :
    ([] ++ slash :: rest).splitOn slash = [] :: rest.splitOn slash := splitOn_slash List.not_mem_nil
  rw [List.nil_append] at split
  unfold components
  rw [split, List.filter_cons, if_neg (by decide)]

theorem components_dropWhile (path : List Byte) :
    components (path.dropWhile isSlash) = components path := by
  induction path with
  | nil => rfl
  | cons b rest ih =>
    by_cases leading : isSlash b = true
    · rw [List.dropWhile_cons_of_pos leading, ih, eq_of_beq leading, components_slash]
    · rw [List.dropWhile_cons_of_neg leading]

theorem components_skipelem :
    components path =
      match skipelem path with
      | none => []
      | some (elem, rest) => elem :: components rest := by
  unfold skipelem
  dsimp only
  rw [← components_dropWhile path]
  have front := List.head?_dropWhile_not isSlash path
  generalize path.dropWhile isSlash = path at front
  by_cases empty : path = []
  · rw [if_pos empty, empty]
    rfl
  · rw [if_neg empty]
    dsimp only
    have joined := List.takeWhile_append_dropWhile (p := inName) (l := path)
    have plain : slash ∉ path.takeWhile inName := fun member =>
      absurd (List.mem_takeWhile_imp member) (by decide)
    have nonempty : path.takeWhile inName ≠ [] := by
      cases path with
      | nil => exact absurd rfl empty
      | cons b rest =>
        have word : inName b = true := by
          unfold inName
          simpa using front
        rw [List.takeWhile_cons_of_pos word]
        exact List.cons_ne_nil _ _
    have after := List.head?_dropWhile_not inName path
    rw [components_dropWhile]
    conv_lhs => rw [← joined]
    cases tail : path.dropWhile inName with
    | nil =>
      rw [List.append_nil, components_word nonempty plain]
      rfl
    | cons b rest =>
      have here : b = slash := by
        rw [tail] at after
        exact eq_of_beq (by simpa [inName, isSlash] using after)
      rw [here, components_cons nonempty plain, components_slash]

/-- skipelem goes through the components of a path and comes to an end. -/
theorem elements_eq (path : List Byte) : elements path = components path := by
  induction length : path.length using Nat.strongRecOn generalizing path with
  | ind n ih =>
    rw [elements, components_skipelem]
    split
    · rename_i last
      rw [last]
    · rename_i elem rest next
      rw [next, ih _ (length ▸ skipelem_shorter next) rest rfl]

end Elements

/-! ## Locks -/

/-- The file system and the inodes whose sleep lock the process holds. -/
structure Holding where
  fs : State
  held : List Nat

/-- A panic, or a process that waits for a lock it holds itself. -/
inductive Trouble
  | panic (why : String)
  | deadlock (inum : Nat)

abbrev L : Type → Type := Prog Trouble Holding

namespace Holding

def onFs {α : Type} (prog : P α) : L α := Prog.inside fs (fun t s => { s with fs := t }) .panic prog

def acquiresleep (inum : Nat) : L Unit := do
  let s ← read
  if inum ∈ s.held then halt (.deadlock inum) else update fun s => { s with held := inum :: s.held }

def releasesleep (inum : Nat) : L Unit := update fun s => { s with held := s.held.erase inum }

variable (sb : Superblock)

def ilock (inum : Nat) : L Unit := do
  let s ← read
  if (s.fs.icache inum).ref < 1 then halt (.panic "ilock")
  else do
    acquiresleep inum
    onFs (Fs.ilock sb inum)

def iunlock (inum : Nat) : L Unit := do
  let s ← read
  if inum ∉ s.held ∨ (s.fs.icache inum).ref < 1 then halt (.panic "iunlock") else releasesleep inum

/-- The first half of iput, under the inode's lock. -/
def freeUnlinked (inum : Nat) : P Unit := do
  let s ← read
  if (s.icache inum).valid ∧ (s.icache inum).copy.nlink = 0 ∧
    (s.icache inum).ref = 1 then ifree sb inum
  else pure ()

/-- The second half. -/
def dropRef (inum : Nat) : P Unit := do
  let s ← read
  setInode inum { s.icache inum with ref := (s.icache inum).ref - 1 }

def iput (inum : Nat) : L Unit := do
  acquiresleep inum
  onFs (freeUnlinked sb inum)
  releasesleep inum
  onFs (dropRef inum)

def iunlockput (inum : Nat) : L Unit := do
  iunlock inum
  iput sb inum

/-- dirlookup takes no lock of its own. -/
def dirlookup (dp : Nat) (name : List Byte) : L (Option (Nat × Nat)) :=
  onFs (Fs.dirlookup sb dp name)

/-- The loop of namex, at inode `ip`. -/
def walk (parent : Bool) (ip : Nat) (path name : List Byte) : L (Option (Nat × List Byte)) :=
  match _next : skipelem path with
  | none =>
    if parent then do
      iput sb ip
      pure none
    else pure (some (ip, name))
  | some (elem, rest) => do
    ilock sb ip
    let s ← read
    if (s.fs.icache ip).copy.type ≠ T_DIR then do
      iunlockput sb ip
      pure none
    else if parent ∧ rest = [] then do
      iunlock ip
      pure (some (ip, elem))
    else do
      let found ← dirlookup sb ip elem
      match found with
      | none => do
        iunlockput sb ip
        pure none
      | some (ip', _) => do
        iunlockput sb ip
        walk parent ip' rest elem
termination_by path.length
decreasing_by exact skipelem_shorter _next

def namex (cwd : Nat) (path : List Byte) (parent : Bool) : L (Option (Nat × List Byte)) :=
  if charAt path = slash then do
    onFs (iget sb 1)
    walk sb parent 1 path []
  else do
    onFs (idup cwd)
    walk sb parent cwd path []

def namei (cwd : Nat) (path : List Byte) : L (Option Nat) := do
  let found ← namex sb cwd path false
  pure (found.map Prod.fst)

/-- The parent and the last element. -/
def nameiparent (cwd : Nat) (path : List Byte) : L (Option (Nat × List Byte)) :=
  namex sb cwd path true

/-- What a caller of nameiparent does to look the last element up. -/
def lookupIn (dp : Nat) (name : List Byte) : L (Option Nat) := do
  ilock sb dp
  let found ← dirlookup sb dp name
  iunlockput sb dp
  pure (found.map Prod.fst)

/-! ## Under the locks is the file system -/

variable {sb} {u v : State} {held : List Nat} {i : Nat}

theorem onFs_of_ok {α : Type} {prog : P α} {value : α} (success : prog u = .ok (value, v)) :
    onFs prog ⟨u, held⟩ = .ok (value, ⟨v, held⟩) := Prog.inside_of_ok success

theorem onFs_of_error {α : Type} {prog : P α} {why : String} (failed : prog u = .error why) :
    onFs prog ⟨u, held⟩ = .error (.panic why) := Prog.inside_of_error failed

/-- What becomes of a result of the file system for a process with the locks `held`. -/
def outcome {α : Type} (held : List Nat) : Except String (α × State) → Except Trouble (α × Holding)
  | .error why => .error (.panic why)
  | .ok (value, u) => .ok (value, ⟨u, held⟩)

theorem onFs_apply {α : Type} (prog : P α) (u : State) (held : List Nat) :
    onFs prog ⟨u, held⟩ = outcome held (prog u) := by
  cases ran : prog u with
  | error why => exact onFs_of_error ran
  | ok pair => exact onFs_of_ok ran

theorem acquiresleep_free (free : i ∉ held) :
    acquiresleep i ⟨u, held⟩ = .ok ((), ⟨u, i :: held⟩) := by
  unfold acquiresleep
  rw [read_bind, if_neg free]
  rfl

theorem acquiresleep_held (mine : i ∈ held) : acquiresleep i ⟨u, held⟩ = .error (.deadlock i) := by
  unfold acquiresleep
  rw [read_bind, if_pos mine]
  rfl

theorem releasesleep_last : releasesleep i ⟨u, i :: held⟩ = .ok ((), ⟨u, held⟩) := by
  unfold releasesleep
  rw [Prog.update_apply, List.erase_cons_head]

theorem ilock_free (free : i ∉ held) :
    ilock sb i ⟨u, held⟩ = outcome (i :: held) (Fs.ilock sb i u) := by
  unfold ilock
  rw [read_bind]
  by_cases unused : (u.icache i).ref < 1
  · have fails : Fs.ilock sb i u = .error "ilock" := by
      unfold Fs.ilock
      rw [read_bind, if_pos unused]
      rfl
    rw [if_pos unused, fails]
    rfl
  · rw [if_neg unused, bind_of_ok (acquiresleep_free free), onFs_apply]

theorem ilock_ok {done : Unit} {t : Holding} (success : ilock sb i ⟨u, held⟩ = .ok (done, t)) :
    i ∉ held ∧ t.held = i :: held ∧ Fs.ilock sb i u = .ok ((), t.fs) := by
  by_cases mine : i ∈ held
  · unfold ilock at success
    rw [read_bind] at success
    obtain ⟨-, success⟩ := Prog.refuse_ok_iff.mp success
    rw [bind_of_error (acquiresleep_held mine)] at success
    cases success
  · rw [ilock_free mine] at success
    cases ran : Fs.ilock sb i u with
    | error why =>
      rw [ran] at success
      cases success
    | ok pair =>
      rw [ran] at success
      cases success
      exact ⟨mine, rfl, rfl⟩

theorem ready_of_ilock {done : Unit} (success : Fs.ilock sb i u = .ok (done, v)) :
    1 ≤ (v.icache i).ref ∧ (v.icache i).valid = true := by
  unfold Fs.ilock at success
  rw [read_bind] at success
  obtain ⟨used, success⟩ := Prog.refuse_ok_iff.mp success
  rw [Prog.ite_apply] at success
  split at success
  · rename_i valid
    obtain ⟨-, rfl⟩ := Prog.pure_ok_iff.mp success
    exact ⟨by omega, valid⟩
  obtain ⟨-, success⟩ := Prog.refuse_ok_iff.mp success
  cases success
  dsimp only
  rw [Function.update_self]
  exact ⟨Nat.le_of_not_lt used, rfl⟩

theorem ilock_of_ready (used : 1 ≤ (u.icache i).ref) (valid : (u.icache i).valid = true) :
    Fs.ilock sb i u = .ok ((), u) := by
  unfold Fs.ilock
  rw [read_bind, if_neg (by omega), if_pos valid]
  rfl

theorem iunlock_locked (used : 1 ≤ (u.icache i).ref) :
    iunlock i ⟨u, i :: held⟩ = .ok ((), ⟨u, held⟩) := by
  unfold iunlock
  rw [read_bind, if_neg]
  · exact releasesleep_last
  · rintro (absent | unused)
    · exact absent List.mem_cons_self
    · dsimp only at unused
      omega

theorem iput_halves : Fs.iput sb i u = (freeUnlinked sb i >>= fun _ => dropRef i) u := by
  unfold Fs.iput freeUnlinked
  rw [read_bind, Prog.bind_assoc_apply, read_bind]
  dsimp only
  split <;> rfl

theorem iput_free (free : i ∉ held) :
    iput sb i ⟨u, held⟩ = outcome held (Fs.iput sb i u) := by
  unfold iput
  rw [bind_of_ok (acquiresleep_free free), iput_halves]
  cases ran : freeUnlinked sb i u with
  | error why =>
    rw [bind_of_error (onFs_of_error ran), bind_of_error ran]
    rfl
  | ok pair =>
    obtain ⟨done, v⟩ := pair
    rw [bind_of_ok (onFs_of_ok ran), bind_of_ok releasesleep_last,
      bind_of_ok ran, onFs_apply]

theorem iput_held (mine : i ∈ held) : iput sb i ⟨u, held⟩ = .error (.deadlock i) := by
  unfold iput
  exact bind_of_error (acquiresleep_held mine)

theorem iunlockput_locked (free : i ∉ held) (used : 1 ≤ (u.icache i).ref) :
    iunlockput sb i ⟨u, i :: held⟩ = outcome held (Fs.iput sb i u) := by
  unfold iunlockput
  rw [bind_of_ok (iunlock_locked used)]
  exact iput_free free

/-- Either the process waits for one of the locks it came with, or it does to the file
system what the program without locks does and has the locks `after` then. -/
def Follows {α : Type} (own : List Nat) (locked : L α) (plain : P α) (u : State)
    (before after : List Nat) : Prop :=
  (own ≠ [] ∧ ∃ i, locked ⟨u, before⟩ = .error (.deadlock i)) ∨
    locked ⟨u, before⟩ = outcome after (plain u)

section Follows

variable {α β : Type} {own before between after : List Nat}

theorem Follows.pure (value : α) : Follows own (pure value) (pure value) u before before :=
  Or.inr rfl

theorem Follows.bind {first : L α} {next : α → L β} {first' : P α} {next' : α → P β}
    (left : Follows own first first' u before between)
    (right : ∀ value v, first' u = .ok (value, v) → first ⟨u, before⟩ = .ok (value, ⟨v, between⟩) →
      Follows own (next value) (next' value) v between after) :
    Follows own (first >>= next) (first' >>= next') u before after := by
  rcases left with ⟨held, i, waits⟩ | ran
  · exact Or.inl ⟨held, i, bind_of_error waits⟩
  · cases plain : first' u with
    | error why =>
      rw [plain] at ran
      refine Or.inr ?_
      rw [bind_of_error ran, bind_of_error plain]
      rfl
    | ok pair =>
      rw [plain] at ran
      have later := right pair.1 pair.2 plain ran
      unfold Follows at later ⊢
      rw [bind_of_ok ran, bind_of_ok plain]
      exact later

theorem Follows.read {next : Holding → L β} {next' : State → P β}
    (right : Follows own (next ⟨u, before⟩) (next' u) u before after) :
    Follows own (read >>= next) (read >>= next') u before after := right

theorem follows_ilock (ip : Nat) :
    Follows own (ilock sb ip) (Fs.ilock sb ip) u own (ip :: own) := by
  by_cases mine : ip ∈ own
  · by_cases unused : (u.icache ip).ref < 1
    · refine Or.inr ?_
      unfold ilock Fs.ilock
      rw [read_bind, read_bind, if_pos unused, if_pos unused]
      rfl
    · refine Or.inl ⟨List.ne_nil_of_mem mine, ip, ?_⟩
      unfold ilock
      rw [read_bind, if_neg unused, bind_of_error (acquiresleep_held mine)]
  · exact Or.inr (ilock_free mine)

theorem follows_onFs {prog : P α} : Follows own (onFs prog) prog u before before :=
  Or.inr (onFs_apply prog u before)

theorem follows_iput (ip : Nat) : Follows own (iput sb ip) (Fs.iput sb ip) u own own := by
  by_cases mine : ip ∈ own
  · exact Or.inl ⟨List.ne_nil_of_mem mine, ip, iput_held mine⟩
  · exact Or.inr (iput_free mine)

theorem follows_iunlockput {ip : Nat} (free : ip ∉ own) (used : 1 ≤ (u.icache ip).ref) :
    Follows own (iunlockput sb ip) (Fs.iput sb ip) u (ip :: own) own :=
  Or.inr (iunlockput_locked free used)

end Follows

variable {path name elem rest : List Byte} {parent : Bool} {ip : Nat}

theorem walk_last (last : skipelem path = none) :
    walk sb parent ip path name =
      if parent then do
        iput sb ip
        pure none
      else pure (some (ip, name)) := by
  rw [walk.eq_def]
  split
  · rfl
  · rename_i elem rest next
    rw [last] at next
    cases next

theorem walk_next (next : skipelem path = some (elem, rest)) :
    walk sb parent ip path name = (do
      ilock sb ip
      let s ← read
      if (s.fs.icache ip).copy.type ≠ T_DIR then do
        iunlockput sb ip
        pure none
      else if parent ∧ rest = [] then do
        iunlock ip
        pure (some (ip, elem))
      else do
        let found ← dirlookup sb ip elem
        match found with
        | none => do
          iunlockput sb ip
          pure none
        | some (ip', _) => do
          iunlockput sb ip
          walk sb parent ip' rest elem : L (Option (Nat × List Byte))) := by
  rw [walk.eq_def]
  split
  · rename_i last
    rw [last] at next
    cases next
  · rename_i elem' rest' here
    rw [next] at here
    cases here
    rfl

theorem walk_follows (parent : Bool) (ip : Nat) (path name : List Byte) (u : State)
    (own : List Nat) :
    Follows own (walk sb parent ip path name) (Fs.walk sb parent ip path name) u own own := by
  induction length : path.length using Nat.strongRecOn generalizing ip path name u with
  | ind n ih =>
    rw [Fs.walk.eq_def]
    split
    · rename_i last
      rw [walk_last last]
      cases parent with
      | true => exact (follows_iput ip).bind fun _ _ _ _ => Follows.pure none
      | false => exact Follows.pure _
    · rename_i elem rest next
      rw [walk_next next]
      refine (follows_ilock ip).bind fun _ v ran locked => Follows.read ?_
      have free := (ilock_ok locked).1
      have used := (ready_of_ilock ran).1
      dsimp only
      split
      · exact (follows_iunlockput free used).bind fun _ _ _ _ => Follows.pure none
      split
      · refine Or.inr ?_
        rw [bind_of_ok (iunlock_locked used)]
        rfl
      refine follows_onFs.bind fun found w looked _ => ?_
      have still : 1 ≤ (w.icache ip).ref := by
        have took := dirlookup_took looked ip
        omega
      cases found with
      | none => exact (follows_iunlockput free still).bind fun _ _ _ _ => Follows.pure none
      | some pair =>
        refine (follows_iunlockput free still).bind fun _ _ _ _ => ?_
        exact ih _ (length ▸ skipelem_shorter next) pair.1 rest elem _ rfl

theorem namex_follows (cwd : Nat) (path : List Byte) (parent : Bool) (u : State) (own : List Nat) :
    Follows own (namex sb cwd path parent) (Fs.namex sb cwd path parent) u own own := by
  unfold namex Fs.namex
  split
  · exact follows_onFs.bind fun _ _ _ _ => walk_follows parent 1 path [] _ own
  · exact follows_onFs.bind fun _ _ _ _ => walk_follows parent cwd path [] _ own

/-! ## The parent and the last element -/

theorem skipelem_rest (next : skipelem path = some (elem, rest)) (more : rest ≠ []) :
    skipelem rest ≠ none := by
  unfold skipelem at next
  dsimp only at next
  split at next
  · cases next
  · cases next
    unfold skipelem
    dsimp only
    rw [List.dropWhile_idempotent isSlash, if_neg more]
    exact Option.some_ne_none _

/-- The last element, looked up where nameiparent ends. -/
def finish (sb : Superblock) : Option (Nat × List Byte) → L (Option Nat)
  | none => pure none
  | some (dp, name) => lookupIn sb dp name

theorem lookupIn_ready (free : ip ∉ held) (used : 1 ≤ (u.icache ip).ref)
    (valid : (u.icache ip).valid = true) :
    lookupIn sb ip name ⟨u, held⟩ = (do
      let found ← dirlookup sb ip name
      iunlockput sb ip
      pure (found.map Prod.fst) : L (Option Nat)) ⟨u, ip :: held⟩ := by
  have locked : ilock sb ip ⟨u, held⟩ = .ok ((), ⟨u, ip :: held⟩) := by
    rw [ilock_free free, ilock_of_ready used valid]
    rfl
  unfold lookupIn
  exact bind_of_ok locked

/-- The two walks go the same way up to the last element. -/
theorem walk_parent (more : skipelem path ≠ none) :
    (walk sb false ip path name >>= fun found => pure (found.map Prod.fst)) ⟨u, held⟩ =
      (walk sb true ip path name >>= finish sb) ⟨u, held⟩ := by
  induction length : path.length using Nat.strongRecOn generalizing ip path name u held with
  | ind n ih =>
    obtain ⟨⟨elem, rest⟩, next⟩ := Option.ne_none_iff_exists'.mp more
    rw [walk_next next, walk_next next, Prog.bind_assoc_apply, Prog.bind_assoc_apply]
    refine Prog.bind_congr fun _ t locked => ?_
    obtain ⟨v, locks⟩ := t
    obtain ⟨free, same, ran⟩ := ilock_ok locked
    obtain ⟨used, valid⟩ := ready_of_ilock ran
    dsimp only at same
    subst same
    rw [Prog.bind_assoc_apply, Prog.bind_assoc_apply, read_bind, read_bind]
    by_cases directory : (v.icache ip).copy.type ≠ T_DIR
    · rw [if_pos directory, if_pos directory, Prog.bind_assoc_apply, Prog.bind_assoc_apply]
      rfl
    rw [if_neg directory, if_neg directory, if_neg (fun both => Bool.false_ne_true both.1)]
    by_cases last : rest = []
    · rw [if_pos ⟨rfl, last⟩, Prog.bind_assoc_apply, Prog.bind_assoc_apply,
        bind_of_ok (iunlock_locked used)]
      change _ = lookupIn sb ip elem ⟨v, held⟩
      rw [lookupIn_ready free used valid]
      refine Prog.bind_congr fun found w _ => ?_
      cases found with
      | none => exact Prog.bind_assoc_apply _ _ _ _
      | some pair =>
        refine (Prog.bind_assoc_apply _ _ _ _).trans (Prog.bind_congr fun _ x _ => ?_)
        rw [last, walk_last rfl]
        rfl
    · rw [if_neg (fun both => last both.2), Prog.bind_assoc_apply, Prog.bind_assoc_apply]
      refine Prog.bind_congr fun found w _ => ?_
      cases found with
      | none =>
        refine (Prog.bind_assoc_apply _ _ _ _).trans ?_
        refine Eq.trans ?_ (Prog.bind_assoc_apply _ _ _ _).symm
        rfl
      | some pair =>
        refine (Prog.bind_assoc_apply _ _ _ _).trans ?_
        refine Eq.trans ?_ (Prog.bind_assoc_apply _ _ _ _).symm
        refine Prog.bind_congr fun _ x _ => ?_
        obtain ⟨x, locks⟩ := x
        exact ih _ (length ▸ skipelem_shorter next) (skipelem_rest next last) rfl

theorem components_eq_nil_iff : components path = [] ↔ skipelem path = none := by
  rw [components_skipelem]
  split
  · rename_i last
    exact ⟨fun _ => last, fun _ => rfl⟩
  · rename_i elem rest next
    rw [next]
    exact ⟨fun impossible => absurd impossible (List.cons_ne_nil _ _),
      fun impossible => absurd impossible (Option.some_ne_none _)⟩

theorem namei_eq_finish (more : components path ≠ []) (cwd : Nat) (s : Holding) :
    namei sb cwd path s = (nameiparent sb cwd path >>= finish sb) s := by
  have steps : skipelem path ≠ none := fun last => more (components_eq_nil_iff.mpr last)
  unfold namei nameiparent namex
  split
  · rw [Prog.bind_assoc_apply, Prog.bind_assoc_apply]
    exact Prog.bind_congr fun _ t _ => walk_parent steps
  · rw [Prog.bind_assoc_apply, Prog.bind_assoc_apply]
    exact Prog.bind_congr fun _ t _ => walk_parent steps

/-- A reference that has just been taken is given back without further effect. -/
theorem iput_extra (extra : (u.icache i).ref ≠ 1 ∨ (u.icache i).valid = false) :
    ∃ v, Fs.iput sb i u = .ok ((), v) := by
  unfold Fs.iput
  rw [read_bind]
  dsimp only
  rw [if_neg]
  · exact ⟨_, rfl⟩
  · rintro ⟨valid, -, only⟩
    rcases extra with shared | stale
    · exact shared only
    · rw [stale] at valid
      cases valid

theorem iget_error {why : String} (failed : iget sb i u = .error why) :
    NINODE ≤ cached sb u ∧ why = "iget: no inodes" := by
  unfold iget at failed
  rw [read_bind, Prog.ite_apply] at failed
  split at failed
  · cases failed
  · rw [Prog.ite_apply] at failed
    split at failed
    · rename_i full
      cases failed
      exact ⟨full, rfl⟩
    · cases failed

theorem iget_extra {done : Unit} (got : iget sb i u = .ok (done, v)) :
    (v.icache i).ref ≠ 1 ∨ (v.icache i).valid = false := by
  unfold iget at got
  rw [read_bind, Prog.ite_apply] at got
  split at got
  · rename_i used
    left
    rw [setInode_ref got, if_pos rfl]
    dsimp only
    omega
  · rw [Prog.ite_apply] at got
    split at got
    · cases got
    · right
      cases got
      dsimp only
      rw [Function.update_self]

theorem nameiparent_bare (bare : components path = []) {cwd : Nat} (used : 1 ≤ (u.icache cwd).ref) :
    (∃ t, nameiparent sb cwd path ⟨u, []⟩ = .ok (none, t)) ∨ NINODE ≤ cached sb u ∧
      nameiparent sb cwd path ⟨u, []⟩ = .error (.panic "iget: no inodes") := by
  have last := components_eq_nil_iff.mp bare
  have back : ∀ {ip : Nat} {v : State}, ((v.icache ip).ref ≠ 1 ∨ (v.icache ip).valid = false) →
      ∃ t, walk sb true ip path [] ⟨v, []⟩ = .ok (none, t) := by
    intro ip v extra
    obtain ⟨w, dropped⟩ : ∃ w, Fs.iput sb ip v = .ok ((), w) := iput_extra extra
    rw [walk_last last, if_pos rfl]
    refine ⟨⟨w, []⟩, Prog.bind_ok_iff.mpr ⟨(), ⟨w, []⟩, ?_, rfl⟩⟩
    rw [iput_free List.not_mem_nil, dropped]
    rfl
  unfold nameiparent namex
  split
  · cases got : iget sb 1 u with
    | error why =>
      obtain ⟨full, rfl⟩ := iget_error got
      exact Or.inr ⟨full, bind_of_error (onFs_of_error got)⟩
    | ok pair =>
      obtain ⟨done, v⟩ := pair
      rw [bind_of_ok (onFs_of_ok got)]
      exact Or.inl (back (iget_extra got))
  · obtain ⟨v, got⟩ : ∃ v, idup cwd u = .ok ((), v) := ⟨_, rfl⟩
    have took := idup_took got cwd
    rw [if_pos rfl] at took
    rw [bind_of_ok (onFs_of_ok got)]
    exact Or.inl (back (Or.inl (by omega)))

/-- On every exit the locks are as before, and the references too but for the inode that
is returned. -/
theorem namex_balanced {cwd : Nat} {s t : Holding} {found : Option (Nat × List Byte)}
    (success : namex sb cwd path parent s = .ok (found, t)) :
    t.held = s.held ∧ Took (found.map Prod.fst) s.fs t.fs := by
  rcases namex_follows cwd path parent s.fs s.held with ⟨-, i, waits⟩ | ran
  · rw [success] at waits
    cases waits
  · cases plain : Fs.namex sb cwd path parent s.fs with
    | error why =>
      rw [success, plain] at ran
      cases ran
    | ok pair =>
      rw [success, plain] at ran
      cases ran
      exact ⟨rfl, namex_took plain⟩

theorem namex_unlocked (cwd : Nat) (path : List Byte) (parent : Bool) (u : State) :
    namex sb cwd path parent ⟨u, []⟩ = outcome [] (Fs.namex sb cwd path parent u) := by
  rcases namex_follows cwd path parent u [] with ⟨held, -⟩ | ran
  · exact absurd rfl held
  · exact ran

/-- For every path: skipelem goes through its components; namei of a path with a component
is the lookup of the last one in what nameiparent returns, in every state and with the
same panics; without a component nameiparent returns 0, unless the inode cache is full;
and every lookup leaves the locks as they were and takes one reference, to the inode it
returns. A process that holds no inode lock never waits for itself. -/
theorem namei_nameiparent (sb : Superblock) (cwd : Nat) (path : List Byte) :
    elements path = components path ∧
      (components path ≠ [] →
        ∀ s, namei sb cwd path s = (nameiparent sb cwd path >>= finish sb) s) ∧
      (components path = [] → ∀ u : State, 1 ≤ (u.icache cwd).ref →
        (∃ t, nameiparent sb cwd path ⟨u, []⟩ = .ok (none, t)) ∨ NINODE ≤ cached sb u ∧
          nameiparent sb cwd path ⟨u, []⟩ = .error (.panic "iget: no inodes")) ∧
      (∀ parent s found t, namex sb cwd path parent s = .ok (found, t) →
        t.held = s.held ∧ Took (found.map Prod.fst) s.fs t.fs) ∧
      ∀ parent u, namex sb cwd path parent ⟨u, []⟩ =
      outcome [] (Fs.namex sb cwd path parent u) := by
  refine ⟨elements_eq path, fun more s => namei_eq_finish more cwd s, ?_, ?_, ?_⟩
  · intro bare u used
    exact nameiparent_bare bare used
  · intro parent s found t success
    exact namex_balanced success
  · intro parent u
    exact namex_unlocked cwd path parent u

end Holding

end Xv6Cow.Fs
