import Mathlib.Data.List.TakeWhile
import Mathlib.Data.List.Perm.Subperm
import Xv6Cow.FileReads

/- fs.c: directories and path names. A C string is the list of the bytes before its NUL. -/
namespace Xv6Cow.Fs

open Prog (read update halt)

/-- A byte of a C string; past the end there is the NUL. -/
def charAt (s : List Byte) : Byte := s.headD 0

/-- string.c. -/
def strncmp : Nat → List Byte → List Byte → Int
  | 0, _, _ => 0
  | n + 1, p, q =>
    if charAt p ≠ 0 ∧ charAt p = charAt q then strncmp n p.tail q.tail
    else (charAt p).toNat - (charAt q).toNat

/-- string.c: `n` bytes, padded with zeros after the first. -/
def strncpy : Nat → List Byte → List Byte
  | 0, _ => []
  | n + 1, t => charAt t :: (if charAt t = 0 then List.replicate n 0 else strncpy n t.tail)

def namecmp (s t : List Byte) : Int := strncmp DIRSIZ s t

/-- struct dirent; de.inum is a ushort. -/
def dirent (inum : Word) (name : List Byte) : List Byte :=
  inum.setWidth 8 :: (inum >>> 8).setWidth 8 :: strncpy DIRSIZ name

variable (sb : Superblock)

/-- de.inum. -/
def direntInum (de : List Byte) : Nat := (de.getD 0 0).toNat + 256 * (de.getD 1 0).toNat

/-- The loop of dirlookup; it returns the inode, for which it has called iget, and the
offset. -/
def lookupFrom (dp : Nat) (name : List Byte) (size off : Nat) : P (Option (Nat × Nat)) :=
  if off < size then do
    let de ← readi sb dp off 16
    match de with
    | none => halt "dirlookup read"
    | some de =>
      if de.length ≠ 16 then halt "dirlookup read"
      else if direntInum de = 0 then lookupFrom dp name size (off + 16)
      else if namecmp name (de.drop 2) = 0 then do
        iget sb (direntInum de)
        pure (some (direntInum de, off))
      else lookupFrom dp name size (off + 16)
  else pure none
termination_by size - off

def dirlookup (dp : Nat) (name : List Byte) : P (Option (Nat × Nat)) := do
  let s ← read
  if (s.icache dp).copy.type ≠ T_DIR then halt "dirlookup not DIR"
  else lookupFrom sb dp name (s.icache dp).copy.size.toNat 0

def isSlash (b : Byte) : Bool := b == slash

def inName (b : Byte) : Bool := !isSlash b

/-- The next path element, and the path after it. -/
def skipelem (path : List Byte) : Option (List Byte × List Byte) :=
  let path := path.dropWhile isSlash
  if path = [] then none
  else some ((path.takeWhile inName).take DIRSIZ, (path.dropWhile inName).dropWhile isSlash)

theorem length_dropWhile_le {α : Type} (p : α → Bool) (l : List α) :
    (l.dropWhile p).length ≤ l.length :=
  (List.dropWhile_suffix p).length_le

theorem skipelem_shorter {path name rest : List Byte} (next : skipelem path = some (name, rest)) :
    rest.length < path.length := by
  unfold skipelem at next
  dsimp only at next
  have first := length_dropWhile_le isSlash path
  have head := List.head?_dropWhile_not isSlash path
  cases left : path.dropWhile isSlash with
  | nil =>
    rw [left, if_pos rfl] at next
    cases next
  | cons b tail =>
    rw [left] at next first head
    rw [if_neg (List.cons_ne_nil b tail)] at next
    have word : inName b = true := by
      unfold inName
      simpa using head
    cases next
    rw [List.dropWhile_cons_of_pos word]
    have second := length_dropWhile_le inName tail
    have third := length_dropWhile_le isSlash (tail.dropWhile inName)
    rw [List.length_cons] at first
    omega

/-- The loop of namex, at inode `ip`; `name` is the last path element taken. -/
def walk (nameiparent : Bool) (ip : Nat) (path name : List Byte) : P (Option (Nat × List Byte)) :=
  match _next : skipelem path with
  | none =>
    if nameiparent then do
      iput sb ip
      pure none
    else pure (some (ip, name))
  | some (elem, rest) => do
    ilock sb ip
    let s ← read
    if (s.icache ip).copy.type ≠ T_DIR then do
      iput sb ip
      pure none
    else if nameiparent ∧ rest = [] then pure (some (ip, elem))
    else do
      let found ← dirlookup sb ip elem
      iput sb ip
      match found with
      | none => pure none
      | some (ip', _) => walk nameiparent ip' rest elem
termination_by path.length
decreasing_by exact skipelem_shorter _next

/-- A path is absolute or starts at the working directory. -/
def namex (cwd : Nat) (path : List Byte) (nameiparent : Bool) : P (Option (Nat × List Byte)) :=
  if charAt path = slash then do
    iget sb 1
    walk sb nameiparent 1 path []
  else do
    idup cwd
    walk sb nameiparent cwd path []

def namei (cwd : Nat) (path : List Byte) : P (Option Nat) := do
  let found ← namex sb cwd path false
  pure (found.map Prod.fst)

/-! ## Names -/

def nonzero (b : Byte) : Bool := b != 0

/-- What strncmp sees of a string. -/
def cut (n : Nat) (s : List Byte) : List Byte := (s.take n).takeWhile nonzero

theorem cut_succ (n : Nat) (s : List Byte) :
    cut (n + 1) s = if charAt s = 0 then [] else charAt s :: cut n s.tail := by
  cases s with
  | nil => rfl
  | cons b rest =>
    have first : charAt (b :: rest) = b := rfl
    unfold cut
    rw [first, List.take_succ_cons, List.takeWhile_cons, List.tail_cons]
    by_cases zero : b = 0
    · rw [if_pos zero, zero]
      rfl
    · have kept : nonzero b = true := bne_iff_ne.mpr zero
      rw [if_neg zero, if_pos kept]

theorem chars_sub_zero_iff (a b : Byte) : ((a.toNat : Int) - b.toNat = 0) ↔ a = b := by
  rw [← BitVec.toNat_inj]
  omega

theorem strncmp_zero_iff (n : Nat) (s t : List Byte) : strncmp n s t = 0 ↔ cut n s = cut n t := by
  induction n generalizing s t with
  | zero => simp [strncmp, cut]
  | succ n ih =>
    rw [strncmp, cut_succ, cut_succ]
    by_cases same : charAt s = charAt t
    · rw [same]
      by_cases zero : charAt t = 0
      · rw [if_neg (fun both => both.1 zero), if_pos zero, if_pos zero, chars_sub_zero_iff]
        exact ⟨fun _ => rfl, fun _ => rfl⟩
      · rw [if_pos ⟨zero, rfl⟩, ih, if_neg zero, if_neg zero]
        exact ⟨fun tails => by rw [tails], fun both => (List.cons.inj both).2⟩
    · rw [if_neg (fun both => same both.2), chars_sub_zero_iff]
      refine ⟨fun equal => absurd equal same, fun equal => ?_⟩
      by_cases zero : charAt s = 0
      · have other : charAt t ≠ 0 := fun zero' => same (zero.trans zero'.symm)
        rw [if_pos zero, if_neg other] at equal
        cases equal
      · rw [if_neg zero] at equal
        split at equal
        · cases equal
        · exact (List.cons.inj equal).1

theorem cut_padded (name : List Byte) (plain : 0 ∉ name) (n : Nat) :
    cut n ((List.range n).map fun k => name.getD k 0) = name.take n := by
  induction n generalizing name with
  | zero => rfl
  | succ n ih =>
    rw [cut_succ, List.range_succ_eq_map]
    cases name with
    | nil =>
      rw [if_pos (by rfl)]
      rfl
    | cons b rest =>
      have nonzero : b ≠ 0 := fun zero => plain (zero ▸ List.mem_cons_self)
      have later := ih rest (fun member => plain (List.mem_cons_of_mem b member))
      have head :
        charAt (List.map (fun k => (b :: rest).getD k 0) (0 :: List.map Nat.succ (List.range n)))
          = b := rfl
      rw [head, if_neg nonzero, List.map_cons, List.tail_cons, List.map_map,
        List.take_succ_cons, ← later]
      rfl

theorem cut_plain (name : List Byte) (plain : 0 ∉ name) (n : Nat) : cut n name = name.take n := by
  unfold cut
  rw [List.takeWhile_eq_self_iff]
  intro b member
  refine bne_iff_ne.mpr ?_
  rintro rfl
  exact plain (List.mem_of_mem_take member)

theorem skipelem_absolute {name : List Byte} (some : name ≠ []) (plain : slash ∉ name) :
    skipelem (slash :: name) = .some (name.take DIRSIZ, []) := by
  have notSlash : ∀ b ∈ name, isSlash b = false := by
    intro b member
    refine beq_eq_false_iff_ne.mpr ?_
    rintro rfl
    exact plain member
  have word : ∀ b ∈ name, inName b = true := by
    intro b member
    unfold inName
    rw [notSlash b member]
    rfl
  have keep : (slash :: name).dropWhile isSlash = name := by
    cases name with
    | nil => exact absurd rfl some
    | cons b rest =>
      have apart : ¬isSlash b = true := by
        rw [notSlash b List.mem_cons_self]
        exact Bool.false_ne_true
      rw [List.dropWhile_cons_of_pos rfl, List.dropWhile_cons_of_neg apart]
  unfold skipelem
  dsimp only
  rw [keep, if_neg some, List.takeWhile_eq_self_iff.mpr word, List.dropWhile_eq_nil_iff.mpr word]
  rfl

/-! ## Directories -/

variable {sb} {s : State} {dp size off : Nat} {name de : List Byte}

theorem lookupFrom_pass (inside : off < size) (entry : readi sb dp off 16 s = .ok (some de, s))
    (length : de.length = 16) (other : namecmp name (de.drop 2) ≠ 0) :
    lookupFrom sb dp name size off s = lookupFrom sb dp name size (off + 16) s := by
  rw [lookupFrom, if_pos inside, Prog.bind_of_ok entry]
  dsimp only
  rw [if_neg (not_not_intro length), if_neg other]
  split <;> rfl

theorem lookupFrom_hit (inside : off < size) (entry : readi sb dp off 16 s = .ok (some de, s))
    (length : de.length = 16) (used : direntInum de ≠ 0) (same : namecmp name (de.drop 2) = 0) :
    lookupFrom sb dp name size off s = (do
      iget sb (direntInum de)
      pure (some (direntInum de, off)) : P (Option (Nat × Nat))) s := by
  rw [lookupFrom, if_pos inside, Prog.bind_of_ok entry]
  dsimp only
  rw [if_neg (not_not_intro length), if_neg used, if_pos same]

/-- The entries `des` stand at the start of the directory. -/
def Lists (sb : Superblock) (dp size : Nat) (des : List (List Byte)) (s : State) : Prop :=
  ∀ j de, des[j]? = some de → 16 * j < size ∧ readi sb dp (16 * j) 16 s = .ok (some de, s) ∧
  de.length = 16

theorem lookupFrom_lists {des : List (List Byte)} (lists : Lists sb dp size des s) {t : Nat}
    (here : des[t]? = some de) (used : direntInum de ≠ 0) (same : namecmp name (de.drop 2) = 0)
    (before : ∀ j < t, ∀ de, des[j]? = some de → namecmp name (de.drop 2) ≠ 0) :
    lookupFrom sb dp name size 0 s = (do
      iget sb (direntInum de)
      pure (some (direntInum de, 16 * t)) : P (Option (Nat × Nat))) s := by
  have within : t < des.length := by
    by_contra past
    rw [List.getElem?_eq_none (by omega)] at here
    cases here
  -- The entries from `t` back to the first.
  have back : ∀ n ≤ t, lookupFrom sb dp name size (16 * (t - n)) s = (do
      iget sb (direntInum de)
      pure (some (direntInum de, 16 * t)) : P (Option (Nat × Nat))) s := by
    intro n
    induction n with
    | zero =>
      intro _
      obtain ⟨inside, entry, length⟩ := lists t de here
      exact lookupFrom_hit inside entry length used same
    | succ n ih =>
      intro bound
      have there : des[t - (n + 1)]? = some (des.get ⟨t - (n + 1), by omega⟩) :=
        List.getElem?_eq_getElem (by omega)
      obtain ⟨inside, entry, length⟩ := lists _ _ there
      rw [lookupFrom_pass inside entry length (before _ (by omega) _ there), ← ih (by omega)]
      congr 2
      omega
  have start := back t (Nat.le_refl t)
  rw [Nat.sub_self] at start
  exact start

/-! ## The inode cache -/

theorem cached_le_one {r : Nat} (only : ∀ j, j ≠ r → (s.icache j).ref = 0) : cached sb s ≤ 1 := by
  unfold cached
  have inside : (List.range sb.ninodes).filter (fun i => 0 < (s.icache i).ref) ⊆ [r] := by
    intro j member
    rw [List.mem_filter] at member
    by_contra other
    rw [only j (fun same => other (List.mem_singleton.mpr same))] at member
    simp at member
  exact (List.subperm_of_subset (List.nodup_range.filter _) inside).length_le

/-- Only entry `i` of the cache differs. -/
def OnlyEntry (i : Nat) (s s' : State) : Prop :=
  s'.disk = s.disk ∧ ∀ j, j ≠ i → s'.icache j = s.icache j

theorem OnlyEntry.set (i : Nat) (ip : Inode) (s : State) :
    OnlyEntry i s { s with icache := Function.update s.icache i ip } :=
  ⟨rfl, fun _ apart => Function.update_of_ne apart ..⟩

theorem iget_fresh {i : Nat} (unused : (s.icache i).ref = 0) (room : cached sb s < NINODE) :
    ∃ s', iget sb i s = .ok ((), s') ∧ OnlyEntry i s s' ∧
      (s'.icache i).ref = 1 ∧ (s'.icache i).valid = false := by
  unfold iget
  rw [Prog.read_bind]
  dsimp only
  rw [if_neg (by omega), if_neg (by omega)]
  refine ⟨_, rfl, OnlyEntry.set .., ?_, ?_⟩ <;> simp

theorem ilock_fetch {i : Nat} (held : 1 ≤ (s.icache i).ref) (stale : (s.icache i).valid = false)
    (typed : (dinodeAt sb s.disk i).type ≠ 0) :
    ∃ s', ilock sb i s = .ok ((), s') ∧ OnlyEntry i s s' ∧
      (s'.icache i).ref = (s.icache i).ref ∧ (s'.icache i).copy = dinodeAt sb s.disk i := by
  unfold ilock
  rw [Prog.read_bind]
  dsimp only
  rw [if_neg (by omega), if_neg (by rw [stale]; exact Bool.false_ne_true), if_neg typed]
  refine ⟨_, rfl, OnlyEntry.set .., ?_, ?_⟩ <;> simp

theorem iput_linked {i : Nat} (linked : (s.icache i).copy.nlink ≠ 0) :
    ∃ s', iput sb i s = .ok ((), s') ∧ OnlyEntry i s s' := by
  unfold iput
  rw [Prog.read_bind]
  dsimp only
  rw [if_neg (fun free => linked free.2.1)]
  exact ⟨_, rfl, OnlyEntry.set ..⟩

end Xv6Cow.Fs
