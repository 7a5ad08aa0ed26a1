import Xv6Cow.FileRefs
import Xv6Cow.Paths

/- fs.c: the inode references that a path lookup takes and drops. -/
namespace Xv6Cow.Fs

open Prog (read update halt Steps bind_ok_iff read_bind pure_ok_iff halt_ok_iff)

variable {sb : Superblock} {s t : State} {i j : Nat}

/-- A reference to `i` more than in `s`, where there is an `i`. -/
def Took (found : Option Nat) (s t : State) : Prop :=
  ∀ j, (t.icache j).ref = (s.icache j).ref + if found = some j then 1 else 0

/-- A reference to `i` less than in `s`. -/
def Dropped (i : Nat) (s t : State) : Prop :=
  ∀ j, (t.icache j).ref + (if i = j then 1 else 0) = (s.icache j).ref

theorem setInode_ref {ip : Inode} {done : Unit} (success : setInode i ip s = .ok (done, t))
    (j : Nat) : (t.icache j).ref = if i = j then ip.ref else (s.icache j).ref := by
  cases success
  change (Function.update s.icache i ip j).ref = _
  split
  · rename_i same
    rw [same, Function.update_self]
  · rename_i other
    rw [Function.update_of_ne (Ne.symm other)]

theorem iget_took {done : Unit} (success : iget sb i s = .ok (done, t)) : Took (some i) s t := by
  intro j
  unfold iget at success
  rw [read_bind, Prog.ite_apply] at success
  simp only [Option.some.injEq]
  split at success
  · rw [setInode_ref success]
    split
    · rename_i same
      rw [same]
    · rfl
  · rename_i unused
    obtain ⟨-, success⟩ := Prog.refuse_ok_iff.mp success
    rw [setInode_ref success]
    split
    · rename_i same
      rw [← same, Nat.eq_zero_of_not_pos unused]
    · rfl

theorem idup_took {done : Unit} (success : idup i s = .ok (done, t)) : Took (some i) s t := by
  intro j
  unfold idup at success
  rw [read_bind] at success
  rw [setInode_ref success]
  simp only [Option.some.injEq]
  split
  · rename_i same
    rw [same]
  · rfl

theorem ilock_ref {done : Unit} (success : ilock sb i s = .ok (done, t)) : Took none s t := by
  unfold ilock at success
  rw [read_bind] at success
  obtain ⟨-, success⟩ := Prog.refuse_ok_iff.mp success
  rw [Prog.ite_apply] at success
  split at success
  · obtain ⟨-, rfl⟩ := pure_ok_iff.mp success
    exact fun j => rfl
  obtain ⟨-, success⟩ := Prog.refuse_ok_iff.mp success
  intro j
  rw [setInode_ref success]
  split
  · rename_i same
    rw [same]
    rfl
  · rfl

/-! ## iput -/

/-- No reference is taken or dropped. -/
def RefsOnly (s t : State) : Prop := ∀ j, (t.icache j).ref = (s.icache j).ref

theorem RefsOnly.of_same {prog : P Unit} (steps : Steps SameRefs prog) : Steps RefsOnly prog :=
  fun s value t ran j => (steps s value t ran j).1

theorem refsOnly_bind {α β : Type} {first : P α} {next : α → P β} (left : Steps RefsOnly first)
    (right : ∀ value, Steps RefsOnly (next value)) : Steps RefsOnly (first >>= next) :=
  Steps.bind (fun {_ _ _} first second j => (second j).trans (first j)) left right

theorem refsOnly_read : Steps RefsOnly (read : P State) := Steps.read fun _ _ => rfl

theorem bfree_refs (b : Nat) : Steps SameRefs (bfree sb b) := by
  refine refs_bind refs_read fun s => Steps.ite (fun _ => logWrite_refs _ _) fun _ => Steps.halt _

theorem truncDirect_refs (i : Nat) (slots : List (Fin 13)) :
    Steps SameRefs (truncDirect sb i slots) := by
  induction slots with
  | nil => exact refs_pure _
  | cons k rest ih =>
    refine refs_bind refs_read fun s => Steps.ite (fun _ => ih) fun _ => ?_
    exact refs_bind (bfree_refs _) fun _ =>
      refs_bind (refs_bind refs_read fun _ => setCopy_refs _ _) fun _ => ih

theorem truncEntries_refs (ind : Nat) (entries : List (Fin 128)) :
    Steps SameRefs (truncEntries sb ind entries) := by
  induction entries with
  | nil => exact refs_pure _
  | cons j rest ih =>
    refine refs_bind refs_read fun s => Steps.ite (fun _ => ih) fun _ => ?_
    exact refs_bind (bfree_refs _) fun _ => ih

theorem iupdate_refs (i : Nat) : Steps SameRefs (iupdate sb i) :=
  refs_bind refs_read fun _ => logWrite_refs _ _

theorem itrunc_refs (i : Nat) : Steps SameRefs (itrunc sb i) := by
  refine refs_bind (truncDirect_refs _ _) fun _ => refs_bind ?_ fun _ =>
    refs_bind refs_read fun _ =>
    refs_bind (setCopy_refs _ _) fun _ => iupdate_refs _
  refine refs_bind refs_read fun s => Steps.ite (fun _ => refs_pure _) fun _ => ?_
  exact refs_bind (truncEntries_refs _ _) fun _ => refs_bind (bfree_refs _) fun _ =>
    refs_bind refs_read fun _ => setCopy_refs _ _

theorem ifree_ref (i : Nat) : Steps RefsOnly (ifree sb i) := by
  refine refsOnly_bind (RefsOnly.of_same (itrunc_refs i)) fun _ =>
    refsOnly_bind refsOnly_read fun _ =>
    refsOnly_bind (RefsOnly.of_same (setCopy_refs _ _)) fun _ =>
    refsOnly_bind (RefsOnly.of_same (iupdate_refs _)) fun _ => ?_
  intro s value t ran j
  rw [read_bind] at ran
  rw [setInode_ref ran]
  split
  · rename_i same
    rw [same]
  · rfl

theorem iput_dropped {done : Unit} (held : 1 ≤ (s.icache i).ref)
    (success : iput sb i s = .ok (done, t)) :
    Dropped i s t := by
  have last : ∀ {u : State}, RefsOnly s u →
      setInode i { u.icache i with ref := (u.icache i).ref - 1 } u = .ok (done, t) →
      Dropped i s t := by
    intro u same dropped j
    rw [setInode_ref dropped]
    split
    · rename_i here
      subst here
      dsimp only
      rw [same]
      omega
    · exact same j
  unfold iput at success
  rw [read_bind] at success
  dsimp only at success
  rw [Prog.ite_apply] at success
  split at success
  · rw [bind_ok_iff] at success
    obtain ⟨_, u, freed, rest⟩ := success
    rw [read_bind] at rest
    exact last (ifree_ref i _ _ _ freed) rest
  · rw [read_bind] at success
    exact last (fun j => rfl) success

/-! ## dirlookup and namei -/

theorem lookupFrom_took {name : List Byte} {dp size off : Nat} {found : Option (Nat × Nat)}
    (success : lookupFrom sb dp name size off s = .ok (found, t)) :
    Took (found.map Prod.fst) s t := by
  induction left : size - off using Nat.strongRecOn generalizing off s with
  | ind n ih =>
    rw [lookupFrom, Prog.ite_apply] at success
    split at success
    · rw [bind_ok_iff] at success
      obtain ⟨de, u, fetched, rest⟩ := success
      have same := readi_refs dp off 16 _ _ _ fetched
      have later : ∀ {r}, Took (found.map Prod.fst) u r → Took (found.map Prod.fst) s r :=
        fun took j => by rw [took j, (same j).1]
      split at rest
      · exact (halt_ok_iff.mp rest).elim
      · rw [Prog.ite_apply] at rest
        split at rest
        · exact (halt_ok_iff.mp rest).elim
        rw [Prog.ite_apply] at rest
        split at rest
        · exact later (ih _ (by omega) rest rfl)
        rw [Prog.ite_apply] at rest
        split at rest
        · rw [bind_ok_iff] at rest
          obtain ⟨_, r, got, rest⟩ := rest
          obtain ⟨rfl, rfl⟩ := pure_ok_iff.mp rest
          exact later (iget_took got)
        · exact later (ih _ (by omega) rest rfl)
    · obtain ⟨rfl, rfl⟩ := pure_ok_iff.mp success
      exact fun j => rfl

theorem dirlookup_took {name : List Byte} {dp : Nat} {found : Option (Nat × Nat)}
    (success : dirlookup sb dp name s = .ok (found, t)) : Took (found.map Prod.fst) s t := by
  unfold dirlookup at success
  rw [read_bind] at success
  obtain ⟨-, success⟩ := Prog.refuse_ok_iff.mp success
  exact lookupFrom_took success

/-- The walk gives up the reference it starts with, and takes one to the inode it finds. -/
theorem walk_refs {parent : Bool} {ip : Nat} {path name : List Byte}
    {found : Option (Nat × List Byte)}
    (held : 1 ≤ (s.icache ip).ref) (success : walk sb parent ip path name s = .ok (found, t))
    (j : Nat) : (t.icache j).ref + (if ip = j then 1 else 0) =
      (s.icache j).ref + if found.map Prod.fst = some j then 1 else 0 := by
  induction length : path.length using Nat.strongRecOn generalizing ip path name s with
  | ind n ih =>
    have put : ∀ {u v : State} {done : Unit}, Took none s u → iput sb ip u = .ok (done, v) →
        (v.icache j).ref + (if ip = j then 1 else 0) = (s.icache j).ref + 0 := by
      intro u v done same dropped
      have more : 1 ≤ (u.icache ip).ref := by
        rw [same ip]
        omega
      rw [iput_dropped more dropped j, same j]
      rfl
    rw [walk.eq_def] at success
    split at success
    · rename_i last
      rw [Prog.ite_apply] at success
      split at success
      · rw [bind_ok_iff] at success
        obtain ⟨_, u, dropped, rest⟩ := success
        obtain ⟨rfl, rfl⟩ := pure_ok_iff.mp rest
        exact put (fun _ => rfl) dropped
      · obtain ⟨rfl, rfl⟩ := pure_ok_iff.mp success
        simp only [Option.map_some, Option.some.injEq]
    · rename_i elem rest next
      rw [bind_ok_iff] at success
      obtain ⟨_, u, locked, success⟩ := success
      have same := ilock_ref locked
      rw [read_bind, Prog.ite_apply] at success
      split at success
      · rw [bind_ok_iff] at success
        obtain ⟨_, r, dropped, success⟩ := success
        obtain ⟨rfl, rfl⟩ := pure_ok_iff.mp success
        exact put same dropped
      rw [Prog.ite_apply] at success
      split at success
      · obtain ⟨rfl, rfl⟩ := pure_ok_iff.mp success
        simp only [Option.map_some, Option.some.injEq]
        rw [same j, if_neg (Option.some_ne_none j).symm, Nat.add_zero]
      rw [bind_ok_iff] at success
      obtain ⟨looked, r, lookup, success⟩ := success
      rw [bind_ok_iff] at success
      obtain ⟨_, v, dropped, success⟩ := success
      have took := dirlookup_took lookup
      have more : 1 ≤ (r.icache ip).ref := by
        have one := took ip
        have two := same ip
        rw [two] at one
        omega
      have balance := iput_dropped more dropped
      cases looked with
      | none =>
        obtain ⟨rfl, rfl⟩ := pure_ok_iff.mp success
        rw [balance j, took j, same j]
        rfl
      | some pair =>
        have kept : 1 ≤ (v.icache pair.1).ref := by
          have one := balance pair.1
          have two := took pair.1
          have three := same pair.1
          simp only [Option.map_some, ↓reduceIte, reduceCtorEq] at two three
          by_cases twice : ip = pair.1
          · rw [if_pos twice] at one
            rw [twice] at held
            omega
          · rw [if_neg twice] at one
            omega
        have final := ih _ (by rw [← length]; exact skipelem_shorter next) kept success rfl
        have one := balance j
        have two := took j
        have three := same j
        simp only [Option.map_some, Option.some.injEq, reduceCtorEq, ↓reduceIte] at two three
        omega

/-- A path lookup takes a reference to the inode it returns, and no other. -/
theorem namex_took {cwd : Nat} {path : List Byte} {parent : Bool} {found : Option (Nat × List Byte)}
    (success : namex sb cwd path parent s = .ok (found, t)) : Took (found.map Prod.fst) s t := by
  -- The walk starts from a reference of its own.
  have go : ∀ {start : Nat} {r : State}, Took (some start) s r →
      walk sb parent start path [] r = .ok (found, t) → Took (found.map Prod.fst) s t := by
    intro start r took walked j
    have held : 1 ≤ (r.icache start).ref := by
      rw [took start, if_pos rfl]
      omega
    have balance := walk_refs held walked j
    have first := took j
    simp only [Option.some.injEq] at first
    omega
  unfold namex at success
  rw [Prog.ite_apply] at success
  split at success
  · rw [bind_ok_iff] at success
    obtain ⟨_, r, got, walked⟩ := success
    exact go (iget_took got) walked
  · rw [bind_ok_iff] at success
    obtain ⟨_, r, got, walked⟩ := success
    exact go (idup_took got) walked

theorem namei_took {cwd : Nat} {path : List Byte} {found : Option Nat}
    (success : namei sb cwd path s = .ok (found, t)) : Took found s t := by
  unfold namei at success
  rw [bind_ok_iff] at success
  obtain ⟨pair, u, walked, rest⟩ := success
  obtain ⟨rfl, rfl⟩ := pure_ok_iff.mp rest
  exact namex_took walked

end Xv6Cow.Fs
