import Xv6Cow.FileSystem

/- fs.c: the calls that read and write the contents of inodes take and drop no references. -/
namespace Xv6Cow.Fs

open Prog (read Steps)

/-- No reference is taken or dropped, and no inode is fetched. -/
def SameRefs (s s' : State) : Prop :=
  ∀ j, (s'.icache j).ref = (s.icache j).ref ∧ (s'.icache j).valid = (s.icache j).valid

theorem SameRefs.refl (s : State) : SameRefs s s := fun _ => ⟨rfl, rfl⟩

theorem SameRefs.trans {s s' s'' : State} (first : SameRefs s s') (second : SameRefs s' s'') :
    SameRefs s s'' :=
  fun j => ⟨(second j).1.trans (first j).1, (second j).2.trans (first j).2⟩

variable {sb : Superblock}

theorem refs_bind {α β : Type} {first : P α} {next : α → P β} (left : Steps SameRefs first)
    (right : ∀ value, Steps SameRefs (next value)) : Steps SameRefs (first >>= next) :=
  Steps.bind SameRefs.trans left right

theorem refs_pure {α : Type} (value : α) : Steps SameRefs (pure value : P α) :=
  Steps.pure SameRefs.refl value

theorem refs_read : Steps SameRefs (read : P State) := Steps.read SameRefs.refl

theorem logWrite_refs (b : Nat) (change : (Nat → Block) → Nat → Block) :
    Steps SameRefs (logWrite b change) :=
  Steps.update fun _ _ => ⟨rfl, rfl⟩

theorem setCopy_refs (i : Nat) (copy : Dinode) : Steps SameRefs (setCopy i copy) := by
  intro s value t ran
  cases ran
  intro j
  by_cases same : j = i
  · rw [same]
    change (Function.update s.icache i _ i).ref = _ ∧ (Function.update s.icache i _ i).valid = _
    rw [Function.update_self]
    exact ⟨rfl, rfl⟩
  · change (Function.update s.icache i _ j).ref = _ ∧ (Function.update s.icache i _ j).valid = _
    rw [Function.update_of_ne same]
    exact ⟨rfl, rfl⟩

theorem balloc_refs : Steps SameRefs (balloc sb) := by
  refine refs_bind refs_read fun s => ?_
  split
  · exact Steps.halt _
  · exact refs_bind (logWrite_refs _ _) fun _ => refs_bind (logWrite_refs _ _) fun _ => refs_pure _

theorem ensureAddr_refs (i : Nat) (k : Fin 13) : Steps SameRefs (ensureAddr sb i k) := by
  refine refs_bind refs_read fun s => Steps.ite (fun _ => ?_) (fun _ => refs_pure _)
  refine refs_bind balloc_refs fun b => refs_bind ?_ fun _ => refs_pure _
  exact refs_bind refs_read fun _ => setCopy_refs _ _

theorem ensureEntry_refs (ind : Nat) (j : Fin 128) : Steps SameRefs (ensureEntry sb ind j) := by
  refine refs_bind refs_read fun s => Steps.ite (fun _ => ?_) (fun _ => refs_pure _)
  exact refs_bind balloc_refs fun b => refs_bind (logWrite_refs _ _) fun _ => refs_pure _

theorem bmap_refs (i bn : Nat) : Steps SameRefs (bmap sb i bn) := by
  unfold bmap
  split
  · exact ensureAddr_refs _ _
  · split
    · exact refs_bind (ensureAddr_refs _ _) fun _ => ensureEntry_refs _ _
    · exact Steps.halt _

theorem readLoop_refs (i n : Nat) (off : Nat) : Steps SameRefs (readLoop sb i off n) := by
  induction n using Nat.strongRecOn generalizing off with
  | ind n ih =>
  unfold readLoop
  refine Steps.ite (fun _ => refs_pure _) fun more => ?_
  have bound : off % BSIZE < BSIZE := Nat.mod_lt off (by decide)
  refine refs_bind (bmap_refs _ _) fun _ => refs_bind refs_read fun _ =>
    refs_bind (ih _ (by omega) _) fun _ => ?_
  exact refs_pure _

theorem readi_refs (i off n : Nat) : Steps SameRefs (readi sb i off n) := by
  refine refs_bind refs_read fun s => Steps.ite (fun _ => refs_pure _) fun _ => ?_
  exact Steps.ite (fun _ => refs_pure _) fun _ => refs_bind (readLoop_refs _ _ _) fun _ =>
    refs_pure _

theorem writeLoop_refs (i : Nat) (src : List Byte) (off : Nat) :
    Steps SameRefs (writeLoop sb i off src) := by
  induction total : src.length using Nat.strongRecOn generalizing src off with
  | ind n ih =>
  unfold writeLoop
  refine Steps.ite (fun _ => refs_pure _) fun more => ?_
  have bound : off % BSIZE < BSIZE := Nat.mod_lt off (by decide)
  have some : 0 < src.length := List.length_pos_iff.mpr more
  refine refs_bind (bmap_refs _ _) fun _ => refs_bind (logWrite_refs _ _) fun _ => ih _ ?_ _ _ rfl
  rw [List.length_drop]
  omega

theorem writei_refs (i off : Nat) (src : List Byte) : Steps SameRefs (writei sb i off src) := by
  refine refs_bind refs_read fun s => Steps.ite (fun _ => refs_pure _) fun _ => ?_
  refine Steps.ite (fun _ => refs_pure _) fun _ => Steps.ite (fun _ => refs_pure _) fun _ => ?_
  refine refs_bind (writeLoop_refs _ _ _) fun _ => refs_bind refs_read fun _ => ?_
  refine Steps.ite (fun _ => ?_) fun _ => refs_pure _
  exact refs_bind (setCopy_refs _ _) fun _ =>
    refs_bind (refs_bind refs_read fun _ => logWrite_refs _ _)
    fun _ => refs_pure _

end Xv6Cow.Fs
