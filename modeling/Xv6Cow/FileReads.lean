import Xv6Cow.DiskLayout

/- fs.c: bmap and readi where the file has its blocks. -/
namespace Xv6Cow.Fs

open Prog (read_bind)

variable {sb : Superblock} {s : State} {view : Nat → Dinode} {i : Nat}

/-- Every block below the size has a place on the disk. -/
def NoHoles (view : Nat → Dinode) (disk : Nat → Block) : Prop :=
  ∀ i bn, bn * BSIZE < (view i).size.toNat → bn < MAXFILE ∧ owns view disk (i, placeOf bn) ≠ none

theorem ensureAddr_owned {k : Fin 13} {b : Nat} (copy : (s.icache i).copy = view i)
    (owned : owns view s.disk (i, .slot k) = some b) : ensureAddr sb i k s = .ok (b, s) := by
  rw [owns_slot, ← copy] at owned
  unfold ensureAddr
  rw [read_bind]
  dsimp only
  split at owned
  · cases owned
  · rename_i taken
    cases owned
    rw [if_neg taken]
    rfl

theorem ensureEntry_owned {ind : Nat} {j : Fin 128} {b : Nat}
    (slot : owns view s.disk (i, .slot 12) = some ind)
    (owned : owns view s.disk (i, .entry j) = some b) : ensureEntry sb ind j s = .ok (b, s) := by
  rw [owns_entry, slot] at owned
  unfold ensureEntry
  rw [read_bind]
  dsimp only at owned ⊢
  split at owned
  · cases owned
  · rename_i taken
    cases owned
    rw [if_neg taken]
    rfl

theorem bmap_owned {bn b : Nat} (copy : (s.icache i).copy = view i) (range : bn < MAXFILE)
    (owned : owns view s.disk (i, placeOf bn) = some b) : bmap sb i bn s = .ok (b, s) := by
  unfold bmap
  by_cases direct : bn < NDIRECT
  · rw [dif_pos direct]
    rw [placeOf_slot direct] at owned
    exact ensureAddr_owned copy owned
  · have indirect : bn - NDIRECT < NINDIRECT := by
      unfold MAXFILE at range
      omega
    have index : (bn - NDIRECT) % 128 = bn - NDIRECT := Nat.mod_eq_of_lt indirect
    rw [dif_neg direct, dif_pos indirect]
    rw [placeOf_entry direct] at owned
    simp only [index] at owned
    cases slot : owns view s.disk (i, .slot 12) with
    | none =>
      rw [owns_entry, slot] at owned
      cases owned
    | some ind =>
      rw [Prog.bind_of_ok (ensureAddr_owned copy slot)]
      exact ensureEntry_owned slot owned

theorem readLoop_filled (n : Nat) {off : Nat} (copy : (s.icache i).copy = view i)
    (filled : ∀ bn, bn * BSIZE < off + n → bn < MAXFILE ∧ owns view s.disk (i, placeOf bn) ≠ none) :
    readLoop sb i off n s =
      .ok ((List.range n).map (fun k => byteOf view s.disk i (off + k)), s) := by
  induction n using Nat.strongRecOn generalizing off with
  | ind n ih =>
  unfold readLoop
  by_cases done : n = 0
  · rw [if_pos done, done]
    rfl
  · rw [if_neg done]
    have bound := Nat.mod_lt off (show 0 < BSIZE by decide)
    have split := Nat.div_add_mod off BSIZE
    obtain ⟨range, owned⟩ := filled (off / BSIZE) (by rw [Nat.mul_comm]; omega)
    obtain ⟨b, owned⟩ := Option.ne_none_iff_exists'.mp owned
    rw [Prog.bind_of_ok (bmap_owned copy range owned), read_bind]
    dsimp only
    obtain ⟨m, cut⟩ : ∃ m, m = min n (BSIZE - off % BSIZE) := ⟨_, rfl⟩
    rw [← cut, Prog.bind_of_ok (ih (n - m) (by omega) (fun bn low => filled bn (by omega)))]
    have join : n = m + (n - m) := by omega
    have first : (List.range m).map (fun k => Block.byte (s.disk b) (off % BSIZE + k)) =
        (List.range m).map (fun k => byteOf view s.disk i (off + k)) := by
      apply List.map_congr_left
      intro k member
      rw [List.mem_range] at member
      have block : (off + k) / BSIZE = off / BSIZE := by
        unfold BSIZE at *
        omega
      have inside : (off + k) % BSIZE = off % BSIZE + k := by
        unfold BSIZE at *
        omega
      rw [byteOf_eq, block, owned, inside]
    rw [first, Prog.pure_apply, join, List.range_add, List.map_append, List.map_map]
    simp only [Nat.add_sub_cancel_left, Function.comp_def, Nat.add_assoc]

theorem readi_filled (copy : (s.icache i).copy = view i) (file : (view i).type ≠ T_DEV)
    {off n : Nat} (filled : ∀ bn, bn * BSIZE < off + n → bn * BSIZE < (view i).size.toNat →
      bn < MAXFILE ∧ owns view s.disk (i, placeOf bn) ≠ none) :
    readi sb i off n s = .ok (if (view i).size.toNat < off ∨ (off + n) % 2 ^ 32 < off then none
      else some ((List.range (min n ((view i).size.toNat - off))).map
        fun k => byteOf view s.disk i (off + k)), s) := by
  unfold readi
  rw [read_bind]
  dsimp only
  rw [copy, if_neg file]
  by_cases refused : (view i).size.toNat < off ∨ (off + n) % 2 ^ 32 < off
  · rw [if_pos refused, if_pos refused]
    rfl
  · have count : (if (view i).size.toNat < off + n then (view i).size.toNat - off else n) =
        min n ((view i).size.toNat - off) := by
      split <;> omega
    rw [if_neg refused, if_neg refused, count,
      Prog.bind_of_ok (readLoop_filled _ copy fun bn low => filled bn (by omega) (by omega))]
    rfl

theorem readi_unchanged (holes : NoHoles view s.disk) (copy : (s.icache i).copy = view i)
    (off n : Nat) :
    ∃ result, readi sb i off n s = .ok (result, s) := by
  by_cases device : (view i).type = T_DEV
  · refine ⟨none, ?_⟩
    unfold readi
    rw [read_bind]
    dsimp only
    rw [copy, if_pos device]
    rfl
  · exact ⟨_, readi_filled copy device fun bn _ low => holes i bn low⟩

end Xv6Cow.Fs
