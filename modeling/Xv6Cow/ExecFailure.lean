import Xv6Cow.ExecCall
import Xv6Cow.FileReads

/- exec.c: what a failed exec leaves behind. Whatever the file holds, the pages that were taken for
the new image are free again and the inode is put; the counts of those pages are not what they were,
but nobody looks at the count of a free page. -/
namespace Xv6Cow

open Prog (bind_of_ok)

variable {g : Ghost} {loan : Set Nat} {s t : Kernel} {p : Fin NPROC} {d : Nat}

/-! ## Failure -/

/-- Nothing that a process can see has changed: of the kernel only the contents, the counts and the
order of the free pages. -/
structure Unseen (w w' : World) : Prop where
  kernel : Restored w.kernel w'.kernel
  tf : w'.tf = w.tf
  name : w'.name = w.name
  outstanding : w'.outstanding = w.outstanding
  refs : ∀ j, (w'.fs.icache j).ref = (w.fs.icache j).ref

theorem Settled.inMemory (settled : Settled loan g s) (live : (s.ptable p).live = true)
    (present : ∀ v, v < pagesOf (s.ptable p).sz →
      has (pteOf s.mem (s.ptable p).pgdir v) PTE_P = true) :
    InMemory s p := by
  refine ⟨Nat.lt_of_le_of_ne (settled.small live) fun whole => ?_, present⟩
  have bound :=
      settled.rep.pages_le (settled.inside live) 0 NUPAGE (Nat.le_refl _) fun v _ user vacant => by
    have here := present v (by rw [whole]; exact user)
    unfold spaceOf at vacant
    rw [pageAt_present here] at vacant
    cases vacant
  exact absurd bound (by decide)

theorem exec_refs {sb : Fs.Superblock} {path : List Byte} {cwd ip : Nat} {f f₁ f₂ f₃ : Fs.State}
    {done done' : Unit}
    (found : Fs.namei sb cwd path f = .ok (some ip, f₁))
    (locked : Fs.ilock sb ip f₁ = .ok (done, f₂))
    (put : Fs.iput sb ip f₂ = .ok (done', f₃)) (j : Nat) :
    (f₃.icache j).ref = (f.icache j).ref := by
  have took := Fs.namei_took found
  have kept :
    ∀ j, (f₂.icache j).ref = (f₁.icache j).ref := fun j => by simpa using Fs.ilock_ref locked j
  have held : 1 ≤ (f₂.icache ip).ref := by
    rw [kept, took ip, if_pos rfl]
    omega
  have dropped := Fs.iput_dropped held put j
  rw [kept, took j] at dropped
  simp only [Option.some.injEq] at dropped
  omega

/-- exec with memory for the image and the caller's pages present, for every path, every file and
every argument vector that sys_exec accepts: it returns wherever the file-system calls return, its
transaction is closed and the inode is put, and when it returns -1 nothing can be seen of it. -/
theorem failed_exec_invisible {sb : Fs.Superblock} {w : World} {path : List Byte}
    {argv : List (List Byte)}
    {uargv cwd : Nat} (sound : Sound loan g w.kernel) (live : (w.kernel.ptable p).live = true)
    (accepted : sysExecArgs w.kernel p uargv = some argv)
    (present : ∀ v, v < pagesOf (w.kernel.ptable p).sz →
      has (pteOf w.kernel.mem (w.kernel.ptable p).pgdir v) PTE_P = true) :
    (∀ f, Fs.namei sb cwd path w.fs = .ok (none, f) →
      ∃ w', World.exec sb p cwd path argv w = .ok (false, w') ∧ Unseen w w') ∧
    ∀ ip f f₂ f₃, Fs.namei sb cwd path w.fs = .ok (some ip, f) → Fs.ilock sb ip f = .ok ((), f₂) →
      Fs.iput sb ip f₂ = .ok ((), f₃) → RoomFor w.kernel (inodeFile f₂ ip) →
      ∃ out w', World.exec sb p cwd path argv w = .ok (out, w') ∧ w'.outstanding = w.outstanding ∧
        (∀ j, (w'.fs.icache j).ref = (w.fs.icache j).ref) ∧ (out = false → Unseen w w') := by
  have settled := sound.settled
  obtain ⟨-, plain⟩ := settled.rep.sysExecArgs_le (settled.inside live)
    (settled.small live) accepted
  refine ⟨fun f missing => ?_, fun ip f f₂ f₃ found locked put room => ?_⟩
  · refine ⟨_, World.exec_of_none missing, Restored.refl _, rfl, rfl, rfl, fun j => ?_⟩
    simpa using Fs.namei_took missing j
  · obtain ⟨out, t, ran, -, restored, -⟩ :=
      exec_room sound live (settled.inMemory live present) room
      fun arg member => (plain arg member).2
    obtain ⟨w', whole, kernel, fs, outstanding, rest⟩ := World.exec_of_found found locked put ran
    have refs : ∀ j, (w'.fs.icache j).ref = (w.fs.icache j).ref := fun j => by
      rw [fs]
      exact exec_refs found locked put j
    refine ⟨out, w', whole, outstanding, refs, fun failed => ?_⟩
    obtain ⟨tf, name⟩ := rest failed
    exact ⟨by rw [kernel]; exact restored failed, tf, name, outstanding, refs⟩

/-! ## A file that is only its header -/

/-- An ELF header that announces a program header where the file ends. -/
def headerOnly : Block := fun i =>
  if i = 0 then 0x464C457F#32 else if i = 7 then 52#32 else if i = 11 then 1#32 else 0#32

/-- The directory 1, with the entry "sh", and inode 2, which it names. -/
def shFs : Fs.State where
  disk := fun b => if b = 700 then fun i => if i = 0 then 0x68730002#32 else 0#32 else headerOnly
  icache := fun i =>
    if i = 1 then ⟨1, true, ⟨Fs.T_DIR, 0, 0, 1, 16, fun k => if k = 0 then 700 else 0⟩⟩
    else ⟨1, true, ⟨Fs.T_FILE, 0, 0, 1, 52, fun k => if k = 0 then 701 else 0⟩⟩
  written := []

def shName : List Byte := [0x73#8, 0x68#8]

theorem shFs_entry {sb : Fs.Superblock} {f : Fs.State} (disk : f.disk = shFs.disk)
    (copy : (f.icache 1).copy = (shFs.icache 1).copy) :
    Fs.readi sb 1 0 16 f = .ok (some (Fs.dirent 2 shName), f) := by
  have filled : ∀ bn, bn * BSIZE < 0 + 16 → bn * BSIZE < (shFs.icache 1).copy.size.toNat →
      bn < Fs.MAXFILE ∧ Fs.owns (fun i => (shFs.icache i).copy) f.disk (1, Fs.placeOf bn) ≠
      none := by
    intro bn first _
    have zero : bn = 0 := by
      rw [BSIZE] at first
      omega
    rw [zero, disk]
    decide
  rw [@Fs.readi_filled sb f (fun i => (shFs.icache i).copy) 1 copy (by decide) 0 16 filled, disk]
  exact congrArg (fun found => Except.ok (found, f)) (by decide)

/-- ip->ref = ref. -/
def withRef (f : Fs.State) (i ref : Nat) : Fs.State :=
  { f with icache := Function.update f.icache i { f.icache i with ref := ref } }

theorem withRef_copy (f : Fs.State) (i ref j : Nat) :
    ((withRef f i ref).icache j).copy = (f.icache j).copy := by
  change (Function.update f.icache i { f.icache i with ref := ref } j).copy = _
  by_cases here : j = i
  · subst here
    rw [Function.update_self]
  · rw [Function.update_of_ne here]

theorem shFs_found (sb : Fs.Superblock) : ∃ f f', Fs.namei sb 1 shName shFs = .ok (some 2, f) ∧
    Fs.ilock sb 2 f = .ok ((), f) ∧ Fs.iput sb 2 f = .ok ((), f') ∧
    inodeFile f 2 = inodeFile shFs 2 := by
  obtain ⟨f₁, held⟩ : ∃ f₁, f₁ = withRef shFs 1 2 := ⟨_, rfl⟩
  have disk : f₁.disk = shFs.disk := by rw [held]; rfl
  have copy : (f₁.icache 1).copy = (shFs.icache 1).copy := by rw [held, withRef_copy]
  have lookup : Fs.dirlookup sb 1 shName f₁ = .ok (some (2, 0), withRef f₁ 2 2) := by
    have hit := @Fs.lookupFrom_hit sb f₁ 1 16 0 shName _ (by decide) (shFs_entry disk copy)
      (by decide) (by decide) (by decide)
    unfold Fs.dirlookup
    rw [Prog.read_bind, Prog.ite_apply, copy, if_neg (by decide)]
    refine hit.trans ?_
    rw [held]
    rfl
  have walked :
      Fs.walk sb false 1 shName [] f₁ = .ok (some (2, shName), withRef (withRef f₁ 2 2) 1 1) := by
    have first : Fs.skipelem shName = some (shName, []) := by decide
    have last : Fs.skipelem [] = none := by decide
    have locked : Fs.ilock sb 1 f₁ = .ok ((), f₁) := by rw [held]; rfl
    have put : Fs.iput sb 1 (withRef f₁ 2 2) =
      .ok ((), withRef (withRef f₁ 2 2) 1 1) := by rw [held]; rfl
    rw [Fs.walk.eq_def]
    split
    · rename_i next
      rw [first] at next
      cases next
    rename_i next
    rw [first] at next
    cases next
    rw [bind_of_ok locked, Prog.read_bind, Prog.ite_apply, copy, if_neg (by decide), Prog.ite_apply,
      if_neg (by decide), bind_of_ok lookup, bind_of_ok put]
    dsimp only
    rw [Fs.walk.eq_def]
    split
    · rfl
    · rename_i next
      rw [last] at next
      cases next
  refine ⟨withRef (withRef f₁ 2 2) 1 1, withRef (withRef (withRef f₁ 2 2) 1 1) 2 1,
    ?_, by rw [held]; rfl, by rw [held]; rfl, ?_⟩
  · have dup : Fs.idup 1 shFs = .ok ((), f₁) := by rw [held]; rfl
    unfold Fs.namei Fs.namex
    rw [if_neg (by decide), bind_of_ok ((bind_of_ok dup).trans walked)]
    rfl
  · unfold inodeFile
    simp only [withRef_copy]
    rw [held]
    simp only [withRef_copy]
    rfl

theorem shFs_elfhdr : (inodeFile shFs 2).elfhdr = some ⟨ELF_MAGIC, 52, 1⟩ := rfl

theorem shFs_proghdr : (inodeFile shFs 2).proghdr 52 = none := rfl

theorem Booted.roomFor {disk : Nat → Block} {k d q : Nat} (facts : Booted disk g k d q s) :
    RoomFor s (inodeFile shFs 2) := by
  intro elf header _
  rw [shFs_elfhdr] at header
  cases header
  unfold imagePages
  rw [segmentPages, shFs_proghdr, facts.room]
  decide

theorem exec_headerOnly {argv : List (List Byte)} {out : Bool}
    (ran : exec p (some (inodeFile shFs 2)) argv s = .ok (out, t)) :
    out = false := by
  unfold exec at ran
  dsimp only at ran
  rw [shFs_elfhdr] at ran
  dsimp only at ran
  rw [Prog.ite_apply, if_neg (not_not_intro rfl), Prog.bind_ok_iff] at ran
  obtain ⟨d, u, -, ran⟩ := ran
  rw [Prog.bind_ok_iff] at ran
  obtain ⟨image, v, built, ran⟩ := ran
  unfold execImage at built
  rw [loadSegments, shFs_proghdr, Prog.pure_bind_apply] at built
  obtain ⟨rfl, rfl⟩ := Prog.pure_ok_iff.mp built
  dsimp only at ran
  rw [Prog.bind_ok_iff] at ran
  obtain ⟨_, r, -, ran⟩ := ran
  exact (Prog.pure_ok_iff.mp ran).1

/-- The world of the first process, with "sh" in its directory. -/
def shWorld (s : Kernel) : World := ⟨s, shFs, 0, fun _ => ⟨0, 0⟩, fun _ => []⟩

/-! ## The first exec -/

theorem Page.byte_patch (page : Page) (offset count : Nat) (bytes : Nat → Byte)
    {k : Nat} (inside : k < PGSIZE) : (page.patch offset count bytes).byte k =
      if offset ≤ k ∧ k < offset + count then bytes (k - offset) else page.byte k := by
  unfold Page.patch
  rw [Page.byte_ofBytes _ k inside]

theorem zeroPage_byte (k : Nat) : zeroPage.byte k = 0 := by
  unfold zeroPage Page.byte
  simp

theorem joinBytes_uint {n : Nat} (small : n < 2 ^ 32) :
    (joinBytes (BitVec.ofNat 8 n) (BitVec.ofNat 8 (n / 256)) (BitVec.ofNat 8 (n / 65536))
      (BitVec.ofNat 8 (n / 16777216))).toNat = n := by
  have same : joinBytes (BitVec.ofNat 8 n) (BitVec.ofNat 8 (n / 256)) (BitVec.ofNat 8 (n / 65536))
      (BitVec.ofNat 8 (n / 16777216)) = BitVec.ofNat 32 n := by
    have part :
        ∀ k i, (BitVec.ofNat 8 (n / 2 ^ k)).getLsbD i = (decide (i < 8) && n.testBit (k + i)) := by
      intro k i
      rw [BitVec.getLsbD_ofNat, Nat.testBit_div_two_pow, Nat.add_comm i k]
    apply BitVec.eq_of_getLsbD_eq
    intro i bound
    rw [joinBytes_bit, show 256 = 2 ^ 8 from rfl, show 65536 = 2 ^ 16 from rfl,
      show 16777216 = 2 ^ 24 from rfl, part 8, part 16, part 24, BitVec.getLsbD_ofNat,
      BitVec.getLsbD_ofNat]
    split
    · rename_i first
      simp [first, bound]
    · split
      · rename_i second
        simp [bound, show i - 8 < 8 by omega, show 8 + (i - 8) = i by omega]
      · split
        · simp [bound, show i - 16 < 8 by omega, show 16 + (i - 16) = i by omega]
        · simp [bound, show i - 24 < 8 by omega, show 24 + (i - 24) = i by omega]
  rw [same, BitVec.toNat_ofNat, Nat.mod_eq_of_lt small]

theorem fetchint_word {a n : Nat} (inside : a + 4 ≤ (s.ptable p).sz)
    (small : (s.ptable p).sz ≤ KERNBASE)
    (word : n < 2 ^ 32) (bytes : ∀ k, k < 4 → userMem s p (a + k) = some ((uintBytes n).getD k 0)) :
    fetchint s p a = some n := by
  rw [KERNBASE_eq] at small
  unfold fetchint
  have first := bytes 0 (by decide)
  rw [Nat.add_zero] at first
  rw [if_neg (by omega), first, bytes 1 (by decide), bytes 2 (by decide), bytes 3 (by decide)]
  exact congrArg some (joinBytes_uint word)

/-- "/init". -/
def initName : List Byte := [0x2f#8, 0x69#8, 0x6e#8, 0x69#8, 0x74#8]

theorem Booted.userMem {disk : Nat → Block} {k q a : Nat} (facts : Booted disk g k d q s)
    (inside : a < PGSIZE) :
    userMem s 0 a = some (initcode.getD a 0) := by
  obtain ⟨runs, -, dir⟩ := facts.runs
  have settled := facts.roomy.sound.settled
  have member := settled.inside (canRun_live runs)
  rw [dir] at member
  unfold Xv6Cow.userMem
  rw [dir, Nat.div_eq_of_lt inside, Nat.mod_eq_of_lt inside, settled.rep.space member (by decide),
    facts.space,
    Option.map_some]
  dsimp only
  unfold initPage
  rw [Page.byte_patch _ _ _ _ inside]
  split
  · rw [Nat.sub_zero]
  · rw [zeroPage_byte, List.getD_eq_getElem?_getD, List.getElem?_eq_none (by omega)]
    rfl

theorem Booted.fetchint {disk : Nat → Block} {k q a n : Nat} (facts : Booted disk g k d q s)
    (inside : a + 4 ≤ PGSIZE) (fits : n < 2 ^ 32)
    (bytes : ∀ j, j < 4 → initcode.getD (a + j) 0 = (uintBytes n).getD j 0) :
    fetchint s 0 a = some n := by
  obtain ⟨-, size, -⟩ := facts.runs
  refine fetchint_word (by rw [size]; exact inside) (by rw [size]; decide) fits fun j part => ?_
  rw [facts.userMem (by omega), bytes j part]

theorem Booted.sysExecArgs {disk : Nat → Block} {k q : Nat} (facts : Booted disk g k d q s) :
    sysExecArgs s 0 0x24 = some [initName] := by
  obtain ⟨-, size, -⟩ := facts.runs
  have pointer := facts.fetchint (a := 0x24) (n := 0x1c) (by decide) (by decide) (by decide)
  have last := facts.fetchint (a := 0x28) (n := 0) (by decide) (by decide) (by decide)
  have string : fetchstr s 0 0x1c = some initName := by
    unfold fetchstr
    rw [size, if_neg (by decide)]
    refine scanstr_some_iff.mpr ⟨by decide, by decide, fun j inside => ?_⟩
    have bytes : ∀ j, j ≤ 5 → initcode.getD (0x1c + j) 0 = (initName ++ [0#8]).getD j 0 := by decide
    change j ≤ 5 at inside
    rw [facts.userMem (by rw [PGSIZE_eq]; omega), bytes j inside]
  unfold Xv6Cow.sysExecArgs MAXARG
  rw [fetchArgs, show (0x24 + 4 * 0) % 2 ^ 32 = 0x24 from rfl, pointer, Option.bind_eq_bind,
    Option.bind_some, if_neg (by decide), string, Option.bind_eq_bind, Option.bind_some, fetchArgs,
    show (0x24 + 4 * (0 + 1)) % 2 ^ 32 = 0x28 from rfl, last]
  rfl

theorem Booted.shWorld_fails {disk : Nat → Block} {k d q : Nat} (facts : Booted disk g k d q s)
    (sb : Fs.Superblock) :
    ∃ w', World.exec sb 0 1 shName [initName] (shWorld s) = .ok (false, w') ∧
      ∃ x ∈ s.freelist, w'.kernel.pageToRefcnt x = 1 := by
  obtain ⟨runs, -⟩ := facts.runs
  have short : ∀ arg ∈ [initName], arg.length < (NPHYS + NPAGE) * PGSIZE := by decide
  obtain ⟨out, t, ran, -, -, dir⟩ :=
    exec_room facts.roomy.sound (canRun_live runs) facts.inMemory facts.roomFor short
  obtain rfl := exec_headerOnly ran
  obtain ⟨x, free, one⟩ := dir _ shFs_elfhdr rfl rfl
  obtain ⟨f, f', found, locked, put, same⟩ := shFs_found sb
  rw [← same] at ran
  obtain ⟨w', whole, kernel, -⟩ := World.exec_of_found (w := shWorld s) found locked put ran
  exact ⟨w', whole, x, free, by rw [kernel]; exact one⟩

/-- The directory of the image that is given up comes from a page that was never in use: its count
was 0 and is 1. -/
theorem failed_exec_counts :
    ∃ s, Reachable CleanStep s ∧ sysExecArgs s 0 0x24 = some [initName] ∧ InMemory s 0 ∧
    RoomFor s (inodeFile shFs 2) ∧
    ∀ sb, ∃ w', World.exec sb 0 1 shName [initName] (shWorld s) = .ok (false, w') ∧
      ∃ x, s.pageToRefcnt x = 0 ∧ w'.kernel.pageToRefcnt x = 1 := by
  obtain ⟨g, k, d, q, s, booted, facts, unused⟩ := boot_leaves (fun _ => zeroPage) fun _ _ => 0#32
  refine ⟨s, ⟨_, _, s, _, booted, .nil⟩, facts.sysExecArgs, facts.inMemory, facts.roomFor,
    fun sb => ?_⟩
  obtain ⟨w', ran, x, free, one⟩ := facts.shWorld_fails sb
  exact ⟨w', ran, x, unused x free, one⟩

/-- The first process calls exec on a file that is only a header. -/
theorem failed_exec_invisible_header : ∃ s, Reachable CleanStep s ∧ ∀ sb, ∃ w',
    World.exec sb 0 1 shName [initName] (shWorld s) = .ok (false, w') ∧ Unseen (shWorld s) w' := by
  obtain ⟨g, k, d, q, s, booted, facts⟩ := boot_ok (fun _ => zeroPage) fun _ _ => 0#32
  obtain ⟨runs, -⟩ := facts.runs
  refine ⟨s, ⟨_, _, s, _, booted, .nil⟩, fun sb => ?_⟩
  obtain ⟨f, f', found, locked, put, same⟩ := shFs_found sb
  obtain ⟨out, w', whole, -, -, unseen⟩ :=
    (failed_exec_invisible (w := shWorld s) facts.roomy.sound (canRun_live runs)
    facts.sysExecArgs facts.inMemory.present).2 2 f f f' found locked put
      (by rw [same]; exact facts.roomFor)
  obtain ⟨w'', ran, -⟩ := facts.shWorld_fails sb
  rw [whole] at ran
  cases ran
  exact ⟨w', whole, unseen rfl⟩

end Xv6Cow
