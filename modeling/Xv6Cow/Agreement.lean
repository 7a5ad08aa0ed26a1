import Xv6Cow.BufferCache
import Xv6Cow.Calm
import Xv6Cow.Icache
import Xv6Cow.Ide
import Xv6Cow.Logging
import Xv6Cow.PathRefs
import Xv6Cow.Pipes

/- Functions that more than one part of the development models, each as far as its own
results need them: what the models say of them is the same. -/
namespace Xv6Cow

open Function (update_self update_of_ne)
open Prog (bind_ok_iff read_bind pure_ok_iff)

/-! ## iderw, in bio.c and in ide.c -/

namespace Bio

variable {nproc : Nat} {s t u : State nproc} {array : Nat → Block} {p : Pid nproc} {b : Fin NBUF}

def Buf.onIde (buf : Buf nproc) : Ide.Buf :=
  ⟨buf.dev, buf.blockno, buf.valid, buf.dirty, buf.data⟩

/-- The buffer cache's iderw is a transfer, one that goes well, of the atomic disk that the
driver refines. -/
theorem iderw_transfer {ι : Type} [DecidableEq ι] {a : Ide.Atomic ι (Fin NBUF)}
    {rest : List (Fin NBUF)} (bufs : ∀ c, a.bufs c = (s.bufs c).onIde)
    (disk : ∀ n, a.disk ((s.bufs b).dev % 2, n) = s.disk n) (first : a.waiting = b :: rest) :
    ∃ a', a.Step (.complete true) none a' ∧ a'.waiting = rest ∧
      (∀ c, a'.bufs c = ((iderw s b).bufs c).onIde) ∧
      ∀ n, a'.disk ((s.bufs b).dev % 2, n) = (iderw s b).disk n := by
  have place : (a.bufs b).place = ((s.bufs b).dev % 2, (s.bufs b).blockno) := by rw [bufs]; rfl
  refine ⟨_, .transfer first, rfl, fun c => ?_, fun n => ?_⟩
  · dsimp only
    rw [place, if_pos rfl, disk]
    by_cases here : c = b
    · rw [here, update_self, bufs]
      unfold iderw State.setBuf
      cases dirty : (s.bufs b).dirty <;> simp [Ide.served, Buf.onIde, dirty]
    · rw [update_of_ne here, bufs]
      unfold iderw State.setBuf
      dsimp only
      split
      · exact (congrArg Buf.onIde (update_of_ne here _ _)).symm
      · exact (congrArg Buf.onIde (update_of_ne here _ _)).symm
  · dsimp only
    rw [place, bufs]
    unfold iderw State.setBuf
    cases dirty : (s.bufs b).dirty
    · simpa [Buf.onIde, dirty] using disk n
    · by_cases here : n = (s.bufs b).blockno
      · simp [Buf.onIde, dirty, here]
      · simpa [Buf.onIde, dirty, here] using disk n

/-- To modify a buffer and hand it to log_write is what the file system takes for log_write. -/
theorem modify_logWrite {fs : Fs.State} {data : Block} {out out' : Option Block}
    (inv : Inv s fs.disk) (modified : next s (.modify p b data) = some (out, t))
    (logged : next t (.logWrite p b) = some (out', u)) :
    ∃ fs', Fs.logWrite (s.bufs b).blockno (Function.update · (s.bufs b).blockno data) fs =
      .ok ((), fs') ∧ Inv u fs'.disk :=
  ⟨_, rfl, (inv.step modified).step logged⟩

end Bio

/-! ## log_write, in log.c and in fs.c -/

/-- The log lists the blocks that the file system has written. -/
theorem logWrite_lists {s t : Fs.State} {log log' : Logging.Log} {b : Nat}
    {change : (Nat → Block) → Nat → Block} (listed : ∀ x, x ∈ log.lh ↔ x ∈ s.written)
    (written : Fs.logWrite b change s = .ok ((), t)) (logged : Logging.logWrite b log = .ok log')
    (x : Nat) : x ∈ log'.lh ↔ x ∈ t.written := by
  cases written
  change _ ↔ x ∈ b :: s.written
  rw [List.mem_cons, ← listed]
  unfold Logging.logWrite at logged
  split at logged
  · cases logged
  · split at logged
    · cases logged
    · cases logged
      dsimp only
      split
      · rename_i old
        exact ⟨.inr, fun either => either.elim (fun same => same ▸ old) id⟩
      · rw [List.mem_append, List.mem_singleton, or_comm]

/-! ## iget and iput, in turns and in one go -/

namespace Icache

variable {n i : Nat} {e e₁ e₂ e₃ : Entry n} {p : Fin n} {sb : Fs.Superblock} {s t : Fs.State}

/-- The entry of the cache, as the file system sees it. -/
structure Mirrors (e : Entry n) (ip : Fs.Inode) : Prop where
  ref : e.inode.ref = ip.ref
  valid : e.inode.valid = ip.valid
  links : e.inode.copy.nlink = 0 ↔ ip.copy.nlink = 0

theorem Mirrors.iget (mirrors : Mirrors e (s.icache i)) (got : Fs.iget sb i s = .ok ((), t)) :
    Mirrors { e with inode := iget e } (t.icache i) := by
  obtain ⟨ref, valid, links⟩ := mirrors
  unfold Fs.iget at got
  unfold Icache.iget
  rw [read_bind, ← ref, Prog.ite_apply] at got
  split at got
  · rename_i used
    cases got
    rw [if_pos used]
    change Mirrors _ (Function.update s.icache i _ i)
    rw [update_self]
    exact ⟨rfl, valid, links⟩
  · rename_i unused
    rw [Prog.ite_apply] at got
    split at got
    · cases got
    · cases got
      rw [if_neg unused]
      change Mirrors _ (Function.update s.icache i _ i)
      rw [update_self]
      exact ⟨rfl, rfl, links⟩

theorem ifree_invalid (freed : Fs.ifree sb i s = .ok ((), t)) : (t.icache i).valid = false := by
  unfold Fs.ifree at freed
  obtain ⟨_, u, -, rest⟩ := bind_ok_iff.mp freed
  rw [read_bind] at rest
  obtain ⟨_, v, -, rest⟩ := bind_ok_iff.mp rest
  obtain ⟨_, w, -, rest⟩ := bind_ok_iff.mp rest
  cases rest
  exact congrArg Fs.Inode.valid (update_self i _ w.icache)

theorem iput_leaves (put : Fs.iput sb i s = .ok ((), t)) :
    (t.icache i).ref = (s.icache i).ref - 1 ∧ (t.icache i).valid =
      if (s.icache i).valid ∧ (s.icache i).copy.nlink = 0 ∧ (s.icache i).ref = 1 then false
      else (s.icache i).valid := by
  have last : ∀ {u : Fs.State}, Fs.setInode i { u.icache i with ref := (u.icache i).ref - 1 } u =
      .ok ((), t) → (t.icache i).ref = (u.icache i).ref - 1 ∧
        (t.icache i).valid = (u.icache i).valid := by
    intro u dropped
    cases dropped
    change (Function.update u.icache i _ i).ref = _ ∧ (Function.update u.icache i _ i).valid = _
    rw [update_self]
    exact ⟨rfl, rfl⟩
  unfold Fs.iput at put
  rw [read_bind] at put
  dsimp only at put
  rw [Prog.ite_apply] at put
  split at put
  · rename_i frees
    obtain ⟨_, u, freed, rest⟩ := bind_ok_iff.mp put
    obtain ⟨ref, valid⟩ := last rest
    rw [ref, Fs.ifree_ref i _ _ _ freed i, valid, ifree_invalid freed, if_pos frees]
    exact ⟨rfl, rfl⟩
  · rename_i stays
    rw [if_neg stays]
    exact last put

/-- Without another process in between, the three sections are the iput of the file system. -/
theorem Mirrors.iput (mirrors : Mirrors e (s.icache i)) (checked : step e (.check p) = some e₁)
    (released : step e₁ (.release p) = some e₂) (dropped : step e₂ (.drop p) = some e₃)
    (put : Fs.iput sb i s = .ok ((), t)) :
    e₃.inode.ref = (t.icache i).ref ∧ e₃.inode.valid = (t.icache i).valid := by
  obtain ⟨ref, valid, links⟩ := mirrors
  obtain ⟨r, phase, rfl⟩ := release_eq released
  have last : e₃.inode.ref = (if r = some 1 then free e₁ else e₁).inode.ref - 1 ∧
      e₃.inode.valid = (if r = some 1 then free e₁ else e₁).inode.valid := by
    simp only [step, Entry.set, update_self, if_true] at dropped
    cases dropped
    exact ⟨rfl, rfl⟩
  have first : e₁.inode = e.inode ∧
      r = if e.inode.valid ∧ e.inode.copy.nlink = 0 then some e.inode.ref else none := by
    simp only [step] at checked
    split at checked
    · cases checked
      have here := (congrArg Holder.phase (update_self p _ e.procs)).symm.trans phase
      exact ⟨rfl, (Phase.checked.inj here).symm⟩
    · cases checked
  obtain ⟨ref', valid'⟩ := iput_leaves put
  simp only [← ref, ← valid, ← links] at ref' valid'
  rw [ref', valid', last.1, last.2, first.2]
  by_cases unlinked : e.inode.valid = true ∧ e.inode.copy.nlink = 0
  · rw [if_pos unlinked]
    by_cases only : e.inode.ref = 1
    · rw [if_pos (congrArg some only), if_pos ⟨unlinked.1, unlinked.2, only⟩]
      exact ⟨congrArg (·.ref - 1) first.1, rfl⟩
    · rw [if_neg fun one => only (Option.some.inj one), if_neg fun all => only all.2.2, first.1]
      exact ⟨rfl, rfl⟩
  · rw [if_neg unlinked, if_neg (Option.some_ne_none _).symm,
      if_neg fun all => unlinked ⟨all.1, all.2.1⟩, first.1]
    exact ⟨rfl, rfl⟩

end Icache

/-! ## pipeclose, with and without the page of the pipe -/

/-- The kernel frees a pipe when the model of pipe.c has closed both ends. -/
theorem pipeclose_flags {ι : Type} {s t : Kernel} {k : Nat} {pipe : Pipe} {state : Pipes.State ι}
    (found : s.pipes[k]? = some pipe) (same : state.pipe.readopen = pipe.readopen ∧
      state.pipe.writeopen = pipe.writeopen) (writable : Bool)
    (closed : pipeclose k writable s = .ok ((), t)) :
    let after := (Pipes.pipeclose state writable).pipe
    t.pipes = if after.readopen || after.writeopen then
        s.pipes.set k ⟨pipe.page, after.readopen, after.writeopen⟩
      else s.pipes.eraseIdx k := by
  unfold pipeclose at closed
  rw [read_bind, found] at closed
  unfold Pipes.pipeclose
  obtain ⟨reads, writes⟩ := same
  have after : ∀ {a b : Bool}, (if a || b then Prog.update (fun s : Kernel =>
      { s with pipes := s.pipes.set k ⟨pipe.page, a, b⟩ }) else do
        kfree pipe.page
        Prog.update (fun s : Kernel => { s with pipes := s.pipes.eraseIdx k }) : K Unit) s =
      .ok ((), t) → t.pipes = if a || b then s.pipes.set k ⟨pipe.page, a, b⟩
        else s.pipes.eraseIdx k := by
    intro a b ran
    rw [Prog.ite_apply] at ran
    split at ran
    · rename_i opened
      cases ran
      rw [if_pos opened]
    · rename_i shut
      obtain ⟨_, u, freed, rest⟩ := bind_ok_iff.mp ran
      cases rest
      rw [if_neg shut, ← (kfree_calm _ _ _ _ freed).pipes]
  cases writable
  · dsimp only at closed ⊢
    rw [if_neg Bool.false_ne_true]
    dsimp only
    rw [writes]
    exact after closed
  · dsimp only at closed ⊢
    rw [if_pos rfl]
    dsimp only
    rw [reads]
    exact after closed

end Xv6Cow
