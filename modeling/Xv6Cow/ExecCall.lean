import Xv6Cow.ExecRoom
import Xv6Cow.PathRefs

/- exec of exec.c as a whole: the path lookup and the transaction around it, the registers and the
name that the commit leaves, and the label `bad`. begin_op and end_op are counted; that one waits
for room in the log and the other commits is not modelled here. -/
namespace Xv6Cow

open Prog (read update bind_ok_iff bind_of_ok pure_ok_iff update_bind)

/-! ## The stack with its pointer -/

/-- The guard page and the arguments, on an image that ends at `top`. Returns sp. -/
def argStack (pgdir : Nat) (argv : List (List Byte)) (top : Nat) : K (Option Nat) := do
  clearpteu pgdir (top / PGSIZE - 2)
  let pushed ← pushArgs pgdir argv 0 top
  match pushed with
  | none => pure none
  | some (sp, ptrs) => do
    let esp := below sp ((3 + ptrs.length + 1) * 4)
    let copied ← copyout pgdir esp (ustack sp ptrs)
    if copied then pure (some esp) else pure none

/-- What execStack does; it returns the size of the image and sp. -/
def newStack (p : Fin NPROC) (pgdir : Nat) (argv : List (List Byte)) (sz : Nat) :
    K (Option (Nat × Nat)) := do
  let top ← allocuvm p pgdir (pagesOf sz * PGSIZE) (pagesOf sz * PGSIZE + 2 * PGSIZE)
  if top = 0 then pure none
  else do
    let esp ← argStack pgdir argv top
    pure (esp.map fun esp => (top, esp))

theorem newStack_of_execStack {p : Fin NPROC} {d sz : Nat} {argv : List (List Byte)} {s t : Kernel}
    {out : Option Nat} (success : execStack p d argv sz s = .ok (out, t)) :
    ∃ stack, newStack p d argv sz s = .ok (stack, t) ∧ out = stack.map Prod.fst := by
  unfold execStack at success
  rw [bind_ok_iff] at success
  obtain ⟨top, u, grown, rest⟩ := success
  unfold newStack
  rw [bind_of_ok grown]
  rw [Prog.ite_apply] at rest ⊢
  split at rest
  · rename_i zero
    obtain ⟨rfl, rfl⟩ := pure_ok_iff.mp rest
    rw [if_pos zero]
    exact ⟨none, rfl, rfl⟩
  rename_i nonzero
  rw [if_neg nonzero]
  rw [bind_ok_iff] at rest
  obtain ⟨_, u₁, guarded, rest⟩ := rest
  rw [bind_ok_iff] at rest
  obtain ⟨pushed, u₂, pushing, rest⟩ := rest
  have start : ∀ {e : Option Nat}, argStack d argv top u = .ok (e, t) →
      (argStack d argv top >>= fun esp => pure (esp.map fun esp => (top, esp))) u =
        .ok (e.map fun esp => (top, esp), t) :=
    fun stacked => bind_of_ok stacked
  cases pushed with
  | none =>
    obtain ⟨rfl, rfl⟩ := pure_ok_iff.mp rest
    refine ⟨none, start (e := none) ?_, rfl⟩
    unfold argStack
    rw [bind_of_ok guarded, bind_of_ok pushing]
    rfl
  | some pair =>
    rw [bind_ok_iff] at rest
    obtain ⟨copied, u₃, copying, rest⟩ := rest
    cases copied with
    | false =>
      obtain ⟨rfl, rfl⟩ := pure_ok_iff.mp rest
      refine ⟨none, start (e := none) ?_, rfl⟩
      unfold argStack
      rw [bind_of_ok guarded, bind_of_ok pushing]
      exact bind_of_ok copying
    | true =>
      obtain ⟨rfl, rfl⟩ := pure_ok_iff.mp rest
      refine ⟨some (top, below pair.1 ((3 + pair.2.length + 1) * 4)), start (e := some _) ?_, rfl⟩
      unfold argStack
      rw [bind_of_ok guarded, bind_of_ok pushing]
      exact bind_of_ok copying

/-! ## exec -/

/-- The registers that exec sets. -/
structure TrapFrame where
  eip : Nat
  esp : Nat

/-- What exec works on. Names are C strings. -/
structure World where
  kernel : Kernel
  fs : Fs.State
  /-- log.outstanding. -/
  outstanding : Int
  tf : Fin NPROC → TrapFrame
  name : Fin NPROC → List Byte

inductive Stop where
  | kernel (why : Fault)
  | fs (message : String)

abbrev W : Type → Type := Prog Stop World

/-- What readi sees of an inode that is locked. -/
def inodeFile (s : Fs.State) (ip : Nat) : File where
  size := if (s.icache ip).copy.type = Fs.T_DEV then 0 else (s.icache ip).copy.size.toNat
  bytes := fun off => Fs.byteOf (fun i => (s.icache i).copy) s.disk ip off

/-- The loop that looks for the last path element. -/
def lastFrom : List Byte → List Byte → List Byte
  | [], last => last
  | b :: rest, last => lastFrom rest (if b = Fs.slash then rest else last)

namespace World

def onKernel {α : Type} (prog : K α) : W α :=
  Prog.inside World.kernel (fun kernel w => { w with kernel := kernel }) .kernel prog

def onFs {α : Type} (prog : Fs.P α) : W α :=
  Prog.inside World.fs (fun fs w => { w with fs := fs }) .fs prog

def beginOp : W Unit := update fun w => { w with outstanding := w.outstanding + 1 }

def endOp : W Unit := update fun w => { w with outstanding := w.outstanding - 1 }

/-- safestrcpy to the name and the assignments to the trap frame. -/
def withRegisters (p : Fin NPROC) (path : List Byte) (eip esp : Nat) (w : World) : World :=
  { w with
    name := Function.update w.name p ((lastFrom path path).take 15)
    tf := Function.update w.tf p ⟨eip, esp⟩ }

def setRegisters (p : Fin NPROC) (path : List Byte) (eip esp : Nat) : W Unit :=
  update (withRegisters p path eip esp)

variable (sb : Fs.Superblock)

/-- iunlockput and end_op. -/
def release (ip : Nat) : W Unit := do
  onFs (Fs.iput sb ip)
  endOp

def freeImage (p : Fin NPROC) (pgdir : Option Nat) : W Unit :=
  match pgdir with
  | none => pure ()
  | some pgdir => onKernel (freevm p pgdir)

/-- The label `bad`, with the values that pgdir and ip have there. -/
def bad (p : Fin NPROC) (pgdir ip : Option Nat) : W Bool := do
  freeImage p pgdir
  match ip with
  | none => pure false
  | some ip => do
    release sb ip
    pure false

/-- exec from the ELF header on. -/
def load (p : Fin NPROC) (path : List Byte) (argv : List (List Byte)) (ip : Nat) (file : File) :
    W Bool :=
  match file.elfhdr with
  | none => bad sb p none (some ip)
  | some elf =>
    if elf.magic ≠ ELF_MAGIC then bad sb p none (some ip)
    else do
      let pgdir ← onKernel setupkvm
      let loaded ← onKernel (loadSegments p pgdir file elf.phnum elf.phoff 0)
      match loaded with
      | none => bad sb p (some pgdir) (some ip)
      | some sz => do
        release sb ip
        let stack ← onKernel (newStack p pgdir argv sz)
        match stack with
        | none => bad sb p (some pgdir) none
        | some (sz, esp) => do
          setRegisters p path (file.uint 24) esp
          onKernel (execCommit p pgdir sz)
          pure true

/-- exec; `cwd` is the working directory of the process, and false stands for -1. -/
def exec (p : Fin NPROC) (cwd : Nat) (path : List Byte) (argv : List (List Byte)) : W Bool := do
  beginOp
  let found ← onFs (Fs.namei sb cwd path)
  match found with
  | none => do
    endOp
    pure false
  | some ip => do
    onFs (Fs.ilock sb ip)
    let w ← read
    load sb p path argv ip (inodeFile w.fs ip)

variable {sb : Fs.Superblock} {w w' : World} {p : Fin NPROC} {path : List Byte}
  {argv : List (List Byte)} {ip cwd : Nat}
  {file : File} {out : Bool} {k : Kernel} {f f' : Fs.State} {done : Unit}

theorem onKernel_of_ok {α : Type} {prog : K α} {value : α}
    (success : prog w.kernel = .ok (value, k)) :
    onKernel prog w = .ok (value, { w with kernel := k }) := Prog.inside_of_ok success

theorem onFs_of_ok {α : Type} {prog : Fs.P α} {value : α} (success : prog w.fs = .ok (value, f)) :
    onFs prog w = .ok (value, { w with fs := f }) := Prog.inside_of_ok success

theorem release_of_ok (put : Fs.iput sb ip w.fs = .ok (done, f)) :
    release sb ip w = .ok ((), { w with fs := f, outstanding := w.outstanding - 1 }) :=
      bind_of_ok (onFs_of_ok put)

theorem bad_of_ok (put : Fs.iput sb ip w.fs = .ok (done, f)) :
    bad sb p none (some ip) w = .ok (false, { w with fs := f, outstanding := w.outstanding - 1 }) :=
  bind_of_ok (release_of_ok put)

theorem freeImage_of_ok {d : Nat} (freed : freevm p d w.kernel = .ok (done, k)) :
    freeImage p (some d) w = .ok (done, { w with kernel := k }) := onKernel_of_ok freed

/-- exec of the whole call returns what its kernel half returns, where the file-system calls
return. -/
theorem load_of_exec (put : Fs.iput sb ip w.fs = .ok (done, f))
    (ran : Xv6Cow.exec p (some file) argv w.kernel = .ok (out, k)) :
    ∃ w', load sb p path argv ip file w = .ok (out, w') ∧ w'.kernel = k ∧ w'.fs = f ∧
      w'.outstanding = w.outstanding - 1 ∧ (out = false → w'.tf = w.tf ∧ w'.name = w.name) := by
  unfold Xv6Cow.exec at ran
  unfold load
  dsimp only at ran
  obtain header | ⟨elf, header⟩ := file.elfhdr.eq_none_or_eq_some
  · rw [header] at ran ⊢
    obtain ⟨rfl, rfl⟩ := pure_ok_iff.mp ran
    exact ⟨_, bad_of_ok put, rfl, rfl, rfl, fun _ => ⟨rfl, rfl⟩⟩
  simp only [header] at ran ⊢
  rw [Prog.ite_apply] at ran ⊢
  split at ran
  · rename_i magic
    obtain ⟨rfl, rfl⟩ := pure_ok_iff.mp ran
    rw [if_pos magic]
    exact ⟨_, bad_of_ok put, rfl, rfl, rfl, fun _ => ⟨rfl, rfl⟩⟩
  rename_i magic
  rw [if_neg magic]
  rw [bind_ok_iff] at ran
  obtain ⟨d, k₁, made, ran⟩ := ran
  rw [bind_ok_iff] at ran
  obtain ⟨image, k₃, built, ran⟩ := ran
  unfold execImage at built
  rw [bind_ok_iff] at built
  obtain ⟨loaded, k₂, segments, built⟩ := built
  rw [bind_of_ok (onKernel_of_ok made),
    bind_of_ok (onKernel_of_ok (w := { w with kernel := k₁ }) segments)]
  cases loaded with
  | none =>
    obtain ⟨rfl, rfl⟩ := pure_ok_iff.mp built
    rw [bind_ok_iff] at ran
    obtain ⟨_, r, freed, ran⟩ := ran
    obtain ⟨rfl, rfl⟩ := pure_ok_iff.mp ran
    dsimp only
    unfold bad
    rw [bind_of_ok (freeImage_of_ok (w := { w with kernel := k₃ }) freed)]
    dsimp only
    rw [bind_of_ok (release_of_ok (w := { w with kernel := k }) put)]
    exact ⟨_, rfl, rfl, rfl, rfl, fun _ => ⟨rfl, rfl⟩⟩
  | some sz =>
    dsimp only at built ⊢
    obtain ⟨stack, stacked, rfl⟩ := newStack_of_execStack built
    obtain ⟨w₂, released⟩ : ∃ w₂ :
      World, w₂ = { w with kernel := k₂, fs := f, outstanding := w.outstanding - 1 } := ⟨_, rfl⟩
    have kernel₂ : w₂.kernel = k₂ := by rw [released]
    rw [← kernel₂] at stacked
    rw [bind_of_ok (release_of_ok (w := { w with kernel := k₂ }) put), ← released,
      bind_of_ok (onKernel_of_ok stacked)]
    cases stack with
    | none =>
      dsimp only [Option.map_none] at ran
      rw [bind_ok_iff] at ran
      obtain ⟨_, r, freed, ran⟩ := ran
      obtain ⟨rfl, rfl⟩ := pure_ok_iff.mp ran
      dsimp only
      unfold bad
      rw [bind_of_ok (freeImage_of_ok (w := { w₂ with kernel := k₃ }) freed), released]
      exact ⟨_, rfl, rfl, rfl, rfl, fun _ => ⟨rfl, rfl⟩⟩
    | some pair =>
      dsimp only [Option.map_some] at ran
      rw [bind_ok_iff] at ran
      obtain ⟨_, r, committed, ran⟩ := ran
      obtain ⟨rfl, rfl⟩ := pure_ok_iff.mp ran
      dsimp only
      rw [setRegisters, update_bind]
      have last :
        onKernel (execCommit p d pair.1)
        (withRegisters p path (file.uint 24) pair.2 { w₂ with kernel := k₃ }) =
          .ok (_, _) := onKernel_of_ok committed
      rw [bind_of_ok last, released]
      exact ⟨_, rfl, rfl, rfl, rfl, fun impossible => by cases impossible⟩

theorem exec_of_none (found : Fs.namei sb cwd path w.fs = .ok (none, f)) :
    exec sb p cwd path argv w = .ok (false, { w with fs := f }) := by
  unfold exec
  rw [beginOp, update_bind,
    bind_of_ok (onFs_of_ok (w := { w with outstanding := w.outstanding + 1 }) found)]
  dsimp only
  rw [endOp, update_bind, Prog.pure_apply, Int.add_sub_cancel]

theorem exec_of_found {f₂ f₃ : Fs.State} (found : Fs.namei sb cwd path w.fs = .ok (some ip, f))
    (locked : Fs.ilock sb ip f = .ok (done, f₂)) (put : Fs.iput sb ip f₂ = .ok (done, f₃))
    (ran : Xv6Cow.exec p (some (inodeFile f₂ ip)) argv w.kernel = .ok (out, k)) :
    ∃ w', exec sb p cwd path argv w = .ok (out, w') ∧ w'.kernel = k ∧ w'.fs = f₃ ∧
      w'.outstanding = w.outstanding ∧
      (out = false → w'.tf = w.tf ∧ w'.name = w.name) := by
  obtain ⟨w', loaded, kernel, fs, outstanding, rest⟩ := load_of_exec
    (w := { w with fs := f₂, outstanding := w.outstanding + 1 }) put ran
  rw [Int.add_sub_cancel] at outstanding
  refine ⟨w', ?_, kernel, fs, outstanding, rest⟩
  unfold exec
  rw [beginOp, update_bind,
    bind_of_ok (onFs_of_ok (w := { w with outstanding := w.outstanding + 1 }) found)]
  dsimp only
  rw [bind_of_ok (onFs_of_ok (w := { w with fs := f, outstanding := w.outstanding + 1 }) locked),
    Prog.read_bind]
  exact loaded

/-! ## What a successful exec has done -/

end World

end Xv6Cow
