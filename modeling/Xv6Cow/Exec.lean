import Xv6Cow.Process

/- exec.c and loaduvm of vm.c. The file is the contents of the inode that namei
found; the register values that exec leaves in the trap frame are not part of the
state. -/
namespace Xv6Cow

open Prog (read update halt)

structure File where
  size : Nat
  bytes : Nat → Byte

/-- readi on a regular file: how many bytes it copies, or `none` for -1. -/
def File.readi (file : File) (off n : Nat) : Option Nat :=
  if file.size < off ∨ 2 ^ 32 ≤ off + n then none else some (min n (file.size - off))

def File.uint (file : File) (off : Nat) : Nat :=
  (joinBytes (file.bytes off) (file.bytes (off + 1)) (file.bytes (off + 2))
    (file.bytes (off + 3))).toNat

def File.ushort (file : File) (off : Nat) : Nat :=
  (joinBytes (file.bytes off) (file.bytes (off + 1)) 0 0).toNat

def ELF_MAGIC : Nat := 0x464C457F
def ELF_PROG_LOAD : Nat := 1
def MAXARG : Nat := 32

/-- The fields of struct elfhdr that exec reads. -/
structure ElfHdr where
  magic : Nat
  phoff : Nat
  phnum : Nat

/-- The fields of struct proghdr that exec reads. -/
structure ProgHdr where
  type : Nat
  off : Nat
  vaddr : Nat
  filesz : Nat
  memsz : Nat

/-- `none` when readi returns fewer than sizeof(struct elfhdr) bytes. -/
def File.elfhdr (file : File) : Option ElfHdr :=
  if file.readi 0 52 = some 52 then some ⟨file.uint 0, file.uint 28, file.ushort 44⟩ else none

def File.proghdr (file : File) (off : Nat) : Option ProgHdr :=
  if file.readi off 32 = some 32 then
    some ⟨file.uint off, file.uint (off + 4), file.uint (off + 8), file.uint (off + 16),
      file.uint (off + 20)⟩
  else none

/-- The loop of loaduvm over `n` pages from `v` on, at file offset `off` with `left`
bytes to go. A short read has been copied when loaduvm gives up. -/
def loadLoop (pgdir : Nat) (file : File) : Nat → Nat → Nat → Nat → K Bool
  | 0, _, _, _ => pure true
  | n + 1, v, off, left => do
    let pte ← walkpgdirNoAlloc pgdir v
    match pte with
    | none => panic "loaduvm: address should exist"
    | some ptr => do
      let w ← loadWord ptr
      let page ← loadPage (ppn w)
      let want := min left PGSIZE
      let got := file.readi off want
      storePage (ppn w) (page.patch 0 (got.getD 0) (fun k => file.bytes (off + k)))
      if got = some want then
        loadLoop pgdir file n (v + 1) ((off + PGSIZE) % 2 ^ 32) (left - PGSIZE)
      else pure false

/-- loaduvm; false stands for -1. -/
def loaduvm (pgdir addr : Nat) (file : File) (offset sz : Nat) : K Bool :=
  if addr % PGSIZE ≠ 0 then panic "loaduvm: addr must be page aligned"
  else loadLoop pgdir file (pagesOf sz) (addr / PGSIZE) offset sz

/-- One loadable segment; `none` stands for `goto bad`. -/
def loadSegment (p : Fin NPROC) (pgdir : Nat) (file : File) (ph : ProgHdr) (sz : Nat) :
    K (Option Nat) :=
  if ph.memsz < ph.filesz then pure none
  else if (ph.vaddr + ph.memsz) % 2 ^ 32 < ph.vaddr then pure none
  else do
    let sz ← allocuvm p pgdir sz ((ph.vaddr + ph.memsz) % 2 ^ 32)
    if sz = 0 then pure none
    else if ph.vaddr % PGSIZE ≠ 0 then pure none
    else do
      let loaded ← loaduvm pgdir ph.vaddr file ph.off ph.filesz
      if loaded then pure (some sz) else pure none

/-- The loop over the program headers. -/
def loadSegments (p : Fin NPROC) (pgdir : Nat) (file : File) : Nat → Nat → Nat → K (Option Nat)
  | 0, _, sz => pure (some sz)
  | n + 1, off, sz =>
    match file.proghdr off with
    | none => pure none
    | some ph =>
      if ph.type = ELF_PROG_LOAD then do
        let next ← loadSegment p pgdir file ph sz
        match next with
        | none => pure none
        | some sz => loadSegments p pgdir file n ((off + 32) % 2 ^ 32) sz
      else loadSegments p pgdir file n ((off + 32) % 2 ^ 32) sz

/-- `sp - n` on uints. -/
def below (sp n : Nat) : Nat := (((sp : Int) - n) % 2 ^ 32).toNat

/-- The loop that pushes the argument strings. Returns the stack pointer and the
addresses of the strings. -/
def pushArgs (pgdir : Nat) : List (List Byte) → Nat → Nat → K (Option (Nat × List Nat))
  | [], _, sp => pure (some (sp, []))
  | arg :: rest, argc, sp =>
    if MAXARG ≤ argc then pure none
    else do
      let top := below sp (arg.length + 1) / 4 * 4
      let copied ← copyout pgdir top (arg ++ [0#8])
      if copied then do
        let pushed ← pushArgs pgdir rest (argc + 1) top
        match pushed with
        | none => pure none
        | some (sp, ptrs) => pure (some (sp, top :: ptrs))
      else pure none

def uintBytes (n : Nat) : List Byte :=
  [BitVec.ofNat 8 n, BitVec.ofNat 8 (n / 256), BitVec.ofNat 8 (n / 65536),
    BitVec.ofNat 8 (n / 16777216)]

/-- The array ustack: a fake return address, argc, argv and the pointers. -/
def ustack (sp : Nat) (ptrs : List Nat) : List Byte :=
  ([0xffffffff, ptrs.length, below sp ((ptrs.length + 1) * 4)] ++ ptrs ++ [0]).flatMap uintBytes

/-- The stack of the new image: two pages, the lower one without PTE_U, and the
arguments on the upper one. Returns the size of the image. -/
def execStack (p : Fin NPROC) (pgdir : Nat) (argv : List (List Byte)) (sz : Nat) :
    K (Option Nat) := do
  let top ← allocuvm p pgdir (pagesOf sz * PGSIZE) (pagesOf sz * PGSIZE + 2 * PGSIZE)
  if top = 0 then pure none
  else do
    clearpteu pgdir (top / PGSIZE - 2)
    let pushed ← pushArgs pgdir argv 0 top
    match pushed with
    | none => pure none
    | some (sp, ptrs) => do
      let copied ← copyout pgdir (below sp ((3 + ptrs.length + 1) * 4)) (ustack sp ptrs)
      if copied then pure (some top) else pure none

/-- Everything between setupkvm and the commit. -/
def execImage (p : Fin NPROC) (pgdir : Nat) (file : File) (elf : ElfHdr)
    (argv : List (List Byte)) : K (Option Nat) := do
  let loaded ← loadSegments p pgdir file elf.phnum elf.phoff 0
  match loaded with
  | none => pure none
  | some sz => execStack p pgdir argv sz

/-- The commit: the process gets the new image and the old one is freed. -/
def execCommit (p : Fin NPROC) (pgdir sz : Nat) : K Unit := do
  let s ← read
  updateProc p (fun proc => { proc with pgdir := pgdir, sz := sz })
  freevm p (s.ptable p).pgdir

/-- exec; `file` is none when namei finds nothing, and false stands for -1. -/
def exec (p : Fin NPROC) (file : Option File) (argv : List (List Byte)) : K Bool :=
  match file with
  | none => pure false
  | some file =>
    match file.elfhdr with
    | none => pure false
    | some elf =>
      if elf.magic ≠ ELF_MAGIC then pure false
      else do
        let pgdir ← setupkvm
        let image ← execImage p pgdir file elf argv
        match image with
        | none => do
          freevm p pgdir
          pure false
        | some sz => do
          execCommit p pgdir sz
          pure true

end Xv6Cow
