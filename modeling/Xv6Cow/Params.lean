import Mathlib.Algebra.BigOperators.Fin

/- The constants of memlayout.h, mmu.h, param.h, fs.h and defs.h, under the
values they have in this tree. Addresses and sizes are natural numbers; page
numbers are addresses shifted right by PTXSHIFT. -/
namespace Xv6Cow

/-- A 32-bit `uint`: a page-table entry, or a word of memory. -/
abbrev Word : Type := BitVec 32

def PGSIZE : Nat := 4096
def NPDENTRIES : Nat := 1024
def NPTENTRIES : Nat := 1024

def EXTMEM : Nat := 0x100000
def PHYSTOP : Nat := 0x400000
def DEVSPACE : Nat := 0xFE000000
def KERNBASE : Nat := 0x80000000
def KERNLINK : Nat := KERNBASE + EXTMEM

/-- V2P(end) and V2P(data), from the linked kernel's symbol table (kernel.sym). -/
def endPa : Nat := 0x118a40
def dataPa : Nat := 0x109000

def NPROC : Nat := 64
def BSIZE : Nat := 512
def SWAPBLOCKS : Nat := 400 * 8
def BPPAGE : Nat := PGSIZE / BSIZE
def SWAPBASE : Nat := 2
def NPAGE : Nat := SWAPBLOCKS / BPPAGE

/-- Entries of `page_to_refcnt`, and physical pages the kernel maps. -/
def NPHYS : Nat := PHYSTOP / PGSIZE

/-- Page numbers of user addresses: those below KERNBASE. -/
def NUPAGE : Nat := KERNBASE / PGSIZE

/-- Page numbers of all 32-bit addresses. -/
def NVPAGE : Nat := 2 ^ 20

/-- The first page `freerange` frees: PGROUNDUP(end). -/
def firstPage : Nat := (endPa + PGSIZE - 1) / PGSIZE

def PTE_P : Word := 0x001#32
def PTE_W : Word := 0x002#32
def PTE_U : Word := 0x004#32
def PTE_SW : Word := 0x008#32
def PTE_A : Word := 0x020#32
/-- Set by the paging hardware on a write; the kernel never looks at it. -/
def PTE_D : Word := 0x040#32

theorem NPHYS_eq : NPHYS = 1024 := rfl
theorem NUPAGE_eq : NUPAGE = 524288 := rfl
theorem NVPAGE_eq : NVPAGE = 1048576 := rfl
theorem NPAGE_eq : NPAGE = 400 := rfl
theorem BPPAGE_eq : BPPAGE = 8 := rfl
theorem SWAPBASE_eq : SWAPBASE = 2 := rfl
theorem firstPage_eq : firstPage = 281 := rfl
theorem PGSIZE_eq : PGSIZE = 4096 := rfl
theorem KERNBASE_eq : KERNBASE = 2147483648 := rfl
theorem PHYSTOP_eq : PHYSTOP = 4194304 := rfl
instance : NeZero NPROC := ⟨by decide⟩

end Xv6Cow
