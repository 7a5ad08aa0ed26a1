import Xv6Cow.ExecRoom

/- sbrk, fork, exec and pipe, with enough memory and without. -/
namespace Xv6Cow

variable {loan : Set Nat} {g : Ghost} {s t : Kernel} {p : Fin NPROC} {label : Label}

/-- Enough free pages for what the call asks for. Where it gives memory back or copies it, no page
is swapped out. -/
def Enough (s : Kernel) : Label → Prop
  | .sbrk p n => Affords s p n ∧ Returns s p n
  | .fork p => firstUnused s = none ∨
      Unswapped s.mem (s.ptable p).pgdir 0 (pagesOf (s.ptable p).sz) ∧
        11 + tablesFor (pagesOf (s.ptable p).sz) ≤ s.freelist.length ∧
        ∀ u, u < pagesOf (s.ptable p).sz → pteOf s.mem (s.ptable p).pgdir u ≠ 0#32
  | .exec p file argv => ∀ contents elf, file = some contents → contents.elfhdr = some elf →
      elf.magic = ELF_MAGIC → InMemory s p ∧ RoomFor s contents ∧
        ∀ arg ∈ argv, arg.length < (NPHYS + NPAGE) * PGSIZE
  | .pipealloc room => room < 2 ∨ s.freelist ≠ []
  | _ => False

end Xv6Cow
