import Xv6Cow.Release

/- fork of a process some of whose pages are swapped out. -/
namespace Xv6Cow

open Function (update_self update_of_ne)
open Prog (bind_ok_iff bind_of_ok bind_of_error)
open Runs

variable {loan : Set Nat} {g h : Ghost} {s t : Kernel} {p q np : Fin NPROC} {d v : Nat}

/-! ## What processes see in clean runs -/

theorem Sound.view {a : Tasks} (sound : Sound loan g s) (shows : Shows g s a)
    (live : (s.ptable p).live = true) (user : v < NUPAGE) : View s p v = (a.table p).pages v := by
  rw [(shows.task p).pages live v user]
  exact sound.settled.rep.space (sound.settled.inside live) user

theorem CleanStep.write_private {va : Nat} {b : Byte} {out : Out} (sound : Sound loan g s)
    (step : CleanStep s (.write p va b) out t) (other : q ≠ p) (live : (s.ptable q).live = true)
    (user : v < NUPAGE) : View t q v = View s q v := by
  obtain ⟨_, h, -, sound', -, goes⟩ := clean_step sound step.1 step.2
  obtain ⟨a, next, shows⟩ := goes _ (g.shows_tasks s)
  have table : a.table q = (g.tasks s).table q := by
    rw [(Prod.mk.inj next).2]
    exact update_of_ne other _ _
  have live' : (t.ptable q).live = true := by
    have state := (shows.task q).state
    rw [table] at state
    unfold Proc.live at live ⊢
    rw [← state]
    exact live
  rw [sound'.view shows live' user, table, sound.view (g.shows_tasks s) live user]

end Xv6Cow
