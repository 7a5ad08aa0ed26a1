import Xv6Cow.Exec
import Xv6Cow.PageTable

/- What the virtual-memory functions never touch. Apart from memory, the
allocator, the slots and the disk they change the rss of processes and add to
the history, and nothing else. -/
namespace Xv6Cow

open Prog (Steps read update halt)

structure Calm (s t : Kernel) : Prop where
  proc : ∀ p, ∃ rss, t.ptable p = { s.ptable p with rss := rss }
  nextpid : t.nextpid = s.nextpid
  initproc : t.initproc = s.initproc
  kpgdir : t.kpgdir = s.kpgdir
  pipes : t.pipes = s.pipes
  log : s.log <:+ t.log

namespace Calm

theorem refl (s : Kernel) : Calm s s :=
  ⟨fun p => ⟨(s.ptable p).rss, rfl⟩, rfl, rfl, rfl, rfl, List.suffix_rfl⟩

theorem trans {s t u : Kernel} (first : Calm s t) (second : Calm t u) : Calm s u := by
  refine ⟨?_, second.nextpid.trans first.nextpid, second.initproc.trans first.initproc,
    second.kpgdir.trans first.kpgdir, second.pipes.trans first.pipes, first.log.trans second.log⟩
  intro p
  obtain ⟨rss, before⟩ := first.proc p
  obtain ⟨rss', after⟩ := second.proc p
  exact ⟨rss', by rw [after, before]⟩

variable {s t : Kernel} (calm : Calm s t) (p : Fin NPROC)
include calm

theorem pgdir : (t.ptable p).pgdir = (s.ptable p).pgdir := by
  obtain ⟨rss, same⟩ := calm.proc p
  rw [same]

theorem sz : (t.ptable p).sz = (s.ptable p).sz := by
  obtain ⟨rss, same⟩ := calm.proc p
  rw [same]

theorem state : (t.ptable p).state = (s.ptable p).state := by
  obtain ⟨rss, same⟩ := calm.proc p
  rw [same]

theorem live : (t.ptable p).live = (s.ptable p).live := by
  obtain ⟨rss, same⟩ := calm.proc p
  rw [same]
  rfl

theorem kstack : (t.ptable p).kstack = (s.ptable p).kstack := by
  obtain ⟨rss, same⟩ := calm.proc p
  rw [same]

end Calm

/-! ## Rules -/

theorem calm_bind {α β : Type} {first : K α} {next : α → K β} (left : Steps Calm first)
    (right : ∀ value, Steps Calm (next value)) : Steps Calm (first >>= next) :=
  Steps.bind Calm.trans left right

theorem calm_pure {α : Type} (value : α) : Steps Calm (pure value : K α) :=
  Steps.pure Calm.refl value

theorem calm_read : Steps Calm (read : K Kernel) := Steps.read Calm.refl

theorem calm_panic {α : Type} (message : String) : Steps Calm (panic message : K α) :=
  Steps.halt (Fault.panic message)

theorem calm_of_same {α : Type} {prog : K α}
    (same : ∀ {s value t}, prog s = .ok (value, t) → t = s) : Steps Calm prog := by
  intro s value t success
  rw [same success]
  exact Calm.refl s

theorem loadWord_calm (ptr : PtePtr) : Steps Calm (loadWord ptr) :=
  calm_of_same (fun success => (loadWord_ok_iff.mp success).2.2)

theorem derefPte_calm (pte : Option PtePtr) : Steps Calm (derefPte pte) := by
  apply calm_of_same
  intro s value t success
  obtain ⟨ptr, -, -, -, same⟩ := derefPte_ok_iff.mp success
  exact same

theorem loadPage_calm (q : Nat) : Steps Calm (loadPage q) :=
  calm_of_same (fun success => (loadPage_ok_iff.mp success).2.2)

theorem loadRefcnt_calm (i : Nat) : Steps Calm (loadRefcnt i) :=
  calm_of_same (fun success => (loadRefcnt_ok_iff.mp success).2.2)

theorem loadSlot_calm (i : Nat) : Steps Calm (loadSlot i) :=
  calm_of_same (fun success => (loadSlot_ok_iff.mp success).2.2)

theorem calm_fields (s : Kernel) (mem : Nat → Page) (refcnt : Nat → Int) (freelist : List Nat)
    (numFree : Nat) (swapSlots : Nat → SwapSlot) (disk : Nat → Block) :
    Calm s { s with
      mem := mem, pageToRefcnt := refcnt, freelist := freelist, numFreePages := numFree,
      swapSlots := swapSlots, disk := disk } :=
  ⟨fun p => ⟨(s.ptable p).rss, rfl⟩, rfl, rfl, rfl, rfl, List.suffix_rfl⟩

theorem storeWord_calm (ptr : PtePtr) (w : Word) : Steps Calm (storeWord ptr w) := by
  intro s value t success
  obtain ⟨-, rfl⟩ := storeWord_ok_iff.mp success
  exact calm_fields s _ _ _ _ _ _

theorem storePage_calm (q : Nat) (page : Page) : Steps Calm (storePage q page) := by
  intro s value t success
  obtain ⟨-, rfl⟩ := storePage_ok_iff.mp success
  exact calm_fields s _ _ _ _ _ _

theorem storeRefcnt_calm (i : Nat) (count : Int) : Steps Calm (storeRefcnt i count) := by
  intro s value t success
  obtain ⟨-, rfl⟩ := storeRefcnt_ok_iff.mp success
  exact calm_fields s _ _ _ _ _ _

theorem storeSlot_calm (i : Nat) (slot : SwapSlot) : Steps Calm (storeSlot i slot) := by
  intro s value t success
  obtain ⟨-, rfl⟩ := storeSlot_ok_iff.mp success
  exact calm_fields s _ _ _ _ _ _

theorem rss_calm (s : Kernel) (p : Fin NPROC) (rss : Word) :
    Calm s (setProc s p { s.ptable p with rss := rss }) := by
  refine ⟨?_, rfl, rfl, rfl, rfl, List.suffix_rfl⟩
  intro q
  by_cases here : q = p
  · subst here
    exact ⟨rss, Function.update_self _ _ _⟩
  · exact ⟨(s.ptable q).rss, Function.update_of_ne here _ _⟩

theorem addRss_calm (p : Fin NPROC) : Steps Calm (addRss p) :=
  Steps.update (fun s => rss_calm s p _)

theorem subRss_calm (p : Fin NPROC) : Steps Calm (subRss p) :=
  Steps.update (fun s => rss_calm s p _)

theorem logEvent_calm (e : Event) : Steps Calm (logEvent e) := by
  apply Steps.update
  intro s
  exact ⟨fun p => ⟨(s.ptable p).rss, rfl⟩, rfl, rfl, rfl, rfl, List.suffix_cons _ _⟩

theorem walkNoAlloc_calm (pgdir v : Nat) : Steps Calm (walkpgdirNoAlloc pgdir v) :=
  calm_of_same (fun success => (walkpgdirNoAlloc_ok_iff.mp success).2.1)

/-! ## The functions -/

theorem kfreed_calm (s : Kernel) (q : Nat) : Calm s (kfreed s q) := by
  unfold kfreed
  split
  · exact calm_fields s _ _ _ _ _ _
  · exact calm_fields s _ _ _ _ _ _

theorem kfree_calm (q : Nat) : Steps Calm (kfree q) := by
  intro s value t success
  obtain ⟨-, -, rfl⟩ := kfree_ok_iff.mp success
  exact kfreed_calm s q

theorem flushFrom_calm (pgdir n i ctr : Nat) : Steps Calm (flushFrom pgdir n i ctr) := by
  induction n generalizing i ctr with
  | zero => exact calm_pure ()
  | succ n ih =>
    rw [flushFrom]
    refine calm_bind (walkNoAlloc_calm _ _) (fun pte => calm_bind (derefPte_calm pte) ?_)
    intro w
    split
    · refine calm_bind ?_ (fun _ => ih _ _)
      exact Steps.ite (fun _ => storeWord_calm _ _) (fun _ => calm_pure ())
    · exact ih _ _

theorem getVictimPage_calm (v : Proc) : Steps Calm (getVictimPage v) :=
  calm_of_same getVictimPage_state

theorem finalPage_calm : Steps Calm finalPage := by
  refine calm_bind calm_read (fun s => ?_)
  split
  · exact Steps.halt _
  · refine calm_bind (subRss_calm _) (fun _ => calm_bind (getVictimPage_calm _) (fun pte => ?_))
    split
    · exact calm_pure _
    · exact calm_bind (flushFrom_calm _ _ _ _) (fun _ =>
        calm_bind (getVictimPage_calm _) (fun _ => calm_pure _))

theorem swapReserve_calm : Steps Calm swapReserve := by
  intro s job t success
  obtain ⟨u, chosen, -, -, -, -, -, rfl⟩ := swapReserve_ok success
  exact (finalPage_calm s _ u chosen).trans (calm_fields u _ _ _ _ _ _)

theorem swapOut_calm : Steps Calm swapOut := by
  intro s u t success
  obtain ⟨job, v, r, reserve, rfl, -, -, -, -, rfl⟩ := swapOut_ok success
  refine (swapReserve_calm s job v reserve).trans ?_
  refine (calm_fields v _ _ _ _ _ _ : Calm v (written v job)).trans ?_
  have freed := kfreed_calm (written v job) job.frame
  exact ⟨freed.proc, freed.nextpid, freed.initproc, freed.kpgdir, freed.pipes,
    freed.log.trans (List.suffix_cons _ _)⟩

theorem kalloc_calm : Steps Calm kalloc := by
  intro s q t success
  refine kalloc_induction (motive := fun s _ t => Calm s t) ?_ ?_ success
  · intro s q rest _
    exact calm_fields s _ _ _ _ _ _
  · intro s t q r _ evicted _ ih
    exact (swapOut_calm s () t evicted).trans ih

theorem walkpgdir_calm (pgdir v : Nat) : Steps Calm (walkpgdir pgdir v) := by
  refine calm_bind (loadWord_calm _) (fun pde => Steps.ite (fun _ => calm_pure _) (fun _ => ?_))
  exact calm_bind kalloc_calm (fun _ => calm_bind (storePage_calm _ _) (fun _ =>
    calm_bind (storeWord_calm _ _) (fun _ => calm_pure _)))

theorem mapPage_calm (pgdir : Nat) (perm : Word) (v q : Nat) :
    Steps Calm (mapPage pgdir perm v q) :=
  calm_bind (walkpgdir_calm _ _) (fun _ => calm_bind (loadWord_calm _) (fun _ =>
    Steps.ite (fun _ => calm_panic _) (fun _ => storeWord_calm _ _)))

theorem mapLoop_calm (pgdir : Nat) (perm : Word) (n v q : Nat) :
    Steps Calm (mapLoop pgdir perm n v q) := by
  induction n generalizing v q with
  | zero => exact calm_pure ()
  | succ n ih => exact calm_bind (mapPage_calm _ _ _ _) (fun _ => ih _ _)

theorem mappages_calm (pgdir va size pa : Nat) (perm : Word) :
    Steps Calm (mappages pgdir va size pa perm) := mapLoop_calm _ _ _ _ _

theorem mapKernel_calm (pgdir : Nat) (maps : List KMap) : Steps Calm (mapKernel pgdir maps) := by
  induction maps with
  | nil => exact calm_pure ()
  | cons k rest ih => exact calm_bind (mappages_calm _ _ _ _ _) (fun _ => ih)

theorem setupkvm_calm : Steps Calm setupkvm :=
  calm_bind kalloc_calm (fun _ => calm_bind (storePage_calm _ _) (fun _ =>
    calm_bind (mapKernel_calm _ _) (fun _ => calm_pure _)))

theorem inituvm_calm (pgdir : Nat) (init : Nat → Byte) (sz : Nat) :
    Steps Calm (inituvm pgdir init sz) :=
  Steps.ite (fun _ => calm_panic _) (fun _ => calm_bind kalloc_calm (fun _ =>
    calm_bind (storePage_calm _ _) (fun _ => calm_bind (mappages_calm _ _ _ _ _) (fun _ =>
      storePage_calm _ _))))

theorem allocLoop_calm (p : Fin NPROC) (pgdir n v : Nat) : Steps Calm (allocLoop p pgdir n v) := by
  induction n generalizing v with
  | zero => exact calm_pure ()
  | succ n ih =>
    exact calm_bind kalloc_calm (fun _ => calm_bind (storePage_calm _ _) (fun _ =>
      calm_bind (mappages_calm _ _ _ _ _) (fun _ => calm_bind (addRss_calm p) (fun _ => ih _))))

theorem allocuvm_calm (p : Fin NPROC) (pgdir oldsz newsz : Nat) :
    Steps Calm (allocuvm p pgdir oldsz newsz) :=
  Steps.ite (fun _ => calm_pure _) (fun _ => Steps.ite (fun _ => calm_pure _) (fun _ =>
    calm_bind (allocLoop_calm _ _ _ _) (fun _ => calm_pure _)))

theorem clearSlot_calm (pte : PtePtr) : Steps Calm (clearSlot pte) :=
  calm_bind (loadWord_calm _) (fun _ => calm_bind (loadSlot_calm _) (fun _ => storeSlot_calm _ _))

theorem decSwapSlotRefcnt_calm (pte : PtePtr) : Steps Calm (decSwapSlotRefcnt pte) :=
  calm_bind (loadWord_calm _) (fun _ => calm_bind (loadSlot_calm _) (fun _ =>
    Steps.ite (fun _ => calm_panic _) (fun _ =>
      calm_bind (storeSlot_calm _ _) (fun _ => calm_pure _))))

theorem dropSwapped_calm (pte : PtePtr) : Steps Calm (dropSwapped pte) :=
  calm_bind (decSwapSlotRefcnt_calm _) (fun _ =>
    Steps.ite (fun _ => clearSlot_calm _) (fun _ => calm_pure ()))

theorem deallocEntry_calm {p : Fin NPROC} {swapped : PtePtr → K Unit}
    (calm : ∀ pte, Steps Calm (swapped pte)) (pte : PtePtr) :
    Steps Calm (deallocEntry p swapped pte) := by
  refine calm_bind (loadWord_calm _) (fun w => Steps.ite (fun _ => ?_) (fun _ => ?_))
  · exact Steps.ite (fun _ => calm_panic _) (fun _ => calm_bind (kfree_calm _) (fun _ =>
      calm_bind (subRss_calm _) (fun _ => storeWord_calm _ _)))
  · exact Steps.ite (fun _ => calm pte) (fun _ => calm_pure ())

theorem deallocLoop_calm {p : Fin NPROC} {swapped : PtePtr → K Unit}
    (calm : ∀ pte, Steps Calm (swapped pte)) (pgdir last v : Nat) :
    Steps Calm (deallocLoop p swapped pgdir last v) := by
  induction remaining : last - v using Nat.strongRecOn generalizing v with
  | ind n ih =>
    rw [deallocLoop]
    refine Steps.ite (fun before => calm_bind (walkNoAlloc_calm _ _) (fun pte => ?_))
      (fun _ => calm_pure ())
    split
    · exact ih _ (by omega) _ rfl
    · exact calm_bind (deallocEntry_calm calm _) (fun _ => ih _ (by omega) _ rfl)

theorem deallocuvm_calm (p : Fin NPROC) (pgdir oldsz newsz : Nat) :
    Steps Calm (deallocuvm p pgdir oldsz newsz) :=
  Steps.ite (fun _ => calm_pure _) (fun _ =>
    calm_bind (deallocLoop_calm dropSwapped_calm _ _ _) (fun _ => calm_pure _))

theorem deallocuvmProc_calm (p : Fin NPROC) (pgdir oldsz newsz : Nat) :
    Steps Calm (deallocuvmProc p pgdir oldsz newsz) :=
  Steps.ite (fun _ => calm_pure _) (fun _ =>
    calm_bind (deallocLoop_calm clearSlot_calm _ _ _) (fun _ => calm_pure _))

theorem freeTables_calm (pgdir n i : Nat) : Steps Calm (freeTables pgdir n i) := by
  induction n generalizing i with
  | zero => exact calm_pure ()
  | succ n ih =>
    exact calm_bind (loadWord_calm _) (fun _ => calm_bind
      (Steps.ite (fun _ => kfree_calm _) (fun _ => calm_pure ())) (fun _ => ih _))

theorem freevm_calm (p : Fin NPROC) (pgdir : Nat) : Steps Calm (freevm p pgdir) :=
  Steps.ite (fun _ => calm_panic _) (fun _ => calm_bind (deallocuvm_calm _ _ _ _) (fun _ =>
    calm_bind (freeTables_calm _ _ _) (fun _ => kfree_calm _)))

theorem freevmProc_calm (p : Fin NPROC) (pgdir : Nat) : Steps Calm (freevmProc p pgdir) :=
  Steps.ite (fun _ => calm_panic _) (fun _ => calm_bind (deallocuvmProc_calm _ _ _ _) (fun _ =>
    calm_bind (freeTables_calm _ _ _) (fun _ => kfree_calm _)))

theorem clearZombieTable_calm (t n j : Nat) : Steps Calm (clearZombieTable t n j) := by
  induction n generalizing j with
  | zero => exact calm_pure ()
  | succ n ih =>
    refine calm_bind ?_ (fun _ => ih _)
    exact calm_bind (loadWord_calm _) (fun _ => Steps.ite
      (fun _ => calm_bind (clearSlot_calm _) (fun _ => storeWord_calm _ _))
      (fun _ => calm_pure ()))

theorem clearZombieFrom_calm (pgdir n i : Nat) : Steps Calm (clearZombieFrom pgdir n i) := by
  induction n generalizing i with
  | zero => exact calm_pure ()
  | succ n ih =>
    exact calm_bind (loadWord_calm _) (fun _ => calm_bind
      (Steps.ite (fun _ => clearZombieTable_calm _ _ _) (fun _ => calm_pure ())) (fun _ => ih _))

theorem clearZombie_calm (pgdir : Nat) : Steps Calm (clearZombie pgdir) :=
  clearZombieFrom_calm _ _ _

theorem clearpteu_calm (pgdir v : Nat) : Steps Calm (clearpteu pgdir v) := by
  refine calm_bind (walkNoAlloc_calm _ _) (fun pte => ?_)
  split
  · exact calm_panic _
  · exact calm_bind (loadWord_calm _) (fun _ => storeWord_calm _ _)

theorem presentEntry_calm (pgdir v : Nat) : Steps Calm (presentEntry pgdir v) := by
  refine calm_bind (walkNoAlloc_calm _ _) (fun pte => ?_)
  split
  · exact calm_panic _
  · exact calm_bind (loadWord_calm _) (fun _ =>
      Steps.ite (fun _ => calm_pure _) (fun _ => calm_panic _))

theorem copyLoop_calm (d pgdir n v : Nat) : Steps Calm (copyLoop d pgdir n v) := by
  induction n generalizing v with
  | zero => exact calm_pure ()
  | succ n ih =>
    refine calm_bind (presentEntry_calm _ _) (fun _ => ?_)
    exact calm_bind kalloc_calm (fun _ => calm_bind (loadPage_calm _) (fun _ =>
      calm_bind (storePage_calm _ _) (fun _ =>
        calm_bind (mappages_calm _ _ _ _ _) (fun _ => ih _))))

theorem copyuvm_calm (pgdir sz : Nat) : Steps Calm (copyuvm pgdir sz) :=
  calm_bind setupkvm_calm (fun _ => calm_bind (copyLoop_calm _ _ _ _) (fun _ => calm_pure _))

theorem cowLoop_calm (p : Fin NPROC) (d pgdir n v : Nat) :
    Steps Calm (cowLoop p d pgdir n v) := by
  induction n generalizing v with
  | zero => exact calm_pure ()
  | succ n ih =>
    refine calm_bind (addRss_calm p) (fun _ => calm_bind (presentEntry_calm _ _) (fun _ => ?_))
    exact calm_bind (storeWord_calm _ _) (fun _ => calm_bind (mappages_calm _ _ _ _ _) (fun _ =>
      calm_bind (loadRefcnt_calm _) (fun _ => calm_bind (storeRefcnt_calm _ _) (fun _ => ih _))))

theorem copyuvmCow_calm (pgdir sz : Nat) (p : Fin NPROC) : Steps Calm (copyuvmCow pgdir sz p) :=
  calm_bind setupkvm_calm (fun _ => calm_bind (cowLoop_calm _ _ _ _ _) (fun _ => calm_pure _))

theorem uva2ka_calm (pgdir v : Nat) : Steps Calm (uva2ka pgdir v) :=
  calm_bind (walkNoAlloc_calm _ _) (fun _ => calm_bind (derefPte_calm _) (fun _ =>
    Steps.ite (fun _ => calm_pure _) (fun _ => calm_pure _)))

theorem copyoutLoop_calm (pgdir : Nat) (buf : Nat → Byte) (va done len : Nat) :
    Steps Calm (copyoutLoop pgdir buf va done len) := by
  induction len using Nat.strongRecOn generalizing va done with
  | ind len ih =>
    rw [copyoutLoop]
    refine Steps.ite (fun more => calm_bind (uva2ka_calm _ _) (fun pa => ?_))
      (fun _ => calm_pure _)
    split
    · exact calm_pure _
    · have room : 0 < PGSIZE - va % PGSIZE := Nat.sub_pos_of_lt (Nat.mod_lt va (by decide))
      exact calm_bind (loadPage_calm _) (fun _ => calm_bind (storePage_calm _ _) (fun _ =>
        ih _ (by omega) _ _))

theorem copyout_calm (pgdir va : Nat) (buf : List Byte) : Steps Calm (copyout pgdir va buf) :=
  copyoutLoop_calm _ _ _ _ _

theorem cowPage_calm (pte : PtePtr) : Steps Calm (cowPage pte) :=
  calm_bind kalloc_calm (fun _ => calm_bind (loadWord_calm _) (fun _ =>
    calm_bind (loadRefcnt_calm _) (fun _ => calm_bind (storeRefcnt_calm _ _) (fun _ =>
      calm_bind (loadPage_calm _) (fun _ => calm_bind (storePage_calm _ _) (fun _ =>
        storeWord_calm _ _))))))

theorem readPageFromSwap_calm (blockno q : Nat) : Steps Calm (readPageFromSwap blockno q) :=
  Steps.ite (fun _ => calm_panic _) (fun _ => calm_bind calm_read (fun _ =>
    calm_bind (storePage_calm _ _) (fun _ => logEvent_calm _)))

theorem swapIn_calm (p : Fin NPROC) (pte : PtePtr) : Steps Calm (swapIn p pte) :=
  calm_bind kalloc_calm (fun _ => calm_bind (addRss_calm p) (fun _ =>
    calm_bind (loadWord_calm _) (fun _ => calm_bind (readPageFromSwap_calm _ _) (fun _ =>
      calm_bind (loadSlot_calm _) (fun _ => calm_bind (storeRefcnt_calm _ _) (fun _ =>
        calm_bind (storeWord_calm _ _) (fun _ => storeSlot_calm _ _)))))))

theorem handlePageFault_calm (p : Fin NPROC) (va : Nat) : Steps Calm (handlePageFault p va) := by
  refine calm_bind calm_read (fun _ => calm_bind (walkNoAlloc_calm _ _) (fun pte => ?_))
  split
  · exact Steps.halt _
  · refine calm_bind (loadWord_calm _) (fun w => Steps.ite (fun _ => ?_) (fun _ => swapIn_calm _ _))
    exact calm_bind (loadRefcnt_calm _) (fun _ =>
      Steps.ite (fun _ => cowPage_calm _) (fun _ => storeWord_calm _ _))

theorem userLoad_calm (p : Fin NPROC) (va : Nat) : Steps Calm (userLoad p va) := by
  refine calm_bind calm_read (fun _ => calm_bind (walkNoAlloc_calm _ _) (fun pte => ?_))
  split
  · exact calm_pure _
  · exact calm_bind (loadWord_calm _) (fun _ => Steps.ite (fun _ => calm_bind (storeWord_calm _ _)
      (fun _ => calm_bind (loadPage_calm _) (fun _ => calm_pure _))) (fun _ => calm_pure _))

theorem userStore_calm (p : Fin NPROC) (va : Nat) (b : Byte) : Steps Calm (userStore p va b) := by
  refine calm_bind calm_read (fun _ => calm_bind (walkNoAlloc_calm _ _) (fun pte => ?_))
  split
  · exact calm_pure _
  · exact calm_bind (loadWord_calm _) (fun _ => Steps.ite (fun _ => calm_bind (storeWord_calm _ _)
      (fun _ => calm_bind (loadPage_calm _) (fun _ => calm_bind (storePage_calm _ _)
        (fun _ => calm_pure _)))) (fun _ => calm_pure _))

theorem userRead_calm (p : Fin NPROC) (va : Nat) : Steps Calm (userRead p va) := by
  refine calm_bind (userLoad_calm p va) (fun first => ?_)
  split
  · exact calm_pure _
  · exact calm_bind (handlePageFault_calm p va) (fun _ => userLoad_calm p va)

theorem faultStore_calm (p : Fin NPROC) (va : Nat) (b : Byte) : Steps Calm (faultStore p va b) :=
  calm_bind (handlePageFault_calm p va) (fun _ => userStore_calm p va b)

theorem userWrite_calm (p : Fin NPROC) (va : Nat) (b : Byte) : Steps Calm (userWrite p va b) :=
  calm_bind (userStore_calm p va b) (fun _ => Steps.ite (fun _ => calm_pure _)
    (fun _ => calm_bind (faultStore_calm p va b) (fun _ =>
      Steps.ite (fun _ => calm_pure _) (fun _ => faultStore_calm p va b))))

theorem loadLoop_calm (pgdir : Nat) (file : File) (n v off left : Nat) :
    Steps Calm (loadLoop pgdir file n v off left) := by
  induction n generalizing v off left with
  | zero => exact calm_pure _
  | succ n ih =>
    refine calm_bind (walkNoAlloc_calm _ _) (fun pte => ?_)
    split
    · exact calm_panic _
    · exact calm_bind (loadWord_calm _) (fun _ => calm_bind (loadPage_calm _) (fun _ =>
        calm_bind (storePage_calm _ _) (fun _ =>
          Steps.ite (fun _ => ih _ _ _) (fun _ => calm_pure _))))

theorem loaduvm_calm (pgdir addr : Nat) (file : File) (offset sz : Nat) :
    Steps Calm (loaduvm pgdir addr file offset sz) :=
  Steps.ite (fun _ => calm_panic _) (fun _ => loadLoop_calm _ _ _ _ _ _)

theorem loadSegment_calm (p : Fin NPROC) (pgdir : Nat) (file : File) (ph : ProgHdr) (sz : Nat) :
    Steps Calm (loadSegment p pgdir file ph sz) :=
  Steps.ite (fun _ => calm_pure _) (fun _ => Steps.ite (fun _ => calm_pure _) (fun _ =>
    calm_bind (allocuvm_calm _ _ _ _) (fun _ => Steps.ite (fun _ => calm_pure _) (fun _ =>
      Steps.ite (fun _ => calm_pure _) (fun _ => calm_bind (loaduvm_calm _ _ _ _ _) (fun _ =>
        Steps.ite (fun _ => calm_pure _) (fun _ => calm_pure _)))))))

theorem loadSegments_calm (p : Fin NPROC) (pgdir : Nat) (file : File) (n off sz : Nat) :
    Steps Calm (loadSegments p pgdir file n off sz) := by
  induction n generalizing off sz with
  | zero => exact calm_pure _
  | succ n ih =>
    unfold loadSegments
    split
    · exact calm_pure _
    · refine Steps.ite (fun _ => calm_bind (loadSegment_calm _ _ _ _ _) (fun next => ?_))
        (fun _ => ih _ _)
      split
      · exact calm_pure _
      · exact ih _ _

theorem pushArgs_calm (pgdir : Nat) (args : List (List Byte)) (argc sp : Nat) :
    Steps Calm (pushArgs pgdir args argc sp) := by
  induction args generalizing argc sp with
  | nil => exact calm_pure _
  | cons arg rest ih =>
    refine Steps.ite (fun _ => calm_pure _) (fun _ => calm_bind (copyout_calm _ _ _) (fun _ =>
      Steps.ite (fun _ => calm_bind (ih _ _) (fun pushed => ?_)) (fun _ => calm_pure _)))
    split <;> exact calm_pure _

theorem execStack_calm (p : Fin NPROC) (pgdir : Nat) (argv : List (List Byte)) (sz : Nat) :
    Steps Calm (execStack p pgdir argv sz) := by
  refine calm_bind (allocuvm_calm _ _ _ _) (fun _ => Steps.ite (fun _ => calm_pure _) (fun _ =>
    calm_bind (clearpteu_calm _ _) (fun _ => calm_bind (pushArgs_calm _ _ _ _) (fun pushed => ?_))))
  split
  · exact calm_pure _
  · exact calm_bind (copyout_calm _ _ _) (fun _ =>
      Steps.ite (fun _ => calm_pure _) (fun _ => calm_pure _))

theorem execImage_calm (p : Fin NPROC) (pgdir : Nat) (file : File) (elf : ElfHdr)
    (argv : List (List Byte)) : Steps Calm (execImage p pgdir file elf argv) := by
  refine calm_bind (loadSegments_calm _ _ _ _ _ _) (fun loaded => ?_)
  split
  · exact calm_pure _
  · exact execStack_calm _ _ _ _

/-! ## The history only grows -/

def Grows (s t : Kernel) : Prop := s.log <:+ t.log

theorem grows_of_calm {α : Type} {prog : K α} (calm : Steps Calm prog) : Steps Grows prog :=
  fun s value t success => (calm s value t success).log

theorem grows_bind {α β : Type} {first : K α} {next : α → K β} (left : Steps Grows first)
    (right : ∀ value, Steps Grows (next value)) : Steps Grows (first >>= next) :=
  Steps.bind (fun before after => before.trans after) left right

theorem grows_update {change : Kernel → Kernel} (same : ∀ s, (change s).log = s.log) :
    Steps Grows (update change : K Unit) :=
  Steps.update (fun s => ⟨[], (same s).symm⟩)

theorem updateProc_grows (p : Fin NPROC) (change : Proc → Proc) :
    Steps Grows (updateProc p change) := grows_update (fun _ => rfl)

theorem allocproc_grows : Steps Grows allocproc := by
  refine grows_bind (grows_of_calm calm_read) (fun s => ?_)
  split
  · exact grows_of_calm (calm_pure _)
  · exact grows_bind (updateProc_grows _ _) (fun _ => grows_bind (grows_update (fun _ => rfl))
      (fun _ => grows_bind (grows_of_calm kalloc_calm) (fun _ =>
        grows_bind (updateProc_grows _ _) (fun _ => grows_of_calm (calm_pure _)))))

theorem forkWith_grows {copy : Nat → Nat → Fin NPROC → K Nat}
    (calm : ∀ pgdir sz np, Steps Calm (copy pgdir sz np)) (p : Fin NPROC) :
    Steps Grows (forkWith copy p) := by
  refine grows_bind allocproc_grows (fun np => ?_)
  split
  · exact grows_of_calm (calm_pure _)
  · exact grows_bind (grows_of_calm calm_read) (fun _ => grows_bind (grows_of_calm (calm _ _ _))
      (fun _ => grows_bind (updateProc_grows _ _) (fun _ => grows_of_calm (calm_pure _))))

theorem exit_grows (p : Fin NPROC) : Steps Grows (exit p) :=
  grows_bind (grows_of_calm calm_read) (fun _ => Steps.ite (fun _ => grows_of_calm (calm_panic _))
    (fun _ => grows_update (fun _ => rfl)))

theorem reap_grows (q : Fin NPROC) : Steps Grows (reap q) :=
  grows_bind (grows_of_calm calm_read) (fun _ => grows_bind (grows_of_calm (clearZombie_calm _))
    (fun _ => grows_bind (grows_of_calm (kfree_calm _)) (fun _ => grows_bind (updateProc_grows _ _)
      (fun _ => grows_bind (grows_of_calm (subRss_calm _)) (fun _ =>
        grows_bind (grows_of_calm (freevmProc_calm _ _)) (fun _ => updateProc_grows _ _))))))

theorem wait_grows (p : Fin NPROC) : Steps Grows (wait p) := by
  refine grows_bind (grows_of_calm calm_read) (fun s => ?_)
  split
  · exact grows_bind (reap_grows _) (fun _ => grows_of_calm (calm_pure _))
  · exact Steps.ite (fun _ => grows_of_calm (calm_pure _)) (fun _ => grows_of_calm (calm_pure _))

/-! ## Calls that change one entry of ptable -/

/-- What holds of all that a call by process `p` does, as long as `p` keeps its state. -/
structure Covers (p : Fin NPROC) (R : Kernel → Kernel → Prop) : Prop where
  trans : ∀ {s t u}, R s t → R t u → R s u
  calm : ∀ {s t}, Calm s t → R s t
  own : ∀ (s : Kernel) (proc : Proc), proc.state = (s.ptable p).state → R s (setProc s p proc)
  rest : ∀ {s t : Kernel}, t.ptable = s.ptable → t.log = s.log → R s t

theorem grows_covers (p : Fin NPROC) : Covers p Grows :=
  ⟨List.IsSuffix.trans, Calm.log, fun _ _ _ => List.suffix_rfl, fun _ same => ⟨[], same.symm⟩⟩

section Covers

variable {p : Fin NPROC} {R : Kernel → Kernel → Prop} (covers : Covers p R)
include covers

theorem Covers.of_calm {α : Type} {prog : K α} (calm : Steps Calm prog) : Steps R prog :=
  fun s value t success => covers.calm (calm s value t success)

theorem Covers.bind {α β : Type} {first : K α} {next : α → K β} (left : Steps R first)
    (right : ∀ value, Steps R (next value)) : Steps R (first >>= next) :=
  Steps.bind covers.trans left right

theorem Covers.updateProc {change : Proc → Proc}
    (state : ∀ proc, (change proc).state = proc.state) :
    Steps R (updateProc p change) :=
  Steps.update (fun s => covers.own s _ (state _))

theorem growproc_steps (n : Int) : Steps R (growproc p n) := by
  refine covers.bind (covers.of_calm calm_read) (fun s => ?_)
  refine Steps.ite (fun _ => covers.of_calm (calm_pure _))
    (fun _ => Steps.ite (fun _ => ?_) (fun _ => ?_))
  · refine covers.bind (covers.of_calm (allocuvm_calm _ _ _ _)) (fun _ => ?_)
    exact Steps.ite (fun _ => covers.of_calm (calm_pure _)) (fun _ =>
      covers.bind (covers.updateProc (fun _ => rfl)) (fun _ => covers.of_calm (calm_pure _)))
  · refine covers.bind (covers.of_calm (deallocuvm_calm _ _ _ _)) (fun _ => ?_)
    exact Steps.ite (fun _ => covers.of_calm (calm_pure _)) (fun _ =>
      covers.bind (covers.updateProc (fun _ => rfl)) (fun _ => covers.of_calm (calm_pure _)))

theorem execCommit_steps (pgdir sz : Nat) : Steps R (execCommit p pgdir sz) :=
  covers.bind (covers.of_calm calm_read) (fun _ => covers.bind (covers.updateProc (fun _ => rfl))
    (fun _ => covers.of_calm (freevm_calm _ _)))

theorem exec_steps (file : Option File) (argv : List (List Byte)) : Steps R (exec p file argv) := by
  unfold exec
  split
  · exact covers.of_calm (calm_pure _)
  · split
    · exact covers.of_calm (calm_pure _)
    · refine Steps.ite (fun _ => covers.of_calm (calm_pure _)) (fun _ =>
        covers.bind (covers.of_calm setupkvm_calm) (fun _ =>
          covers.bind (covers.of_calm (execImage_calm _ _ _ _ _)) (fun image => ?_)))
      split
      · exact covers.bind (covers.of_calm (freevm_calm _ _)) (fun _ => covers.of_calm (calm_pure _))
      · exact covers.bind (execCommit_steps covers _ _) (fun _ => covers.of_calm (calm_pure _))

theorem pipealloc_steps (room : Nat) : Steps R (pipealloc room) :=
  Steps.ite (fun _ => covers.of_calm (calm_pure _)) (fun _ =>
    covers.bind (covers.of_calm kalloc_calm) (fun _ => covers.bind
      (Steps.update (fun _ => covers.rest rfl rfl)) (fun _ => covers.of_calm (calm_pure _))))

theorem pipeclose_steps (k : Nat) (writable : Bool) : Steps R (pipeclose k writable) := by
  refine covers.bind (covers.of_calm calm_read) (fun s => ?_)
  split
  · exact Steps.halt _
  · exact Steps.ite (fun _ => Steps.update (fun _ => covers.rest rfl rfl)) (fun _ =>
      covers.bind (covers.of_calm (kfree_calm _))
      (fun _ => Steps.update (fun _ => covers.rest rfl rfl)))

end Covers

end Xv6Cow
