import Xv6Cow.Params
import Mathlib.Logic.Function.Basic

namespace Xv6Cow

/-- `w & flag`, as the condition of an `if`. -/
def has (w flag : Word) : Bool := w &&& flag != 0#32

/-- `w >> PTXSHIFT`. -/
def ppn (w : Word) : Nat := (w >>> 12).toNat

/-- PTE_FLAGS(w). -/
def pteFlags (w : Word) : Word := w &&& 0xFFF#32

/-- The physical address of page number `q`. -/
def pageWord (q : Nat) : Word := BitVec.ofNat 32 (q * PGSIZE)

/-- A word that fits the twelve flag bits. -/
def Low (f : Word) : Prop := f >>> 12 = 0#32

instance (f : Word) : Decidable (Low f) := inferInstanceAs (Decidable (_ = _))

private theorem has_twoPow (w : Word) (i : Nat) :
    has w (BitVec.twoPow 32 i) = (w.getLsbD i) := by
  unfold has
  rw [BitVec.and_twoPow]
  cases bit : w.getLsbD i with
  | false => simp
  | true =>
    have inside : i < 32 := BitVec.lt_of_getLsbD bit
    have positive : BitVec.twoPow 32 i ≠ 0#32 := by
      intro zero
      have same := congrArg (fun v => BitVec.getLsbD v i) zero
      simp [inside] at same
    simp [positive]

theorem has_P (w : Word) : has w PTE_P = w.getLsbD 0 := has_twoPow w 0
theorem has_W (w : Word) : has w PTE_W = w.getLsbD 1 := has_twoPow w 1
theorem has_U (w : Word) : has w PTE_U = w.getLsbD 2 := has_twoPow w 2
theorem has_SW (w : Word) : has w PTE_SW = w.getLsbD 3 := has_twoPow w 3
theorem has_A (w : Word) : has w PTE_A = w.getLsbD 5 := has_twoPow w 5

theorem ppn_lt (w : Word) : ppn w < NVPAGE := by
  unfold ppn
  rw [BitVec.toNat_ushiftRight, Nat.shiftRight_eq_div_pow, NVPAGE_eq]
  have := w.isLt
  omega

theorem ppn_or {w f : Word} (low : Low f) : ppn (w ||| f) = ppn w := by
  unfold ppn
  rw [BitVec.ushiftRight_or_distrib, low, BitVec.or_zero]

theorem ppn_andNot {w f : Word} (low : Low f) : ppn (w &&& ~~~f) = ppn w := by
  unfold ppn
  congr 1
  apply BitVec.eq_of_getLsbD_eq
  intro i inside
  have bit := congrArg (fun v => BitVec.getLsbD v i) low
  simp only [BitVec.getLsbD_ushiftRight, BitVec.getLsbD_and, BitVec.getLsbD_not,
    BitVec.getLsbD_zero] at bit ⊢
  rw [bit]
  by_cases high : 12 + i < 32
  · simp [high]
  · simp [BitVec.getLsbD_of_ge w (12 + i) (by omega)]

/-- Clearing a flag leaves the others. -/
theorem bit_andNot (w : Word) {f : Word} {i : Nat} (other : f.getLsbD i = false) :
    (w &&& ~~~f).getLsbD i = w.getLsbD i := by
  rw [BitVec.getLsbD_and, BitVec.getLsbD_not, other]
  by_cases inside : i < 32
  · simp [inside]
  · simp [BitVec.getLsbD_of_ge w i (by omega)]

theorem ppn_pageWord {q : Nat} (small : q < NVPAGE) : ppn (pageWord q) = q := by
  unfold ppn pageWord
  rw [BitVec.toNat_ushiftRight, Nat.shiftRight_eq_div_pow, BitVec.toNat_ofNat, PGSIZE_eq]
  rw [NVPAGE_eq] at small
  omega

theorem pageWord_low (q i : Nat) (inside : i < 12) : (pageWord q).getLsbD i = false := by
  unfold pageWord
  rw [BitVec.getLsbD_ofNat, PGSIZE_eq, show (4096 : Nat) = 2 ^ 12 from rfl,
    Nat.testBit_mul_two_pow]
  simp
  omega

theorem low_high {f : Word} (low : Low f) (i : Nat) (high : 12 ≤ i) : f.getLsbD i = false := by
  have bit := congrArg (fun v => BitVec.getLsbD v (i - 12)) low
  simp only [BitVec.getLsbD_ushiftRight, BitVec.getLsbD_zero] at bit
  rwa [show 12 + (i - 12) = i by omega] at bit

theorem flag_mask (i : Nat) : (0xFFF#32 : Word).getLsbD i = decide (i < 12) := by
  rw [show (0xFFF#32 : Word) = BitVec.ofNat 32 (2 ^ 12 - 1) from rfl, BitVec.getLsbD_ofNat,
    Nat.testBit_two_pow_sub_one]
  by_cases small : i < 12
  · simp [small]
    omega
  · simp [small]

theorem pteFlags_bit (w : Word) (i : Nat) :
    (pteFlags w).getLsbD i = (w.getLsbD i && decide (i < 12)) := by
  unfold pteFlags
  rw [BitVec.getLsbD_and, flag_mask]

theorem low_pteFlags (w : Word) : Low (pteFlags w) := by
  unfold Low
  apply BitVec.eq_of_getLsbD_eq
  intro i _
  rw [BitVec.getLsbD_ushiftRight, pteFlags_bit]
  simp

theorem low_or {f g : Word} (left : Low f) (right : Low g) : Low (f ||| g) := by
  unfold Low at *
  rw [BitVec.ushiftRight_or_distrib, left, right, BitVec.or_zero]

theorem low_and {f g : Word} (left : Low f) : Low (f &&& g) := by
  unfold Low at *
  rw [BitVec.ushiftRight_and_distrib, left, BitVec.zero_and]

theorem pteFlags_of_low {f : Word} (low : Low f) : pteFlags f = f := by
  apply BitVec.eq_of_getLsbD_eq
  intro i _
  rw [pteFlags_bit]
  by_cases small : i < 12
  · simp [small]
  · rw [low_high low i (by omega)]
    rfl

theorem pteFlags_pageWord_or {q : Nat} {f : Word} (low : Low f) :
    pteFlags (pageWord q ||| f) = f := by
  apply BitVec.eq_of_getLsbD_eq
  intro i _
  rw [pteFlags_bit, BitVec.getLsbD_or]
  by_cases small : i < 12
  · simp [small, pageWord_low q i small]
  · rw [low_high low i (by omega)]
    simp [small]

theorem ppn_pageWord_or {q : Nat} {f : Word} (small : q < NVPAGE) (low : Low f) :
    ppn (pageWord q ||| f) = q := by
  rw [ppn_or low, ppn_pageWord small]

/-- What an entry without PTE_P and with PTE_SW stands for: a page in swap. -/
def isSwapped (w : Word) : Bool := !has w PTE_P && has w PTE_SW

theorem isSwapped_eq (w : Word) : isSwapped w = (!w.getLsbD 0 && w.getLsbD 3) := by
  unfold isSwapped
  rw [has_P, has_SW]

theorem isSwapped_of_present {w : Word} (present : has w PTE_P = true) :
    isSwapped w = false := by
  unfold isSwapped
  rw [present]
  rfl

/-! Pages as words, and the bytes in them (little-endian). -/

/-- The 4096 bytes of a page, as the words the kernel and the MMU read. -/
abbrev Page : Type := Fin 1024 → Word

abbrev Byte : Type := BitVec 8

def wordIndex (offset : Nat) : Fin 1024 := ⟨offset / 4 % 1024, Nat.mod_lt _ (by decide)⟩

def Page.byte (page : Page) (offset : Nat) : Byte :=
  (page (wordIndex offset) >>> (8 * (offset % 4))).setWidth 8

/-- The word whose four bytes are given from the lowest address up. -/
def joinBytes (b0 b1 b2 b3 : Byte) : Word :=
  b3.setWidth 32 <<< 24 ||| b2.setWidth 32 <<< 16 ||| b1.setWidth 32 <<< 8 ||| b0.setWidth 32

def Page.ofBytes (bytes : Nat → Byte) : Page := fun i =>
  joinBytes (bytes (4 * i.val)) (bytes (4 * i.val + 1)) (bytes (4 * i.val + 2))
    (bytes (4 * i.val + 3))

theorem joinBytes_bit (b0 b1 b2 b3 : Byte) (i : Nat) :
    (joinBytes b0 b1 b2 b3).getLsbD i =
      if i < 8 then b0.getLsbD i else if i < 16 then b1.getLsbD (i - 8)
      else if i < 24 then b2.getLsbD (i - 16) else if i < 32 then b3.getLsbD (i - 24)
      else false := by
  unfold joinBytes
  simp only [BitVec.getLsbD_or, BitVec.getLsbD_shiftLeft, BitVec.getLsbD_setWidth]
  have above : ∀ (b : Byte) (j : Nat), 8 ≤ j → b.getLsbD j = false :=
    fun b j high => BitVec.getLsbD_of_ge b j high
  by_cases h0 : i < 8
  · simp [h0, show i < 16 by omega, show i < 24 by omega, show i < 32 by omega]
  · by_cases h1 : i < 16
    · simp [h0, h1, show i < 24 by omega, show i < 32 by omega, above b0 i (by omega),
        show i - 8 < 32 by omega]
    · by_cases h2 : i < 24
      · simp [h0, h1, h2, show i < 32 by omega, above b0 i (by omega),
          above b1 (i - 8) (by omega), show i - 16 < 32 by omega]
      · by_cases h3 : i < 32
        · simp [h0, h1, h2, h3, above b0 i (by omega), above b1 (i - 8) (by omega),
            above b2 (i - 16) (by omega), show i - 24 < 32 by omega]
        · simp [h0, h1, h2, h3]

theorem Page.byte_ofBytes (bytes : Nat → Byte) (offset : Nat) (inside : offset < PGSIZE) :
    (Page.ofBytes bytes).byte offset = bytes offset := by
  rw [PGSIZE_eq] at inside
  have index : (wordIndex offset).val = offset / 4 := by
    simp only [wordIndex]
    omega
  unfold Page.byte Page.ofBytes
  rw [index]
  apply BitVec.eq_of_getLsbD_eq
  intro i small
  rw [BitVec.getLsbD_setWidth, BitVec.getLsbD_ushiftRight, joinBytes_bit]
  have split : offset % 4 = 0 ∨ offset % 4 = 1 ∨ offset % 4 = 2 ∨ offset % 4 = 3 := by omega
  rcases split with part | part | part | part
  · rw [show bytes offset = bytes (4 * (offset / 4)) by congr 1; omega, part]
    simp [small]
  · rw [show bytes offset = bytes (4 * (offset / 4) + 1) by congr 1; omega, part]
    simp [small, show 8 + i < 16 by omega]
  · rw [show bytes offset = bytes (4 * (offset / 4) + 2) by congr 1; omega, part]
    simp [small, show ¬ 16 + i < 8 by omega, show ¬ 16 + i < 16 by omega,
      show 16 + i < 24 by omega]
  · rw [show bytes offset = bytes (4 * (offset / 4) + 3) by congr 1; omega, part]
    simp [small, show ¬ 24 + i < 8 by omega, show ¬ 24 + i < 16 by omega,
      show ¬ 24 + i < 24 by omega, show 24 + i < 32 by omega]

/-- Overwrite `count` bytes from `offset` on; `memmove` into a page. -/
def Page.patch (page : Page) (offset count : Nat) (bytes : Nat → Byte) : Page :=
  Page.ofBytes (fun k => if offset ≤ k ∧ k < offset + count then bytes (k - offset)
    else page.byte k)

def Page.setByte (page : Page) (offset : Nat) (b : Byte) : Page :=
  page.patch offset 1 (fun _ => b)

theorem Page.byte_setByte (page : Page) (offset : Nat) (b : Byte) (k : Nat)
    (inside : k < PGSIZE) :
    (page.setByte offset b).byte k = if k = offset then b else page.byte k := by
  unfold Page.setByte Page.patch
  rw [Page.byte_ofBytes _ k inside]
  by_cases here : k = offset
  · simp [here]
  · rw [if_neg (by omega), if_neg here]

end Xv6Cow
