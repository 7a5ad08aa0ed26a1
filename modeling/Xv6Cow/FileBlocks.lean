import Mathlib.Data.Finset.Card
import Mathlib.Data.Finset.Union
import Mathlib.Data.Fintype.Sum
import Mathlib.Tactic.DeriveFintype
import Xv6Cow.FileReads

/- fs.c: balloc, bfree and bmap on inodes that own their blocks. -/
namespace Xv6Cow.Fs

open Function (update_self update_of_ne)

deriving instance Fintype for Place

variable {sb : Superblock} {s s' : State} {i b : Nat}

/-! ## The bitmap -/

theorem bitAt_congr {disk disk' : Nat → Block}
    (same : ∀ b, sb.bmapstart ≤ b → b < sb.nmeta → disk' b = disk b)
    {x : Nat} (inside : x < sb.size) :
    bitAt sb disk' x = bitAt sb disk x := by
  obtain ⟨low, high⟩ := bblock_range sb inside
  unfold bitAt
  rw [same _ low high]

theorem bitAt_storeBit (disk : Nat → Block) (b : Nat) (bit : Bool) (x : Nat) :
    bitAt sb (storeBit sb disk b bit) x = if x = b then bit else bitAt sb disk x := by
  have width : x % 32 < 32 := Nat.mod_lt x (by decide)
  have width' : b % 32 < 32 := Nat.mod_lt b (by decide)
  unfold bitAt storeBit
  by_cases block : bblock sb x = bblock sb b
  · rw [block, update_self]
    by_cases word : bitIndex x = bitIndex b
    · have same : (b % 32 = x % 32) ↔ x = b := by
        have index := congrArg Fin.val word
        unfold bitIndex at index
        unfold bblock at block
        unfold BPB at *
        dsimp only at index
        omega
      rw [word, update_self]
      cases bit
      · rw [if_neg Bool.false_ne_true, BitVec.getLsbD_and, BitVec.getLsbD_not,
          BitVec.getLsbD_twoPow]
        by_cases equal : x = b
        · simp [equal, width']
        · have apart : ¬b % 32 = x % 32 := fun bits => equal (same.mp bits)
          simp [equal, apart, width]
      · rw [if_pos rfl, BitVec.getLsbD_or, BitVec.getLsbD_twoPow]
        by_cases equal : x = b
        · simp [equal, width']
        · have apart : ¬b % 32 = x % 32 := fun bits => equal (same.mp bits)
          simp [equal, apart]
    · have apart : x ≠ b := fun equal => word (by rw [equal])
      rw [update_of_ne word, if_neg apart]
  · have apart : x ≠ b := fun equal => block (by rw [equal])
    rw [update_of_ne block, if_neg apart]

theorem storeBit_ne {disk : Nat → Block} {b c : Nat} (bit : Bool) (apart : c ≠ bblock sb b) :
    storeBit sb disk b bit c = disk c := update_of_ne apart ..

/-! ## Inodes that own their blocks -/

variable (live : Nat → Prop) [DecidablePred live]

/-- The inodes that are considered, as the inode cache has them. -/
def viewOf (s : State) : Nat → Dinode := fun i => if live i then (s.icache i).copy else noDinode

/-- Files and directories that own their blocks; blocks before the data are never free. -/
structure Owned (sb : Superblock) (s : State) : Prop where
  known : ∀ i, live i → i ≤ sb.ninodes
  plain : ∀ i, live i → (s.icache i).copy.type ≠ T_DEV
  sizes : ∀ i, live i → (s.icache i).copy.size.toNat ≤ MAXFILE * BSIZE
  sound : Sound sb.nmeta (fun b => b < sb.size ∧ bitAt sb s.disk b = true) (viewOf live s) s.disk
  reserved : ∀ b, b < sb.nmeta → b < sb.size → bitAt sb s.disk b = true

/-- How many blocks are free. -/
def free (sb : Superblock) (s : State) : Nat :=
  ((Finset.range sb.size).filter fun b => bitAt sb s.disk b = false).card

/-- How many of the places `W` of an inode have no block. -/
def lacking (s : State) (i : Nat) (W : Finset Place) : Nat :=
  (W.filter fun place => owns (viewOf live s) s.disk (i, place) = none).card

variable {live}

/-- The inode has blocks at the places `W` too, and no other block was taken. -/
structure Fills (live : Nat → Prop) [DecidablePred live] (sb : Superblock) (i : Nat)
    (W : Finset Place) (s s' : State) : Prop where
  places : ∀ place, owns (viewOf live s') s'.disk (i, place) = none ↔
    owns (viewOf live s) s.disk (i, place) = none ∧ place ∉ W
  spent : free sb s' + lacking live s i W = free sb s

/-- A call that needs blocks at the places `W` stops when fewer are free than are missing there,
and otherwise fills them. -/
def Outcome {α : Type} (live : Nat → Prop) [DecidablePred live] (sb : Superblock) (i : Nat)
    (W : Finset Place) (s : State) (result : Except String (α × State))
    (good : α → State → Prop) : Prop :=
  (result = .error "balloc: out of blocks" ∧ free sb s < lacking live s i W) ∨
    ∃ value s', result = .ok (value, s') ∧ Fills live sb i W s s' ∧ good value s'

/-- What allocating blocks leaves as it is. -/
structure Grew (live : Nat → Prop) [DecidablePred live] (sb : Superblock) (s s' : State) :
    Prop where
  owned : Owned live sb s'
  more : ∀ x b, owns (viewOf live s) s.disk x = some b → owns (viewOf live s') s'.disk x = some b
  bytes : ∀ j o, byteOf (viewOf live s') s'.disk j o = byteOf (viewOf live s) s.disk j o
  header : ∀ j, (s'.icache j).copy.size = (s.icache j).copy.size ∧
    (s'.icache j).copy.type = (s.icache j).copy.type

theorem Grew.refl (owned : Owned live sb s) : Grew live sb s s :=
  ⟨owned, fun _ _ here => here, fun _ _ => rfl, fun _ => ⟨rfl, rfl⟩⟩

theorem Grew.trans {s'' : State} (first : Grew live sb s s') (second : Grew live sb s' s'') :
    Grew live sb s s'' := by
  refine ⟨second.owned, fun x b here => second.more x b (first.more x b here), fun j o => ?_,
    fun j => ?_⟩
  · rw [second.bytes, first.bytes]
  · exact ⟨(second.header j).1.trans (first.header j).1,
      (second.header j).2.trans (first.header j).2⟩

/-! ## The blocks that a call needs -/

variable {W W' : Finset Place}

theorem lacking_mono (subset : W ⊆ W') : lacking live s i W ≤ lacking live s i W' :=
  Finset.card_le_card (Finset.filter_subset_filter _ subset)

theorem lacking_le_card (s : State) (i : Nat) (W : Finset Place) : lacking live s i W ≤ W.card :=
  Finset.card_filter_le ..

/-- Once `W` is filled, what is missing of `W'` is what was missing of it outside of `W`. -/
theorem Fills.lacking_union (fills : Fills live sb i W s s') (W' : Finset Place) :
    lacking live s i (W ∪ W') = lacking live s i W + lacking live s' i W' := by
  unfold lacking
  have cut : (W ∪ W').filter (fun place => owns (viewOf live s) s.disk (i, place) = none) =
      W.filter (fun place => owns (viewOf live s) s.disk (i, place) = none) ∪
        W'.filter (fun place => owns (viewOf live s') s'.disk (i, place) = none) := by
    ext place
    have after := fills.places place
    simp only [Finset.mem_filter, Finset.mem_union]
    tauto
  rw [cut, Finset.card_union_of_disjoint]
  rw [Finset.disjoint_left]
  intro place first second
  exact ((fills.places place).mp (Finset.mem_filter.mp second).2).2 (Finset.mem_filter.mp first).1

theorem Fills.trans {s'' : State} (first : Fills live sb i W s s')
    (second : Fills live sb i W' s' s'') : Fills live sb i (W ∪ W') s s'' := by
  refine ⟨fun place => ?_, ?_⟩
  · rw [second.places, first.places, Finset.mem_union]
    tauto
  · have before := first.spent
    have after := second.spent
    rw [first.lacking_union W']
    omega

theorem Fills.of_same
    (targets : ∀ x, owns (viewOf live s') s'.disk x = owns (viewOf live s) s.disk x)
    (bits : ∀ x, x < sb.size → bitAt sb s'.disk x = bitAt sb s.disk x) :
    Fills live sb i ∅ s s' := by
  refine ⟨fun place => ?_, ?_⟩
  · rw [targets]
    exact ⟨fun none => ⟨none, Finset.notMem_empty _⟩, And.left⟩
  · have same : free sb s' = free sb s := by
      unfold free
      congr 1
      apply Finset.filter_congr
      intro x within
      rw [bits x (Finset.mem_range.mp within)]
    rw [same]
    rfl

theorem Fills.refl (s : State) : Fills live sb i ∅ s s := .of_same (fun _ => rfl) fun _ _ => rfl

theorem Fills.present {place : Place} (here : owns (viewOf live s) s.disk (i, place) = some b) :
    Fills live sb i {place} s s := by
  have some : owns (viewOf live s) s.disk (i, place) ≠ none := by
    rw [here]
    exact Option.some_ne_none b
  refine ⟨fun other => ⟨fun none => ⟨none, ?_⟩, And.left⟩, ?_⟩
  · rw [Finset.mem_singleton]
    rintro rfl
    exact some none
  · unfold lacking
    rw [Finset.filter_singleton, if_neg some]
    rfl

theorem Outcome.bind {α β : Type} {first : P α} {next : α → P β} {good : β → State → Prop}
    (start : Outcome live sb i W s (first s) fun value s1 =>
      Outcome live sb i W' s1 (next value s1) good) :
    Outcome live sb i (W ∪ W') s ((first >>= next) s) good := by
  rcases start with ⟨failed, short⟩ | ⟨value, s1, ran, fills, later⟩
  · have more : lacking live s i W ≤ lacking live s i (W ∪ W') :=
      lacking_mono Finset.subset_union_left
    exact .inl ⟨Prog.bind_of_error failed, by omega⟩
  · rw [Prog.bind_of_ok ran]
    rcases later with ⟨failed, short⟩ | ⟨value', s2, done, fills', result⟩
    · refine .inl ⟨failed, ?_⟩
      have spent := fills.spent
      rw [fills.lacking_union W']
      omega
    · exact .inr ⟨value', s2, done, fills.trans fills', result⟩

theorem Outcome.finish {α β : Type} {first : P α} {next : α → P β} {good : β → State → Prop}
    (start : Outcome live sb i W s (first s) fun value s1 =>
      Outcome live sb i ∅ s1 (next value s1) good) :
    Outcome live sb i W s ((first >>= next) s) good := by
  have whole := start.bind
  rwa [Finset.union_empty] at whole

theorem Outcome.imp {α : Type} {result : Except String (α × State)} {good good' : α → State → Prop}
    (outcome : Outcome live sb i W s result good)
    (weaker : ∀ value s', good value s' → good' value s') :
    Outcome live sb i W s result good' := by
  rcases outcome with failed | ⟨value, s', ran, fills, done⟩
  · exact .inl failed
  · exact .inr ⟨value, s', ran, fills, weaker value s' done⟩

theorem Outcome.pure {α : Type} {value : α} {good : α → State → Prop} (done : good value s) :
    Outcome live sb i ∅ s (.ok (value, s)) good := .inr ⟨value, s, rfl, .refl s, done⟩

/-- The state after balloc has taken block `b`. -/
def afterBalloc (sb : Superblock) (s : State) (b : Nat) : State where
  disk := Function.update (storeBit sb s.disk b true) b zeroBlock
  icache := s.icache
  written := b :: bblock sb b :: s.written

theorem balloc_cases (owned : Owned live sb s) :
    (balloc sb s = .error "balloc: out of blocks" ∧ free sb s = 0) ∨
      ∃ b, balloc sb s = .ok (b, afterBalloc sb s b) ∧ b < sb.size ∧ sb.nmeta ≤ b ∧
        bitAt sb s.disk b = false ∧ 0 < b ∧ b < 2 ^ 32 := by
  unfold balloc
  rw [Prog.read_bind]
  cases choice : firstClear sb s.disk with
  | none =>
    refine .inl ⟨rfl, ?_⟩
    unfold firstClear at choice
    rw [List.find?_eq_none] at choice
    unfold free
    rw [Finset.card_eq_zero, Finset.filter_eq_empty_iff]
    intro b inside clear
    have marked := choice b (List.mem_range.mpr (Finset.mem_range.mp inside))
    rw [clear] at marked
    exact marked rfl
  | some b =>
    unfold firstClear at choice
    have inside := List.mem_range.mp (List.mem_of_find?_eq_some choice)
    have clear : bitAt sb s.disk b = false := by
      have found := List.find?_some choice
      simpa using found
    have data : sb.nmeta ≤ b := by
      by_contra low
      rw [owned.reserved b (by omega) inside] at clear
      cases clear
    exact .inr ⟨b, rfl, inside, data, clear, Nat.lt_of_lt_of_le (Nat.succ_pos _) data,
      Nat.lt_trans inside sb.size_lt⟩

section Afterwards

variable (owned : Owned live sb s) (inside : b < sb.size) (data : sb.nmeta ≤ b)
  (clear : bitAt sb s.disk b = false)

include data in
theorem afterBalloc_bit {x : Nat} (within : x < sb.size) :
    bitAt sb (afterBalloc sb s b).disk x = if x = b then true else bitAt sb s.disk x := by
  rw [← bitAt_storeBit]
  refine bitAt_congr (fun c _ high => ?_) within
  exact update_of_ne (by omega) ..

include inside data clear owned in
theorem afterBalloc_same (x : Nat × Place) (c : Nat)
    (here : owns (viewOf live s) s.disk x = some c) : (afterBalloc sb s b).disk c = s.disk c := by
  obtain ⟨low, -, marked⟩ := owned.sound.data here
  have apart : c ≠ b := by
    rintro rfl
    rw [clear] at marked
    cases marked
  have bitmap := (bblock_range sb inside).2
  have step : (afterBalloc sb s b).disk c = storeBit sb s.disk b true c := update_of_ne apart ..
  rw [step, storeBit_ne true (by omega)]

include inside data clear owned in
theorem afterBalloc_owned : Owned live sb (afterBalloc sb s b) := by
  refine ⟨owned.known, owned.plain, owned.sizes, ?_, ?_⟩
  · refine owned.sound.frame (afterBalloc_same owned inside data clear) ?_
    rintro x c - ⟨within, marked⟩
    refine ⟨within, ?_⟩
    rw [afterBalloc_bit data within, marked]
    split <;> rfl
  · intro c low within
    rw [afterBalloc_bit data within, owned.reserved c low within]
    split <;> rfl

include inside data clear in
theorem afterBalloc_free : free sb (afterBalloc sb s b) + 1 = free sb s := by
  unfold free
  have member : b ∈ (Finset.range sb.size).filter fun b => bitAt sb s.disk b = false :=
    Finset.mem_filter.mpr ⟨Finset.mem_range.mpr inside, clear⟩
  have erased :
    ((Finset.range sb.size).filter fun x => bitAt sb (afterBalloc sb s b).disk x = false) =
      ((Finset.range sb.size).filter fun x => bitAt sb s.disk x = false).erase b := by
    ext x
    rw [Finset.mem_filter, Finset.mem_erase, Finset.mem_filter, Finset.mem_range]
    by_cases within : x < sb.size
    · rw [afterBalloc_bit data within]
      by_cases same : x = b <;> simp [same, within]
    · simp [within]
  rw [erased]
  exact Finset.card_erase_add_one member

end Afterwards

/-- A free block is given to the inode at an empty place. -/
theorem Grew.adopt {s1 : State} {place : Place} (owned : Owned live sb s) (inside : b < sb.size)
    (data : sb.nmeta ≤ b) (clear : bitAt sb s.disk b = false)
    (empty : owns (viewOf live s) s.disk (i, place) = none)
    (targets : ∀ y, owns (viewOf live s1) s1.disk y =
      if y = (i, place) then some b else owns (viewOf live s) s.disk y)
    (blank : s1.disk b = zeroBlock)
    (bits : ∀ x, x < sb.size → bitAt sb s1.disk x = bitAt sb (afterBalloc sb s b).disk x)
    (files : ∀ y c, owns (viewOf live s) s.disk y = some c → y.2 ≠ .slot 12 → s1.disk c = s.disk c)
    (header : ∀ j, (s1.icache j).copy.size = (s.icache j).copy.size ∧
      (s1.icache j).copy.type = (s.icache j).copy.type) :
    Fills live sb i {place} s s1 ∧ Grew live sb s s1 ∧
      owns (viewOf live s1) s1.disk (i, place) = some b := by
  have mine : owns (viewOf live s1) s1.disk (i, place) = some b := by rw [targets, if_pos rfl]
  have marked :
      ∀ x, x < sb.size → bitAt sb s1.disk x = if x = b then true else bitAt sb s.disk x := by
    intro x within
    rw [bits x within, afterBalloc_bit data within]
  refine ⟨⟨fun other => ?_, ?_⟩, ⟨⟨owned.known, ?_, ?_, ?_, ?_⟩, ?_, ?_, header⟩, mine⟩
  · rw [targets, Finset.mem_singleton]
    by_cases same : other = place
    · simp [same]
    · simp [same]
  · have spent : free sb s1 + 1 = free sb s := by
      rw [← afterBalloc_free inside data clear]
      unfold free
      congr 2
      apply Finset.filter_congr
      intro x within
      rw [bits x (Finset.mem_range.mp within)]
    unfold lacking
    rw [Finset.filter_singleton, if_pos empty]
    exact spent
  · intro j member
    rw [(header j).2]
    exact owned.plain j member
  · intro j member
    rw [(header j).1]
    exact owned.sizes j member
  · refine owned.sound.adopt data ⟨inside, ?_⟩ ?_ ?_ targets
    · rw [marked b inside, if_pos rfl]
    · intro y here
      have used := (owned.sound.data here).2.2
      rw [clear] at used
      cases used
    · rintro y c - ⟨within, used⟩
      refine ⟨within, ?_⟩
      rw [marked c within, used]
      split <;> rfl
  · intro c low within
    rw [marked c within, owned.reserved c low within]
    split <;> rfl
  · intro x c here
    rw [targets]
    split
    · rename_i same
      rw [same, empty] at here
      cases here
    · exact here
  · exact byteOf_adopt empty blank targets files

theorem viewOf_live (member : live i) : viewOf live s i = (s.icache i).copy := if_pos member

theorem lacking_empty {place : Place} (empty : owns (viewOf live s) s.disk (i, place) = none) :
    lacking live s i {place} = 1 := by
  unfold lacking
  rw [Finset.filter_singleton, if_pos empty]
  rfl

/-! ## bmap -/

/-- The state after ip->addrs[k] = b. -/
def withAddr (s : State) (i : Nat) (k : Fin 13) (b : Nat) : State :=
  let addrs := Function.update (s.icache i).copy.addrs k (BitVec.ofNat 32 b)
  { s with
    icache := Function.update s.icache i { s.icache i with copy :=
      { (s.icache i).copy with addrs := addrs } } }

theorem setAddr_run (i : Nat) (k : Fin 13) (b : Nat) (s : State) :
    setAddr i k b s = .ok ((), withAddr s i k b) :=
  rfl

theorem viewOf_withAddr (member : live i) (k : Fin 13) (b : Nat) :
    viewOf live (withAddr s i k b) = withSlot (viewOf live s) i k b := by
  funext j
  unfold viewOf withSlot withAddr
  by_cases here : j = i
  · subst here
    simp [member]
  · simp [here]

theorem withAddr_header (k : Fin 13) (b : Nat) (j : Nat) :
    ((withAddr s i k b).icache j).copy.size = (s.icache j).copy.size ∧
      ((withAddr s i k b).icache j).copy.type = (s.icache j).copy.type := by
  unfold withAddr
  by_cases here : j = i
  · subst here
    simp
  · simp [here]

theorem ensureAddr_spec (owned : Owned live sb s) (member : live i) (k : Fin 13) :
    Outcome live sb i {.slot k} s (ensureAddr sb i k s) fun b s' =>
      Grew live sb s s' ∧ owns (viewOf live s') s'.disk (i, .slot k) = some b := by
  have view := viewOf_live (s := s) member
  unfold ensureAddr
  rw [Prog.read_bind]
  dsimp only
  split
  · rename_i zero
    have empty : owns (viewOf live s) s.disk (i, .slot k) = none := by
      rw [owns_slot, view, if_pos zero]
    rcases balloc_cases owned with ⟨failed, none⟩ |
      ⟨b, took, inside, data, clear, positive, small⟩
    · exact .inl ⟨Prog.bind_of_error failed, by rw [lacking_empty empty, none]; exact Nat.one_pos⟩
    · rw [Prog.bind_of_ok took]
      have same := afterBalloc_same owned inside data clear
      have blank : (afterBalloc sb s b).disk b = zeroBlock := update_self ..
      refine .inr ⟨b, withAddr (afterBalloc sb s b) i k b, rfl, ?_⟩
      refine Grew.adopt owned inside data clear empty ?_ blank (fun _ _ => rfl)
        (fun y c here _ => same y c here) ?_
      · intro y
        have zero' : (viewOf live s i).addrs k = 0 := by
          rw [view]
          exact zero
        have slots := owns_withSlot zero' positive small blank y
        rw [owns_frame same] at slots
        rw [viewOf_withAddr member]
        exact slots
      · exact withAddr_header k b
  · rename_i taken
    have here :
        owns (viewOf live s) s.disk (i, .slot k) = some ((s.icache i).copy.addrs k).toNat := by
      rw [owns_slot, view, if_neg taken]
    exact .inr ⟨_, _, rfl, .present here, .refl owned, here⟩

theorem ensureEntry_spec (owned : Owned live sb s) {ind : Nat} (j : Fin 128)
    (slot : owns (viewOf live s) s.disk (i, .slot 12) = some ind) :
    Outcome live sb i {.entry j} s (ensureEntry sb ind j s) fun b s' =>
      Grew live sb s s' ∧ owns (viewOf live s') s'.disk (i, .entry j) = some b := by
  unfold ensureEntry
  rw [Prog.read_bind]
  dsimp only
  split
  · rename_i zero
    have empty : owns (viewOf live s) s.disk (i, .entry j) = none := by
      rw [owns_entry, slot]
      simp only [zero, if_true]
    rcases balloc_cases owned with ⟨failed, none⟩ |
      ⟨b, took, inside, data, clear, positive, small⟩
    · exact .inl ⟨Prog.bind_of_error failed, by rw [lacking_empty empty, none]; exact Nat.one_pos⟩
    · rw [Prog.bind_of_ok took]
      have same := afterBalloc_same owned inside data clear
      have blank : (afterBalloc sb s b).disk b = zeroBlock := update_self ..
      have low := (owned.sound.data slot).1
      have apart : ind ≠ b := by
        rintro rfl
        have used := (owned.sound.data slot).2.2
        rw [clear] at used
        cases used
      refine .inr ⟨_, _, rfl, ?_⟩
      refine Grew.adopt owned inside data clear empty ?_ ?_ ?_ ?_ (fun _ => ⟨rfl, rfl⟩)
      · intro y
        have sound : Sound sb.nmeta _ (viewOf live s) (afterBalloc sb s b).disk :=
          (afterBalloc_owned owned inside data clear).sound
        have slot' : owns (viewOf live s) (afterBalloc sb s b).disk (i, .slot 12) = some ind := by
          rw [owns_frame same]
          exact slot
        have zero' : (afterBalloc sb s b).disk ind j = 0 := by
          rw [same _ _ slot]
          exact zero
        have entries := owns_withEntry sound slot' zero' positive small y
        rw [owns_frame same] at entries
        exact entries
      · exact (update_of_ne apart.symm ..).trans blank
      · intro x within
        refine bitAt_congr (fun c _ high => ?_) within
        exact update_of_ne (by omega) ..
      · intro y c here notSlot
        have other : c ≠ ind := by
          rintro rfl
          exact notSlot (congrArg Prod.snd (owned.sound.once here slot))
        exact (update_of_ne other ..).trans (same y c here)
  · rename_i taken
    have here : owns (viewOf live s) s.disk (i, .entry j) = some (s.disk ind j).toNat := by
      rw [owns_entry, slot]
      simp only [if_neg taken]
    exact .inr ⟨_, _, rfl, .present here, .refl owned, here⟩

/-- Where bmap needs blocks for block `bn` of a file. -/
def placesFor (bn : Nat) : Finset Place :=
  if bn < NDIRECT then {placeOf bn} else {.slot 12} ∪ {placeOf bn}

theorem bmap_spec (owned : Owned live sb s) (member : live i) {bn : Nat} (range : bn < MAXFILE) :
    Outcome live sb i (placesFor bn) s (bmap sb i bn s) fun b s' =>
      Grew live sb s s' ∧ owns (viewOf live s') s'.disk (i, placeOf bn) = some b := by
  unfold bmap placesFor
  by_cases direct : bn < NDIRECT
  · rw [dif_pos direct, if_pos direct, placeOf_slot direct]
    exact ensureAddr_spec owned member _
  · have indirect : bn - NDIRECT < NINDIRECT := by
      unfold MAXFILE at range
      omega
    have index : (bn - NDIRECT) % 128 = bn - NDIRECT := Nat.mod_eq_of_lt indirect
    rw [dif_neg direct, dif_pos indirect, if_neg direct, placeOf_entry direct]
    simp only [index]
    refine Outcome.bind ((ensureAddr_spec owned member 12).imp fun ind s1 => ?_)
    rintro ⟨grew, slot⟩
    refine (ensureEntry_spec grew.owned ⟨bn - NDIRECT, indirect⟩ slot).imp fun b s2 => ?_
    rintro ⟨grew', here⟩
    exact ⟨grew.trans grew', here⟩

/-- The blocks of a file that `n` bytes at `off` lie in. -/
def touched (off n : Nat) : Finset Nat :=
  (Finset.range MAXFILE).filter fun bn => off / BSIZE ≤ bn ∧ bn * BSIZE < off + n ∧ 0 < n

/-- Where a call on `n` bytes at `off` needs blocks. -/
def needs (off n : Nat) : Finset Place := (touched off n).biUnion placesFor

@[simp] theorem needs_zero (off : Nat) : needs off 0 = ∅ := by
  unfold needs touched
  rw [Finset.filter_eq_empty_iff.mpr fun bn _ inside => Nat.lt_irrefl 0 inside.2.2]
  rfl

theorem needs_round {off n m : Nat} (some : 0 < n) (range : off + n ≤ MAXFILE * BSIZE)
    (cut : m = min n (BSIZE - off % BSIZE)) :
    needs off n = placesFor (off / BSIZE) ∪ needs (off + m) (n - m) := by
  have blocks : touched off n = insert (off / BSIZE) (touched (off + m) (n - m)) := by
    ext bn
    simp only [touched, Finset.mem_insert, Finset.mem_filter, Finset.mem_range]
    unfold MAXFILE NDIRECT NINDIRECT BSIZE at *
    omega
  unfold needs
  rw [blocks, Finset.biUnion_insert]

theorem needs_mono {off off' n n' : Nat} (start : off ≤ off') (stop : off' + n' ≤ off + n) :
    needs off' n' ⊆ needs off n := by
  refine Finset.biUnion_subset_biUnion_of_subset_left _ fun bn inside => ?_
  simp only [touched, Finset.mem_filter, Finset.mem_range] at inside ⊢
  have first := Nat.div_le_div_right (c := BSIZE) start
  omega

end Xv6Cow.Fs
