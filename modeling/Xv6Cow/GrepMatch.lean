import Xv6Cow.Lib.Pattern
import Xv6Cow.Word

/- The regular expression matcher of grep.c on C strings. A read behind the terminator
of the pattern or of the text is a failure, so that a result says there was none. -/
namespace Xv6Cow.Grep

open Pattern Computability

/-- A NUL-terminated string: the bytes before the terminator. -/
structure CString where
  bytes : List Byte
  terminated : 0#8 ∉ bytes

/-- s[i]; nothing lies behind the terminator. -/
def CString.read (s : CString) (i : Nat) : Option Byte := (s.bytes ++ [0#8])[i]?

def caret : Byte := 0x5e#8
def dollar : Byte := 0x24#8
def star : Byte := 0x2a#8
def dot : Byte := 0x2e#8

theorem CString.le_of_read {s : CString} {i : Nat} {b : Byte} (here : s.read i = some b) :
    i ≤ s.bytes.length := by
  obtain ⟨inside, -⟩ := List.getElem?_eq_some_iff.mp here
  rw [List.length_append, List.length_singleton] at inside
  omega

mutual

/-- matchhere(re + r, text + t). -/
def matchhere (re text : CString) (r t : Nat) : Option Bool :=
  match _ : re.read r with
  | none => none
  | some c =>
    if c = 0#8 then some true
    else
      match re.read (r + 1) with
      | none => none
      | some d =>
        if d = star then matchstar re text c (r + 2) t
        else if c = dollar ∧ d = 0#8 then (text.read t).map (· == 0#8)
        else
          match text.read t with
          | none => none
          | some b =>
            if b ≠ 0#8 ∧ (c = dot ∨ c = b) then matchhere re text (r + 1) (t + 1)
            else some false
termination_by (re.bytes.length + 2 - r, text.bytes.length + 1 - t, 0)
decreasing_by
  all_goals
    have inside := CString.le_of_read ‹re.read r = some _›
    exact Prod.Lex.left _ _ (by omega)

/-- matchstar(c, re + r, text + t). -/
def matchstar (re text : CString) (c : Byte) (r t : Nat) : Option Bool :=
  match matchhere re text r t with
  | none => none
  | some true => some true
  | some false =>
    match _ : text.read t with
    | none => none
    | some b =>
      if b ≠ 0#8 ∧ (b = c ∨ c = dot) then matchstar re text c r (t + 1) else some false
termination_by (re.bytes.length + 2 - r, text.bytes.length + 1 - t, 1)
decreasing_by
  · exact Prod.Lex.right _ (Prod.Lex.right _ (by decide))
  · rename_i here _
    have inside := CString.le_of_read here
    exact Prod.Lex.right _ (Prod.Lex.left _ _ (by omega))

end

/-- The loop of match over the places of the text from `t` on. -/
def matchFrom (re text : CString) (t : Nat) : Option Bool :=
  match matchhere re text 0 t with
  | none => none
  | some true => some true
  | some false =>
    match _ : text.read t with
    | none => none
    | some b => if b ≠ 0#8 then matchFrom re text (t + 1) else some false
termination_by text.bytes.length + 1 - t
decreasing_by
  rename_i here _
  have inside := CString.le_of_read here
  omega

/-- match(re, text). -/
def matchText (re text : CString) : Option Bool :=
  match re.read 0 with
  | none => none
  | some c => if c = caret then matchhere re text 1 0 else matchFrom re text 0

/-! ## What an expression means -/

/-- '.' stands for any letter, any other one for itself. -/
def Accepts (c b : Byte) : Prop := c = dot ∨ c = b

/-- The items of an expression behind a leading '^', and whether it ends in an anchor:
a letter before '*' is starred, whatever it is, and '$' is an anchor only as the last
letter. -/
def items : List Byte → List (Item Byte) × Bool
  | [] => ([], false)
  | [c] => if c = dollar then ([], true) else ([.one (Accepts c)], false)
  | c :: d :: rest =>
    if d = star then (.star (Accepts c) :: (items rest).1, (items rest).2)
    else (.one (Accepts c) :: (items (d :: rest)).1, (items (d :: rest)).2)

/-- An expression taken apart. -/
structure Expression where
  opens : Bool
  items : List (Item Byte)
  closes : Bool

def expression (re : List Byte) : Expression :=
  if re.head? = some caret then
    { opens := true, items := (items re.tail).1, closes := (items re.tail).2 }
  else { opens := false, items := (items re).1, closes := (items re).2 }

/-- Some part of the text is a word of the expression's language; it is at the text's
beginning or end where the expression is anchored there. -/
def Expression.Matches (e : Expression) (text : List Byte) : Prop :=
  ∃ before inside after, text = before ++ inside ++ after ∧ inside ∈ language e.items ∧
    (e.opens = true → before = []) ∧ (e.closes = true → after = [])

/-- The text begins with a word of the expression `re`, taken without a leading '^'. -/
def Here (re text : List Byte) : Prop := Starts (items re).1 (items re).2 text

theorem here_nil (text : List Byte) : Here [] text :=
  starts_nil.mpr fun closed => absurd closed (by decide)

theorem here_dollar {text : List Byte} : Here [dollar] text ↔ text = [] := by
  unfold Here
  rw [items, if_pos rfl, starts_nil]
  exact ⟨fun closes => closes rfl, fun empty _ => empty⟩

theorem here_star {c : Byte} {re text : List Byte} :
    Here (c :: star :: re) text ↔ Here re text ∨
      ∃ b rest, text = b :: rest ∧ Accepts c b ∧ Here (c :: star :: re) rest := by
  unfold Here
  rw [items, if_pos rfl]
  exact starts_star

theorem here_one {c : Byte} {re text : List Byte} (unstarred : re.head? ≠ some star)
    (open' : ¬ (c = dollar ∧ re = [])) :
    Here (c :: re) text ↔ ∃ b rest, text = b :: rest ∧ Accepts c b ∧ Here re rest := by
  unfold Here
  cases re with
  | nil =>
    have item : items [c] = ([.one (Accepts c)], false) := if_neg fun last => open' ⟨last, rfl⟩
    rw [item]
    exact starts_one
  | cons d re =>
    rw [items, if_neg (fun starred => unstarred (congrArg some starred))]
    exact starts_one

/-! ## Reads -/

section Reads

variable {s : CString} {i : Nat}

theorem CString.read_eq (inside : i ≤ s.bytes.length) :
    s.read i = (s.bytes.drop i ++ [0#8]).head? := by
  unfold CString.read
  rw [← List.head?_drop, List.drop_append_of_le_length inside]

theorem CString.read_end (inside : i ≤ s.bytes.length) (rest : s.bytes.drop i = []) :
    s.read i = some 0#8 := by
  rw [CString.read_eq inside, rest]
  rfl

theorem CString.read_cons {b : Byte} {rest : List Byte} (here : s.bytes.drop i = b :: rest) :
    s.read i = some b ∧ b ≠ 0#8 ∧ i + 1 ≤ s.bytes.length ∧ s.bytes.drop (i + 1) = rest := by
  have inside : i < s.bytes.length := by
    by_contra beyond
    rw [List.drop_eq_nil_of_le (by omega)] at here
    cases here
  refine ⟨?_, ?_, inside, ?_⟩
  · rw [CString.read_eq (by omega), here]
    rfl
  · rintro rfl
    exact s.terminated (List.mem_of_mem_drop (here ▸ List.mem_cons_self))
  · rw [← List.tail_drop, here]
    rfl

end Reads

/-! ## The matcher and the language -/

/-- The computation returns, and answers the question. -/
def Decides (answer : Option Bool) (question : Prop) : Prop :=
  ∃ b, answer = some b ∧ (b = true ↔ question)

theorem Decides.congr {answer : Option Bool} {p q : Prop} (decides : Decides answer p)
    (same : p ↔ q) : Decides answer q := by
  obtain ⟨b, returned, meaning⟩ := decides
  exact ⟨b, returned, meaning.trans same⟩

theorem decides_true {p : Prop} (holds : p) : Decides (some true) p := ⟨true, rfl, by simp [holds]⟩

theorem decides_false {p : Prop} (fails : ¬ p) : Decides (some false) p :=
  ⟨false, rfl, by simp [fails]⟩

section Correct

variable {re text : CString}

theorem matchhere_end {r t : Nat} (first : re.read r = some 0#8) :
    matchhere re text r t = some true := by
  rw [matchhere]
  split
  · rename_i beyond
    rw [first] at beyond
    cases beyond
  · rename_i c here
    rw [first] at here
    cases here
    exact if_pos rfl

theorem matchhere_some {r t : Nat} {c d : Byte} (first : re.read r = some c) (letter : c ≠ 0#8)
    (second : re.read (r + 1) = some d) :
    matchhere re text r t =
      if d = star then matchstar re text c (r + 2) t
      else if c = dollar ∧ d = 0#8 then (text.read t).map (· == 0#8)
      else
        match text.read t with
        | none => none
        | some b =>
          if b ≠ 0#8 ∧ (c = dot ∨ c = b) then matchhere re text (r + 1) (t + 1)
          else some false := by
  rw [matchhere]
  split
  · rename_i beyond
    rw [first] at beyond
    cases beyond
  · rename_i c' here
    rw [first] at here
    cases here
    rw [if_neg letter, second]

theorem matchstar_of_ran {c b : Byte} {r t : Nat} {found : Bool}
    (ran : matchhere re text r t = some found) (here : text.read t = some b) :
    matchstar re text c r t =
      if found = true then some true
      else if b ≠ 0#8 ∧ (b = c ∨ c = dot) then matchstar re text c r (t + 1)
      else some false := by
  rw [matchstar, ran]
  cases found with
  | true => rfl
  | false =>
    dsimp only
    split
    · rename_i beyond
      rw [here] at beyond
      cases beyond
    · rename_i b' read
      rw [here] at read
      cases read
      rfl

/-- matchstar, given what matchhere does with the rest of the expression: induction on
what is left of the text. -/
theorem matchstar_decides {c : Byte} {r t : Nat} {rest : List Byte}
    (here : ∀ t ≤ text.bytes.length,
      Decides (matchhere re text r t) (Here rest (text.bytes.drop t)))
    (inside : t ≤ text.bytes.length) :
    Decides (matchstar re text c r t) (Here (c :: star :: rest) (text.bytes.drop t)) := by
  induction left : text.bytes.length - t using Nat.strong_induction_on generalizing t with
  | _ n ih =>
    obtain ⟨found, ran, meaning⟩ := here t inside
    cases remaining : text.bytes.drop t with
    | nil =>
      rw [matchstar_of_ran ran (CString.read_end inside remaining)]
      rw [remaining] at meaning
      cases found with
      | true => exact decides_true (here_star.mpr (Or.inl (meaning.mp rfl)))
      | false =>
        refine decides_false fun holds => ?_
        rcases here_star.mp holds with skipped | ⟨b, tail, impossible, -⟩
        · exact absurd (meaning.mpr skipped) (by decide)
        · cases impossible
    | cons b tail =>
      obtain ⟨read, letter, more, next⟩ := CString.read_cons remaining
      rw [matchstar_of_ran ran read]
      rw [remaining] at meaning
      cases found with
      | true => exact decides_true (here_star.mpr (Or.inl (meaning.mp rfl)))
      | false =>
        rw [if_neg (by decide)]
        have passed : ¬ Here rest (b :: tail) := fun holds =>
          absurd (meaning.mpr holds) (by decide)
        by_cases accepted : b = c ∨ c = dot
        · rw [if_pos ⟨letter, accepted⟩]
          have later := ih _ (by omega) more rfl
          rw [next] at later
          refine later.congr ⟨fun holds => ?_, fun holds => ?_⟩
          · exact here_star.mpr (Or.inr ⟨b, tail, rfl, accepted.symm.imp_right Eq.symm, holds⟩)
          · rcases here_star.mp holds with skipped | ⟨b', tail', same, -, holds⟩
            · exact absurd skipped passed
            · cases same
              exact holds
        · rw [if_neg fun both => accepted both.2]
          refine decides_false fun holds => ?_
          rcases here_star.mp holds with skipped | ⟨b', tail', same, accepts, -⟩
          · exact passed skipped
          · cases same
            exact accepted (accepts.symm.imp_left Eq.symm)

/-- The last case of matchhere: one letter of the expression against one of the text. -/
theorem matchhere_one_decides {r t : Nat} {c d : Byte} {rest : List Byte}
    (first : re.read r = some c) (letter : c ≠ 0#8) (second : re.read (r + 1) = some d)
    (plain : d ≠ star) (open' : ¬ (c = dollar ∧ d = 0#8)) (unstarred : rest.head? ≠ some star)
    (unanchored : ¬ (c = dollar ∧ rest = []))
    (later : ∀ t ≤ text.bytes.length,
      Decides (matchhere re text (r + 1) t) (Here rest (text.bytes.drop t)))
    (inside : t ≤ text.bytes.length) :
    Decides (matchhere re text r t) (Here (c :: rest) (text.bytes.drop t)) := by
  rw [matchhere_some first letter second, if_neg plain, if_neg open']
  cases remaining : text.bytes.drop t with
  | nil =>
    rw [CString.read_end inside remaining]
    refine decides_false fun holds => ?_
    obtain ⟨b, tail, impossible, -⟩ := (here_one unstarred unanchored).mp holds
    cases impossible
  | cons b tail =>
    obtain ⟨read, present, more, next⟩ := CString.read_cons remaining
    rw [read]
    dsimp only
    by_cases accepted : c = dot ∨ c = b
    · rw [if_pos ⟨present, accepted⟩]
      have decides := later (t + 1) more
      rw [next] at decides
      refine decides.congr ⟨fun holds => ?_, fun holds => ?_⟩
      · exact (here_one unstarred unanchored).mpr ⟨b, tail, rfl, accepted, holds⟩
      · obtain ⟨b', tail', same, -, holds⟩ := (here_one unstarred unanchored).mp holds
        cases same
        exact holds
    · rw [if_neg fun both => accepted both.2]
      refine decides_false fun holds => ?_
      obtain ⟨b', tail', same, accepts, -⟩ := (here_one unstarred unanchored).mp holds
      cases same
      exact accepted accepts

theorem matchhere_dollar_decides {r t : Nat} (first : re.read r = some dollar)
    (second : re.read (r + 1) = some 0#8) (inside : t ≤ text.bytes.length) :
    Decides (matchhere re text r t) (Here [dollar] (text.bytes.drop t)) := by
  rw [matchhere_some first (by decide) second, if_neg (by decide), if_pos ⟨rfl, rfl⟩]
  cases remaining : text.bytes.drop t with
  | nil =>
    rw [CString.read_end inside remaining]
    exact decides_true (here_dollar.mpr rfl)
  | cons b tail =>
    obtain ⟨read, present, -, -⟩ := CString.read_cons remaining
    rw [read, Option.map_some, beq_eq_false_iff_ne.mpr present]
    refine decides_false fun holds => ?_
    cases here_dollar.mp holds

/-- matchhere answers whether the rest of the text begins with a word of the rest of the
expression: induction on what is left of the expression. -/
theorem matchhere_decides {r t : Nat} (inRe : r ≤ re.bytes.length)
    (inText : t ≤ text.bytes.length) :
    Decides (matchhere re text r t) (Here (re.bytes.drop r) (text.bytes.drop t)) := by
  induction left : re.bytes.length - r using Nat.strong_induction_on generalizing r t with
  | _ n ih =>
    cases expr : re.bytes.drop r with
    | nil =>
      rw [matchhere_end (CString.read_end inRe expr)]
      exact decides_true (here_nil _)
    | cons c rest =>
      obtain ⟨first, letter, more, next⟩ := CString.read_cons expr
      have later : ∀ t ≤ text.bytes.length,
          Decides (matchhere re text (r + 1) t) (Here rest (text.bytes.drop t)) := by
        intro t inside
        rw [← next]
        exact ih _ (by omega) more inside rfl
      cases rest with
      | nil =>
        have second := CString.read_end more next
        by_cases anchor : c = dollar
        · subst anchor
          exact matchhere_dollar_decides first second inText
        · exact matchhere_one_decides first letter second (by decide)
            (fun both => anchor both.1) (by simp) (fun both => anchor both.1) later inText
      | cons d rest =>
        obtain ⟨second, present, further, after⟩ := CString.read_cons next
        by_cases starred : d = star
        · subst starred
          rw [matchhere_some first letter second, if_pos rfl]
          refine matchstar_decides (fun t inside => ?_) inText
          rw [← after]
          exact ih _ (by omega) further inside rfl
        · exact matchhere_one_decides first letter second starred
            (fun both => present both.2)
            (fun head => starred (Option.some.inj head)) (fun both => List.cons_ne_nil _ _ both.2)
            later inText

theorem matchFrom_of_ran {b : Byte} {t : Nat} {found : Bool}
    (ran : matchhere re text 0 t = some found) (here : text.read t = some b) :
    matchFrom re text t =
      if found = true then some true
      else if b ≠ 0#8 then matchFrom re text (t + 1)
      else some false := by
  rw [matchFrom, ran]
  cases found with
  | true => rfl
  | false =>
    dsimp only
    split
    · rename_i beyond
      rw [here] at beyond
      cases beyond
    · rename_i b' read
      rw [here] at read
      cases read
      rfl

/-- The loop of match tries every place, the end of the text included. -/
theorem matchFrom_decides {t : Nat} (inside : t ≤ text.bytes.length) :
    Decides (matchFrom re text t)
      (Occurs (items re.bytes).1 (items re.bytes).2 (text.bytes.drop t)) := by
  induction left : text.bytes.length - t using Nat.strong_induction_on generalizing t with
  | _ n ih =>
    obtain ⟨found, ran, meaning⟩ := @matchhere_decides re text _ _ (Nat.zero_le _) inside
    rw [List.drop_zero] at meaning
    cases remaining : text.bytes.drop t with
    | nil =>
      rw [matchFrom_of_ran ran (CString.read_end inside remaining)]
      rw [remaining] at meaning
      refine Decides.congr ?_ occurs_nil.symm
      cases found with
      | true => exact decides_true (meaning.mp rfl)
      | false => exact decides_false fun holds => absurd (meaning.mpr holds) (by decide)
    | cons b tail =>
      obtain ⟨read, letter, more, next⟩ := CString.read_cons remaining
      rw [matchFrom_of_ran ran read]
      rw [remaining] at meaning
      refine Decides.congr ?_ occurs_cons.symm
      cases found with
      | true => exact decides_true (Or.inl (meaning.mp rfl))
      | false =>
        rw [if_neg (by decide), if_pos letter]
        have passed : ¬ Here re.bytes (b :: tail) := fun holds =>
          absurd (meaning.mpr holds) (by decide)
        have later := ih _ (by omega) more rfl
        rw [next] at later
        exact later.congr ⟨Or.inr, fun either => either.resolve_left passed⟩

end Correct

/-! ## match -/

theorem matches_unanchored {l : List (Item Byte)} {closed : Bool} {text : List Byte} :
    (Expression.mk false l closed).Matches text ↔ Occurs l closed text := by
  constructor
  · rintro ⟨before, inside, after, rfl, member, -, closes⟩
    exact ⟨before, inside ++ after, (List.append_assoc _ _ _).symm, inside, after, rfl, member,
      closes⟩
  · rintro ⟨before, _, rfl, inside, after, rfl, member, closes⟩
    exact ⟨before, inside, after, (List.append_assoc _ _ _).symm, member,
      fun impossible => absurd impossible Bool.false_ne_true, closes⟩

theorem matches_anchored {l : List (Item Byte)} {closed : Bool} {text : List Byte} :
    (Expression.mk true l closed).Matches text ↔ Starts l closed text := by
  constructor
  · rintro ⟨before, inside, after, rfl, member, opens, closes⟩
    rw [opens rfl]
    exact ⟨inside, after, rfl, member, closes⟩
  · rintro ⟨inside, after, rfl, member, closes⟩
    exact ⟨[], inside, after, rfl, member, fun _ => rfl, closes⟩

theorem matchText_decides (re text : CString) :
    Decides (matchText re text) ((expression re.bytes).Matches text.bytes) := by
  have everywhere := @matchFrom_decides re text _ (Nat.zero_le text.bytes.length)
  rw [List.drop_zero] at everywhere
  unfold matchText expression
  cases expr : re.bytes.drop 0 with
  | nil =>
    rw [CString.read_end (Nat.zero_le _) expr]
    rw [List.drop_zero] at expr
    rw [if_neg (by rw [expr]; decide)]
    dsimp only
    rw [if_neg (by decide)]
    exact everywhere.congr matches_unanchored.symm
  | cons c rest =>
    obtain ⟨read, -, more, next⟩ := CString.read_cons expr
    rw [List.drop_zero] at expr
    rw [read, expr, List.head?_cons, List.tail_cons]
    rw [expr] at everywhere
    dsimp only
    by_cases anchored : c = caret
    · rw [if_pos anchored, if_pos (congrArg some anchored)]
      have there := @matchhere_decides re text _ _ more (Nat.zero_le _)
      rw [next, List.drop_zero] at there
      exact there.congr matches_anchored.symm
    · rw [if_neg anchored, if_neg fun head => anchored (Option.some.inj head)]
      exact everywhere.congr matches_unanchored.symm

theorem matchText_eq_true (re text : CString) :
    matchText re text = some true ↔ (expression re.bytes).Matches text.bytes := by
  obtain ⟨b, ran, meaning⟩ := matchText_decides re text
  rw [ran, ← meaning, Option.some_inj]

/-- match returns for every expression and text without reading behind a terminator, and
its result says whether the text has a part in the expression's language; so do its two
helpers, at every place of the expression and of the text. -/
theorem match_implements_expressions (re text : CString) :
    (∃ b, matchText re text = some b ∧ (b = true ↔ (expression re.bytes).Matches text.bytes)) ∧
      (∀ r ≤ re.bytes.length, ∀ t ≤ text.bytes.length, ∃ b, matchhere re text r t = some b) ∧
      ∀ c, ∀ r ≤ re.bytes.length, ∀ t ≤ text.bytes.length,
        ∃ b, matchstar re text c r t = some b := by
  refine ⟨?_, ?_, ?_⟩
  · exact matchText_decides re text
  · intro r inRe t inText
    obtain ⟨b, ran, -⟩ := matchhere_decides inRe inText
    exact ⟨b, ran⟩
  · intro c r inRe t inText
    obtain ⟨b, ran, -⟩ := matchstar_decides (c := c)
      (fun t inside => matchhere_decides inRe inside) inText
    exact ⟨b, ran⟩

end Xv6Cow.Grep
