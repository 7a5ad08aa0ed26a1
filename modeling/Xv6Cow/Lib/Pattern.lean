import Mathlib.Computability.Language

/- Patterns that are sequences of single letters and starred letters, with the language
each denotes, and how a text begins with or contains a word of it. -/
namespace Pattern

open Computability

variable {α : Type}

/-- A letter that satisfies a predicate, once or any number of times. -/
inductive Item (α : Type)
  | one (accepts : α → Prop)
  | star (accepts : α → Prop)

/-- The words of one accepted letter. -/
def single (accepts : α → Prop) : Language α := {w | ∃ a, accepts a ∧ w = [a]}

def Item.language : Item α → Language α
  | .one accepts => single accepts
  | .star accepts => (single accepts)∗

def language (items : List (Item α)) : Language α := (items.map Item.language).prod

/-- The text begins with a word of the language, and is one if `closed`. -/
def Starts (items : List (Item α)) (closed : Bool) (text : List α) : Prop :=
  ∃ inside after, inside ++ after = text ∧ inside ∈ language items ∧ (closed = true → after = [])

variable {accepts : α → Prop} {items : List (Item α)} {closed : Bool} {text : List α}

theorem mem_single_mul {l : Language α} {w : List α} :
    w ∈ single accepts * l ↔ ∃ a rest, w = a :: rest ∧ accepts a ∧ rest ∈ l := by
  rw [Language.mem_mul]
  constructor
  · rintro ⟨_, ⟨a, accepted, rfl⟩, rest, member, rfl⟩
    exact ⟨a, rest, rfl, accepted, member⟩
  · rintro ⟨a, rest, rfl, accepted, member⟩
    exact ⟨[a], ⟨a, accepted, rfl⟩, rest, member, rfl⟩

theorem language_one : language (.one accepts :: items) = single accepts * language items := by
  unfold language
  rw [List.map_cons, List.prod_cons, Item.language]

/-- A starred letter is skipped, or taken once and met again. -/
theorem language_star :
    language (.star accepts :: items) =
      language items + single accepts * language (.star accepts :: items) := by
  have unrolled := Language.one_add_self_mul_kstar_eq_kstar (single accepts)
  unfold language
  rw [List.map_cons, List.prod_cons, Item.language]
  conv_lhs => rw [← unrolled, add_mul, one_mul, mul_assoc]

theorem starts_nil : Starts ([] : List (Item α)) closed text ↔ (closed = true → text = []) := by
  constructor
  · rintro ⟨inside, after, rfl, empty, closes⟩ shut
    rw [closes shut, List.append_nil]
    exact empty
  · intro closes
    exact ⟨[], text, rfl, rfl, closes⟩

theorem starts_one :
    Starts (.one accepts :: items) closed text ↔
      ∃ a rest, text = a :: rest ∧ accepts a ∧ Starts items closed rest := by
  unfold Starts
  rw [language_one]
  constructor
  · rintro ⟨inside, after, rfl, member, closes⟩
    obtain ⟨a, rest, rfl, accepted, member⟩ := mem_single_mul.mp member
    exact ⟨a, rest ++ after, rfl, accepted, rest, after, rfl, member, closes⟩
  · rintro ⟨a, _, rfl, accepted, inside, after, rfl, member, closes⟩
    exact ⟨a :: inside, after, rfl, mem_single_mul.mpr ⟨a, inside, rfl, accepted, member⟩, closes⟩

theorem starts_star :
    Starts (.star accepts :: items) closed text ↔
      Starts items closed text ∨
        ∃ a rest, text = a :: rest ∧ accepts a ∧ Starts (.star accepts :: items) closed rest := by
  constructor
  · rintro ⟨inside, after, rfl, member, closes⟩
    rw [language_star, Language.mem_add] at member
    rcases member with skipped | taken
    · exact Or.inl ⟨inside, after, rfl, skipped, closes⟩
    · obtain ⟨a, rest, rfl, accepted, member⟩ := mem_single_mul.mp taken
      exact Or.inr ⟨a, rest ++ after, rfl, accepted, rest, after, rfl, member, closes⟩
  · rintro (⟨inside, after, rfl, member, closes⟩ |
      ⟨a, _, rfl, accepted, inside, after, rfl, member, closes⟩)
    · refine ⟨inside, after, rfl, ?_, closes⟩
      rw [language_star, Language.mem_add]
      exact Or.inl member
    · refine ⟨a :: inside, after, rfl, ?_, closes⟩
      rw [language_star, Language.mem_add]
      exact Or.inr (mem_single_mul.mpr ⟨a, inside, rfl, accepted, member⟩)

/-- Some suffix of the text starts with a word of the language. -/
def Occurs (items : List (Item α)) (closed : Bool) (text : List α) : Prop :=
  ∃ before rest, before ++ rest = text ∧ Starts items closed rest

theorem occurs_nil : Occurs items closed [] ↔ Starts items closed [] := by
  constructor
  · rintro ⟨before, rest, joined, starts⟩
    rwa [(List.append_eq_nil_iff.mp joined).2] at starts
  · intro starts
    exact ⟨[], [], rfl, starts⟩

theorem occurs_cons {a : α} {rest : List α} :
    Occurs items closed (a :: rest) ↔
      Starts items closed (a :: rest) ∨ Occurs items closed rest := by
  constructor
  · rintro ⟨before, tail, joined, starts⟩
    cases before with
    | nil =>
      rw [List.nil_append] at joined
      exact Or.inl (joined ▸ starts)
    | cons b before =>
      cases joined
      exact Or.inr ⟨before, tail, rfl, starts⟩
  · rintro (starts | ⟨before, tail, rfl, starts⟩)
    · exact ⟨[], _, rfl, starts⟩
    · exact ⟨a :: before, tail, rfl, starts⟩

end Pattern
