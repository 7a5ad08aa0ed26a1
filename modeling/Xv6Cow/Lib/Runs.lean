import Mathlib.Logic.Basic
import Mathlib.Tactic.TypeStar

/- Runs of a labelled transition system: each step takes a label, makes an
observation and moves to the next state. -/
namespace Runs

variable {σ τ α ι ω : Type}

/-- The steps of a run, first to last, with what each observed. -/
inductive Run (step : σ → ι → ω → σ → Prop) : σ → List (ι × ω) → σ → Prop
  | nil {s : σ} : Run step s [] s
  | cons {s t u : σ} {label : ι} {out : ω} {rest : List (ι × ω)}
      (first : step s label out t) (later : Run step t rest u) :
      Run step s ((label, out) :: rest) u

variable {step : σ → ι → ω → σ → Prop} {s t u : σ} {trace : List (ι × ω)}

theorem Run.append {more : List (ι × ω)} (first : Run step s trace t) (second : Run step t more u) :
    Run step s (trace ++ more) u := by
  induction first with
  | nil => exact second
  | cons head _ ih => exact .cons head (ih second)

theorem Run.single {label : ι} {out : ω} (taken : step s label out t) :
    Run step s [(label, out)] t := .cons taken .nil

/-- What every step keeps holds after every run. -/
theorem Run.invariant {I : σ → Prop}
    (keep : ∀ {s label out t}, I s → step s label out t → I t)
    (run : Run step s trace t) (start : I s) : I t := by
  induction run with
  | nil => exact start
  | cons first _ ih => exact ih (keep start first)

/-- A relation that steps satisfy and that composes relates the ends of a run. -/
theorem Run.related {R : σ → σ → Prop} (same : ∀ s, R s s)
    (compose : ∀ {s t u}, R s t → R t u → R s u)
    (taken : ∀ {s label out t}, step s label out t → R s t) (run : Run step s trace t) :
    R s t := by
  induction run with
  | nil => exact same _
  | cons first _ ih => exact compose (taken first) ih

theorem Run.mono {weak : σ → ι → ω → σ → Prop}
    (weaken : ∀ {s label out t}, step s label out t → weak s label out t)
    (run : Run step s trace t) : Run weak s trace t := by
  induction run with
  | nil => exact .nil
  | cons first _ ih => exact .cons (weaken first) ih

/-- The run that carries out a list of labels with a partial step function. -/
theorem Run.of_foldlM {next : σ → ι → Option σ} {labels : List ι}
    (taken : labels.foldlM next s = some t) :
    Run (fun s label (_ : Unit) t => next s label = some t) s (labels.map fun label => (label, ()))
      t := by
  induction labels generalizing s with
  | nil =>
    cases taken
    exact .nil
  | cons label rest ih =>
    rw [List.foldlM_cons] at taken
    obtain ⟨u, first, later⟩ := Option.bind_eq_some_iff.mp taken
    exact .cons first (ih later)

/-- Carries out a list of labels with a partial step function that also answers. -/
def exec (next : σ → ι → Option (ω × σ)) : σ → List ι → Option (List (ι × ω) × σ)
  | s, [] => some ([], s)
  | s, label :: rest =>
    (next s label).bind fun (out, t) =>
      (exec next t rest).map fun (later, u) => ((label, out) :: later, u)

theorem Run.of_exec {next : σ → ι → Option (ω × σ)} {labels : List ι}
    (taken : exec next s labels = some (trace, t)) :
    Run (fun s label out t => next s label = some (out, t)) s trace t := by
  induction labels generalizing s trace with
  | nil =>
    cases taken
    exact .nil
  | cons label rest ih =>
    obtain ⟨⟨out, u⟩, first, taken⟩ := Option.bind_eq_some_iff.mp taken
    obtain ⟨⟨later, v⟩, ran, same⟩ := Option.map_eq_some_iff.mp taken
    cases same
    exact .cons first (ih ran)

theorem exec_labels {next : σ → ι → Option (ω × σ)} {labels : List ι}
    (taken : exec next s labels = some (trace, t)) : trace.map Prod.fst = labels := by
  induction labels generalizing s trace with
  | nil =>
    cases taken
    rfl
  | cons label rest ih =>
    obtain ⟨⟨out, u⟩, first, taken⟩ := Option.bind_eq_some_iff.mp taken
    obtain ⟨⟨later, v⟩, ran, same⟩ := Option.map_eq_some_iff.mp taken
    cases same
    exact congrArg (label :: ·) (ih ran)

/-- A system whose steps an abstract machine imitates has an abstract run for every run. -/
theorem Run.simulate {abs : σ → α → Prop} {next : α → ι → ω → α → Prop}
    (imitate : ∀ {s label out t a}, abs s a → step s label out t → ∃ b, next a label out b ∧
      abs t b)
    (run : Run step s trace t) {a : α} (start : abs s a) : ∃ b, Run next a trace b ∧ abs t b := by
  induction run generalizing a with
  | nil => exact ⟨a, .nil, start⟩
  | cons first _ ih =>
    obtain ⟨b, moves, later⟩ := imitate start first
    obtain ⟨c, run, final⟩ := ih later
    exact ⟨c, .cons moves run, final⟩

/-! ## Deterministic abstractions -/

/-- The observations of a deterministic machine, and where it ends. -/
def replay (next : α → ι → ω × α) : α → List ι → List ω × α
  | a, [] => ([], a)
  | a, label :: rest =>
    let (out, b) := next a label
    let (outs, c) := replay next b rest
    (out :: outs, c)

/-- A system whose steps a deterministic machine imitates observes what the machine
computes from the labels alone. -/
theorem Run.replay {abs : σ → α → Prop} {next : α → ι → ω × α}
    (imitate : ∀ {s label out t a}, abs s a → step s label out t →
      out = (next a label).1 ∧ abs t (next a label).2)
    (run : Run step s trace t) {a : α} (start : abs s a) :
    trace.map Prod.snd = (Runs.replay next a (trace.map Prod.fst)).1 ∧
      abs t (Runs.replay next a (trace.map Prod.fst)).2 := by
  induction run generalizing a with
  | nil => exact ⟨rfl, start⟩
  | @cons s t u label out rest first later ih =>
    obtain ⟨rfl, next'⟩ := imitate start first
    obtain ⟨outs, final⟩ := ih next'
    exact ⟨congrArg (List.cons _) outs, final⟩

/-- Two systems that one deterministic machine imitates agree on what they
observe. -/
theorem Run.agree {step' : τ → ι → ω → τ → Prop} {abs : σ → α → Prop} {abs' : τ → α → Prop}
    {next : α → ι → ω × α}
    (imitate : ∀ {s label out t a}, abs s a → step s label out t →
      out = (next a label).1 ∧ abs t (next a label).2)
    (imitate' : ∀ {s label out t a}, abs' s a → step' s label out t →
      out = (next a label).1 ∧ abs' t (next a label).2)
    {s' t' : τ} {trace' : List (ι × ω)} {a : α}
    (run : Run step s trace t) (run' : Run step' s' trace' t') (start : abs s a)
    (start' : abs' s' a) (labels : trace.map Prod.fst = trace'.map Prod.fst) :
    trace.map Prod.snd = trace'.map Prod.snd ∧ ∃ b, abs t b ∧ abs' t' b := by
  obtain ⟨outs, final⟩ := run.replay imitate start
  obtain ⟨outs', final'⟩ := run'.replay imitate' start'
  rw [← labels] at outs' final'
  exact ⟨outs.trans outs'.symm, _, final, final'⟩

end Runs
