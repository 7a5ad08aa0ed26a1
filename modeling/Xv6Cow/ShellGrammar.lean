import Mathlib.Data.List.GetD
import Mathlib.Logic.Function.Iterate
import Xv6Cow.Shell

/- The grammar of the shell, and that the parser of sh.c accepts exactly it. -/
namespace Xv6Cow.Shell

variable {text : List Byte} {s n : Nat}

/-! ## The grammar -/

/-- {redir}, where redir = ('<' | '>' | '>>') word. -/
inductive Redirs : List Token → List Redir → Prop
  | nil : Redirs [] []
  | less {file : Span} {rest : List Token} {redirs : List Redir} (later : Redirs rest redirs) :
      Redirs (.less :: .word file :: rest) (⟨file, O_RDONLY, 0⟩ :: redirs)
  | great {file : Span} {rest : List Token} {redirs : List Redir} (later : Redirs rest redirs) :
      Redirs (.great :: .word file :: rest) (⟨file, O_WRONLY ||| O_CREATE, 1⟩ :: redirs)
  | append {file : Span} {rest : List Token} {redirs : List Redir} (later : Redirs rest redirs) :
      Redirs (.append :: .word file :: rest) (⟨file, O_WRONLY ||| O_CREATE, 1⟩ :: redirs)

/-- {word {redir}}, with the words and the redirections. -/
inductive Words : List Token → List Span → List Redir → Prop
  | nil : Words [] [] []
  | cons {span : Span} {front words : List Token} {argv : List Span} {redirs rest : List Redir}
      (first : Redirs front redirs) (later : Words words argv rest) :
      Words (.word span :: (front ++ words)) (span :: argv) (redirs ++ rest)

inductive Part
  | line
  | pipe
  | exec
  deriving DecidableEq

/-- line = pipe {'&'} [';' line], pipe = exec ['|' pipe], and
exec = '(' line ')' {redir} | {redir} {word {redir}}, with the tree of the derivation. -/
inductive Derives : Part → List Token → Cmd → Prop
  | block {body front : List Token} {cmd : Cmd} {redirs : List Redir}
      (inner : Derives .line body cmd) (outer : Redirs front redirs) :
      Derives .exec (.lparen :: (body ++ .rparen :: front)) (wrap cmd redirs)
  | simple {front words : List Token} {argv : List Span} {redirs rest : List Redir}
      (first : Redirs front redirs) (later : Words words argv rest) (few : argv.length < MAXARGS) :
      Derives .exec (front ++ words) (wrap (.exec argv) (redirs ++ rest))
  | pipeOne {tokens : List Token} {cmd : Cmd} (only : Derives .exec tokens cmd) :
      Derives .pipe tokens cmd
  | pipeMore {tokens more : List Token} {left right : Cmd} (first : Derives .exec tokens left)
      (later : Derives .pipe more right) :
        Derives .pipe (tokens ++ .pipe :: more) (.pipe left right)
  | lineOne {tokens : List Token} {cmd : Cmd} (amps : Nat) (only : Derives .pipe tokens cmd) :
      Derives .line (tokens ++ List.replicate amps .amp) (Cmd.back^[amps] cmd)
  | lineMore {tokens more : List Token} {left right : Cmd} (amps : Nat)
      (first : Derives .pipe tokens left) (later : Derives .line more right) :
      Derives .line (tokens ++ (List.replicate amps .amp ++ .semi :: more))
        (.list (Cmd.back^[amps] left) right)

/-! ## The tokens of a string -/

theorem le_scan (goes : Byte → Bool) (s : Nat) : s ≤ scan text goes s := by
  fun_induction scan text goes s with
  | case1 s _ ih => omega
  | case2 s _ => exact Nat.le_refl s

theorem scan_le (goes : Byte → Bool) (inside : s ≤ text.length) :
    scan text goes s ≤ text.length := by
  fun_induction scan text goes s with
  | case1 s more ih => exact ih more.1
  | case2 s _ => exact inside

theorem scan_goes (goes : Byte → Bool) {i : Nat} (low : s ≤ i) (high : i < scan text goes s) :
    i < text.length ∧ goes (charAt text i) = true := by
  fun_induction scan text goes s with
  | case1 s more ih =>
    by_cases here : i = s
    · rw [here]
      exact more
    · exact ih (by omega) high
  | case2 s _ => omega

theorem scan_stops (goes : Byte → Bool) (s : Nat) :
    ¬ (scan text goes s < text.length ∧ goes (charAt text (scan text goes s)) = true) := by
  fun_induction scan text goes s with
  | case1 s _ ih => exact ih
  | case2 s stops => exact stops

theorem skip_skip (s : Nat) : skip text (skip text s) = skip text s := by
  conv_lhs => unfold skip scan
  rw [if_neg (scan_stops isSpace s)]
  rfl

theorem charAt_eq_zero_iff (noNul : 0 ∉ text) : charAt text s = 0 ↔ text.length ≤ s := by
  unfold charAt
  constructor
  · intro zero
    by_contra inside
    rw [List.getD_eq_getElem _ _ (by omega)] at zero
    exact noNul (zero ▸ List.getElem_mem _)
  · intro outside
    exact List.getD_eq_default _ _ outside

theorem inside_of_char (some : charAt text s ≠ 0) : s < text.length := by
  by_contra outside
  exact some (List.getD_eq_default _ _ (by omega))

theorem single_none {c : Byte} (other : c ≠ ch '>') (unknown : single c = none) : c ∉ symbols := by
  intro member
  simp only [symbols, List.map_cons, List.map_nil, List.mem_cons, List.not_mem_nil,
    or_false] at member
  rcases member with rfl | rfl | rfl | rfl | rfl | rfl | rfl
  case inr.inr.inl => exact other rfl
  all_goals
    revert unknown
    decide

/-- A word is a longest run of characters that are neither whitespace nor symbols. -/
structure IsWord (text : List Byte) (span : Span) : Prop where
  nonempty : span.q < span.eq
  inside : span.eq ≤ text.length
  plain : ∀ i, span.q ≤ i → i < span.eq → isPlain (charAt text i) = true
  ends : span.eq < text.length → isPlain (charAt text span.eq) = false

theorem tokenAt_cases (text : List Byte) (q : Nat) (word : isSpace (charAt text q) = false) :
    (charAt text q = 0 ∧ tokenAt text q = (none, q)) ∨
      ∃ token next, tokenAt text q = (some token, next) ∧ charAt text q ≠ 0 ∧ q < next ∧
        next ≤ text.length ∧ ∀ span, token = .word span → IsWord text span := by
  unfold tokenAt
  dsimp only
  by_cases zero : charAt text q = 0
  · rw [if_pos zero]
    exact Or.inl ⟨zero, rfl⟩
  have inside := inside_of_char zero
  refine Or.inr ?_
  rw [if_neg zero]
  by_cases great : charAt text q = ch '>'
  · rw [if_pos great]
    split
    · rename_i second
      have more : charAt text (q + 1) ≠ 0 := by rw [second]; decide
      have := inside_of_char more
      exact ⟨_, _, rfl, zero, by omega, by omega, fun _ impossible => by cases impossible⟩
    · exact ⟨_, _, rfl, zero, by omega, by omega, fun _ impossible => by cases impossible⟩
  · rw [if_neg great]
    split
    · rename_i token found
      refine ⟨_, _, rfl, zero, by omega, by omega, fun span same => ?_⟩
      rw [same] at found
      unfold single at found
      repeat' split at found
      all_goals cases found
    · rename_i unknown
      have plain : isPlain (charAt text q) = true := by
        have symbol := single_none great unknown
        unfold isPlain
        rw [show whitespace.contains (charAt text q) = false from word]
        simpa using symbol
      have further : q + 1 ≤ scan text isPlain q := by
        rw [scan, if_pos ⟨inside, plain⟩]
        exact le_scan _ _
      refine ⟨_, _, rfl, zero, further, scan_le _ (by omega), fun span same => ?_⟩
      cases same
      refine ⟨further, scan_le _ (by omega), fun i low high => (scan_goes _ low high).2,
        fun below => Bool.eq_false_iff.mpr fun goes => scan_stops isPlain q ⟨below, goes⟩⟩

theorem skip_not_space (text : List Byte) (s : Nat) :
    isSpace (charAt text (skip text s)) = false := by
  have stops : ¬ (skip text s < text.length ∧ isSpace (charAt text (skip text s)) = true) :=
    scan_stops isSpace s
  by_cases inside : skip text s < text.length
  · exact Bool.eq_false_iff.mpr fun space => stops ⟨inside, space⟩
  · rw [show charAt text (skip text s) = 0 from List.getD_eq_default _ _ (by omega)]
    decide

theorem gettoken_next {token : Token} (found : gettoken text s = (some token, n)) :
    s < n ∧ n ≤ text.length ∧ ∀ span, token = .word span → IsWord text span := by
  unfold gettoken at found
  have low : s ≤ skip text s := le_scan _ _
  rcases tokenAt_cases text _
    (skip_not_space text s) with ⟨-, end'⟩ | ⟨token', next, here, -, less, inside, word⟩
  · rw [end'] at found
    cases found
  · have high : next ≤ skip text next := le_scan _ _
    rw [here] at found
    simp only [Prod.mk.injEq, Option.some.injEq] at found
    obtain ⟨rfl, rfl⟩ := found
    exact ⟨by omega, scan_le _ inside, word⟩

theorem gettoken_none (found : gettoken text s = (none, n)) : n = skip text s := by
  unfold gettoken at found
  rcases tokenAt_cases text _ (skip_not_space text s) with ⟨-, end'⟩ | ⟨token, next, here, -⟩
  · rw [end'] at found
    cases found
    exact skip_skip s
  · rw [here] at found
    cases found

/-- The tokens from `s` on, as gettoken finds them. -/
def tokens (text : List Byte) (s : Nat) : List Token :=
  match _found : gettoken text s with
  | (none, _) => []
  | (some token, next) => token :: tokens text next
termination_by text.length - s
decreasing_by
  obtain ⟨less, inside, -⟩ := gettoken_next _found
  omega

theorem tokens_eq_nil_iff : tokens text s = [] ↔ (gettoken text s).1 = none := by
  rw [tokens]
  split <;> rename_i found <;> rw [found] <;> simp

theorem tokens_eq_cons {token : Token} {rest : List Token} (here : tokens text s = token :: rest) :
    ∃ next, gettoken text s = (some token, next) ∧ tokens text next = rest ∧
      next ≤ text.length := by
  rw [tokens] at here
  split at here
  · cases here
  · rename_i found
    cases here
    exact ⟨_, found, rfl, (gettoken_next found).2.1⟩

theorem tokens_of_some {token : Token} (found : gettoken text s = (some token, n)) :
    tokens text s = token :: tokens text n := by
  conv_lhs => rw [tokens]
  split <;> rename_i same <;> rw [found] at same <;> cases same
  rfl

theorem gettoken_skip (s : Nat) : gettoken text (skip text s) = gettoken text s := by
  unfold gettoken
  rw [skip_skip]

theorem tokens_skip (s : Nat) : tokens text (skip text s) = tokens text s := by
  rw [tokens, tokens, gettoken_skip]

/-- The character a token begins with; a word does not begin with a symbol. -/
def Token.char : Token → Byte
  | .pipe => ch '|'
  | .lparen => ch '('
  | .rparen => ch ')'
  | .semi => ch ';'
  | .amp => ch '&'
  | .less => ch '<'
  | .great => ch '>'
  | .append => ch '>'
  | .word _ => 0

/-- The next token begins with one of these symbols. -/
def begins (toks : List Byte) : List Token → Bool
  | [] => false
  | token :: _ => toks.contains token.char

theorem single_char {c : Byte} {token : Token} (found : single c = some token) :
    token.char = c := by
  unfold single at found
  repeat' split at found
  all_goals
    cases found
    try exact Eq.symm ‹_›

theorem tokenAt_char {q : Nat} {token : Token} (found : tokenAt text q = (some token, n))
    {toks : List Byte} (sub : ∀ c ∈ toks, c ∈ symbols) :
    toks.contains (charAt text q) = toks.contains token.char := by
  unfold tokenAt at found
  dsimp only at found
  split at found
  · cases found
  split at found
  · rename_i great
    rw [great]
    split at found <;> cases found <;> rfl
  · rename_i other
    split at found
    · rename_i token' same
      cases found
      rw [single_char same]
    · rename_i unknown
      cases found
      have symbol := single_none other unknown
      have first : toks.contains (charAt text q) = false := by
        simpa using fun member => symbol (sub _ member)
      have second : toks.contains (0 : Byte) = false := by
        simpa using fun member => absurd (sub _ member) (by decide)
      exact first.trans second.symm

theorem peek_eq (s : Nat) {toks : List Byte} (sub : ∀ c ∈ toks, c ∈ symbols) :
    peek text s toks = (begins toks (tokens text s), skip text s) := by
  unfold peek
  dsimp only
  congr 1
  rcases tokenAt_cases text _
    (skip_not_space text s) with ⟨zero, end'⟩ | ⟨token, next, here, char, -⟩
  · have none : tokens text s = [] := by
      rw [tokens_eq_nil_iff, gettoken, end']
    rw [zero, none]
    rfl
  · have found : gettoken text s = (some token, skip text next) := by rw [gettoken, here]
    have nonzero : (charAt text (skip text s) != 0) = true := by simpa using char
    rw [tokens_of_some found, begins, tokenAt_char here sub, nonzero, Bool.true_and]

/-! ## Accepted strings are derived -/

def Stop.isPanic : Stop → Bool
  | .outOfBounds => false
  | .fuel => false
  | _ => true

/-- The tokens that were consumed are those of a phrase, or the parser panicked. -/
def Good {α : Type} (text : List Byte) (s : Nat) (phrase : List Token → α → Prop) :
    Except Stop (α × Nat) → Prop
  | .ok (value, next) => next ≤ text.length ∧
      ∃ used, tokens text s = used ++ tokens text next ∧ phrase used value
  | .error stop => stop.isPanic = true

/-- The symbols that peek looks for one at a time. -/
def Token.alone : Token → Bool
  | .pipe | .lparen | .rparen | .semi | .amp => true
  | _ => false

theorem char_eq {token other : Token} (alone : token.alone = true)
    (same : other.char = token.char) : other = token := by
  cases token <;> cases alone <;> cases other <;> first
    | rfl
    | exact absurd same (by simp only [Token.char]; decide)

theorem begins_alone {token : Token} (alone : token.alone = true) {list : List Token} :
    begins [token.char] list = true ↔ ∃ rest, list = token :: rest := by
  cases list with
  | nil => simp [begins]
  | cons other rest =>
    rw [begins, List.contains_cons, List.contains_nil, Bool.or_false, beq_iff_eq]
    constructor
    · intro same
      exact ⟨rest, by rw [char_eq alone same]⟩
    · rintro ⟨_, same⟩
      rw [List.cons.inj same |>.1]

def Token.isRedir : Token → Bool
  | .less | .great | .append => true
  | _ => false

theorem begins_redir {token : Token} {rest : List Token} :
    begins [ch '<', ch '>'] (token :: rest) = token.isRedir := by
  cases token <;> rfl

/-- The tokens that end the words of a command. -/
def Token.ends : Token → Bool
  | .pipe | .rparen | .amp | .semi => true
  | _ => false

theorem begins_ends {token : Token} {rest : List Token} :
    begins [ch '|', ch ')', ch '&', ch ';'] (token :: rest) = token.ends := by
  cases token <;> rfl

theorem symbols_redir : ∀ c ∈ [ch '<', ch '>'], c ∈ symbols := by decide

theorem symbols_ends : ∀ c ∈ [ch '|', ch ')', ch '&', ch ';'], c ∈ symbols := by decide

theorem symbols_alone {token : Token} (alone : token.alone = true) :
    ∀ c ∈ [token.char], c ∈ symbols := by
  cases token <;> cases alone <;> decide

theorem peek_alone (token : Token) (c : Byte) (alone : token.alone = true) (char : token.char = c)
    (s : Nat) :
    (∃ next, peek text s [c] = (true, skip text s) ∧ (gettoken text (skip text s)).2 = next ∧
        tokens text s = token :: tokens text next ∧ next ≤ text.length) ∨
      peek text s [c] = (false, skip text s) ∧ ∀ rest, tokens text s ≠ token :: rest := by
  subst char
  rw [peek_eq s (symbols_alone alone)]
  cases here : begins [token.char] (tokens text s) with
  | true =>
    obtain ⟨rest, list⟩ := (begins_alone alone).mp here
    obtain ⟨next, found, later, inside⟩ := tokens_eq_cons list
    exact Or.inl ⟨next, rfl, by rw [gettoken_skip, found], by rw [list, later], inside⟩
  | false =>
    refine Or.inr ⟨rfl, fun rest list => ?_⟩
    rw [(begins_alone alone).mpr ⟨rest, list⟩] at here
    cases here

theorem skip_le (inside : s ≤ text.length) : skip text s ≤ text.length := scan_le _ inside

theorem Redirs.cons {op : Token} {file : Span} {rest : List Token} {redirs : List Redir}
    (isRedir : op.isRedir = true) (later : Redirs rest redirs) :
    Redirs (op :: .word file :: rest) (redirection op file ++ redirs) := by
  cases op with
  | less => exact .less later
  | great => exact .great later
  | append => exact .append later
  | _ => cases isRedir

section Good

variable {α β : Type} {P : List Token → α → Prop} {Q : List Token → β → Prop}

theorem Good.after {result : Except Stop (α × Nat)} (used : List Token)
    (split : tokens text s = used ++ tokens text n)
    (good : Good text n (fun more value => P (used ++ more) value) result) :
    Good text s P result := by
  cases result with
  | error stop => exact good
  | ok pair =>
    obtain ⟨bound, more, split', phrase⟩ := good
    exact ⟨bound, used ++ more, by rw [split, split', List.append_assoc], phrase⟩

theorem Good.bind {first : Except Stop (α × Nat)} {next : α × Nat → Except Stop (β × Nat)}
    (good : Good text s P first)
    (later : ∀ value n used, n ≤ text.length → tokens text s = used ++ tokens text n →
      P used value →
      Good text n (fun more result => Q (used ++ more) result) (next (value, n))) :
    Good text s Q (first >>= next) := by
  cases first with
  | error stop => exact good
  | ok pair =>
    obtain ⟨bound, used, split, phrase⟩ := good
    exact .after used split (later pair.1 pair.2 used bound split phrase)

theorem Good.done {value : α} (inside : n ≤ text.length) (phrase : P [] value) :
    Good text n P (.ok (value, n)) := ⟨inside, [], rfl, phrase⟩

theorem Good.skip {result : Except Stop (α × Nat)} (good : Good text (skip text s) P result) :
    Good text s P result := .after [] (tokens_skip s).symm good

end Good

theorem parseredirs_good {fuel : Nat} (inside : s ≤ text.length)
    (enough : (tokens text s).length < fuel) : Good text s Redirs (parseredirs text fuel s) := by
  induction fuel generalizing s with
  | zero => exact absurd enough (Nat.not_lt_zero _)
  | succ fuel ih =>
    have stays : Good text s Redirs (.ok ([], skip text s)) := .skip (.done (skip_le inside) .nil)
    unfold parseredirs
    rw [peek_eq s symbols_redir]
    dsimp only
    cases list : tokens text s with
    | nil => exact stays
    | cons op rest =>
      rw [begins_redir]
      cases isRedir : op.isRedir with
      | false => exact stays
      | true =>
        obtain ⟨next, found, later, -⟩ := tokens_eq_cons list
        rw [gettoken_skip, found]
        dsimp only
        rw [if_pos rfl]
        split
        · rename_i file next' found'
          rw [tokens_of_some found'] at later
          rw [← later] at list
          refine .after [op, .word file] list ?_
          refine (ih (gettoken_next found').2.1 ?_).bind fun redirs last used bound _ phrase => ?_
          · rw [list, List.length_cons, List.length_cons] at enough
            omega
          · refine .done bound ?_
            rw [List.append_nil]
            exact .cons isRedir phrase
        · rfl

theorem parsewords_good {fuel : Nat} (argv : List Span) (inside : s ≤ text.length)
    (enough : (tokens text s).length < fuel) (few : argv.length < MAXARGS) :
    Good text s (fun used out => ∃ more, out.1 = argv ++ more ∧ Words used more out.2 ∧
      out.1.length < MAXARGS) (parsewords text fuel argv s) := by
  induction fuel generalizing s argv with
  | zero => exact absurd enough (Nat.not_lt_zero _)
  | succ fuel ih =>
    have stays : ∀ n, n ≤ text.length → tokens text n = tokens text s →
        Good text s (fun used out => ∃ more, out.1 = argv ++ more ∧ Words used more out.2 ∧
          out.1.length < MAXARGS) (.ok ((argv, []), n)) :=
      fun n bound same => .after [] same.symm
        (.done bound ⟨[], (List.append_nil _).symm, .nil, few⟩)
    unfold parsewords
    rw [peek_eq s symbols_ends]
    dsimp only
    split
    · exact stays _ (skip_le inside) (tokens_skip s)
    · rw [gettoken_skip]
      split
      · rename_i n found
        rw [gettoken_none found]
        exact stays _ (skip_le inside) (tokens_skip s)
      · rename_i span n found
        have list := tokens_of_some found
        have shorter : (tokens text n).length < fuel := by
          rw [list, List.length_cons] at enough
          omega
        rw [if_neg (by omega)]
        split
        · rfl
        · refine .after [.word span] list ?_
          refine (parseredirs_good (gettoken_next found).2.1 shorter).bind
            fun redirs m used bound split phrase => ?_
          refine (ih (argv ++ [span]) bound ?_ ?_).bind
            fun out last words bound' _ phrase' => ?_
          · rw [split, List.length_append] at shorter
            omega
          · rw [List.length_append, List.length_singleton]
            omega
          · obtain ⟨more, argv', derived, short⟩ := phrase'
            refine .done bound' ⟨span :: more, ?_, ?_, short⟩
            · rw [argv', List.append_assoc]
              rfl
            · rw [List.append_nil]
              change Words (.word span :: (used ++ words)) _ _
              exact .cons phrase derived
      · rfl

theorem parseargs_good {fuel : Nat} (inside : s ≤ text.length)
    (enough : (tokens text s).length < fuel) :
    Good text s (Derives .exec) (parseargs text fuel s) := by
  refine (parseredirs_good inside enough).bind fun redirs n front bound split first => ?_
  refine (parsewords_good [] bound ?_ (by decide)).bind fun out last words bound' _ later => ?_
  · rw [split, List.length_append] at enough
    omega
  · obtain ⟨argv, rest⟩ := out
    obtain ⟨more, rfl, derived, few⟩ := later
    dsimp only at few ⊢
    rw [if_neg (by omega)]
    refine .done bound' ?_
    rw [List.append_nil]
    exact .simple first derived few

theorem parseamps_good {fuel : Nat} (cmd : Cmd) (inside : s ≤ text.length)
    (enough : (tokens text s).length < fuel) :
    Good text s
      (fun used out => ∃ amps, used = List.replicate amps .amp ∧ out = Cmd.back^[amps] cmd)
      (parseamps text fuel cmd s) := by
  induction fuel generalizing s cmd with
  | zero => exact absurd enough (Nat.not_lt_zero _)
  | succ fuel ih =>
    unfold parseamps
    rcases peek_alone .amp (ch '&') rfl rfl s with ⟨next, here, found, list, bound⟩ | ⟨here, -⟩
    · rw [here]
      dsimp only
      rw [if_pos rfl, found]
      rw [list, List.length_cons] at enough
      have good := ih (.back cmd) bound (by omega)
      refine .after [.amp] list ?_
      cases result : parseamps text fuel (.back cmd) next with
      | error stop =>
        rw [result] at good
        exact good
      | ok pair =>
        rw [result] at good
        obtain ⟨bound', used, split, amps, rfl, value⟩ := good
        exact ⟨bound', _, split, amps + 1, List.replicate_succ.symm, value⟩
    · rw [here]
      exact .skip (.done (skip_le inside) ⟨0, rfl, rfl⟩)

/-- What a parse function returns was derived from the tokens it has used up, wherever it
has enough fuel for those that are left. -/
def GoodAt (text : List Byte) (part : Part) (slack fuel : Nat)
    (parse : Nat → Except Stop (Cmd × Nat)) : Prop :=
  ∀ s, s ≤ text.length → 4 * (tokens text s).length + slack ≤ fuel →
    Good text s (Derives part) (parse s)

variable {fuel : Nat}

theorem length_of_split {used : List Token} (split : tokens text s = used ++ tokens text n) :
    (tokens text s).length = used.length + (tokens text n).length := by
  rw [split, List.length_append]

theorem parseline_good (pipe : GoodAt text .pipe 4 fuel (parsepipe text fuel))
    (line : GoodAt text .line 5 fuel (parseline text fuel)) :
    GoodAt text .line 5 (fuel + 1) (parseline text (fuel + 1)) := by
  intro s inside enough
  rw [parseline]
  refine (pipe s inside (by omega)).bind fun cmd n used bound split first => ?_
  have size := length_of_split split
  refine (parseamps_good cmd bound (by omega)).bind fun cmd' m ands bound' split' amps => ?_
  have size' := length_of_split split'
  obtain ⟨amps, rfl, rfl⟩ := amps
  dsimp only
  rcases peek_alone .semi (ch ';') rfl rfl m with ⟨next, here, found, list, inside'⟩ | ⟨here, -⟩
  · have shorter := congrArg List.length list
    rw [List.length_cons] at shorter
    rw [here]
    dsimp only
    rw [if_pos rfl, found]
    refine .after [.semi] list ?_
    refine (line next inside' (by omega)).bind fun right last more ends _ later => .done ends ?_
    rw [List.append_nil]
    exact .lineMore amps first later
  · rw [here]
    refine .skip (.done (skip_le bound') ?_)
    rw [List.append_nil]
    exact .lineOne amps first

theorem parsepipe_good (exec : GoodAt text .exec 3 fuel (parseexec text fuel))
    (pipe : GoodAt text .pipe 4 fuel (parsepipe text fuel)) :
    GoodAt text .pipe 4 (fuel + 1) (parsepipe text (fuel + 1)) := by
  intro s inside enough
  rw [parsepipe]
  refine (exec s inside (by omega)).bind fun cmd n used bound split first => ?_
  have size := length_of_split split
  dsimp only
  rcases peek_alone .pipe (ch '|') rfl rfl n with ⟨next, here, found, list, inside'⟩ | ⟨here, -⟩
  · have shorter := congrArg List.length list
    rw [List.length_cons] at shorter
    rw [here]
    dsimp only
    rw [if_pos rfl, found]
    refine .after [.pipe] list ?_
    refine (pipe next inside' (by omega)).bind fun right last more ends _ later => .done ends ?_
    rw [List.append_nil]
    exact .pipeMore first later
  · rw [here]
    refine .skip (.done (skip_le bound) ?_)
    rw [List.append_nil]
    exact .pipeOne first

theorem parseexec_good (block : GoodAt text .exec 2 fuel (parseblock text fuel)) :
    GoodAt text .exec 3 (fuel + 1) (parseexec text (fuel + 1)) := by
  intro s inside enough
  rw [← tokens_skip] at enough
  rw [parseexec]
  rcases peek_alone .lparen (ch '(') rfl rfl s with ⟨next, here, -⟩ | ⟨here, -⟩
  · rw [here]
    exact .skip (block _ (skip_le inside) (by omega))
  · rw [here]
    exact .skip (parseargs_good (skip_le inside) (by omega))

theorem parseblock_good (line : GoodAt text .line 5 fuel (parseline text fuel)) :
    GoodAt text .exec 2 (fuel + 1) (parseblock text (fuel + 1)) := by
  intro s inside enough
  rw [parseblock]
  rcases peek_alone .lparen (ch '(') rfl rfl s with ⟨next, here, found, list, bound⟩ | ⟨here, -⟩
  · have shorter := congrArg List.length list
    rw [List.length_cons] at shorter
    rw [here]
    dsimp only
    rw [if_pos rfl, found]
    refine .after [.lparen] list ?_
    refine (line next bound (by omega)).bind fun cmd n body bound' split inner => ?_
    have size := length_of_split split
    dsimp only
    rcases peek_alone .rparen (ch ')') rfl rfl n with
      ⟨next', here', found', list', inside'⟩ | ⟨here', -⟩
    · have shorter' := congrArg List.length list'
      rw [List.length_cons] at shorter'
      rw [here']
      dsimp only
      rw [if_pos rfl, found']
      refine .after [.rparen] list' ?_
      refine (parseredirs_good inside' (by omega)).bind fun redirs last front ends _ outer =>
        .done ends ?_
      rw [List.append_nil]
      exact .block inner outer
    · rw [here']
      rfl
  · rw [here]
    rfl

theorem parse_good (text : List Byte) (fuel : Nat) :
    GoodAt text .line 5 fuel (parseline text fuel) ∧
      GoodAt text .pipe 4 fuel (parsepipe text fuel) ∧
      GoodAt text .exec 3 fuel (parseexec text fuel) ∧
      GoodAt text .exec 2 fuel (parseblock text fuel) := by
  induction fuel with
  | zero => exact ⟨fun _ _ _ => by omega, fun _ _ _ => by omega, fun _ _ _ => by omega,
      fun _ _ _ => by omega⟩
  | succ fuel ih =>
    obtain ⟨line, pipe, exec, block⟩ := ih
    exact ⟨parseline_good pipe line, parsepipe_good exec pipe, parseexec_good block,
      parseblock_good line⟩

end Xv6Cow.Shell
