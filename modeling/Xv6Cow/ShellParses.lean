import Xv6Cow.ShellGrammar

/- Derived strings are accepted, and nulterminate leaves each word as a string of its
own. -/
namespace Xv6Cow.Shell

variable {text : List Byte} {s n fuel : Nat} {used rest : List Token}

/-! ## Derived strings are accepted -/

theorem peek_true (token : Token) (c : Byte) {rest : List Token} (alone : token.alone = true)
    (char : token.char = c) (list : tokens text s = token :: rest) :
    peek text s [c] = (true, skip text s) ∧ tokens text (gettoken text (skip text s)).2 = rest := by
  rcases peek_alone token c alone char s with ⟨next, here, found, list', -⟩ | ⟨-, other⟩
  · rw [list] at list'
    exact ⟨here, by rw [found, (List.cons.inj list').2]⟩
  · exact absurd list (other rest)

theorem peek_false (token : Token) (c : Byte) (alone : token.alone = true) (char : token.char = c)
    (other : ∀ rest, tokens text s ≠ token :: rest) : peek text s [c] = (false, skip text s) := by
  rcases peek_alone token c alone char s with ⟨next, -, -, list, -⟩ | ⟨here, -⟩
  · exact absurd list (other _)
  · exact here

/-- No redirection follows. -/
def NoRedir : List Token → Prop
  | [] => True
  | token :: _ => token.isRedir = false

/-- The words of a command end here. -/
def WordsEnd : List Token → Prop
  | [] => True
  | token :: _ => token.ends = true

theorem WordsEnd.noRedir (ends : WordsEnd rest) : NoRedir rest := by
  cases rest with
  | nil => trivial
  | cons token _ => cases token <;> first | rfl | cases ends

theorem Words.noRedir {argv : List Span} {redirs : List Redir} (words : Words used argv redirs)
    (ends : WordsEnd rest) : NoRedir (used ++ rest) := by
  cases words with
  | nil => exact ends.noRedir
  | cons _ _ => rfl

theorem parseredirs_stops (stops : NoRedir (tokens text s)) :
    parseredirs text (fuel + 1) s = .ok ([], skip text s) := by
  unfold parseredirs
  rw [peek_eq s symbols_redir]
  dsimp only
  cases list : tokens text s with
  | nil => rfl
  | cons token more =>
    rw [list] at stops
    rw [begins_redir, show token.isRedir = false from stops]
    rfl

theorem parseredirs_goes (op : Token) {file : Span} {more : List Token} {redirs : List Redir}
    (isRedir : op.isRedir = true) (list : tokens text s = op :: .word file :: more)
    (later : ∀ n, tokens text n = more →
      ∃ last, parseredirs text fuel n = .ok (redirs, last) ∧ tokens text last = rest) :
    ∃ last, parseredirs text (fuel + 1) s = .ok (redirection op file ++ redirs, last) ∧
      tokens text last = rest := by
  obtain ⟨next, found, list', -⟩ := tokens_eq_cons list
  obtain ⟨next', found', list'', -⟩ := tokens_eq_cons list'
  obtain ⟨last, parsed, ends⟩ := later next' list''
  refine ⟨last, ?_, ends⟩
  unfold parseredirs
  rw [peek_eq s symbols_redir]
  dsimp only
  rw [list, begins_redir, isRedir, if_pos rfl, gettoken_skip, found]
  dsimp only
  rw [found']
  dsimp only
  rw [parsed]
  rfl

theorem parseredirs_complete {redirs : List Redir} (derived : Redirs used redirs)
    (list : tokens text s = used ++ rest) (stops : NoRedir rest) (enough : used.length < fuel) :
    ∃ last, parseredirs text fuel s = .ok (redirs, last) ∧ tokens text last = rest := by
  induction derived generalizing s fuel with
  | nil =>
    obtain ⟨fuel, rfl⟩ := Nat.exists_eq_add_one_of_ne_zero (by omega : fuel ≠ 0)
    rw [List.nil_append] at list
    rw [← list] at stops
    exact ⟨_, parseredirs_stops stops, by rw [tokens_skip, list]⟩
  | @less file more redirs _ ih =>
    obtain ⟨fuel, rfl⟩ := Nat.exists_eq_add_one_of_ne_zero (by omega : fuel ≠ 0)
    simp only [List.length_cons] at enough
    exact parseredirs_goes .less rfl list fun n here => ih here (by omega)
  | @great file more redirs _ ih =>
    obtain ⟨fuel, rfl⟩ := Nat.exists_eq_add_one_of_ne_zero (by omega : fuel ≠ 0)
    simp only [List.length_cons] at enough
    exact parseredirs_goes .great rfl list fun n here => ih here (by omega)
  | @append file more redirs _ ih =>
    obtain ⟨fuel, rfl⟩ := Nat.exists_eq_add_one_of_ne_zero (by omega : fuel ≠ 0)
    simp only [List.length_cons] at enough
    exact parseredirs_goes .append rfl list fun n here => ih here (by omega)

theorem parsewords_complete {more : List Span} {redirs : List Redir}
    (derived : Words used more redirs)
    (argv : List Span) (few : (argv ++ more).length < MAXARGS) (list : tokens text s = used ++ rest)
    (stops : WordsEnd rest) (enough : used.length < fuel) :
    ∃ last, parsewords text fuel argv s = .ok ((argv ++ more, redirs), last) ∧
      tokens text last = rest := by
  induction derived generalizing s fuel argv with
  | nil =>
    obtain ⟨fuel, rfl⟩ := Nat.exists_eq_add_one_of_ne_zero (by omega : fuel ≠ 0)
    rw [List.nil_append] at list
    refine ⟨skip text s, ?_, by rw [tokens_skip, list]⟩
    unfold parsewords
    rw [peek_eq s symbols_ends, List.append_nil]
    dsimp only
    cases here : tokens text s with
    | nil =>
      have ended := tokens_eq_nil_iff.mp here
      have last := gettoken_none (Prod.ext ended rfl)
      rw [gettoken_skip, show gettoken text s = (none, skip text s) from Prod.ext ended last]
      rfl
    | cons token more =>
      rw [← list, here] at stops
      rw [begins_ends, show token.ends = true from stops]
      rfl
  | @cons span front words argv' redirs rest' first later ih =>
    obtain ⟨fuel, rfl⟩ := Nat.exists_eq_add_one_of_ne_zero (by omega : fuel ≠ 0)
    rw [List.cons_append, List.append_assoc] at list
    simp only [List.length_cons, List.length_append] at enough few
    obtain ⟨next, found, list', -⟩ := tokens_eq_cons list
    obtain ⟨next', parsed, list''⟩ :=
      parseredirs_complete first list' (later.noRedir stops) (by omega : front.length < fuel)
    obtain ⟨last, parsed', ends⟩ := ih (argv ++ [span])
      (by simp only [List.length_append, List.length_cons, List.length_nil]; omega)
      list'' (by omega : words.length < fuel)
    refine ⟨last, ?_, ends⟩
    unfold parsewords
    rw [peek_eq s symbols_ends, list]
    dsimp only
    rw [begins_ends, gettoken_skip, found]
    dsimp only
    rw [if_neg (show ¬ (Token.word span).ends = true from Bool.false_ne_true), if_neg (by omega),
      if_neg (by omega), parsed]
    change (parsewords text fuel (argv ++ [span]) next' >>= _) = _
    rw [parsed', List.append_assoc]
    rfl

theorem parseamps_complete {amps : Nat} (cmd : Cmd)
    (list : tokens text s = List.replicate amps .amp ++ rest) (stops : ∀ more, rest ≠ .amp :: more)
    (enough : amps < fuel) :
    ∃ last, parseamps text fuel cmd s = .ok (Cmd.back^[amps] cmd, last) ∧
      tokens text last = rest := by
  induction amps generalizing s fuel cmd with
  | zero =>
    obtain ⟨fuel, rfl⟩ := Nat.exists_eq_add_one_of_ne_zero (by omega : fuel ≠ 0)
    rw [List.replicate_zero, List.nil_append] at list
    refine ⟨skip text s, ?_, by rw [tokens_skip, list]⟩
    unfold parseamps
    rw [peek_false .amp (ch '&') rfl rfl (by rw [list]; exact stops)]
    rfl
  | succ amps ih =>
    obtain ⟨fuel, rfl⟩ := Nat.exists_eq_add_one_of_ne_zero (by omega : fuel ≠ 0)
    rw [List.replicate_succ, List.cons_append] at list
    obtain ⟨here, list'⟩ := peek_true .amp (ch '&') rfl rfl list
    obtain ⟨last, parsed, ends⟩ := ih (.back cmd) list' (by omega : amps < fuel)
    refine ⟨last, ?_, ends⟩
    unfold parseamps
    rw [here]
    exact parsed

/-- What may come after a phrase. -/
def Follow : Part → List Token → Prop
  | _, [] => True
  | .line, token :: _ => token = .rparen
  | .pipe, token :: _ => token = .rparen ∨ token = .amp ∨ token = .semi
  | .exec, token :: _ => token.ends = true

def parse (text : List Byte) : Part → Nat → Nat → Except Stop (Cmd × Nat)
  | .line => parseline text
  | .pipe => parsepipe text
  | .exec => parseexec text

def Part.slack : Part → Nat
  | .line => 5
  | .pipe => 4
  | .exec => 3

theorem Follow.wordsEnd (follow : Follow .exec rest) : WordsEnd rest := by
  cases rest with
  | nil => trivial
  | cons _ _ => exact follow

/-- A phrase may be followed by what may follow the phrases it ends. -/
theorem Follow.pipe_of_line (follow : Follow .line rest) : Follow .pipe rest := by
  cases rest with
  | nil => trivial
  | cons _ _ => exact Or.inl follow

theorem Follow.exec_of_pipe (follow : Follow .pipe rest) : Follow .exec rest := by
  cases rest with
  | nil => trivial
  | cons token _ =>
    rcases follow with rfl | rfl | rfl <;> rfl

theorem Follow.not_pipe (follow : Follow .pipe rest) (more : List Token) :
    rest ≠ .pipe :: more := by
  rintro rfl
  rcases follow with same | same | same <;> cases same

theorem Follow.line_ne {token : Token} (follow : Follow .line rest) (other : token ≠ .rparen)
    (more : List Token) : rest ≠ token :: more := by
  rintro rfl
  exact other follow

theorem complete_block {body front : List Token} {cmd : Cmd} {redirs : List Redir}
    (line : ∀ {s rest}, tokens text s = body ++ rest → Follow .line rest →
      ∃ last, parseline text fuel s = .ok (cmd, last) ∧ tokens text last = rest)
    (outer : Redirs front redirs)
    (list : tokens text s = .lparen :: (body ++ .rparen :: front) ++ rest)
    (follow : Follow .exec rest) (enough : front.length < fuel) :
    ∃ last, parseexec text (fuel + 2) s = .ok (wrap cmd redirs, last) ∧
      tokens text last = rest := by
  rw [List.cons_append, List.append_assoc, List.cons_append] at list
  obtain ⟨opens, -⟩ := peek_true .lparen (ch '(') rfl rfl list
  obtain ⟨opens', inner⟩ := peek_true .lparen (ch '(') rfl rfl ((tokens_skip s).trans list)
  obtain ⟨next, parsed, list'⟩ := line inner rfl
  obtain ⟨closes, list''⟩ := peek_true .rparen (ch ')') rfl rfl list'
  obtain ⟨last, parsed', ends⟩ :=
    parseredirs_complete outer list'' follow.wordsEnd.noRedir enough
  refine ⟨last, ?_, ends⟩
  rw [parseexec, opens]
  change parseblock text (fuel + 1) (skip text s) = _
  rw [parseblock, opens']
  dsimp only
  rw [if_pos rfl, parsed]
  change (if (peek text next [ch ')']).1 = true then _ else _) = _
  rw [closes]
  dsimp only
  rw [if_pos rfl, parsed']
  rfl

theorem Redirs.ne_lparen {front : List Token} {redirs : List Redir} (derived : Redirs front redirs)
    {list : List Token} (other : ∀ more, list ≠ .lparen :: more) (more : List Token) :
    front ++ list ≠ .lparen :: more := by
  intro same
  cases derived with
  | nil => exact other more same
  | less _ => cases same
  | great _ => cases same
  | append _ => cases same

theorem Words.ne_lparen {words : List Token} {argv : List Span} {redirs : List Redir}
    (derived : Words words argv redirs) (ends : WordsEnd rest) (more : List Token) :
    words ++ rest ≠ .lparen :: more := by
  intro same
  cases derived with
  | nil =>
    rw [List.nil_append] at same
    rw [same] at ends
    cases ends
  | cons _ _ => cases same

theorem complete_simple {front words : List Token} {argv : List Span} {redirs redirs' : List Redir}
    (first : Redirs front redirs) (later : Words words argv redirs') (few : argv.length < MAXARGS)
    (list : tokens text s = front ++ words ++ rest) (follow : Follow .exec rest)
    (enough : front.length + words.length < fuel) :
    ∃ last, parseexec text (fuel + 1) s = .ok (wrap (.exec argv) (redirs ++ redirs'), last) ∧
      tokens text last = rest := by
  rw [List.append_assoc] at list
  have plain : ∀ more, tokens text s ≠ .lparen :: more := by
    rw [list]
    exact first.ne_lparen (later.ne_lparen follow.wordsEnd)
  obtain ⟨next, parsed, list'⟩ := parseredirs_complete first ((tokens_skip s).trans list)
    (later.noRedir follow.wordsEnd) (by omega : front.length < fuel)
  obtain ⟨last, parsed', ends⟩ := parsewords_complete later [] few list' follow.wordsEnd
    (by omega : words.length < fuel)
  refine ⟨last, ?_, ends⟩
  rw [parseexec, peek_false .lparen (ch '(') rfl rfl plain]
  change parseargs text fuel (skip text s) = _
  rw [parseargs, parsed]
  change (parsewords text fuel [] next >>= _) = _
  rw [parsed']
  change (if MAXARGS ≤ argv.length then _ else _) = _
  rw [if_neg (by omega)]
  rfl

/-- Every phrase is parsed to its tree, if what follows it may follow it. -/
theorem parse_complete {part : Part} {cmd : Cmd} (derived : Derives part used cmd)
    (list : tokens text s = used ++ rest) (follow : Follow part rest)
    (enough : 4 * used.length + part.slack ≤ fuel) :
    ∃ last, parse text part fuel s = .ok (cmd, last) ∧ tokens text last = rest := by
  induction derived generalizing s rest fuel with
  | @block body front cmd redirs inner outer ih =>
    simp only [List.length_cons, List.length_append, Part.slack] at enough
    obtain ⟨fuel, rfl⟩ := Nat.exists_eq_add_of_le' (by omega : 2 ≤ fuel)
    refine complete_block (fun list' follow' => ih list' follow' ?_) outer list follow (by omega)
    simp only [Part.slack]
    omega
  | @simple front words argv redirs rest' first later few =>
    simp only [List.length_append, Part.slack] at enough
    obtain ⟨fuel, rfl⟩ := Nat.exists_eq_add_one_of_ne_zero (by omega : fuel ≠ 0)
    exact complete_simple first later few list follow (by omega)
  | @pipeOne toks cmd only ih =>
    simp only [Part.slack] at enough ih
    obtain ⟨fuel, rfl⟩ := Nat.exists_eq_add_one_of_ne_zero (by omega : fuel ≠ 0)
    obtain ⟨next, parsed, list'⟩ := ih list follow.exec_of_pipe (by omega : _ ≤ fuel)
    refine ⟨skip text next, ?_, by rw [tokens_skip, list']⟩
    change parsepipe text (fuel + 1) s = _
    change parseexec text fuel s = _ at parsed
    rw [parsepipe, parsed]
    change (if (peek text next [ch '|']).1 = true then _ else _) = _
    rw [peek_false .pipe (ch '|') rfl rfl (by rw [list']; exact follow.not_pipe)]
    rfl
  | @pipeMore toks more left right first later ihLeft ihRight =>
    simp only [List.length_append, List.length_cons, Part.slack] at enough ihLeft ihRight
    obtain ⟨fuel, rfl⟩ := Nat.exists_eq_add_one_of_ne_zero (by omega : fuel ≠ 0)
    rw [List.append_assoc, List.cons_append] at list
    obtain ⟨next, parsed, list'⟩ := ihLeft list rfl (by omega : _ ≤ fuel)
    obtain ⟨here, list''⟩ := peek_true .pipe (ch '|') rfl rfl list'
    obtain ⟨last, parsed', ends⟩ := ihRight list'' follow (by omega : _ ≤ fuel)
    refine ⟨last, ?_, ends⟩
    change parsepipe text (fuel + 1) s = _
    change parseexec text fuel s = _ at parsed
    change parsepipe text fuel _ = _ at parsed'
    rw [parsepipe, parsed]
    change (if (peek text next [ch '|']).1 = true then _ else _) = _
    rw [here]
    dsimp only
    rw [if_pos rfl, parsed']
    rfl
  | @lineOne toks cmd amps only ih =>
    simp only [List.length_append, List.length_replicate, Part.slack] at enough ih
    obtain ⟨fuel, rfl⟩ := Nat.exists_eq_add_one_of_ne_zero (by omega : fuel ≠ 0)
    rw [List.append_assoc] at list
    have after : Follow .pipe (List.replicate amps .amp ++ rest) := by
      cases amps with
      | zero => exact follow.pipe_of_line
      | succ amps => exact Or.inr (Or.inl rfl)
    obtain ⟨next, parsed, list'⟩ := ih list after (by omega : _ ≤ fuel)
    obtain ⟨next', parsed', list''⟩ := parseamps_complete cmd list'
      (follow.line_ne (by decide)) (by omega : amps < fuel)
    refine ⟨skip text next', ?_, by rw [tokens_skip, list'']⟩
    change parseline text (fuel + 1) s = _
    change parsepipe text fuel s = _ at parsed
    rw [parseline, parsed]
    change (parseamps text fuel cmd next >>= _) = _
    rw [parsed']
    change (if (peek text next' [ch ';']).1 = true then _ else _) = _
    rw [peek_false .semi (ch ';') rfl rfl (by rw [list'']; exact follow.line_ne (by decide))]
    rfl
  | @lineMore toks more left right amps first later ihLeft ihRight =>
    simp only [List.length_append, List.length_cons, List.length_replicate,
      Part.slack] at enough ihLeft ihRight
    obtain ⟨fuel, rfl⟩ := Nat.exists_eq_add_one_of_ne_zero (by omega : fuel ≠ 0)
    rw [List.append_assoc, List.append_assoc, List.cons_append] at list
    have after : Follow .pipe (List.replicate amps .amp ++ .semi :: (more ++ rest)) := by
      cases amps with
      | zero => exact Or.inr (Or.inr rfl)
      | succ amps => exact Or.inr (Or.inl rfl)
    obtain ⟨next, parsed, list'⟩ := ihLeft list after (by omega : _ ≤ fuel)
    obtain ⟨next', parsed', list''⟩ := parseamps_complete left list'
      (fun _ same => by cases same) (by omega : amps < fuel)
    obtain ⟨here, inner⟩ := peek_true .semi (ch ';') rfl rfl list''
    obtain ⟨last, parsed'', ends⟩ := ihRight inner follow (by omega : _ ≤ fuel)
    refine ⟨last, ?_, ends⟩
    change parseline text (fuel + 1) s = _
    change parsepipe text fuel s = _ at parsed
    change parseline text fuel _ = _ at parsed''
    rw [parseline, parsed]
    change (parseamps text fuel left next >>= _) = _
    rw [parsed']
    change (if (peek text next' [ch ';']).1 = true then _ else _) = _
    rw [here]
    dsimp only
    rw [if_pos rfl, parsed'']
    rfl

/-! ## nulterminate -/

/-- The arguments and file names of a command. -/
def Cmd.spans : Cmd → List Span
  | .exec argv => argv
  | .redir cmd around => cmd.spans ++ [around.file]
  | .pipe left right => left.spans ++ right.spans
  | .list left right => left.spans ++ right.spans
  | .back cmd => cmd.spans

/-- Each argv has room for its null pointer. -/
def Cmd.Fits : Cmd → Prop
  | .exec argv => argv.length < MAXARGS
  | .redir cmd _ => cmd.Fits
  | .pipe left right => left.Fits ∧ right.Fits
  | .list left right => left.Fits ∧ right.Fits
  | .back cmd => cmd.Fits

theorem wrap_spans (cmd : Cmd) (redirs : List Redir) :
    (wrap cmd redirs).spans = cmd.spans ++ redirs.map Redir.file := by
  induction redirs generalizing cmd with
  | nil => simp [wrap]
  | cons redir rest ih =>
    change (wrap (.redir cmd redir) rest).spans = _
    rw [ih, Cmd.spans, List.append_assoc]
    rfl

theorem wrap_fits (cmd : Cmd) (fits : cmd.Fits) (redirs : List Redir) : (wrap cmd redirs).Fits := by
  induction redirs generalizing cmd with
  | nil => exact fits
  | cons redir rest ih => exact ih (.redir cmd redir) fits

theorem back_spans (amps : Nat) (cmd : Cmd) : (Cmd.back^[amps] cmd).spans = cmd.spans := by
  induction amps generalizing cmd with
  | zero => rfl
  | succ amps ih => exact ih (.back cmd)

theorem back_fits (cmd : Cmd) (fits : cmd.Fits) (amps : Nat) : (Cmd.back^[amps] cmd).Fits := by
  induction amps generalizing cmd with
  | zero => exact fits
  | succ amps ih => exact ih (.back cmd) fits

theorem Redirs.files {redirs : List Redir} (derived : Redirs used redirs) :
    ∀ span ∈ redirs.map Redir.file, .word span ∈ used := by
  induction derived with
  | nil => simp
  | less _ ih | great _ ih | append _ ih =>
    intro span member
    rcases List.mem_cons.mp member with rfl | later
    · simp
    · simp [ih span later]

theorem Words.spans {argv : List Span} {redirs : List Redir} (derived : Words used argv redirs) :
    ∀ span ∈ argv ++ redirs.map Redir.file, .word span ∈ used := by
  induction derived with
  | nil => simp
  | @cons span front words argv redirs rest first later ih =>
    intro other member
    have files := first.files other
    have inner := ih other
    simp only [List.mem_append, List.mem_cons, List.map_append,
      Token.word.injEq] at member files inner ⊢
    tauto

/-- The arguments and file names of the tree are words of the phrase. -/
theorem Derives.spans {part : Part} {cmd : Cmd} (derived : Derives part used cmd) :
    cmd.Fits ∧ ∀ span ∈ cmd.spans, .word span ∈ used := by
  induction derived with
  | @block body front cmd redirs inner outer ih =>
    refine ⟨wrap_fits _ ih.1 _, fun span member => ?_⟩
    rw [wrap_spans, List.mem_append] at member
    rcases member with argument | file
    · simp [ih.2 span argument]
    · simp [outer.files span file]
  | @simple front words argv redirs rest first later few =>
    refine ⟨wrap_fits (.exec argv) few _, fun span member => ?_⟩
    have files := first.files span
    have inner := later.spans span
    rw [wrap_spans, Cmd.spans] at member
    simp only [List.mem_append, List.map_append] at member files inner ⊢
    tauto
  | pipeOne _ ih => exact ih
  | pipeMore _ _ ihLeft ihRight =>
    refine ⟨⟨ihLeft.1, ihRight.1⟩, fun span member => ?_⟩
    rcases List.mem_append.mp member with left | right
    · simp [ihLeft.2 span left]
    · simp [ihRight.2 span right]
  | lineOne amps _ ih =>
    refine ⟨back_fits _ ih.1 amps, fun span member => ?_⟩
    rw [back_spans] at member
    simp [ih.2 span member]
  | lineMore amps _ _ ihLeft ihRight =>
    refine ⟨⟨back_fits _ ihLeft.1 amps, ihRight.1⟩, fun span member => ?_⟩
    rw [Cmd.spans, back_spans] at member
    rcases List.mem_append.mp member with left | right
    · simp [ihLeft.2 span left]
    · simp [ihRight.2 span right]

theorem endArgs_append (buf : Nat → Byte) (first second : List Span) :
    endArgs (endArgs buf first) second = endArgs buf (first ++ second) :=
  (List.foldl_append ..).symm

theorem nulterminate_eq {cmd : Cmd} (fits : cmd.Fits) (buf : Nat → Byte) :
    nulterminate cmd buf = .ok (endArgs buf cmd.spans) := by
  induction cmd generalizing buf with
  | exec argv =>
    rw [nulterminate, if_neg (Nat.not_le_of_lt fits)]
    rfl
  | redir cmd redir ih =>
    rw [nulterminate, ih fits]
    change Except.ok (endArgs (endArgs buf cmd.spans) [redir.file]) = _
    rw [endArgs_append]
    rfl
  | pipe left right ihLeft ihRight | list left right ihLeft ihRight =>
    rw [nulterminate, ihLeft fits.1]
    change nulterminate right _ = _
    rw [ihRight fits.2, endArgs_append]
    rfl
  | back cmd ih => exact ih fits buf

theorem endArgs_apply (buf : Nat → Byte) (spans : List Span) (i : Nat) :
    endArgs buf spans i = if i ∈ spans.map Span.eq then 0 else buf i := by
  induction spans generalizing buf with
  | nil => simp [endArgs]
  | cons span rest ih =>
    change endArgs (Function.update buf span.eq 0) rest i = _
    rw [ih, List.map_cons, Function.update_apply]
    by_cases later : i ∈ rest.map Span.eq
    · rw [if_pos later, if_pos (List.mem_cons_of_mem _ later)]
    · rw [if_neg later]
      by_cases here : i = span.eq
      · rw [if_pos here, if_pos (by rw [here]; exact List.mem_cons_self)]
      · rw [if_neg here, if_neg (by simp only [List.mem_cons, not_or]; exact ⟨here, later⟩)]

/-- The text of the span, and then a NUL. -/
def Ended (text : List Byte) (buf : Nat → Byte) (span : Span) : Prop :=
  (∀ i, span.q ≤ i → i < span.eq → buf i = charAt text i ∧ buf i ≠ 0) ∧ buf span.eq = 0

/-- A NUL is written where a word ends, never into a word: no word begins there. -/
theorem ended_of_words {spans : List Span} (noNul : 0 ∉ text)
    (words : ∀ span ∈ spans, IsWord text span) {span : Span} (member : span ∈ spans) :
    Ended text (endArgs (charAt text) spans) span := by
  have word := words span member
  refine ⟨fun i low high => ?_, ?_⟩
  · have inside : i < text.length := Nat.lt_of_lt_of_le high word.inside
    have kept : i ∉ spans.map Span.eq := by
      intro ends
      obtain ⟨other, member', rfl⟩ := List.mem_map.mp ends
      have plain := word.plain _ low high
      rw [(words other member').ends inside] at plain
      cases plain
    rw [endArgs_apply, if_neg kept]
    refine ⟨rfl, fun zero => ?_⟩
    have outside := (charAt_eq_zero_iff noNul).mp zero
    omega
  · rw [endArgs_apply, if_pos (List.mem_map_of_mem member)]

/-! ## parsecmd -/

theorem tokens_words {span : Span} (member : .word span ∈ tokens text s) : IsWord text span := by
  fun_induction tokens text s with
  | case1 s _ _ => cases member
  | case2 s token next found ih =>
    rcases List.mem_cons.mp member with here | later
    · exact (gettoken_next found).2.2 span here.symm
    · exact ih later

theorem tokens_length (text : List Byte) (s : Nat) :
    (tokens text s).length ≤ text.length - s := by
  fun_induction tokens text s with
  | case1 s _ _ => exact Nat.zero_le _
  | case2 s token next found ih =>
    obtain ⟨less, inside, -⟩ := gettoken_next found
    rw [List.length_cons]
    omega

theorem skip_eq_length_iff (noNul : 0 ∉ text) (inside : s ≤ text.length) :
    skip text s = text.length ↔ tokens text s = [] := by
  have bound := skip_le inside
  rcases tokenAt_cases text _
    (skip_not_space text s) with ⟨zero, ended⟩ | ⟨token, next, here, char, -⟩
  · have last := (charAt_eq_zero_iff noNul).mp zero
    refine ⟨fun _ => tokens_eq_nil_iff.mpr ?_, fun _ => by omega⟩
    rw [gettoken, ended]
  · constructor
    · intro same
      exact absurd ((charAt_eq_zero_iff noNul).mpr (Nat.le_of_eq same.symm)) char
    · intro none
      rw [tokens_eq_nil_iff, gettoken, here] at none
      cases none

theorem parsecmd_of_line {cmd : Cmd} (parsed : parseline text fuel 0 = .ok (cmd, n)) :
    parsecmd fuel text =
      if skip text n ≠ text.length then .error .leftovers
      else (do
        let buf ← nulterminate cmd (charAt text)
        .ok (cmd, buf)) := by
  rw [parsecmd, parsed]
  rfl

/-- For every string without NULs, and given fuel in proportion to its length, parsecmd
returns exactly the tree of the derivation of its tokens, if there is one, and otherwise
panics; each argument and file name of the tree is a token, and its text ends in a NUL. -/
theorem shell_parses_grammar (noNul : 0 ∉ text) (enough : 4 * text.length + 5 ≤ fuel) :
    (∀ cmd, (∃ buf, parsecmd fuel text = .ok (cmd, buf)) ↔ Derives .line (tokens text 0) cmd) ∧
      (∀ cmd buf, parsecmd fuel text = .ok (cmd, buf) → ∀ span ∈ cmd.spans,
        .word span ∈ tokens text 0 ∧ IsWord text span ∧ Ended text buf span) ∧
      ∀ stop, parsecmd fuel text = .error stop → stop.isPanic = true := by
  have size := tokens_length text 0
  have good := (parse_good text fuel).1 0 (Nat.zero_le _) (by omega)
  have derives : ∀ cmd buf, parsecmd fuel text = .ok (cmd, buf) →
      Derives .line (tokens text 0) cmd ∧ buf = endArgs (charAt text) cmd.spans := by
    intro cmd buf success
    cases parsed : parseline text fuel 0 with
    | error stop =>
      rw [parsecmd, parsed] at success
      cases success
    | ok pair =>
      obtain ⟨cmd', n⟩ := pair
      rw [parsed] at good
      obtain ⟨inside, used, split, derived⟩ := good
      rw [parsecmd_of_line parsed] at success
      split at success
      · cases success
      · rename_i used
        rw [not_not, skip_eq_length_iff noNul inside] at used
        rw [used, List.append_nil] at split
        rw [nulterminate_eq derived.spans.1] at success
        cases success
        exact ⟨split ▸ derived, rfl⟩
  refine ⟨fun cmd => ⟨fun ⟨buf, success⟩ => (derives cmd buf success).1, fun derived => ?_⟩,
    fun cmd buf success span member => ?_, fun stop failed => ?_⟩
  · have fueled : 4 * (tokens text 0).length + Part.line.slack ≤ fuel := by
      rw [Part.slack]
      omega
    obtain ⟨n, parsed, used⟩ := parse_complete derived (List.append_nil _).symm
      (by trivial : Follow .line []) fueled
    change parseline text fuel 0 = _ at parsed
    rw [parsed] at good
    refine ⟨endArgs (charAt text) cmd.spans, ?_⟩
    rw [parsecmd_of_line parsed, if_neg (not_not.mpr ((skip_eq_length_iff noNul good.1).mpr used)),
      nulterminate_eq derived.spans.1]
    rfl
  · obtain ⟨derived, rfl⟩ := derives cmd buf success
    have words : ∀ span ∈ cmd.spans, IsWord text span :=
      fun span member => tokens_words (derived.spans.2 span member)
    exact ⟨derived.spans.2 span member, words span member, ended_of_words noNul words member⟩
  · cases parsed : parseline text fuel 0 with
    | error stop' =>
      rw [parsed] at good
      rw [parsecmd, parsed] at failed
      cases failed
      exact good
    | ok pair =>
      obtain ⟨cmd, n⟩ := pair
      rw [parsed] at good
      obtain ⟨-, used, -, derived⟩ := good
      rw [parsecmd_of_line parsed] at failed
      split at failed
      · cases failed
        rfl
      · rw [nulterminate_eq derived.spans.1] at failed
        cases failed

/-- parsecmd accepts "a|b>c;d". -/
theorem shell_parses_grammar_line :
    ∃ buf, parsecmd 33 [ch 'a', ch '|', ch 'b', ch '>', ch 'c', ch ';', ch 'd'] =
      .ok (.list (.pipe (.exec [⟨0, 1⟩]) (.redir (.exec [⟨2, 3⟩])
        ⟨⟨4, 5⟩, O_WRONLY ||| O_CREATE, 1⟩)) (.exec [⟨6, 7⟩]), buf) := by
  refine ((shell_parses_grammar (by decide) (by decide)).1 _).mpr ?_
  have split : tokens [ch 'a', ch '|', ch 'b', ch '>', ch 'c', ch ';', ch 'd'] 0 =
      [.word ⟨0, 1⟩, .pipe, .word ⟨2, 3⟩, .great, .word ⟨4, 5⟩, .semi, .word ⟨6, 7⟩] := by
    decide +kernel
  rw [split]
  have word : ∀ span, Derives .exec [.word span] (.exec [span]) := fun span =>
    .simple .nil (.cons .nil .nil) (by show 1 < MAXARGS; decide)
  have files : Derives .exec [.word ⟨2, 3⟩, .great, .word ⟨4, 5⟩] _ :=
    .simple .nil (.cons (.great .nil) .nil) (by decide)
  exact Derives.lineMore 0 (.pipeMore (word ⟨0, 1⟩) (.pipeOne files))
    (.lineOne 0 (.pipeOne (word ⟨6, 7⟩)))

end Xv6Cow.Shell
