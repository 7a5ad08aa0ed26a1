import Mathlib.Data.List.Basic
import Xv6Cow.Word

/- The parser of sh.c. A string is the list of its bytes before the NUL, and a pointer
into it an offset; `es` is the length. The five parse functions recurse through each
other, so they take fuel; malloc is taken to succeed and the stack to be unbounded. -/
namespace Xv6Cow.Shell

def MAXARGS : Nat := 10

def O_RDONLY : Nat := 0x000
def O_WRONLY : Nat := 0x001
def O_CREATE : Nat := 0x200

def ch (c : Char) : Byte := BitVec.ofNat 8 c.toNat

def whitespace : List Byte := [' ', '\t', '\r', '\n', '\x0b'].map ch
def symbols : List Byte := ['<', '|', '>', '&', ';', '(', ')'].map ch

/-- The text from `q` up to `eq`. -/
structure Span where
  q : Nat
  eq : Nat
  deriving DecidableEq

/-- What gettoken returns, with `*q` and `*eq` where its callers look at them. `append`
is '+', which stands for >>, and `word` is 'a'. -/
inductive Token
  | pipe
  | lparen
  | rparen
  | semi
  | amp
  | less
  | great
  | append
  | word (span : Span)
  deriving DecidableEq

/-- The redirections around a command. -/
structure Redir where
  file : Span
  mode : Nat
  fd : Nat

/-- struct cmd. The array argv of an execcmd is the list of its entries before the
null pointer. -/
inductive Cmd
  | exec (argv : List Span)
  | redir (cmd : Cmd) (redir : Redir)
  | pipe (left right : Cmd)
  | list (left right : Cmd)
  | back (cmd : Cmd)

/-- Calls of panic, a write outside argv, and running out of fuel. -/
inductive Stop
  | badSyntax
  | missingFile
  | missingParen
  | parseblock
  | tooManyArgs
  | leftovers
  | outOfBounds
  | fuel
  deriving DecidableEq

/-! ## Tokens -/

/-- `*s`. -/
def charAt (text : List Byte) (s : Nat) : Byte := text.getD s 0

/-- `while(s < es && ...) s++`. -/
def scan (text : List Byte) (goes : Byte → Bool) (s : Nat) : Nat :=
  if s < text.length ∧ goes (charAt text s) = true then scan text goes (s + 1) else s
termination_by text.length - s

def isSpace (c : Byte) : Bool := whitespace.contains c

/-- Neither whitespace nor a symbol. -/
def isPlain (c : Byte) : Bool := !whitespace.contains c && !symbols.contains c

def skip (text : List Byte) (s : Nat) : Nat := scan text isSpace s

/-- The tokens of one character, except '>'. -/
def single (c : Byte) : Option Token :=
  if c = ch '|' then some .pipe
  else if c = ch '(' then some .lparen
  else if c = ch ')' then some .rparen
  else if c = ch ';' then some .semi
  else if c = ch '&' then some .amp
  else if c = ch '<' then some .less
  else none

/-- The switch of gettoken at `q`: the token there, if any, and `*eq`. -/
def tokenAt (text : List Byte) (q : Nat) : Option Token × Nat :=
  let c := charAt text q
  if c = 0 then (none, q)
  else if c = ch '>' then
    if charAt text (q + 1) = ch '>' then (some .append, q + 2) else (some .great, q + 1)
  else
    match single c with
    | some token => (some token, q + 1)
    | none => (some (.word ⟨q, scan text isPlain q⟩), scan text isPlain q)

/-- gettoken; none stands for 0. -/
def gettoken (text : List Byte) (s : Nat) : Option Token × Nat :=
  let found := tokenAt text (skip text s)
  (found.1, skip text found.2)

def peek (text : List Byte) (s : Nat) (toks : List Byte) : Bool × Nat :=
  let q := skip text s
  (charAt text q != 0 && toks.contains (charAt text q), q)

/-! ## Commands -/

def wrap (cmd : Cmd) (redirs : List Redir) : Cmd := redirs.foldl .redir cmd

def redirection (token : Token) (file : Span) : List Redir :=
  match token with
  | .less => [⟨file, O_RDONLY, 0⟩]
  | .great => [⟨file, O_WRONLY ||| O_CREATE, 1⟩]
  | .append => [⟨file, O_WRONLY ||| O_CREATE, 1⟩]
  | _ => []

/-- parseredirs. The source wraps the command it is given; what it wraps it in is returned
here, the innermost first, because parseexec goes on filling in the innermost command. -/
def parseredirs (text : List Byte) : Nat → Nat → Except Stop (List Redir × Nat)
  | 0, _ => .error .fuel
  | fuel + 1, s =>
    let (more, s) := peek text s [ch '<', ch '>']
    if more then
      match gettoken text s with
      | (none, _) => .error .missingFile
      | (some token, s) =>
        match gettoken text s with
        | (some (.word file), s) => do
          let (rest, s) ← parseredirs text fuel s
          .ok (redirection token file ++ rest, s)
        | _ => .error .missingFile
    else .ok ([], s)

/-- The loop of parseexec, with argc words stored so far. -/
def parsewords (text : List Byte) : Nat → List Span → Nat →
    Except Stop ((List Span × List Redir) × Nat)
  | 0, _, _ => .error .fuel
  | fuel + 1, argv, s =>
    let (stop, s) := peek text s [ch '|', ch ')', ch '&', ch ';']
    if stop then .ok ((argv, []), s)
    else
      match gettoken text s with
      | (none, s) => .ok ((argv, []), s)
      | (some (.word span), s) =>
        if MAXARGS ≤ argv.length then .error .outOfBounds
        else if MAXARGS ≤ argv.length + 1 then .error .tooManyArgs
        else do
          let (redirs, s) ← parseredirs text fuel s
          let ((argv, rest), s) ← parsewords text fuel (argv ++ [span]) s
          .ok ((argv, redirs ++ rest), s)
      | (some _, _) => .error .badSyntax

/-- The branch of parseexec without parentheses. -/
def parseargs (text : List Byte) (fuel s : Nat) : Except Stop (Cmd × Nat) := do
  let (redirs, s) ← parseredirs text fuel s
  let ((argv, rest), s) ← parsewords text fuel [] s
  if MAXARGS ≤ argv.length then .error .outOfBounds
  else .ok (wrap (.exec argv) (redirs ++ rest), s)

/-- The loop of parseline over '&'. -/
def parseamps (text : List Byte) : Nat → Cmd → Nat → Except Stop (Cmd × Nat)
  | 0, _, _ => .error .fuel
  | fuel + 1, cmd, s =>
    let (more, s) := peek text s [ch '&']
    if more then parseamps text fuel (.back cmd) (gettoken text s).2 else .ok (cmd, s)

mutual

def parseline (text : List Byte) : Nat → Nat → Except Stop (Cmd × Nat)
  | 0, _ => .error .fuel
  | fuel + 1, s => do
    let (cmd, s) ← parsepipe text fuel s
    let (cmd, s) ← parseamps text fuel cmd s
    let (more, s) := peek text s [ch ';']
    if more then do
      let (right, s) ← parseline text fuel (gettoken text s).2
      .ok (.list cmd right, s)
    else .ok (cmd, s)

def parsepipe (text : List Byte) : Nat → Nat → Except Stop (Cmd × Nat)
  | 0, _ => .error .fuel
  | fuel + 1, s => do
    let (cmd, s) ← parseexec text fuel s
    let (more, s) := peek text s [ch '|']
    if more then do
      let (right, s) ← parsepipe text fuel (gettoken text s).2
      .ok (.pipe cmd right, s)
    else .ok (cmd, s)

def parseblock (text : List Byte) : Nat → Nat → Except Stop (Cmd × Nat)
  | 0, _ => .error .fuel
  | fuel + 1, s =>
    let (opens, s) := peek text s [ch '(']
    if opens then do
      let (cmd, s) ← parseline text fuel (gettoken text s).2
      let (closes, s) := peek text s [ch ')']
      if closes then do
        let (redirs, s) ← parseredirs text fuel (gettoken text s).2
        .ok (wrap cmd redirs, s)
      else .error .missingParen
    else .error .parseblock

def parseexec (text : List Byte) : Nat → Nat → Except Stop (Cmd × Nat)
  | 0, _ => .error .fuel
  | fuel + 1, s =>
    let (block, s) := peek text s [ch '(']
    if block then parseblock text fuel s else parseargs text fuel s

end

/-! ## nulterminate -/

/-- The loop over argv; it stops at the null pointer, which is at `argv[argc]`. -/
def endArgs (buf : Nat → Byte) (argv : List Span) : Nat → Byte :=
  argv.foldl (fun buf span => Function.update buf span.eq 0) buf

def nulterminate : Cmd → (Nat → Byte) → Except Stop (Nat → Byte)
  | .exec argv, buf => if MAXARGS ≤ argv.length then .error .outOfBounds else .ok (endArgs buf argv)
  | .redir cmd redir, buf => do
    let buf ← nulterminate cmd buf
    .ok (Function.update buf redir.file.eq 0)
  | .pipe left right, buf => do
    let buf ← nulterminate left buf
    nulterminate right buf
  | .list left right, buf => do
    let buf ← nulterminate left buf
    nulterminate right buf
  | .back cmd, buf => nulterminate cmd buf

/-- parsecmd: the tree, and the bytes of the string afterwards. -/
def parsecmd (fuel : Nat) (text : List Byte) : Except Stop (Cmd × (Nat → Byte)) := do
  let (cmd, s) ← parseline text fuel 0
  let (_, s) := peek text s []
  if s ≠ text.length then .error .leftovers
  else do
    let buf ← nulterminate cmd (charAt text)
    .ok (cmd, buf)

end Xv6Cow.Shell
