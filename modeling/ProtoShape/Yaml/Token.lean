import ProtoShape.Yaml.Folding

/-!
# Tokens

The tokens of a YAML text are its scalars and indicators, together with the starts
and ends of block collections, which follow from columns.

A key is recognised by the colon behind it.  So a `Lexer` keeps a candidate for each
level of flow collections: the last token at this level where a key may start.  At a
colon the candidate becomes a key.  A candidate has to be on the line of the colon,
and no more than `keyReach` characters away.  In a block, a candidate in the column
of the mapping has to become a key.

`Token.ofSource?` has no result where no token can start, where a token is out of
place on its line, or where a key is missing.  Directives, anchors, tags and block
scalars are no tokens.
-/

namespace ProtoShape.Yaml

/-- The kinds of flow collections: sequences and mappings. -/
inductive Bracket where
  | square
  | curly
deriving DecidableEq, Repr

/-- A token. -/
inductive Token where
  | documentStart
  | documentEnd
  | sequenceStart
  | mappingStart
  | blockEnd
  | opening (bracket : Bracket)
  | closing (bracket : Bracket)
  | dash
  | comma
  | key
  | value
  | plain (cs : List Char)
  | quoted (cs : List Char)
deriving DecidableEq, Repr

/-- A token that may turn out to start a key. -/
structure Candidate where
  /-- The number of tokens before it. -/
  position : Nat
  /-- Whether it has to be a key. -/
  required : Bool
  place : Placed
deriving DecidableEq, Repr

/-- The greatest distance between the start of a key and its colon. -/
def keyReach : Nat := 1024

/-- Whether a place is too far away for the candidate to be a key there. -/
def Candidate.isStale (candidate : Candidate) (p : Placed) : Bool :=
  candidate.place.line ≠ p.line || keyReach < p.offset - candidate.place.offset

/-- What is known from the part of a text that has been read. -/
structure Lexer where
  /-- The tokens, the last one first. -/
  tokens : List Token
  count : Nat
  /-- The columns of the open block collections, the innermost first. -/
  columns : List Nat
  /-- The open flow collections, the innermost first, with the candidates of the
  levels around them. -/
  brackets : List (Bracket × Option Candidate)
  candidate? : Option Candidate
  /-- Whether a key may start here. -/
  keyAllowed : Bool

namespace Lexer

/-- The start of a text. -/
def start : Lexer := ⟨[], 0, [], [], none, true⟩

/-- Whether the place is inside a flow collection. -/
def inFlow (l : Lexer) : Bool := !l.brackets.isEmpty

/-- Adds a token. -/
def push (l : Lexer) (token : Token) : Lexer :=
  { l with tokens := token :: l.tokens, count := l.count + 1 }

/-- Says whether a key may start behind the last token. -/
def allowKey (l : Lexer) (allowed : Bool) : Lexer := { l with keyAllowed := allowed }

/-! ## Candidates -/

/-- Whether a token may still turn out to be a key. -/
def hasCandidate (l : Lexer) : Bool := l.candidate?.isSome || l.brackets.any (·.2.isSome)

/-- Gives up the candidate of the level; it must not be one that has to be a key. -/
def dropCandidate (l : Lexer) : Option Lexer :=
  if l.candidate?.any (·.required) then none else some { l with candidate? := none }

/-- Gives up the candidates that are too far away from a place. -/
def dropStale (l : Lexer) (p : Placed) : Option Lexer :=
  let fresh (c? : Option Candidate) : Option Candidate := c?.filter (!·.isStale p)
  let lost (c? : Option Candidate) : Bool := c?.any fun c => c.isStale p && c.required
  if lost l.candidate? || l.brackets.any (lost ·.2) then none
  else
    some { l with
      candidate? := fresh l.candidate?
      brackets := l.brackets.map fun (bracket, c?) => (bracket, fresh c?) }

/-- Makes the next token the candidate, where a key may start. -/
def offer (l : Lexer) (p : Placed) : Option Lexer :=
  if !l.keyAllowed then some l
  else do
    let l ← l.dropCandidate
    let required := !l.inFlow && l.columns.head? = some p.column
    return { l with candidate? := some ⟨l.count, required, p⟩ }

/-! ## Block collections -/

/-- The least column at which a scalar goes on. -/
def indent (l : Lexer) : Nat :=
  match l.columns with
  | [] => 0
  | column :: _ => column + 1

/-- Whether a column opens a block collection. -/
def opensBlock (l : Lexer) (column : Nat) : Bool := l.columns.head?.all (· < column)

/-- Opens a block collection, where its column does so. -/
def openBlock (l : Lexer) (column : Nat) (token : Token) : Lexer :=
  if l.opensBlock column then { l.push token with columns := column :: l.columns } else l

/-- Closes block collections as long as their columns say so. -/
def closeBlocks (l : Lexer) (closes : Nat → Bool) : Lexer :=
  let closed := (l.columns.takeWhile closes).length
  { l with
    tokens := List.replicate closed .blockEnd ++ l.tokens
    count := l.count + closed
    columns := l.columns.drop closed }

/-! ## Tokens one by one -/

/-- A mark between documents. -/
def mark (l : Lexer) (token : Token) : Option Lexer :=
  if l.inFlow then none
  else do
    let l ← (l.closeBlocks fun _ => true).dropCandidate
    return (l.allowKey false).push token

/-- The start of a flow collection. -/
def openFlow (l : Lexer) (bracket : Bracket) (p : Placed) : Option Lexer := do
  let l ← l.offer p
  let l := { l with brackets := (bracket, l.candidate?) :: l.brackets, candidate? := none }
  return (l.allowKey true).push (.opening bracket)

/-- The end of a flow collection. -/
def closeFlow (l : Lexer) (bracket : Bracket) : Option Lexer := do
  let l ← l.dropCandidate
  match l.brackets with
  | (opened, around?) :: brackets =>
      if opened = bracket then
        let l := { l with brackets, candidate? := around? }
        return (l.allowKey false).push (.closing bracket)
      else none
  | [] => none

/-- A comma, inside a flow collection only. -/
def comma (l : Lexer) : Option Lexer :=
  if l.inFlow then do
    let l ← l.dropCandidate
    return (l.allowKey true).push .comma
  else none

/-- A dash, where a key may start in a block. -/
def dash (l : Lexer) (p : Placed) : Option Lexer :=
  if l.inFlow || !l.keyAllowed then none
  else do
    let l ← (l.openBlock p.column .sequenceStart).dropCandidate
    return (l.allowKey true).push .dash

/-- A question mark in front of a key. -/
def questionMark (l : Lexer) (p : Placed) : Option Lexer :=
  if l.inFlow then do
    let l ← l.dropCandidate
    return (l.allowKey false).push .key
  else if !l.keyAllowed then none
  else do
    let l ← (l.openBlock p.column .mappingStart).dropCandidate
    return (l.allowKey true).push .key

/-- A colon: the candidate is a key.  Without one the key is empty or has been
marked. -/
def colon (l : Lexer) (p : Placed) : Option Lexer :=
  match l.candidate? with
  | some candidate =>
      let opens := !l.inFlow && l.opensBlock candidate.place.column
      let found := if opens then [.key, .mappingStart] else [.key]
      let newer := l.count - candidate.position
      let l := { l with
        tokens := l.tokens.take newer ++ found ++ l.tokens.drop newer
        count := l.count + found.length
        columns := if opens then candidate.place.column :: l.columns else l.columns
        candidate? := none }
      some ((l.allowKey false).push .value)
  | none =>
      if l.inFlow then some ((l.allowKey false).push .value)
      else if !l.keyAllowed then none
      else some (((l.openBlock p.column .mappingStart).allowKey true).push .value)

/-- A scalar; `broken` tells whether a line ends behind it. -/
def scalar (l : Lexer) (p : Placed) (token : Token) (broken : Bool) : Option Lexer := do
  let l ← l.offer p
  return (l.allowKey broken).push token

/-- Whether a colon is a token of its own.  Inside a flow mapping it is, except that
the first character of a value may be a colon if something stands right behind it;
this holds as long as an enclosing collection may be a key (`pending`). -/
def takesColon (l : Lexer) (pending : Bool) (rest : Source) : Bool :=
  match l.brackets with
  | (.curly, _) :: _ => Source.startsEdge rest || !(pending && l.tokens.head? = some .value)
  | _ => Source.startsEdge rest

/-- Reads the token that starts with a character. -/
def token (l : Lexer) (pending : Bool) (p : Placed) (rest : Source) : Option (Lexer × Source) :=
  let behind (l? : Option Lexer) : Option (Lexer × Source) := l?.map ((·, rest))
  let plain (_ : Unit) : Option (Lexer × Source) :=
    if startsPlain p.char rest then
      let read := words l.inFlow l.indent (p :: rest)
      (l.scalar p (.plain read.chars) read.broken).map ((·, read.rest))
    else none
  let quoted (double : Bool) : Option (Lexer × Source) := do
    let (cs, rest) ← quoted? double rest
    return (← l.scalar p (.quoted cs) false, rest)
  if p.column = 0 && p.char = '%' then none
  else if p.column = 0 && Source.startsMark (p :: rest) "---" then
    (l.mark .documentStart).map ((·, rest.drop 2))
  else if p.column = 0 && Source.startsMark (p :: rest) "..." then
    (l.mark .documentEnd).map ((·, rest.drop 2))
  else
    match p.char with
    | '[' => behind (l.openFlow .square p)
    | '\x7b' => behind (l.openFlow .curly p)
    | ']' => behind (l.closeFlow .square)
    | '\x7d' => behind (l.closeFlow .curly)
    | ',' => behind l.comma
    | '-' => if Source.startsEdge rest then behind (l.dash p) else plain ()
    | '?' => if l.inFlow || Source.startsEdge rest then behind (l.questionMark p) else plain ()
    | ':' => if l.takesColon pending rest then behind (l.colon p) else plain ()
    | '\'' => quoted false
    | '"' => quoted true
    | _ => plain ()

/-- Reads the next token; there is none at the end of the text. -/
def next (l : Lexer) (source : Source) : Option (Lexer × Source) := do
  let l ← match source with
    | [] => some l
    | p :: _ => l.dropStale p
  let pending := l.hasCandidate
  let (broken, source) := source.skip l.inFlow
  let l := if broken && !l.inFlow then l.allowKey true else l
  match source with
  | [] => return (l, [])
  | p :: rest =>
      let l ← l.dropStale p
      let l := if l.inFlow then l else l.closeBlocks (p.column < ·)
      l.token pending p rest

/-- Ends the text: all collections are closed. -/
def finish (l : Lexer) : Option (List Token) :=
  if l.inFlow then none
  else (l.closeBlocks fun _ => true).dropCandidate.map (·.tokens.reverse)

/-- Reads the tokens of a text.  The number bounds how many there are. -/
def run : Nat → Lexer → Source → Option (List Token)
  | _, l, [] => l.finish
  | 0, _, _ :: _ => none
  | fuel + 1, l, source => do
      let (l, rest) ← l.next source
      run fuel l rest

end Lexer

/-- The tokens of a text.  Each takes at least one character. -/
def Token.ofSource? (source : Source) : Option (List Token) :=
  Lexer.run source.length Lexer.start source

end ProtoShape.Yaml
