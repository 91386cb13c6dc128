import ProtoShape.Yaml.Token

/-!
# Outlines

An outline is the structure of a document before its scalars have a meaning: what
stands below what.  `Outline.ofTokens?` builds it by the grammar of YAML.

Every collection knows the tokens that may follow one of its nodes; where one of
these comes at once, the node is absent.
-/

namespace ProtoShape.Yaml

/-- The structure of a node. -/
inductive Outline where
  | absent
  | plain (cs : List Char)
  | quoted (cs : List Char)
  | items (nodes : List Outline)
  | entries (pairs : List (Outline × Outline))

namespace Outline

/-- Where a node stands.  It decides which collections it may be. -/
inductive Setting where
  | flow
  | block
  /-- A key or a value of a block mapping, the dashes of which may stand in the
  column of the mapping. -/
  | inMapping
deriving DecidableEq, Repr

/-- Whether one of these tokens comes next. -/
def comes (next : List Token) (tokens : List Token) : Bool :=
  tokens.head?.any (next.contains ·)

/-- What follows the comma in front of a part of a flow collection.  The first part
has no comma, and the end of the collection needs none. -/
def behindComma (first : Bool) (tokens : List Token) : Option (List Token) :=
  match tokens with
  | .closing _ :: _ => some tokens
  | .comma :: rest => if first then some tokens else some rest
  | _ => if first then some tokens else none

mutual
/-- A node.  The number bounds the depth of calls. -/
def node : Nat → Setting → List Token → Option (Outline × List Token)
  | 0, _, _ => none
  | fuel + 1, setting, tokens =>
      match tokens with
      | .plain cs :: rest => some (plain cs, rest)
      | .quoted cs :: rest => some (quoted cs, rest)
      | .opening .square :: rest => (flowItems fuel true rest).map (·.map items id)
      | .opening .curly :: rest => (flowEntries fuel true rest).map (·.map entries id)
      | .sequenceStart :: rest =>
          if setting = .flow then none else (blockItems fuel rest).map (·.map items id)
      | .mappingStart :: rest =>
          if setting = .flow then none else (blockEntries fuel rest).map (·.map entries id)
      | .dash :: _ =>
          if setting = .inMapping then (dashedItems fuel tokens).map (·.map items id) else none
      | _ => none

/-- A node, or none where one of the tokens comes that may follow it. -/
def nodeBefore (following : List Token) :
    Nat → Setting → List Token → Option (Outline × List Token)
  | 0, _, _ => none
  | fuel + 1, setting, tokens =>
      if comes following tokens then some (absent, tokens) else node fuel setting tokens

/-- The value behind a colon, if there is a colon. -/
def valueBefore (following : List Token) :
    Nat → Setting → List Token → Option (Outline × List Token)
  | 0, _, _ => none
  | fuel + 1, setting, tokens =>
      match tokens with
      | .value :: rest => nodeBefore following fuel setting rest
      | _ => some (absent, tokens)

/-- The items of a block sequence. -/
def blockItems : Nat → List Token → Option (List Outline × List Token)
  | 0, _ => none
  | fuel + 1, tokens =>
      match tokens with
      | .blockEnd :: rest => some ([], rest)
      | .dash :: rest => do
          let (item, rest) ← nodeBefore [.dash, .blockEnd] fuel .block rest
          let (others, rest) ← blockItems fuel rest
          return (item :: others, rest)
      | _ => none

/-- The items of a sequence whose dashes stand in the column of a mapping. -/
def dashedItems : Nat → List Token → Option (List Outline × List Token)
  | 0, _ => none
  | fuel + 1, tokens =>
      match tokens with
      | .dash :: rest => do
          let (item, rest) ← nodeBefore [.dash, .key, .value, .blockEnd] fuel .block rest
          let (others, rest) ← dashedItems fuel rest
          return (item :: others, rest)
      | _ => some ([], tokens)

/-- The entries of a block mapping. -/
def blockEntries : Nat → List Token → Option (List (Outline × Outline) × List Token)
  | 0, _ => none
  | fuel + 1, tokens =>
      let following : List Token := [.key, .value, .blockEnd]
      let entry (key : Outline) (rest : List Token) :
          Option (List (Outline × Outline) × List Token) := do
        let (value, rest) ← valueBefore following fuel .inMapping rest
        let (others, rest) ← blockEntries fuel rest
        return ((key, value) :: others, rest)
      match tokens with
      | .blockEnd :: rest => some ([], rest)
      | .value :: _ => entry absent tokens
      | .key :: rest => do
          let (key, rest) ← nodeBefore following fuel .inMapping rest
          entry key rest
      | _ => none

/-- The items of a flow sequence; behind the first one they start with commas.  A
marked key makes the item a mapping of one entry. -/
def flowItems : Nat → Bool → List Token → Option (List Outline × List Token)
  | 0, _, _ => none
  | fuel + 1, first, tokens =>
      let following : List Token := [.comma, .closing .square]
      match behindComma first tokens with
      | none => none
      | some (.closing .square :: rest) => some ([], rest)
      | some (.key :: rest) => do
          let (key, rest) ← nodeBefore (.value :: following) fuel .flow rest
          let (value, rest) ← valueBefore following fuel .flow rest
          let (others, rest) ← flowItems fuel false rest
          return (entries [(key, value)] :: others, rest)
      | some start => do
          let (item, rest) ← node fuel .flow start
          let (others, rest) ← flowItems fuel false rest
          return (item :: others, rest)

/-- The entries of a flow mapping; behind the first one they start with commas.  A
node that is not marked as a key has no value. -/
def flowEntries : Nat → Bool → List Token → Option (List (Outline × Outline) × List Token)
  | 0, _, _ => none
  | fuel + 1, first, tokens =>
      let following : List Token := [.comma, .closing .curly]
      let entry (key : Outline) (rest : List Token) :
          Option (List (Outline × Outline) × List Token) := do
        let (value, rest) ← valueBefore following fuel .flow rest
        let (others, rest) ← flowEntries fuel false rest
        return ((key, value) :: others, rest)
      match behindComma first tokens with
      | none => none
      | some (.closing .curly :: rest) => some ([], rest)
      | some (.value :: rest) => entry absent (.value :: rest)
      | some (.key :: rest) => do
          let (key, rest) ← nodeBefore (.value :: following) fuel .flow rest
          entry key rest
      | some start => do
          let (key, rest) ← node fuel .flow start
          let (others, rest) ← flowEntries fuel false rest
          return ((key, absent) :: others, rest)
end

/-- The outline of the only document among tokens.  Each node takes a token, and
between two nodes there are at most three calls. -/
def ofTokens? (tokens : List Token) : Option Outline :=
  match tokens with
  | [] | [.documentStart] | [.documentStart, .documentEnd] => some absent
  | .documentStart :: rest => whole rest
  | _ => whole tokens
where
  /-- The node that makes up a document, with its end. -/
  whole (tokens : List Token) : Option Outline :=
    match node (4 * tokens.length + 4) .block tokens with
    | some (outline, []) | some (outline, [.documentEnd]) => some outline
    | _ => none

end Outline

end ProtoShape.Yaml
