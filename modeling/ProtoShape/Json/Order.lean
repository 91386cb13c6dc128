import ProtoShape.Tree

/-!
# The order of keys

A value may have no JSON text; `Unwritable` says why.  One reason is the order of keys:
the canonical text of a value shows the members of each mapping in the order of
their keys.  Texts are ordered by code points, and numbers by their exact value,
where a boolean counts as zero or one.  Two foreign keys of one type are ordered by
their texts.  A text and a number have no order, nor have null and anything else;
then `sortEntries` fails with the kinds of the two keys.

Every number precedes or follows every other, but what is not a number does
neither.  So the way in which the entries are compared can show: a run is extended
as long as it ascends or descends, and every later entry is put in its place by
bisection.
-/

namespace ProtoShape.Json

/-- Why a value has no JSON text. -/
inductive Unwritable where
  /-- Two keys of one mapping have no order. -/
  | unordered (left right : String)
  /-- A key is of a kind that no JSON key stands for. -/
  | badKey (kind : String)
  /-- A value is of a kind that JSON does not know. -/
  | unknownKind (kind : String)
  /-- An integer has more digits than are written. -/
  | tooManyDigits
deriving DecidableEq, Repr

/-- The wording of the reason. -/
def Unwritable.message : Unwritable → String
  | unordered left right =>
      s!"'<' not supported between instances of '{left}' and '{right}'"
  | badKey kind => s!"keys must be str, int, float, bool or None, not {kind}"
  | unknownKind kind => s!"Object of type {kind} is not JSON serializable"
  | tooManyDigits => Decimal.limitMessage ""

/-- Two results of writing are compared by what they are or by why there is nothing. -/
instance Unwritable.decidableEqResult {α : Type} [DecidableEq α] :
    DecidableEq (Except Unwritable α)
  | .ok a, .ok b =>
      if h : a = b then .isTrue (h ▸ rfl) else .isFalse fun heq => h (Except.ok.inj heq)
  | .error r, .error s =>
      if h : r = s then .isTrue (h ▸ rfl) else .isFalse fun heq => h (Except.error.inj heq)
  | .ok _, .error _ => .isFalse nofun
  | .error _, .ok _ => .isFalse nofun

/-- The value of a key that is a number. -/
inductive Size where
  | fraction (numerator : Int) (denominator : Nat)
  | infinite (negative : Bool)
  | notANumber

namespace Size

/-- The value of a floating point number. -/
def ofFloat (x : Float) : Size :=
  let negative := Decimal.Exact.isNegative x
  match Decimal.Exact.ofFloat? x with
  | none => if x.isNaN then notANumber else infinite negative
  | some v =>
      fraction (if negative then -(v.numerator : Int) else v.numerator) v.denominator

/-- Whether one value is less than another. -/
def before : Size → Size → Bool
  | fraction n d, fraction m e => n * (e : Int) < m * (d : Int)
  | infinite negative, fraction _ _ => negative
  | fraction _ _, infinite negative => !negative
  | infinite negative, infinite other => negative && !other
  | _, _ => false

end Size

/-- The number that a key stands for. -/
def sizeOf? : Scalar → Option Size
  | .int i => some (.fraction i 1)
  | .bool b => some (.fraction (if b then 1 else 0) 1)
  | .float x => some (.ofFloat x)
  | .null | .text _ | .foreign _ => none

/-- Whether one key precedes another. -/
def keyBefore (a b : Scalar) : Except Unwritable Bool :=
  match a, b with
  | .text a, .text b => .ok (a < b)
  | .foreign a, .foreign b =>
      if a.kind = b.kind then .ok (a.text < b.text) else .error (.unordered a.kind b.kind)
  | a, b =>
      match sizeOf? a, sizeOf? b with
      | some m, some n => .ok (m.before n)
      | _, _ => .error (.unordered a.kindName b.kindName)

variable {α : Type}

/-- The number of entries that continue a run: each compares with its predecessor
as `descending` says. -/
def runLength (descending : Bool) (previous : Scalar) :
    List (Scalar × α) → Except Unwritable Nat
  | [] => .ok 0
  | (key, _) :: rest => do
      if (← keyBefore key previous) = descending then
        return (← runLength descending key rest) + 1
      else return 0

/-- The place of a key among sorted entries, by bisection between two bounds. -/
def bisect (sorted : List (Scalar × α)) (key : Scalar) :
    Nat → Nat → Nat → Except Unwritable Nat
  | 0, low, _ => .ok low
  | fuel + 1, low, high =>
      if low < high then do
        let middle := low + (high - low) / 2
        match sorted[middle]? with
        | none => return low
        | some (other, _) =>
            if ← keyBefore key other then bisect sorted key fuel low middle
            else bisect sorted key fuel (middle + 1) high
      else .ok low

/-- Puts entries one after the other among sorted ones. -/
def insertSorted (sorted : List (Scalar × α)) :
    List (Scalar × α) → Except Unwritable (List (Scalar × α))
  | [] => .ok sorted
  | entry :: rest => do
      let place ← bisect sorted entry.1 sorted.length 0 sorted.length
      insertSorted (sorted.take place ++ entry :: sorted.drop place) rest

/-- The entries in the order of their keys. -/
def sortEntries (entries : List (Scalar × α)) : Except Unwritable (List (Scalar × α)) :=
  match entries with
  | first :: second :: rest => do
      let descending ← keyBefore second.1 first.1
      let length := (← runLength descending second.1 rest) + 2
      let run := entries.take length
      insertSorted (if descending then run.reverse else run) (entries.drop length)
  | _ => .ok entries

end ProtoShape.Json
