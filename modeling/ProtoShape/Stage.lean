/-!
# Stages

A command works in stages.  Each has an identifier, for reports that a program
reads, and a label, for those that a person reads.
-/

namespace ProtoShape

/-- A stage of a command. -/
structure Stage where
  id : String
  label : String
deriving DecidableEq, Repr

namespace Stage

/-- The configuration is loaded. -/
def loadConfig : Stage := ⟨"load_config", "Load config"⟩

/-- The document is loaded. -/
def loadDocument : Stage := ⟨"load_document", "Load document"⟩

/-- The first phase of the reshaping. -/
def simplify : Stage := ⟨"simplify", "Simplify schemas"⟩

/-- The second phase of the reshaping. -/
def restructure : Stage := ⟨"restructure", "Restructure maps and unions"⟩

/-- The third phase of the reshaping. -/
def annotate : Stage := ⟨"annotate", "Annotate exclusive groups"⟩

/-- The result is written. -/
def writeDocument : Stage := ⟨"write_document", "Write document"⟩

/-- Violations are looked for. -/
def checkInvariants : Stage := ⟨"check_invariants", "Check invariants"⟩

/-- The stages of the command `rewrite`. -/
def ofReshape : List Stage :=
  [loadConfig, loadDocument, simplify, restructure, annotate, writeDocument]

/-- The stages of the command `check`. -/
def ofCheck : List Stage := [loadDocument, checkInvariants]

/-- The label of the stage with an identifier; an unknown identifier stands for
itself. -/
def labelIn (stages : List Stage) (id : String) : String :=
  ((stages.find? (·.id = id)).map label).getD id

/-- The place of the stage with an identifier, counted from one; zero for an
unknown identifier. -/
def indexIn (stages : List Stage) (id : String) : Nat :=
  ((stages.findIdx? (·.id = id)).map (· + 1)).getD 0

example : indexIn ofReshape "restructure" = 4 ∧ indexIn ofCheck "restructure" = 0 := by
  decide +kernel

end Stage

end ProtoShape
