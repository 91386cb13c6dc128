import Mathlib
import ProtoShape.Proofs.Command.Agreement
import ProtoShape.Proofs.Json.RoundTrip

/-!
# Documents in JSON files

A document that is written into a JSON file is loaded from it again (`load_written`): the same
mappings with their keys in the same order, the same lists and the same leaves.  The file is written
whenever its path can be written to at all.

A document with an integer of more than `Decimal.maxDigits` digits is not written at all
(`write_of_isTooLong`), and `longDocument` is one.  Nothing is said about floating point
numbers, nor about values that JSON does not know.
-/

namespace ProtoShape.Document

variable {libs : Libraries} {path : FilePath} {document : Value}

/-- A document with an integer that has too many digits is not written. -/
theorem write_of_isTooLong (libs : Libraries) (fs : FileSystem) (path : FilePath)
    (hkeys : document.HasTextKeys) (hforeign : document.anyScalar Scalar.isForeign = false)
    (hdigits : document.anyScalar Scalar.isTooLong = true) :
    write libs fs path document "json" = (fs, .error (.unwritable .tooManyDigits)) := by
  have hstops := Json.write_stops Json.pretty 0 hkeys (Or.inr hforeign)
  rw [hdigits] at hstops
  have hdump : dump libs document "json" = .error (.unwritable .tooManyDigits) := by
    unfold dump
    rw [if_pos rfl, Json.text, hstops.eq_error]
  rw [write, hdump]

theorem dump_json (libs : Libraries) (hkeys : document.HasTextKeys)
    (hforeign : document.anyScalar Scalar.isForeign = false)
    (hdigits : document.anyScalar Scalar.isTooLong = false) :
    dump libs document "json" = .ok (Json.layout 0 document ++ "\n") := by
  unfold dump
  rw [if_pos rfl, Json.text, Json.write_eq_layout 0 hkeys hforeign hdigits]

/-- The text of a document is taken for that document, where the extension asks for JSON. -/
theorem parse_text (hextension : extension path = ".json") (hjson : document.IsJson)
    (hforeign : document.anyScalar Scalar.isForeign = false)
    (hfloats : document.anyScalar Scalar.isFloat = false)
    (hdigits : document.anyScalar Scalar.isTooLong = false) :
    parse libs path (Json.layout 0 document ++ "\n") = .ok document := by
  unfold parse
  rw [if_pos hextension, Json.read_text hjson hforeign hfloats hdigits]

/-- A file can be written to a path, and what is written there can be read. -/
def Accessible (fs : FileSystem) (path : FilePath) : Prop :=
  ∃ text after read, fs.writeText path text = (after, .ok ()) ∧ after.readText path = .ok read

/-- A document that is written into a JSON file is loaded from it again. -/
theorem load_written (libs : Libraries) (fs : FileSystem) (path : FilePath) {document : Value}
    (hpath : Accessible fs path) (hextension : extension path = ".json")
    (hmapping : document.fields?.isSome = true) (hjson : document.IsJson)
    (hforeign : document.anyScalar Scalar.isForeign = false)
    (hfloats : document.anyScalar Scalar.isFloat = false)
    (hdigits : document.anyScalar Scalar.isTooLong = false) :
    ∃ after bytes, write libs fs path document "json" = (after, .ok bytes) ∧
      load libs after path = .ok document := by
  obtain ⟨other, otherwise, read, hother, hread⟩ := hpath
  obtain ⟨place, after, hotherPlace, hwritten, hplace, hwrote⟩ :=
    FileSystem.exists_writeText hother (Json.layout 0 document ++ "\n")
  have hallowed : fs.denies .read place = false := by
    obtain ⟨_, _, hotherWrote⟩ := FileSystem.writeText_wrote hother
    rw [← hotherWrote.denies]
    exact FileSystem.allowed_of_readText hotherPlace hread
  have hplain : '\r' ∉ (Json.layout 0 document ++ "\n").toList := by
    have hbody := Json.return_not_mem_layout 0 hfloats
    simp [hbody]
  have hdump := dump_json libs hjson.hasTextKeys hforeign hdigits
  refine ⟨after, _, write_eq_ok_iff.2 ⟨_, hdump, hwritten, rfl⟩, ?_⟩
  unfold load
  rw [hwrote.has hplace]
  simp only [hwrote.readText hplace hallowed hplain,
    parse_text hextension hjson hforeign hfloats hdigits]
  cases document with
  | map tag fields => rfl
  | scalar tag s => cases hmapping
  | list tag items => cases hmapping

/-- A working directory without files. -/
def bareFiles : FileSystem where
  workingDirectory := ⟨"/", ["work"]⟩
  entries := [(["work"], .directory)]

/-- A file in that directory can be written and read. -/
theorem bareFiles_accessible : Accessible bareFiles (.ofString "out.JSON") := by
  have habove : bareFiles.place (FilePath.parent (.ofString "out.JSON")) = .ok ["work"] := by cbv
  have hplace : bareFiles.place (.ofString "out.JSON") = .ok ["work", "out.JSON"] := by cbv
  have hwritten := FileSystem.writeText_of_directory habove (by decide +kernel) hplace
    (by decide +kernel) rfl ""
  obtain ⟨place, hafter, hwrote⟩ := FileSystem.writeText_wrote hwritten
  exact ⟨"", _, _, hwritten, hwrote.readText hafter rfl (by decide)⟩

/-- A document with an empty list, an empty mapping, a negative number and a key that is escaped. -/
def nestedDocument : Value :=
  .ofEntries [("z", .ofList [.ofList [], .ofEntries [], .ofInt (-10)]),
    ("é\r\"\x01", .ofBool true), ("a", .ofInt 1)]

/-- That document is loaded from a file whose extension is in capital letters. -/
theorem load_written_nested : ∃ after bytes,
    write .builtIn bareFiles (.ofString "out.JSON") nestedDocument "json" = (after, .ok bytes) ∧
      load .builtIn after (.ofString "out.JSON") = .ok nestedDocument :=
  load_written .builtIn bareFiles (.ofString "out.JSON") bareFiles_accessible (by decide +kernel)
    (by decide +kernel) (by decide +kernel) (by decide +kernel) (by decide +kernel)
    (by decide +kernel)

/-- A document with the smallest integer that has too many digits. -/
def longDocument : Value := .ofEntries [("n", .ofInt (Nat.pow 10 Decimal.maxDigits))]

/-- That document is not written, although a file can be written there and no floating point number
is in it. -/
theorem write_longDocument :
    Accessible bareFiles (.ofString "out.JSON") ∧
      extension (.ofString "out.JSON") = ".json" ∧ longDocument.fields?.isSome = true ∧
      longDocument.IsJson ∧ longDocument.anyScalar Scalar.isForeign = false ∧
      longDocument.anyScalar Scalar.isFloat = false ∧
      ¬∃ after bytes, write .builtIn bareFiles (.ofString "out.JSON") longDocument "json" =
        (after, .ok bytes) := by
  refine ⟨bareFiles_accessible, by decide +kernel, by decide +kernel, by decide +kernel,
    by decide +kernel, by decide +kernel, ?_⟩
  rintro ⟨after, bytes, hwrite⟩
  rw [write_of_isTooLong _ _ _ (by decide +kernel) (by decide +kernel)
    (by decide +kernel)] at hwrite
  cases hwrite

end ProtoShape.Document
