import ProtoShape.Proofs.Command.Course
import ProtoShape.Proofs.Reshape.Marks

/-!
# What hinders loading

A document that is loaded is a mapping (`Document.load_mapping`), and a configuration that is
loaded is valid if the validation passes none but valid ones (`Config.load_valid`).  Where loading
fails, a command reports it, fails the stage and ends with exit code 2.  `Document.Hindered` lists
the exceptions for documents: a directory stands at the path, or a file whose bytes are no text, or
the path is too long to be looked at, or the system denies the way or the reading, or the document
has an integer with too many digits.  Each of them cuts the command short (`check_loads`,
`reshape_loads_document`).  A configuration has only two such exceptions, which are a path that is
too long and a closed directory on the way (`reshape_loads_config`); whatever else cannot be read in
its place is reported.
-/

namespace ProtoShape

/-! ## Paths that cannot be looked at -/

namespace FileSystem

variable {fs : FileSystem} {p : FilePath}

/-- A path is too long: it is so itself, or one of its parts is, seen from the root. -/
def TooLong (fs : FileSystem) (p : FilePath) : Prop :=
  maxPathBytes < p.toString.utf8ByteSize ∨
    ∃ part ∈ (fs.workingDirectory.join p).parts, maxPartBytes < part.utf8ByteSize

/-- A path leads through a directory that may not be gone through. -/
def Closed (fs : FileSystem) (p : FilePath) : Prop := ∃ q, fs.place p = .error (.denied q)

theorem exists_long_part {place parts : List String} {q : FilePath}
    (h : fs.follow place parts = .error (.nameTooLong q)) :
    ∃ part ∈ parts, maxPartBytes < part.utf8ByteSize := by
  induction parts generalizing place with
  | nil => cases h
  | cons part rest ih =>
      have hrest {place : List String} (h : fs.follow place rest = .error (.nameTooLong q)) :
          ∃ long ∈ part :: rest, maxPartBytes < long.utf8ByteSize := by
        obtain ⟨long, hmem, hlong⟩ := ih h
        exact ⟨long, List.mem_cons_of_mem _ hmem, hlong⟩
      unfold follow at h
      split at h
      · split at h
        · cases h
        split at h
        · exact hrest h
        split at h
        · rename_i hlong
          exact ⟨part, List.mem_cons_self, hlong⟩
        · exact hrest h
      · cases h
      · cases h

theorem place_tooLong {q : FilePath} (h : fs.place p = .error (.nameTooLong q)) :
    fs.TooLong p := by
  unfold FileSystem.place at h
  split at h
  · cases h
  · split at h
    · rename_i hlong
      exact Or.inl hlong
    · exact Or.inr (exists_long_part h)

/-- Only a path that is too long or that leads through a closed directory cannot be asked about. -/
theorem has_error {error : FileError} (h : fs.has p = .error error) :
    error = .nameTooLong p ∧ fs.TooLong p ∨ error = .denied p ∧ fs.Closed p := by
  unfold has at h
  split at h <;> cases h
  · exact Or.inl ⟨rfl, place_tooLong ‹_›⟩
  · exact Or.inr ⟨rfl, _, ‹_›⟩

theorem has_iff : fs.has p = .ok true ↔ (fs.look p).isSome = true := by
  unfold has look
  cases fs.place p with
  | ok place => simp
  | error error => cases error <;> simp

/-- Something that is there cannot be read only if this is denied, or if it is a directory or its
bytes are no text. -/
theorem readText_error {error : FileError} (hthere : fs.has p = .ok true)
    (h : fs.readText p = .error error) :
    (error = .denied p ∧ ∃ place, fs.place p = .ok place ∧ fs.denies .read place = true) ∨
      (error = .isDirectory p ∧ fs.look p = some .directory) ∨
      ∃ reason, error = .notText reason ∧ fs.look p = some (.undecodable reason) := by
  obtain ⟨entry, hlook⟩ := Option.isSome_iff_exists.1 (has_iff.1 hthere)
  unfold look at hlook
  unfold look
  unfold readText at h
  cases hplace : fs.place p with
  | error error =>
      rw [hplace] at hlook
      cases hlook
  | ok place =>
      rw [hplace] at h hlook
      simp only [hlook] at h hlook ⊢
      split at h
      · cases h
        exact Or.inl ⟨rfl, place, rfl, ‹_›⟩
      · cases entry with
        | file text => cases h
        | undecodable reason =>
            cases h
            exact Or.inr (Or.inr ⟨reason, rfl, rfl⟩)
        | directory =>
            cases h
            exact Or.inr (Or.inl ⟨rfl, rfl⟩)

end FileSystem

/-! ## Documents -/

namespace Document

variable {libs : Libraries} {fs : FileSystem} {path : FilePath}

/-- What hinders a document from being loaded without being reported. -/
inductive Hindered (fs : FileSystem) (path : FilePath) : LoadError → Prop where
  | directory : fs.look path = some .directory → Hindered fs path (.unreadable (.isDirectory path))
  | undecodable {reason : String} : fs.look path = some (.undecodable reason) →
      Hindered fs path (.unreadable (.notText reason))
  | tooLong : fs.TooLong path → Hindered fs path (.unreadable (.nameTooLong path))
  | closed : fs.Closed path → Hindered fs path (.unreadable (.denied path))
  | denied {place : List String} : fs.place path = .ok place → fs.denies .read place = true →
      Hindered fs path (.unreadable (.denied path))
  | digits {text : String} {count : Nat} : fs.readText path = .ok text →
      extension path = ".json" → Json.read text = .error (.tooManyDigits count) →
      Hindered fs path (.tooManyDigits count)

/-- A document that is loaded is a mapping. -/
theorem load_mapping {value : Value} (h : load libs fs path = .ok value) :
    value.fields?.isSome = true := by
  unfold load at h
  split at h
  · cases h
  · cases h
  · split at h
    · cases h
    · split at h <;> cases h
      rfl

theorem parse_error {text : String} {error : LoadError} (h : parse libs path text = .error error) :
    error.isReported = true ∨
      extension path = ".json" ∧ ∃ count, error = .tooManyDigits count ∧
        Json.read text = .error (.tooManyDigits count) := by
  unfold parse at h
  split at h
  · rename_i hextension
    split at h <;> cases h
    · exact Or.inl rfl
    · exact Or.inr ⟨hextension, _, rfl, ‹_›⟩
  · split at h <;> cases h
    exact Or.inl rfl

/-- A document that is not loaded is reported, unless it is hindered. -/
theorem load_error {error : LoadError} (h : load libs fs path = .error error) :
    error.isReported = true ∨ Hindered fs path error := by
  unfold load at h
  split at h
  · rename_i hhas
    cases h
    rcases FileSystem.has_error hhas with ⟨rfl, hlong⟩ | ⟨rfl, hclosed⟩
    · exact Or.inr (.tooLong hlong)
    · exact Or.inr (.closed hclosed)
  · cases h
    exact Or.inl rfl
  · rename_i hhas
    split at h
    · rename_i hread
      cases h
      rcases FileSystem.readText_error hhas hread with
        ⟨rfl, place, hplace, hdenied⟩ | ⟨rfl, hdirectory⟩ | ⟨reason, rfl, hbytes⟩
      · exact Or.inr (.denied hplace hdenied)
      · exact Or.inr (.directory hdirectory)
      · exact Or.inr (.undecodable hbytes)
    · rename_i hread
      split at h
      · rename_i hparse
        cases h
        rcases parse_error hparse with hreported | ⟨hextension, count, rfl, hdigits⟩
        · exact Or.inl hreported
        · exact Or.inr (.digits hread hextension hdigits)
      · cases h
      · cases h
        exact Or.inl rfl

/-- A directory that may be read is not loaded, and this is not reported. -/
theorem load_directory {place : List String} (hplace : fs.place path = .ok place)
    (hdirectory : fs.entry? place = some .directory) (hallowed : fs.denies .read place = false) :
    load libs fs path = .error (.unreadable (.isDirectory path)) := by
  unfold load FileSystem.has FileSystem.readText
  simp only [hplace, hdirectory, hallowed, Option.isSome_some, FileSystem.textOf]
  rfl

theorem Hindered.not_reported {error : LoadError} (h : Hindered fs path error) :
    error.isReported = false := by
  cases h <;> rfl

end Document

/-! ## Configurations -/

namespace Config

/-- The configuration is one that the program works with: it has the version of the program, no
name of the options is blank, the flags are vendor extensions, and the format is known. -/
structure Valid (config : Config) : Prop where
  version : config.version = "v1"
  names : ∀ name ∈ [config.options.singleMapSuffix, config.options.nullTypeName,
    config.options.fieldProperty, config.options.primitiveValueKey], Text.trim name ≠ ""
  flags : config.options.HasFlags
  format : config.output.format = "yaml" ∨ config.output.format = "json"

section

variable {α β : Type}

theorem Checked.both_eq_ok {f : Checked (α → β)} {a : Checked α} {b : β} :
    Checked.both f a = .ok b ↔ ∃ g x, f = .ok g ∧ a = .ok x ∧ b = g x := by
  unfold Checked.both
  cases f <;> cases a <;> simp [eq_comm]

theorem readField_ok {fields : Fields Unit} {key : String} {standard : α}
    {read : Value → Checked α} {a : α}
    (h : readField fields key standard read = .ok a) : a = standard ∨ ∃ v, read v = .ok a := by
  unfold readField at h
  split at h
  · rename_i v _
    refine Or.inr ⟨v, ?_⟩
    cases hread : read v with
    | error complaints =>
        rw [hread] at h
        cases h
    | ok b =>
        rw [hread] at h
        cases h
        rfl
  · cases h
    exact Or.inl rfl

/-- A record that is read has been read from its fields and is not refused. -/
theorem readRecord_ok {name : String} {known : List String} {read : Fields Unit → Checked α}
    {refusal? : α → Option String} {v : Value} {a : α}
    (h : readRecord name known read refusal? v = .ok a) :
    refusal? a = none ∧ ∃ fields, read fields = .ok a := by
  unfold readRecord at h
  split at h
  · cases h
  · rename_i fields _
    simp only at h
    split at h
    · cases h
    · rename_i b hboth
      split at h
      · cases h
      · rename_i hrefusal
        cases h
        refine ⟨hrefusal, fields, ?_⟩
        obtain ⟨g, x, hread, -, rfl⟩ := Checked.both_eq_ok.1 hboth
        cases hfields : read fields with
        | error complaints =>
            rw [hfields] at hread
            cases hread
        | ok b =>
            rw [hfields] at hread
            cases hread
            rfl

end

theorem readFormat_ok {v : Value} {format : String} (h : readFormat v = .ok format) :
    format = "yaml" ∨ format = "json" := by
  unfold readFormat at h
  split at h
  · split at h <;> cases h
    rename_i hformat
    simpa using hformat
  · cases h

theorem names_of_refusal {options : Options} (h : optionsRefusal? options = none) :
    ∀ name ∈ [options.singleMapSuffix, options.nullTypeName, options.fieldProperty,
      options.primitiveValueKey],
      Text.trim name ≠ "" := by
  unfold optionsRefusal? at h
  simp only [Option.or_eq_none_iff, ite_eq_right_iff, reduceCtorEq, imp_false] at h
  obtain ⟨hsuffix, hnull, hfield, hvalue, -⟩ := h
  simp only [List.forall_mem_cons]
  exact ⟨hsuffix, hnull, hfield, hvalue, List.forall_mem_nil _⟩

theorem options_ok {fields : Fields Unit} {options : Options}
    (h : readField fields "rewrite" Config.standard.options readOptions = .ok options) :
    optionsRefusal? options = none := by
  rcases readField_ok h with rfl | ⟨v, hread⟩
  · decide +kernel
  · exact (readRecord_ok hread).1

theorem output_ok {fields : Fields Unit} {output : Output}
    (h : readField fields "output" Config.standard.output readOutput = .ok output) :
    output.format = "yaml" ∨ output.format = "json" := by
  rcases readField_ok h with rfl | ⟨v, hread⟩
  · exact Or.inl rfl
  · obtain ⟨-, fields', hfields⟩ := readRecord_ok hread
    obtain ⟨make, format, hpath, hformat, rfl⟩ := Checked.both_eq_ok.1 hfields
    obtain ⟨make', path, hmake, -, rfl⟩ := Checked.both_eq_ok.1 hpath
    cases hmake
    rcases readField_ok hformat with rfl | ⟨v', hread'⟩
    · exact Or.inl rfl
    · exact readFormat_ok hread'

/-- A configuration that is read is valid. -/
theorem read_valid {v : Value} {config : Config} (h : read v = .ok config) : config.Valid := by
  obtain ⟨hrefusal, fields, hfields⟩ := readRecord_ok h
  obtain ⟨_, output, hbefore, houtput, rfl⟩ := Checked.both_eq_ok.1 hfields
  obtain ⟨_, options, hbefore', hoptions, rfl⟩ := Checked.both_eq_ok.1 hbefore
  obtain ⟨_, document, hfirst, -, rfl⟩ := Checked.both_eq_ok.1 hbefore'
  obtain ⟨_, version, hmake, -, rfl⟩ := Checked.both_eq_ok.1 hfirst
  cases hmake
  have hversion : version = "v1" := by
    by_contra hother
    cases (if_neg hother).symm.trans hrefusal
  have haccepted := options_ok hoptions
  exact ⟨hversion, names_of_refusal haccepted, hasFlags_of_refusal haccepted, output_ok houtput⟩

theorem standard_valid : Config.standard.Valid :=
  ⟨rfl, names_of_refusal (by decide +kernel), hasFlags_of_refusal (by decide +kernel), Or.inl rfl⟩

variable {libs : Libraries} {fs : FileSystem} {project : FilePath} {path : Option FilePath}

/-- A configuration that is loaded is valid, if those are that pass the validation. -/
theorem load_valid (hlibs : ∀ record config, libs.validate record = .ok config → config.Valid)
    {config : Config} (h : load libs fs project path = .ok config) : config.Valid := by
  unfold load at h
  simp only at h
  split at h
  · cases h
  · split at h <;> cases h
    exact standard_valid
  · cases hrecord : recordAt libs fs (pathIn project path) with
    | error error =>
        rw [hrecord] at h
        cases h
    | ok record =>
        rw [hrecord] at h
        change ofRecord libs record = .ok config at h
        unfold ofRecord at h
        split at h <;> cases h
        exact hlibs record config ‹_›

/-- The built-in validation passes valid configurations only. -/
theorem builtIn_valid {record : Value} {config : Config}
    (h : Libraries.builtIn.validate record = .ok config) : config.Valid := by
  change (read record).mapError _ = _ at h
  cases hread : read record with
  | error complaints =>
      rw [hread] at h
      cases h
  | ok config' =>
      rw [hread] at h
      cases h
      exact read_valid hread

/-- Only a path that is too long or that leads through a closed directory hinders a configuration
from being loaded or reported. -/
theorem load_unreachable {error : FileError}
    (h : load libs fs project path = .error (.unreachable error)) :
    (error = .nameTooLong (pathIn project path) ∧ fs.TooLong (pathIn project path)) ∨
      error = .denied (pathIn project path) ∧ fs.Closed (pathIn project path) := by
  unfold load at h
  simp only at h
  split at h
  · rename_i hhas
    cases h
    exact FileSystem.has_error hhas
  · split at h <;> cases h
  · cases hrecord : recordAt libs fs (pathIn project path) with
    | error error' =>
        rw [hrecord] at h
        cases h
        unfold recordAt at hrecord
        split at hrecord
        · cases hrecord
        · split at hrecord
          · cases hrecord
          · unfold recordOf at hrecord
            split at hrecord <;> cases hrecord
    | ok record =>
        rw [hrecord] at h
        change ofRecord libs record = .error _ at h
        unfold ofRecord at h
        split at h <;> cases h

end Config

/-! ## Commands -/

/-- The command runs to its end, but fails at a stage. -/
structure Stream.FailsAt (stage : Stage) (exitCode : Int) (stream : Stream) : Prop where
  crash : stream.crash? = none
  failed : failedStages stream.events = [stage.id]
  completion : completion? stream.events = some (false, exitCode)

namespace Command

variable {libs : Libraries} {files : FileSystem} {path : FilePath} {error : Document.LoadError}

theorem loading_of_reported (command : String) (h : Document.load libs files path = .error error)
    (hreported : error.isReported = true) :
    loading libs command files path = .failure [] 2 "document_error" error.message := by
  simp only [loading, h, hreported, if_true]

theorem loading_of_hindered (command : String) (h : Document.load libs files path = .error error)
    (hhindered : Document.Hindered files path error) :
    loading libs command files path = .crash (.load error) := by
  simp only [loading, h, hhindered.not_reported]
  rfl

/-- A check whose document is not loaded fails at this stage, unless the document is hindered. -/
theorem check_loads (h : Document.load libs files path = .error error) :
    (check libs files path).FailsAt .loadDocument 2 ∨
      Document.Hindered files path error ∧
        (check libs files path).crash? = some (.load error) := by
  unfold check
  rcases Document.load_error h with hreported | hhindered
  · rw [loading_of_reported _ h hreported]
    exact Or.inl ⟨rfl, rfl, rfl⟩
  · rw [loading_of_hindered _ h hhindered]
    exact Or.inr ⟨hhindered, rfl⟩

/-- A check of a directory that may be read is cut short. -/
theorem check_directory {place : List String} (hplace : files.place path = .ok place)
    (hdirectory : files.entry? place = some .directory)
    (hallowed : files.denies .read place = false) :
    (check libs files path).crash? = some (.load (.unreadable (.isDirectory path))) := by
  have hlook : files.look path = some .directory := by
    unfold FileSystem.look
    rw [hplace]
    exact hdirectory
  unfold check
  rw [loading_of_hindered _ (Document.load_directory hplace hdirectory hallowed)
    (.directory hlook)]
  rfl

section

variable {request : ReshapeRequest} (hproject : (request.projectIn files).hasNull = false)
include hproject

/-- A reshaping whose configuration is not loaded fails at this stage, unless the path of the
configuration is too long or leads through a closed directory. -/
theorem reshape_loads_config {error : Config.LoadError}
    (h : Config.load libs files (request.projectIn files) request.config = .error error) :
    (reshape libs files request).FailsAt .loadConfig 2 ∨ ∃ fileError,
      (reshape libs files request).crash? = some (.file fileError) ∧
        let path := Config.pathIn (request.projectIn files) request.config
        (fileError = .nameTooLong path ∧ files.TooLong path ∨
          fileError = .denied path ∧ files.Closed path) := by
  rw [reshape_eq hproject]
  unfold reshapeStages loadingConfig
  rw [h]
  cases error with
  | unreachable error => exact Or.inr ⟨error, rfl, Config.load_unreachable h⟩
  | missing | unreadable | notMapping | invalid => exact Or.inl ⟨rfl, rfl, rfl⟩

/-- A reshaping whose document is not loaded fails at this stage, unless the document is
hindered. -/
theorem reshape_loads_document {config : Config} {source : FilePath}
    (hconfig : Config.load libs files (request.projectIn files) request.config = .ok config)
    (hsource : sourcePath? (request.projectIn files) config request.document = some source)
    (h : Document.load libs files source = .error error) :
    (reshape libs files request).FailsAt .loadDocument 2 ∨
      Document.Hindered files source error ∧
        (reshape libs files request).crash? = some (.load error) := by
  rw [reshape_eq hproject]
  unfold reshapeStages loadingConfig
  rw [hconfig]
  simp only [StageWork.success, Stream.stage]
  rw [hsource]
  unfold loadingSource
  rcases Document.load_error h with hreported | hhindered
  · simp only [loading_of_reported _ h hreported]
    exact Or.inl ⟨rfl, rfl, rfl⟩
  · simp only [loading_of_hindered _ h hhindered]
    exact Or.inr ⟨hhindered, rfl⟩

end

end Command

end ProtoShape
