import ProtoShape.Config.Reading
import ProtoShape.Json.Order
import ProtoShape.Yaml.Reader
import ProtoShape.Yaml.Writer

/-!
# Libraries

YAML texts are read and written, and configurations validated, by libraries.  The commands take them
as parameters and rely on nothing but their answers.

The libraries that are built in read and write a part of YAML without anchors, tags, directives,
block scalars and dates.  The YAML text of an integer is limited to as many digits as the JSON text
is.
-/

namespace ProtoShape

/-- Why a library does not write a value. -/
structure Refusal where
  message : String
  /-- Whether the value is what is wrong, so that a command can go on to report it. -/
  isReported : Bool
deriving DecidableEq, Repr

/-- What is left to libraries. -/
structure Libraries where
  /-- The value that a YAML text writes, if it is one. -/
  readYaml : String → Option Value
  /-- The YAML text of a value. -/
  writeYaml : Value → Except Refusal String
  /-- The configuration that a mapping gives, or what is wrong with it. -/
  validate : Value → Except String Config

/-- The libraries that are built in. -/
def Libraries.builtIn : Libraries where
  readYaml := Yaml.read?
  writeYaml v :=
    if v.anyScalar Scalar.isTooLong then .error ⟨Json.Unwritable.tooManyDigits.message, true⟩
    else .ok (Yaml.text v)
  validate v := (Config.read v).mapError (Config.summary · "Config")

end ProtoShape
