import Criteria.Config.Reading
import Criteria.Toml.Reader

/-!
# Loading a configuration

A service is configured in layers, of which a later one goes over the earlier ones: its
name and the environment, the file `default`, the file of the environment, the file of
the service, and the variables with the common name in front. A file that is missing
says nothing; a file that is no TOML refuses the whole configuration. The variable for
the port of the service has the last word, if it denotes a port.
-/

namespace Criteria.Config

/-- Where a configuration is loaded from: files by name, variables by name. -/
structure Surroundings where
  files : List (String × String)
  «variables» : List (String × String)

/-- What the names of all variables begin with. -/
def variableFamily : String := "RULE_BUILDER"

/-- The environment that a service runs in, unless a variable says otherwise. -/
def standardEnvironment : String := "development"

namespace Surroundings

def environment (s : Surroundings) : String :=
  (s.variables.lookup (variableFamily ++ "_ENV")).getD standardEnvironment

/-- The settings in the file with a name, of which there are none without the file. -/
def file? (s : Surroundings) (name : String) : Option (List (String × Setting)) :=
  match s.files.lookup (name ++ ".toml") with
  | none => some []
  | some text => Toml.read? text

/-- The text with every `__` made a point. -/
def dotted : List Char → List Char
  | '_' :: '_' :: cs => '.' :: dotted cs
  | c :: cs => c :: dotted cs
  | [] => []

/-- The name that the name of a variable gives to a setting, if it has the common name
in front. Letter case does not matter. -/
def settingName? (variableName : String) : Option String :=
  let front := (Text.toAsciiLower (variableFamily ++ "_")).toList
  let name := (Text.toAsciiLower variableName).toList
  if name.take front.length = front then some (String.ofList (dotted (name.drop front.length)))
  else none

/-- The settings in variables. -/
def settings (s : Surroundings) : List (String × Setting) :=
  s.variables.filterMap fun e => (settingName? e.1).map fun name => (name, Setting.ofText e.2)

/-- The variable for the port of a service. -/
def portVariable (service : String) : String :=
  String.ofList ((Text.toAsciiUpper service).toList.map fun c => if c = '-' then '_' else c)
    ++ "_PORT"

/-- The port that the variable for it denotes. -/
def port? (s : Surroundings) (service : String) : Option Port :=
  (s.variables.lookup (portVariable service)).bind Port.ofText?

end Surroundings

/-- All layers of settings for a service, one over the other. -/
def layers? (s : Surroundings) (service : String) : Option Setting := do
  let environment := s.environment
  let named := [("service_name", Setting.text service), ("environment", Setting.text environment)]
  let files ← ["default", environment, service].mapM s.file?
  return (named :: files ++ [s.settings]).foldl Setting.placeAll (.table [])

/-- The configuration of a service in given surroundings. -/
def load? (s : Surroundings) (service : String) : Option Config := do
  let config ← ofSetting? (← layers? s service)
  match s.port? service with
  | none => return config
  | some port => return { config with server := { config.server with port } }

end Criteria.Config
