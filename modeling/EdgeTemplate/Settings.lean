import EdgeTemplate.File
import EdgeTemplate.Text.Blank
import EdgeTemplate.Text.Numeral
import EdgeTemplate.Text.UpperCase

/-!
# Settings

Limits and the log level as the environment gives them: as text.
-/

namespace EdgeTemplate

/-- A variable does not read as a number, or holds a null character, which no variable can. -/
inductive SettingError where
  | notInteger (name : String) (value : List Char)
  | embeddedNull
  deriving DecidableEq

def SettingError.message : SettingError → String
  | notInteger name value => name ++ " must be an integer, got " ++ String.ofList (quoted value)
  | embeddedNull => embeddedNullMessage

/-- A variable that is unset or blank keeps the default. -/
def readInteger (name : String) (default : Int) (value : Option String) : Except SettingError Int :=
  let value := trimBlanks ((value.getD "").toList)
  if value.isEmpty then .ok default
  else
    match integer? value with
    | some n => .ok n
    | none => .error (.notInteger name value)

/-- The limits of the document cache, before they are checked. -/
structure Settings where
  maxSize : Int := 100
  ttl : Int := 300000
  deriving DecidableEq

def Settings.ofEnvironment (maxSize ttl : Option String) : Except SettingError Settings := do
  if maxSize.any holdsNull || ttl.any holdsNull then throw .embeddedNull
  let defaults : Settings := {}
  let maxSize ← readInteger "EDGE_ANALYZER_CACHE_MAX_SIZE" defaults.maxSize maxSize
  let ttl ← readInteger "EDGE_ANALYZER_CACHE_TTL_MS" defaults.ttl ttl
  return { maxSize, ttl }

/-- Level names and their thresholds. -/
def levelNames : List (String × Nat) :=
  [("NOTSET", 0), ("DEBUG", 10), ("INFO", 20), ("WARN", 30), ("WARNING", 30), ("ERROR", 40),
    ("CRITICAL", 50), ("FATAL", 50)]

/-- Two names stand for the layout of log records and for the table of layouts, and not for a level. -/
inductive LevelError where
  | layout
  | layoutTable
  | embeddedNull
  deriving DecidableEq

def LevelError.message : LevelError → String
  | layout => "Unknown level: '%(levelname)s:%(name)s:%(message)s'"
  | layoutTable =>
    "Level not an integer or a valid string: \x7b" ++
      "'%': (<class 'logging.PercentStyle'>, '%(levelname)s:%(name)s:%(message)s'), " ++
      "'\x7b': (<class 'logging.StrFormatStyle'>, '\x7blevelname\x7d:\x7bname\x7d:\x7bmessage\x7d'), " ++
      "'$': (<class 'logging.StringTemplateStyle'>, '$\x7blevelname\x7d:$\x7bname\x7d:$\x7bmessage\x7d')\x7d"
  | embeddedNull => embeddedNullMessage

/-- The threshold of the log, in any case of letters; a name that is not known counts as a warning. -/
def logThreshold (value : Option String) : Except LevelError Nat :=
  if value.any holdsNull then .error .embeddedNull
  else
    match value.map asciiUpperCase with
    | some "BASIC_FORMAT" => .error .layout
    | some "_STYLES" => .error .layoutTable
    | some name => .ok ((List.lookup name levelNames).getD 30)
    | none => .ok 30

end EdgeTemplate
