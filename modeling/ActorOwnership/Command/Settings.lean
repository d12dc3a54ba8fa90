import ActorOwnership.Catalog
import ActorOwnership.Command.Arguments

/-! The settings of the scan command and the options that change them. -/

namespace ActorOwnership
set_option autoImplicit false

inductive Format where
  | text
  | json
  | sarif
  deriving DecidableEq, Repr, Inhabited

namespace Format

def names : List (String × Format) := [("text", .text), ("json", .json), ("sarif", .sarif)]

def ofName (s : String) : Format := (names.lookup s).getD .text

end Format

structure Settings where
  target : String := ""
  language : String := "python"
  pattern : String := "**/*.py"
  format : Format := .text
  output : String := ""
  jobs : Int := 1
  givesUp : List HandOffSpec := []
  verbose : Bool := false
  failOn : String := "any"

namespace Settings
open Arguments

def readJobs (s : String) (settings : Settings) : Except String Settings :=
  match Text.readInteger .decimal s with
  | .ok n => .ok { settings with jobs := n }
  | .error _ => .error ("invalid int value: " ++ Text.quoted s)

def readGivesUp (s : String) (settings : Settings) : Except String Settings :=
  match Catalog.readEntry s with
  | .ok spec => .ok { settings with givesUp := settings.givesUp ++ [spec] }
  | .error e => .error e.message

def options : List (Opt Settings) :=
  [⟨["-h", "--help"], .help⟩,
   ⟨["-l", "--language"], choice ["python"] fun s x => { x with language := s }⟩,
   ⟨["-p", "--pattern"], text fun s x => { x with pattern := s }⟩,
   ⟨["-f", "--format"], choice (Format.names.map Prod.fst)
     fun s x => { x with format := Format.ofName s }⟩,
   ⟨["-o", "--output"], text fun s x => { x with output := s }⟩,
   ⟨["-j", "--jobs"], .value readJobs⟩,
   ⟨["--gives-up"], .value readGivesUp⟩,
   ⟨["-v", "--verbose"], .flag fun x => { x with verbose := true }⟩,
   ⟨["--fail-on"], choice ["any", "none"] fun s x => { x with failOn := s }⟩]

def scanInterface : Interface Settings := ⟨options, .single⟩

/-- The options before the command. -/
def mainInterface : Interface Unit := ⟨[⟨["-h", "--help"], .help⟩], .remainder⟩

end Settings

/-- What the arguments ask for, or why they are refused. -/
inductive Request where
  /-- Nothing is asked for, so the usage is shown. -/
  | overview
  | help
  | scan (settings : Settings)
  /-- Faulty arguments, with the part of the command that finds the fault. -/
  | misuse (program message : String)

namespace Request
open Arguments

def ofStop (program : String) : Stop → Request
  | .help => .help
  | .fault message => .misuse program message

/-- Words that fit nowhere are refused last. -/
def refuseExtras (extras : List String) (r : Request) : Request :=
  if extras.isEmpty then r
  else .misuse "handoff" ("unrecognized arguments: " ++ String.intercalate " " extras)

/-- The arguments of the scan command; `before` were left over in front of it. -/
def ofScanArguments (before args : List String) : Request :=
  match Settings.scanInterface.read {} args with
  | .error stop => ofStop "handoff scan" stop
  | .ok r =>
    match r.positional with
    | some (target :: _) =>
      refuseExtras (before ++ r.extras) (.scan { r.settings with target := target })
    | _ => .misuse "handoff scan" "the following arguments are required: target"

def ofArguments (args : List String) : Request :=
  match Settings.mainInterface.read () args with
  | .error stop => ofStop "handoff" stop
  | .ok r =>
    match r.positional with
    | some ("scan" :: rest) => ofScanArguments r.extras rest
    | some (command :: _) =>
      .misuse "handoff" ("argument command: invalid choice: " ++ Text.quoted command ++
        " (choose from 'scan')")
    | _ => refuseExtras r.extras .overview

end Request

end ActorOwnership
