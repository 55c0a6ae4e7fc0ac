import Bytecode.Listing
import Bytecode.Machine.Run

set_option autoImplicit false

/-!
# The command line

`CommandLine.parse?` turns arguments into a request; it reads them from left to right
and stops at the first one that is wrong or settles the matter.  `Options.answer` says
what the program writes, and its exit status, once the file has been read.
-/

namespace Bytecode.CommandLine

/-- The name the program goes by. -/
def programName : String := "opcrab"

def version : String := "0.0.1"

/-- The environment variable that sets the call limit where no option does. -/
def limitVariable : String := "OPCRAB_MAX_CALL_DEPTH"

/-! ## Arguments -/

/-- How a program is to be run. -/
structure Options where
  /-- The path of the listing. -/
  listing : String
  /-- Whether the value of the program is printed, unless it is `None`. -/
  printResult : Bool
  config : Config
deriving DecidableEq, Repr

/-- What a command line asks for. -/
inductive Request where
  | run (options : Options)
  | version
  | help
deriving DecidableEq, Repr

/-- What the arguments so far have set. -/
structure Seen where
  listing : Option String
  printResult : Bool
  config : Option Config

namespace Seen

def nothing : Seen := ⟨none, false, none⟩

/-- The path of the listing is given once, and is not empty. -/
def withListing? (seen : Seen) (path : String) : Option Seen :=
  if seen.listing.isSome || path.isEmpty then none
  else some { seen with listing := some path }

/-- The flag is given at most once. -/
def withPrintResult? (seen : Seen) : Option Seen :=
  if seen.printResult then none else some { seen with printResult := true }

end Seen

/-- Settings with the call limit that a text stands for. -/
def parseLimit? (text : String) : Option Config :=
  match Text.readUnsigned? text.toList with
  | some limit => (Config.ofCallLimit limit).toOption
  | none => none

/-- The limit is given at most once. -/
def Seen.withLimit? (seen : Seen) (text : String) : Option Seen :=
  if seen.config.isSome then none
  else (parseLimit? text).map fun config => { seen with config := some config }

/-- The option that sets the call limit, with an equals sign behind it. -/
def limitAssignment : List Char := "--max-call-depth=".toList

/-- The value in an argument that assigns the call limit. -/
def assignedLimit? (arg : String) : Option String :=
  if limitAssignment.isPrefixOf arg.toList then
    some (String.ofList (arg.toList.drop limitAssignment.length))
  else none

/-- What a cluster of letters behind a single dash asks for: only the first one counts. -/
def ofLetters? : List Char → Option Request
  | 'V' :: _ => some .version
  | 'h' :: _ => some .help
  | _ => none

/-- What arguments that are all paths set. -/
def readPaths? (seen : Seen) (args : List String) : Option Seen :=
  args.foldlM Seen.withListing? seen

/-- What the arguments ask for at once, or else what they set. -/
def readArguments? : Seen → List String → Option (Request ⊕ Seen)
  | seen, [] => some (.inr seen)
  | seen, "--" :: rest => (readPaths? seen rest).map .inr
  | _, "--version" :: _ => some (.inl .version)
  | _, "--help" :: _ => some (.inl .help)
  | seen, "--print-result" :: rest => do readArguments? (← seen.withPrintResult?) rest
  | _, ["--max-call-depth"] => none
  | seen, "--max-call-depth" :: value :: rest =>
    if value.toList.head? = some '-' then none
    else do readArguments? (← seen.withLimit? value) rest
  | seen, arg :: rest =>
    match assignedLimit? arg with
    | some value => do readArguments? (← seen.withLimit? value) rest
    | none =>
      match arg.toList with
      | '-' :: '-' :: _ => none
      | '-' :: letter :: letters => (ofLetters? (letter :: letters)).map .inl
      | _ => do readArguments? (← seen.withListing? arg) rest

/-- The settings in effect: those of an option, else those of the environment. -/
def chooseConfig? (option : Option Config) (ambient? : Option String) : Option Config :=
  match option, ambient? with
  | some config, _ => some config
  | none, some text => parseLimit? text
  | none, none => some .standard

/-- What the command line asks for; nothing if it is wrong. -/
def parse? (args : List String) (ambient? : Option String) : Option Request := do
  match ← readArguments? .nothing args with
  | .inl request => return request
  | .inr seen =>
    let config ← chooseConfig? seen.config ambient?
    return .run ⟨← seen.listing, seen.printResult, config⟩

/-! ## Answers -/

/-- Why a file cannot be read as text. -/
inductive ReadFault where
  | notFound
  | notDirectory
  | isDirectory
  | notText
  | other (text : String)
deriving DecidableEq, Repr, Inhabited

/-- The fault in words. -/
def ReadFault.phrase : ReadFault → String
  | notFound => "No such file or directory (os error 2)"
  | notDirectory => "Not a directory (os error 20)"
  | isDirectory => "Is a directory (os error 21)"
  | notText => "stream did not contain valid UTF-8"
  | other text => text

/-- Why there is no program to run. -/
inductive StartFault where
  | unreadable (fault : ReadFault)
  | invalid (fault : LoadFault)
deriving DecidableEq, Repr, Inhabited

/-- The program that the bytes of a file describe. -/
def loadBytes (bytes : ByteArray) : Except StartFault Code :=
  match String.fromUTF8? bytes with
  | some text => (Code.load text).mapError .invalid
  | none => .error (.unreadable .notText)

/-- What the program leaves behind. -/
structure Answer where
  exitCode : UInt32
  stdout : Array UInt8
  stderr : String

namespace Answer

def success (stdout : Array UInt8) : Answer :=
  ⟨0, stdout, ""⟩

/-- A failure that is not the fault of a program. -/
def failure (text : String) : Answer :=
  ⟨1, #[], "error: " ++ text ++ "\n"⟩

/-- A failure by a fault, after what had been written. -/
def fault (stdout : Array UInt8) (category : Category) (text : String) : Answer :=
  ⟨1, stdout, "error[" ++ category.name ++ "]: " ++ text ++ "\n"⟩

def usage : Answer :=
  ⟨2, #[], "usage: " ++ programName ++ " [--print-result] [--max-call-depth DEPTH] LISTING\n"⟩

def version : Answer :=
  success (utf8Bytes (programName ++ " " ++ CommandLine.version ++ "\n")).toArray

def help : Answer :=
  success (utf8Bytes usage.stderr).toArray

end Answer

/-- What is printed of the value of a program. -/
def resultLine (v : Value) : List UInt8 :=
  match v with
  | .none => []
  | _ => utf8Bytes (v.repr ++ "\n")

/-- The answer to the end of a run. -/
def Options.report (options : Options) : Outcome → Answer
  | .ok v e =>
    .success (if options.printResult then e.sink.written ++ resultLine v else e.sink.written)
  | .error fault e => .fault e.sink.written fault.category fault.message

/-- The answer to a request to run a program that has been loaded, or could not be. -/
def Options.answer (options : Options) (fuel : Nat) : Except StartFault Code → Option Answer
  | .error (.unreadable fault) =>
    some (.failure ("Failed to read listing " ++ options.listing ++ ": " ++ fault.phrase))
  | .error (.invalid fault) =>
    let text := "Invalid listing " ++ options.listing ++ ": " ++ fault.message
    match fault with
    | .unreadable => some (.failure text)
    | .unbuildable cause => some (.fault #[] cause.category text)
  | .ok code => (Engine.run fuel code (.fresh options.config .unlimited)).map options.report

end Bytecode.CommandLine
