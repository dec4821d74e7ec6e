import CilMethod.Directory
import CilMethod.Image.Encoder
import CilMethod.Listing.Printer
import CilMethod.Listing.Reader

/-!
# The command line

The program reads a listing from a file, takes out the instructions whose labels it is told, prints
the result and, if asked, encodes it and prints the bytes. Arguments are read from left to right, so
the first one that cannot be accepted decides, unless the version or the help was asked for before.
-/

namespace CilMethod.CommandLine

/-- What a run is told to do. -/
structure Settings where
  /-- The path of the listing. -/
  input : String
  /-- The full name of the type that declares the method. -/
  declaringType : String
  methodName : String
  /-- A static method has no `this`. -/
  isStatic : Bool
  /-- The labels of the instructions to take out, in order. -/
  remove : List String
  /-- Also encode the body and print the bytes. -/
  encode : Bool
  deriving DecidableEq

/-- What the arguments ask for. -/
inductive Request where
  | run (settings : Settings)
  | version
  | help
  /-- the arguments make no sense -/
  | rejected
  deriving DecidableEq

/-! ## Arguments -/

/-- The arguments read so far. -/
structure Arguments where
  input : Option String := none
  declaringType : Option String := none
  methodName : Option String := none
  isStatic : Bool := false
  remove : List String := []
  encode : Bool := false

/-- What one argument is, seen alone. -/
inductive Argument where
  /-- an option by its name, with the value behind an equals sign -/
  | option (name : String) (value : Option String)
  /-- one-letter flags behind a single dash -/
  | letters (flags : List Char)
  /-- from here on nothing is an option -/
  | endOfOptions
  | positional (text : String)

def Argument.ofString (text : String) : Argument :=
  match text.toList with
  | ['-', '-'] => .endOfOptions
  | '-' :: '-' :: rest =>
    let name := String.ofList (rest.takeWhile (· != '='))
    match rest.dropWhile (· != '=') with
    | _ :: value => .option name (some (String.ofList value))
    | [] => .option name none
  | '-' :: c :: cs => .letters (c :: cs)
  | _ => .positional text

/-- Can a separate argument be the value of the option before it? Not if it looks like an option; a
single dash does not. -/
def isValue (text : String) : Bool :=
  match Argument.ofString text with
  | .positional _ => true
  | _ => false

/-- The options that take a value; all but one at most once. -/
def Arguments.setOption (a : Arguments) (name value : String) : Option Arguments :=
  match name with
  | "type" => if a.declaringType.isSome then none else some { a with declaringType := some value }
  | "method" => if a.methodName.isSome then none else some { a with methodName := some value }
  | "remove" => some { a with remove := a.remove ++ [value] }
  | _ => none

def takesValue (name : String) : Bool := name == "type" || name == "method" || name == "remove"

/-- The options that take no value, each at most once. -/
def Arguments.setFlag (a : Arguments) (name : String) : Option Arguments :=
  match name with
  | "static" => if a.isStatic then none else some { a with isStatic := true }
  | "encode" => if a.encode then none else some { a with encode := true }
  | _ => none

/-- There is one input. -/
def Arguments.setInput (a : Arguments) (text : String) : Option Arguments :=
  if a.input.isSome then none else some { a with input := some text }

/-- The request once all arguments are read; the input is required. -/
def Arguments.finish (a : Arguments) : Request :=
  match a.input with
  | none => .rejected
  | some input => .run
    { input
      declaringType := a.declaringType.getD "Program"
      methodName := a.methodName.getD "Main"
      isStatic := a.isStatic
      remove := a.remove
      encode := a.encode }

/-- Reads arguments none of which is an option. -/
def readPositionals (a : Arguments) : List String → Request
  | [] => a.finish
  | text :: rest =>
    match a.setInput text with
    | some a => readPositionals a rest
    | none => .rejected

/-- Reads arguments from left to right. -/
def readArguments (a : Arguments) : List String → Request
  | [] => a.finish
  | text :: rest =>
    match Argument.ofString text with
    | .endOfOptions => readPositionals a rest
    | .positional text =>
      match a.setInput text with
      | some a => readArguments a rest
      | none => .rejected
    | .letters ('V' :: _) => .version
    | .letters ('h' :: _) => .help
    | .letters _ => .rejected
    | .option "version" none => .version
    | .option "help" none => .help
    | .option name (some value) =>
      match a.setOption name value with
      | some a => readArguments a rest
      | none => .rejected
    | .option name none =>
      if takesValue name then
        match rest with
        | value :: rest =>
          if isValue value then
            match a.setOption name value with
            | some a => readArguments a rest
            | none => .rejected
          else .rejected
        | [] => .rejected
      else
        match a.setFlag name with
        | some a => readArguments a rest
        | none => .rejected

/-- What a list of arguments asks for. -/
def request (arguments : List String) : Request := readArguments {} arguments

/-! ## Running -/

/-- What a run leaves behind: the exit code and the texts on its two outputs. -/
structure Completed where
  code : UInt8
  stdout : String := ""
  stderr : String := ""
  deriving DecidableEq

/-- A run that failed after printing something. -/
def failed (stdout report : String) : Completed :=
  { code := 1, stdout, stderr := "Error: " ++ report ++ "\n" }

/-- A run that broke off after printing something. What the runtime reports then is left out. -/
def aborted (stdout : String) : Completed := { code := 101, stdout }

/-- Bytes as pairs of hexadecimal digits with blanks between them. -/
def hexBytes (bytes : Array UInt8) : String :=
  " ".intercalate (bytes.toList.map fun b => String.ofList (Text.hexadecimal 2 b.toNat))

/-- The lines that show an encoded body and the literals it uses. -/
def imageLines (sections : Sections) (strings : UserStrings) : List String :=
  ["// code       " ++ hexBytes sections.code,
    "// handlers   " ++ hexBytes sections.handlers,
    "// locals     " ++ hexBytes sections.locals,
    "// signature  " ++ hexBytes sections.signature] ++
    (strings.entries.toList.zipIdx 1).map fun (s, row) =>
      "// string " ++ String.ofList (Text.decimal row) ++ "   " ++ Text.quoted s

/-- Takes out the instructions with these labels, one after the other. -/
def removeAll : List String → EStateM ListingError Listing Unit
  | [] => return
  | label :: labels => do
    discard <| Listing.remove label
    removeAll labels

/-- The method that a listing is the body of, in a graph that has the core types. -/
def Settings.method (s : Settings) : MethodDef × TypeGraph :=
  let (core, g) := TypeGraph.empty.addCore
  let (nameSpace, name) := splitFullName s.declaringType
  let (declaring, g) := g.add { nameSpace, name, base := some core.object }
  let access := MethodAttributes.publicAccess
  let attributes := if s.isStatic then access.union .staticMethod else access
  let m : MethodDef := { declaringType := some declaring, name := s.methodName, attributes }
  (m, (g.addMethod m).2)

/-- Prints a listing and, if asked, its encoding. The listing is printed before it is encoded, so it
stays when the encoding fails. -/
def present (encode : Bool) (g : TypeGraph) (l : Listing) : Completed :=
  let printed := l.print g
  if encode then
    match l.body.computeHeader (Image.encode g) {} with
    | (.error (.fault e), _, _) => failed printed (ListingError.body e).report
    | (.error .abort, _, _) => aborted printed
    | (.ok _, strings, body) =>
      let lines := imageLines body.sections strings
      { code := 0, stdout := printed ++ String.join (lines.map (· ++ "\n")) }
  else { code := 0, stdout := printed }

/-- Runs on the text of a listing. -/
def runText (s : Settings) (source : String) : Completed :=
  let (method, g) := s.method
  match Listing.read source method g with
  | (.error e, _) => failed "" e.report
  | (.ok l, g) =>
    match (removeAll s.remove).run l with
    | .error e _ => failed "" e.report
    | .ok _ l => present s.encode g l

/-- Runs on what reading the input gave. -/
def run (s : Settings) (contents : Except FileFault ByteArray) : Completed :=
  match contents with
  | .error fault => failed "" fault.report
  | .ok bytes =>
    match String.fromUTF8? bytes with
    | some source => runText s source
    | none => failed "" FileFault.notText.report

def versionText : String := "IL method body editor 0.1.0\n"

def helpText : String :=
  "Lays out a textual IL listing as an editable method body\n\n" ++
  "Usage: cilmethod [OPTIONS] <INPUT>\n\n" ++
  "Arguments:\n" ++
  "  <INPUT>  Sets the input IL listing to use\n\n" ++
  "Options:\n" ++
  "      --type <TYPE_NAME>      Full name of the declaring type [default: Program]\n" ++
  "      --method <METHOD_NAME>  Name of the method [default: Main]\n" ++
  "      --static                Treat the method as static (no `this` parameter)\n" ++
  "      --remove <LABEL>        Remove the instruction with this label (can be repeated)\n" ++
  "      --encode                Encode the body and print the bytes\n" ++
  "  -h, --help                  Print help\n" ++
  "  -V, --version               Print version\n"

/-- Answers a request; only a run needs the contents of its input. -/
def complete (r : Request) (contents : String → Except FileFault ByteArray) : Completed :=
  match r with
  | .run settings => run settings (contents settings.input)
  | .version => { code := 0, stdout := versionText }
  | .help => { code := 0, stdout := helpText }
  | .rejected =>
    { code := 2, stderr := "error: invalid arguments\n\nFor more information, try '--help'.\n" }

end CilMethod.CommandLine
