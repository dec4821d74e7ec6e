import CilMethod.Text.Blank
import CilMethod.Text.Quoted

/-!
# Files by path

Why an input cannot be read, and what a path leads to in a directory of files. A path is walked part
by part from the left, so the first part that leads nowhere gives the reason: behind a file there is
no directory, whatever the next part says, and an overlong name is refused where it is looked up.
-/

namespace CilMethod

/-- Why an input could not be read. -/
inductive FileFault where
  | notFound
  | permissionDenied
  | notADirectory
  | isADirectory
  | nameTooLong
  /-- any other refusal, with the system's number and text for it -/
  | other (code : Nat) (message : String)
  /-- the bytes are not text -/
  | notText
  deriving DecidableEq

/-- The full text of a fault, as a failing program reports it. -/
def FileFault.report : FileFault → String
  | notFound => refusal 2 "NotFound" "No such file or directory"
  | permissionDenied => refusal 13 "PermissionDenied" "Permission denied"
  | notADirectory => refusal 20 "NotADirectory" "Not a directory"
  | isADirectory => refusal 21 "IsADirectory" "Is a directory"
  | nameTooLong => refusal 36 "InvalidFilename" "File name too long"
  | other code message => refusal code "Uncategorized" message
  | notText =>
    "Io(Error \x7b kind: InvalidData, message: " ++
      Text.quoted "stream did not contain valid UTF-8" ++ " \x7d)"
where
  refusal (code : Nat) (kind message : String) : String :=
    "Io(Os \x7b code: " ++ String.ofList (Text.decimal code) ++ ", kind: " ++ kind ++
      ", message: " ++ Text.quoted message ++ " \x7d)"

/-- The directory that a program runs in, with the files it holds. -/
structure Directory where
  files : List (String × ByteArray)

namespace Directory

/-- Where a walk along a path has come to. -/
inductive Place where
  /-- the directory itself -/
  | inside
  /-- a directory above it, in which no file is known -/
  | above
  | file (contents : ByteArray)

/-- The longest name of a file, in bytes. -/
def maxName : Nat := 255

/-- The longest path, in bytes. -/
def maxPath : Nat := 4095

/-- What a name stands for in a directory. -/
def find (d : Directory) (p : Place) (name : String) : Except FileFault Place :=
  if maxName < name.utf8ByteSize then .error .nameTooLong
  else
    match p, d.files.lookup name with
    | .inside, some contents => .ok (.file contents)
    | _, _ => .error .notFound

/-- One part of a path. Nothing, not even the empty part behind a last slash, may follow a file. -/
def step (d : Directory) : Place → String → Except FileFault Place
  | .file _, _ => .error .notADirectory
  | p, "" => .ok p
  | p, "." => .ok p
  | _, ".." => .ok .above
  | p, name => d.find p name

/-- The contents of the file that a path leads to. -/
def read (d : Directory) (path : String) : Except FileFault ByteArray := do
  if path.isEmpty then throw .notFound
  if maxPath < path.utf8ByteSize then throw .nameTooLong
  let cs := path.toList
  let start := if cs.head? = some '/' then Place.above else .inside
  match ← ((Text.pieces (· == '/') cs).map String.ofList).foldlM d.step start with
  | .file contents => return contents
  | _ => throw .isADirectory

end Directory

end CilMethod
