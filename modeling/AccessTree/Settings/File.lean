import AccessTree.Settings.Toml

/-!
Settings kept in a file. Reading the file can fail before there is a document to look at.
-/

namespace AccessTree

/-- Why no text could be read from a file. -/
inductive ReadFault where
  | notFound
  | isDirectory
  | nameTooLong
  | nulInPath
  | notUtf8
  deriving DecidableEq

namespace ReadFault

def message : ReadFault → String
  | notFound => "No such file or directory (os error 2)"
  | isDirectory => "Is a directory (os error 21)"
  | nameTooLong => "File name too long (os error 36)"
  | nulInPath => "file name contained an unexpected NUL byte"
  | notUtf8 => "stream did not contain valid UTF-8"

/-- Why a file cannot be read when the directory its path starts from is empty: only the names of
directories that are always there lead anywhere. A name has at most 255 bytes, a path 4095. -/
def ofMissing (path : String) : ReadFault :=
  if path.contains '\x00' then nulInPath
  else if 4096 ≤ path.utf8ByteSize then nameTooLong
  else
    match (Text.splitAll '/' path).find? fun part => part != "" && part != "." && part != ".." with
    | some part => if 255 < part.utf8ByteSize then nameTooLong else notFound
    | none => if path = "" then notFound else isDirectory

end ReadFault

inductive SettingsError where
  /-- The text is no TOML, or not that of settings. -/
  | malformed
  | unreadable (path : String) (fault : ReadFault)
  deriving DecidableEq

namespace SettingsError

/-- The text of an error; the wording of what is wrong inside a document is left open. -/
def message? : SettingsError → Option String
  | malformed => none
  | unreadable path fault =>
    some ("Failed to read collection config '" ++ path ++ "': " ++ fault.message)

end SettingsError

namespace Settings

def ofText (text : String) : Except SettingsError Settings :=
  match ofToml? text with
  | none => .error .malformed
  | some s => .ok s

/-- The settings that a file holds, given its bytes. -/
def ofBytes (path : String) (bytes : ByteArray) : Except SettingsError Settings :=
  match String.fromUTF8? bytes with
  | none => .error (.unreadable path .notUtf8)
  | some text => ofText text

/-- The settings in a file of an otherwise empty directory, or the fault of there being none. -/
def ofFile (path : String) (bytes? : Option ByteArray) : Except SettingsError Settings :=
  match bytes? with
  | none => .error (.unreadable path (.ofMissing path))
  | some bytes => ofBytes path bytes

end Settings

end AccessTree
