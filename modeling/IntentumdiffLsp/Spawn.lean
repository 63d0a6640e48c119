import IntentumdiffLsp.Client
import IntentumdiffLsp.Foundations.Bindings
import IntentumdiffLsp.Foundations.UnixPath

/-!
How `connect_stdio` starts a server on a Unix system: the environment of the child, and
the command as it is found on the PATH.
-/

namespace IntentumdiffLsp.Spawn

open Foundations
open Foundations.Utf8
open Foundations.Text
open Foundations.UnixPath
open IntentumdiffLsp.Client

abbrev OsString := List UInt8

abbrev Environment := Bindings OsString OsString

/-- The separator of the entries of a PATH. -/
def colon : UInt8 := 0x3A

def pathName : OsString := encode "PATH".toList

def isPathKey (key : OsString) : Bool :=
  eqIgnoreAsciiCase (decodeLossy key) "PATH".toList

/-- Some entry is the directory, as paths are compared: by their components. -/
def already (prependDir : Path) (current : List Char) : Bool :=
  (current.splitOn ':').any fun part => components (encode part) = components prependDir

/-- The value is rebuilt from its text. -/
def joined (prependDir : Path) (value : OsString) : OsString :=
  let current := decodeLossy value
  if already prependDir current then value else prependDir ++ colon :: encode current

def envWithPathPrepend (env : Environment) (prependDir : Path) : Environment :=
  match found : env.first isPathKey with
  | some _ => env.modifyFirst isPathKey (joined prependDir)
  | none => env.push pathName prependDir (Bindings.not_mem_of_first found (by decide))

/-- What can be asked of the file system about a path. -/
structure FileSystem where
  isFile : Path → Bool
  isExecutable : Path → Bool

def whichOn (fs : FileSystem) (name pathValue : List Char) : Option Path :=
  let candidate := encode name
  if (components candidate).length > 1 then
    if fs.isFile candidate then some candidate else none
  else
    ((pathValue.splitOn ':').filter fun dir => !dir.isEmpty).findSome? fun dir =>
      let file := push (encode dir) (encode name)
      if fs.isFile file then some file else none

def resolveCommand (fs : FileSystem) (cmd : List (List Char)) (pathValue : List Char) :
    List (List Char) :=
  match cmd with
  | [] => []
  | first :: args =>
      match whichOn fs first pathValue with
      | none => first :: args
      | some resolved => decodeLossy resolved :: args

/-- The text of the first variable that is PATH up to case. -/
def searchPath (env : Environment) : List Char :=
  ((env.first isPathKey).map fun var => decodeLossy var.2).getD []

/-- A child as it is started, and the PATH on which its command was looked up. -/
structure Spawned where
  searched : List Char
  command : List (List Char)
  env : OsString → Option OsString

/-- The child inherits the variables that are not set for it. -/
def connectStdio (fs : FileSystem) (inherited : Environment) (command : List (List Char))
    (pathPrepend : Option Path) : Except LspError Spawned :=
  if command.isEmpty then .error (.connection "empty LSP server command")
  else
    let env :=
      match pathPrepend with
      | some dir => envWithPathPrepend inherited dir
      | none => inherited
    let pathValue := searchPath env
    .ok {
      searched := pathValue
      command := resolveCommand fs command pathValue
      env := fun name => (env.get name).or (inherited.get name) }

end IntentumdiffLsp.Spawn
