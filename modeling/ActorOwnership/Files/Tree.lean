import ActorOwnership.Collections
import ActorOwnership.Files.Path
import ActorOwnership.Text.Quoted
import ActorOwnership.Text.Utf8

/-! Trees of files and directories, and what goes wrong when a path is read or written. -/

namespace ActorOwnership
set_option autoImplicit false

inductive FileTree where
  | file (octets : List UInt8)
  | directory (entries : List (String × FileTree))
  deriving Inhabited

inductive FileError where
  | notFound (path : String)
  | notDirectory (path : String)
  | isDirectory (path : String)
  | undecodable (fault : Text.Utf8.Fault)
  deriving DecidableEq, Repr

namespace FileError

def faultPlace (f : Text.Utf8.Fault) : String :=
  if f.length = 1 then
    "byte 0x" ++ String.ofList (Text.hexDigits 2 f.octet.toNat) ++ " in position " ++
      toString f.start
  else "bytes in position " ++ toString f.start ++ "-" ++ toString (f.start + f.length - 1)

def message : FileError → String
  | .notFound path => "[Errno 2] No such file or directory: " ++ Text.quoted path
  | .notDirectory path => "[Errno 20] Not a directory: " ++ Text.quoted path
  | .isDirectory path => "[Errno 21] Is a directory: " ++ Text.quoted path
  | .undecodable f => "'utf-8' codec can't decode " ++ faultPlace f ++ ": " ++ f.reason.message

end FileError

namespace FileTree

def empty : FileTree := .directory []

def isDirectory : FileTree → Bool
  | .directory _ => true
  | .file _ => false

def isFile (t : FileTree) : Bool := !t.isDirectory

def entries : FileTree → List (String × FileTree)
  | .directory es => es
  | .file _ => []

/-! ### Following paths -/

/-- What a path leads to. -/
inductive Found where
  | tree (t : FileTree)
  | missing
  /-- A component is a file, but more components follow. -/
  | blocked

/-- Follows components; two dots lead back up, though not above the top. The directories on the way
are in `above`, the nearest first. -/
def follow (t : FileTree) (above : List FileTree) : List String → Found
  | [] => .tree t
  | part :: rest =>
    match t with
    | .file _ => .blocked
    | .directory es =>
      if part = ".." then
        match above with
        | [] => .missing
        | up :: above => follow up above rest
      else match es.lookup part with
        | some e => follow e (t :: above) rest
        | none => .missing

/-! ### Putting entries -/

/-- Puts an entry at a place, making directories on the way. -/
def put (entry : FileTree) : List String → FileTree → FileTree
  | [], _ => entry
  | part :: rest, t =>
    let below := (t.entries.lookup part).getD empty
    let new := put entry rest below
    .directory (updateEntry t.entries part new fun _ => new)

/-- The place that a path leads to, without two dots. -/
def place : List String → List String → List String
  | done, [] => done.reverse
  | done, part :: rest => if part = ".." then place done.tail rest else place (part :: done) rest

end FileTree

/-- Files by path: those below the working directory, and those that an anchored path leads to. -/
structure Files where
  here : FileTree := .empty
  top : FileTree := .empty
  deriving Inhabited

namespace Files
open FileTree (Found)

/-! ### Looking up -/

def find (fs : Files) (p : Path) : Found :=
  (if p.anchor = "" then fs.here else fs.top).follow [] p.parts

def find? (fs : Files) (p : Path) : Option FileTree :=
  match fs.find p with
  | .tree e => some e
  | _ => none

def hasDirectory (fs : Files) (p : Path) : Bool := (fs.find? p).any FileTree.isDirectory

def hasFile (fs : Files) (p : Path) : Bool := (fs.find? p).any FileTree.isFile

/-- Puts an entry at a path. -/
def put (fs : Files) (p : Path) (entry : FileTree) : Files :=
  let parts := FileTree.place [] p.parts
  if p.anchor = "" then { fs with here := FileTree.put entry parts fs.here }
  else { fs with top := FileTree.put entry parts fs.top }

/-- Makes sure that there is a directory at a path. -/
def makeDirectory (fs : Files) (p : Path) : Files :=
  if fs.hasDirectory p then fs else fs.put p .empty

/-! ### Reading and writing -/

/-- Every line end becomes a line feed. -/
def lineFeeds : List Char → List Char
  | [] => []
  | '\r' :: '\n' :: cs => '\n' :: lineFeeds cs
  | '\r' :: cs => '\n' :: lineFeeds cs
  | c :: cs => c :: lineFeeds cs

/-- The text of a file. -/
def readText (fs : Files) (p : Path) : Except FileError String :=
  match fs.find p with
  | .missing => .error (.notFound p.render)
  | .blocked => .error (.notDirectory p.render)
  | .tree (.directory _) => .error (.isDirectory p.render)
  | .tree (.file octets) =>
    match Text.Utf8.decode octets with
    | .ok s => .ok (String.ofList (lineFeeds s.toList))
    | .error f => .error (.undecodable f)

/-- The octets at the path `text`, if a file can be written there. A path that ends in a slash names
a directory. -/
def writable (fs : Files) (text : String) : Except FileError (List UInt8) :=
  let p := Path.ofText text
  let slash := text.toList.getLast? = some '/'
  match fs.find { p with parts := p.parts.dropLast } with
  | .missing => .error (.notFound text)
  | .blocked | .tree (.file _) => .error (.notDirectory text)
  | .tree (.directory _) =>
    match fs.find p with
    | .tree (.directory _) => .error (.isDirectory text)
    | .tree (.file octets) => if slash then .error (.notDirectory text) else .ok octets
    | .blocked => .error (.notDirectory text)
    | .missing => if slash then .error (.isDirectory text) else .ok []

/-- Writes a file, or adds to its end. -/
def write (fs : Files) (text content : String) (append : Bool) : Except FileError Files :=
  (fs.writable text).map fun old =>
    fs.put (Path.ofText text) (.file ((if append then old else []) ++ content.toUTF8.toList))

end Files

end ActorOwnership
