import ActorOwnership.Files.Pattern
import ActorOwnership.Files.Tree

/-! Patterns for paths: a pattern for each component, and two stars for any number of directories. -/

namespace ActorOwnership
set_option autoImplicit false

inductive GlobError where
  | empty
  | anchored
  /-- The pattern has no components. -/
  | noParts
  | mixedStars
  deriving DecidableEq, Repr

def GlobError.message : GlobError → String
  | .empty => "Unacceptable pattern: ''"
  | .anchored => "Non-relative patterns are unsupported"
  | .noParts => "tuple index out of range"
  | .mixedStars => "Invalid pattern: '**' can only be an entire path component"

/-- One component of a pattern. -/
inductive GlobPart where
  | name (text : String)
  | wild (items : List PatternItem)
  | anyDepth
  deriving DecidableEq, Repr, Inhabited

/-- The components, and whether only directories match. -/
structure Glob where
  parts : List GlobPart
  directoriesOnly : Bool
  deriving Repr, Inhabited

namespace Glob

def hasDoubleStar : List Char → Bool
  | '*' :: '*' :: _ => true
  | _ :: cs => hasDoubleStar cs
  | [] => false

def partOf (s : String) : Except GlobError GlobPart :=
  if s = "**" then .ok .anyDepth
  else if hasDoubleStar s.toList then .error .mixedStars
  else if s.toList.any fun c => c = '*' || c = '?' || c = '[' then .ok (.wild (PatternItem.parse s))
  else .ok (.name s)

def ofText (s : String) : Except GlobError Glob :=
  let p := Path.ofText s
  let slash := s.toList.getLast? = some '/'
  if s = "" then .error .empty
  else if p.anchor ≠ "" then .error .anchored
  else if p.parts.isEmpty then .error .noParts
  else (p.parts.mapM partOf).map fun ps => ⟨ps, slash⟩

mutual

/-- The directories at and below a tree, by the names that lead to them. -/
def directories : FileTree → List (List String)
  | .file _ => []
  | .directory es => [] :: directoriesAmong es

def directoriesAmong : List (String × FileTree) → List (List String)
  | [] => []
  | (name, t) :: es => (directories t).map (name :: ·) ++ directoriesAmong es

end

/-- The paths that match the components, from a directory on. All but the last component, and with
`strict` that one too, must be directories. -/
def select (fs : Files) (strict : Bool) : List GlobPart → Path → List Path
  | [], p => [p]
  | .name s :: rest, p =>
    let q := p.child s
    let fits := if rest.isEmpty && !strict then (fs.find? q).isSome else fs.hasDirectory q
    if fits then select fs strict rest q else []
  | .wild items :: rest, p =>
    let es := ((fs.find? p).map FileTree.entries).getD []
    (es.filter fun e => PatternItem.matchAll items e.1.toList &&
      ((rest.isEmpty && !strict) || e.2.isDirectory)).flatMap fun e => select fs strict rest (p.child e.1)
  | .anyDepth :: rest, p =>
    let below := ((fs.find? p).map directories).getD []
    distinct (below.flatMap fun names => select fs strict rest { p with parts := p.parts ++ names })

/-- All paths that match in a directory. -/
def paths (g : Glob) (fs : Files) (p : Path) : List Path :=
  if fs.hasDirectory p then select fs g.directoriesOnly g.parts p else []

end Glob

end ActorOwnership
