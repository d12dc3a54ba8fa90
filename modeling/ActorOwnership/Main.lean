import ActorOwnership.Command.Run

/-! The command line. The files that a request needs are read into a tree, the request is carried out
on that tree, and what it writes is written back. -/

open ActorOwnership

/-- Reads a file, or a directory with all in it that can be read. -/
partial def loadEntry (path : String) : IO FileTree := do
  let real ← IO.FS.realPath path
  if ← real.isDir then
    let entries ← (← real.readDir).toList.filterMapM fun e => do
      try
        return some (e.fileName, ← loadEntry (path ++ "/" ++ e.fileName))
      catch _ => return none
    return .directory entries
  else return .file (← IO.FS.readBinFile path).toList

/-- Adds what stands at a path, if anything does. -/
def loadInto (fs : Files) (path : String) : IO Files := do
  try
    return fs.put (Path.ofText path) (← loadEntry path)
  catch _ => return fs

/-- Adds the directory that an output path lies in, as an empty one. -/
def loadParent (fs : Files) (path : String) : IO Files := do
  let p := Path.ofText path
  let parent := { p with parts := p.parts.dropLast }
  try
    if ← (← IO.FS.realPath parent.render).isDir then return fs.makeDirectory parent
    else return fs
  catch _ => return fs

/-- The files that a request reads or writes. -/
def loadFor : Request → IO Files
  | .scan x => do loadParent (← loadInto {} (Path.ofText x.target).render) x.output
  | _ => return {}

/-- Writes the output file of a request. -/
def store (c : Completion) : Request → IO Unit
  | .scan x => do
    match if x.output = "" then none else c.files.find? (Path.ofText x.output) with
    | some (.file octets) => IO.FS.writeBinFile x.output ⟨octets.toArray⟩
    | _ => return
  | _ => return

def main (args : List String) : IO UInt32 := do
  let request := Request.ofArguments args
  match Conclusion.ofRequest (← loadFor request) request with
  | .help =>
    IO.print Conclusion.usage
    return 0
  | .misuse program message =>
    IO.eprintln (Conclusion.misuseLine program message)
    return 2
  | .broken e =>
    IO.eprintln e.message
    return 1
  | .completed c =>
    store c request
    IO.print c.stdout
    IO.eprint c.stderr
    return UInt32.ofNat c.exit
