import ActorOwnership.Command.Frontend
import ActorOwnership.Command.Settings
import ActorOwnership.Report.Json
import ActorOwnership.Report.Sarif
import ActorOwnership.Report.Text

/-! The command: arguments and files in, output and files out. -/

namespace ActorOwnership
set_option autoImplicit false

/-- What a finished command leaves behind. -/
structure Completion where
  exit : Nat
  stdout : String := ""
  stderr : String := ""
  files : Files

namespace Settings

def scanner (x : Settings) : Except CommandError Scanner :=
  (Scanner.forLanguage x.language x.givesUp "gives-up" x.verbose).mapError .language

/-- The scans of the target: one file, or the files of a directory. -/
def scans (x : Settings) (files : Files) : Except CommandError (List Scan) := do
  let s ← x.scanner
  let p := Path.ofText x.target
  if files.hasFile p then
    return [← (s.scanFile files p.render).mapError .file]
  else s.scanDirectory files p.render x.pattern

/-- The reports to be written, one after the other. -/
def reports (x : Settings) (results : List ScanResult) : List String :=
  match x.format with
  | .text => results.map Report.text
  | .json => [Report.json results]
  | .sarif => [Report.sarif results]

/-- Adds texts to the end of a file. -/
def appendAll (files : Files) (path : String) : List String → Except FileError Files
  | [] => .ok files
  | s :: rest => do appendAll (← files.write path s true) path rest

/-- Writes the reports to a file. A report in text is added to a file that is emptied first. -/
def writeReports (x : Settings) (files : Files) (reports : List String) :
    Except FileError Files := do
  match x.format with
  | .text =>
    let files ← files.write (Path.ofText x.output).render "" false
    appendAll files x.output reports
  | _ => files.write x.output (String.join reports) false

def run (x : Settings) (files : Files) : Except CommandError Completion := do
  if (files.find? (Path.ofText x.target)).isNone then
    return { exit := 1, stderr := "Error: Target not found: " ++ x.target ++ "\n", files }
  let scans ← x.scans files
  let log := (scans.flatMap Scan.log).map (· ++ "\n")
  let results := scans.map Scan.result
  let exit := if Report.fails results x.failOn then 1 else 0
  if results.isEmpty then
    return { exit := 1, stdout := String.join log, stderr := "No files found to scan.\n", files }
  else if x.output = "" then
    return { exit, stdout := String.join (log ++ (x.reports results).map (· ++ "\n")), files }
  else
    let files ← (x.writeReports files (x.reports results)).mapError .file
    return { exit, stdout := String.join log, files }

end Settings

/-- How a command ends. -/
inductive Conclusion where
  | completed (c : Completion)
  /-- The help was asked for. -/
  | help
  | misuse (program message : String)
  | broken (error : CommandError)

namespace Conclusion

def usage : String :=
  "usage: handoff [-h] \x7bscan\x7d ...\n\n" ++
  "Handoff - find fields still in use after their value was given up\n\n" ++
  "handoff scan [-h] [-l LANGUAGE] [-p PATTERN] [-f FORMAT] [-o OUTPUT] [-j JOBS]\n" ++
  "             [--gives-up NAME:POS] [-v] [--fail-on \x7bany,none\x7d] target\n"

/-- Faulty arguments as a message. -/
def misuseLine (program message : String) : String := program ++ ": error: " ++ message

/-- The end of a request, given the files. -/
def ofRequest (files : Files) : Request → Conclusion
  | .overview => .completed { exit := 0, stdout := usage, files }
  | .help => .help
  | .misuse program message => .misuse program message
  | .scan settings =>
    match settings.run files with
    | .ok c => .completed c
    | .error e => .broken e

def ofArguments (files : Files) (args : List String) : Conclusion :=
  ofRequest files (Request.ofArguments args)

end Conclusion

end ActorOwnership
