import RevisionGraph.Command.Basic
import RevisionGraph.Store.Disk
import RevisionGraph.Store.Exchange

/-!
# Running a command

`Report.ofArguments` is what a command line prints and leaves behind, as a function of the files
that it finds. It ends with 0, with 1 where the command fails, and with 2 where the settings or the
arguments are wrong.
-/

namespace RevisionGraph

/-- What a command prints, the files after it, and why it fails, if it does. -/
structure Run where
  lines : List String
  files : Files
  failures : List Failure

structure Report where
  code : UInt8
  lines : List String
  messages : List String
  files : Files

namespace Run

def ended (lines : List String) (f : Files) : Run := ⟨lines, f, []⟩

def failed (f : Files) (failure : Failure) : Run := ⟨[], f, [failure]⟩

def ofTask (f : Files) (task : FileTask (List String)) : Run :=
  match task.run.run f with
  | (.ok lines, f) => ended lines f
  | (.error failure, f) => failed f failure

def inspect (f : Files) (paths : List String) : Run :=
  (f.loadMany paths).foldl
    (fun run (path, result) =>
      match result with
      | .ok r => { run with lines := run.lines ++ [path ++ ": " ++ (Summary.ofRevision r).text] }
      | .error failure => { run with failures := run.failures ++ [failure] })
    (ended [] f)

def validate (f : Files) (paths : List String) : Run :=
  paths.foldl
    (fun run path =>
      match f.validate path with
      | .ok summary =>
        { run with lines := run.lines ++ ["ok: " ++ path ++ " (" ++ summary.uri ++ ")"] }
      | .error failure =>
        { run with
          lines := run.lines ++ ["FAILED: " ++ path ++ ": " ++ failure.message]
          failures := run.failures ++ [failure] })
    (ended [] f)

def written (output : String) : String := "Output written to " ++ output

def convert (f : Files) (format : Format) (input output : String) : Run :=
  ofTask f do
    discard (Files.convert format input output)
    return [written output]

def assemble (f : Files) (pretty : Bool) (facts output : String) : Run :=
  ofTask f do return [(← Files.assemble pretty facts output).text]

def notInStore (uri : String) : Failure := .plain ("Not in store: " ++ uri)

/-- Runs a store command on an open store, and gives the store after it. -/
def onStore (f : Files) (s : DiskStore) (pretty : Bool) : StoreCommand → DiskStore × Run
  | .put paths =>
    match RevisionStore.putFiles f s paths with
    | (.ok keys, s) => (s, ended keys f)
    | (.error failure, s) => (s, failed f failure)
  | .get uri output prettyGiven =>
    (s, ofTask f do
      if ← RevisionStore.exportStored s uri (.json (prettyGiven || pretty)) output then
        return [written output]
      else throw (notInStore uri))
  | .list =>
    (s, ofTask f do
      return (← FileTask.look fun _ => RevisionStore.list s).map Summary.text)
  | .remove uri =>
    match RevisionStore.remove s uri with
    | (true, s) => (s, ended [] f)
    | (false, s) => (s, failed f (notInStore uri))

def store (f : Files) (settings : Settings) (folder : Option String) (command : StoreCommand) :
    Run :=
  match folder.or settings.storePath with
  | none => failed f (.plain "No store directory: pass --store or set store_path")
  | some folder =>
    match (DiskStore.load folder).run.run f with
    | (.error failure, f) => failed f failure
    | (.ok s, f) =>
      let (s, run) := onStore f s settings.pretty command
      match (DiskStore.save folder s).run.run run.files with
      | (.ok (), files) => { run with files }
      | (.error failure, files) => { run with files, failures := run.failures ++ [failure] }

def ofCommand (f : Files) (settings : Settings) : Command → Run
  | .inspect paths => inspect f paths
  | .validate paths => validate f paths
  | .convert input output dot pretty =>
    convert f (if dot then .dot else .json (pretty || settings.pretty)) input output
  | .assemble facts output pretty => assemble f (pretty || settings.pretty) facts output
  | .store folder command => store f settings folder command

end Run

/-- The paths that a command may read or write. -/
def Command.paths (settings : Settings) : Command → List String
  | .inspect paths | .validate paths => paths
  | .convert input output _ _ => [input, output]
  | .assemble facts output _ => [facts, output]
  | .store folder command =>
    ((folder.or settings.storePath).map DiskStore.filePath).toList ++
      match command with
      | .put paths => paths
      | .get _ output _ => [output]
      | .list | .remove _ => []

namespace Report

def versionLine : String := "revcg 0.1.0"

def helpLine : String := "Usage: revcg [OPTIONS] <inspect|validate|convert|assemble|store>"

def ofStop (f : Files) : Stop → Report
  | .usage => ⟨2, [], [helpLine], f⟩
  | .help => ⟨0, [helpLine], [], f⟩
  | .version => ⟨0, [versionLine], [], f⟩

def ofArguments (f : Files) (texts : List String) : Report :=
  match Invocation.parse texts with
  | .error stop => ofStop f stop
  | .ok invocation =>
    match Settings.resolve f invocation.config with
    | .error failure => ⟨2, [], ["error: " ++ failure.message], f⟩
    | .ok settings =>
      let run := Run.ofCommand f settings invocation.command
      ⟨if run.failures.isEmpty then 0 else 1, run.lines, run.failures.map Failure.message,
        run.files⟩

/-- All lines, each with its end. -/
def output (r : Report) : String := String.join (r.lines.map (· ++ "\n"))

end Report

end RevisionGraph
