import UtilityCss.Build
import UtilityCss.Standard

namespace UtilityCss.Machine

def pathOf (l : Location) : String := "/" ++ "/".intercalate l

/-- The location of an absolute path that goes by names alone. -/
def locationOf (path : String) : Location :=
  ((Path.parts path).filter (!·.isEmpty)).map String.ofList

/-- What may stand in the directories above a site and bear on what is ignored there. -/
def marks : List Location :=
  [[".ignore"], [".gitignore"], [".jj"], [".git"], [".git", "info"], [".git", "info", "exclude"]]

/-- Adds what stands at a location of the machine to a tree, if anything does. -/
def readEntry (t : FileTree) (l : Location) : IO FileTree := do
  let path := (← IO.currentDir) / pathOf l
  if ← path.isDir then return t.put l .directory
  else if ← path.pathExists then return t.put l (.file (← IO.FS.readBinFile path))
  else return t

/-- Adds what stands below a directory of the machine to a tree. -/
partial def readBelow (t : FileTree) (l : Location) : IO FileTree := do
  let entries ← ((← IO.currentDir) / pathOf l).readDir
  entries.toList.foldlM (fun t entry => do
    let here := l ++ [entry.fileName]
    let t ← readEntry t here
    if t.isDirectory here then readBelow t here else return t) t

/-- Adds what a path of the machine leads to, and the directories on the way. -/
def readFrom (t : FileTree) (path : String) : IO FileTree := do
  let whole := (← IO.currentDir) / path
  let there ← whole.pathExists
  let nearest ← ((Path.ancestors path).filter (!·.isEmpty)).filterM fun (p : String) => do
    ((← IO.currentDir) / p).pathExists
  let here := locationOf (← IO.FS.realPath (nearest.headD ".")).toString
  let above := (List.range here.length).map fun n => here.take (n + 1)
  let t ← (above ++ above.flatMap fun d => marks.map (d ++ ·)).foldlM readEntry t
  if there && t.isDirectory here then readBelow t here else return t

/-- The files that a command line has to do with: those in the working directory, beside its config, and
where its sheets go. -/
def readSite (c : CommandLine) : IO FileTree := do
  let home := locationOf (← IO.FS.realPath ".").toString
  let t ← [".", Settings.baseOf c.arguments.config].foldlM readFrom { home }
  match Settings.find Libraries.standard.toml t c.arguments with
  | .error _ => return t
  | .ok s => readFrom t s.outputDirectory

/-- Writes what a run has added or changed. -/
def writeChanges (before after : FileTree) : IO Unit :=
  for (l, entry) in after.entries do
    match entry, before.find? l with
    | .directory, none => IO.FS.createDirAll (pathOf l)
    | .file content, some (.file old) => if content != old then IO.FS.writeBinFile (pathOf l) content
    | .file content, _ => IO.FS.writeBinFile (pathOf l) content
    | .directory, some _ => pure ()

/-- Diagnostics down to a level that the verbosity sets. -/
def report (verbosity : Nat) (diagnostics : List Diagnostic) : IO Unit :=
  for d in diagnostics do
    if d.severity ≠ .debug ∨ 0 < verbosity then IO.eprintln d.text

def perform (c : CommandLine) : IO UInt32 := do
  let before ← readSite c
  let outcome := c.run Libraries.standard before
  writeChanges before outcome.site
  report c.verbosity outcome.reported
  outcome.printed.forM IO.println
  match outcome.fault with
  | none => return 0
  | some fault =>
    IO.eprintln ("error: " ++ fault.message)
    return 1

/-- The contents of the files that a watch follows. -/
def sources (s : Settings) (t : FileTree) : List (Location × ByteArray) :=
  (t.below []).filter fun (l, _) =>
    (Watch.roots t s.pages s.base).any (Path.startsWith (pathOf l)) &&
      Watch.isSourceChange t .any [pathOf l] (t.canonical s.outputDirectory)

/-- Performs a command line again whenever a source has changed. -/
partial def follow (c : CommandLine) (s : Settings) (seen : List (Location × ByteArray)) : IO Unit := do
  IO.sleep 200
  let now := sources s (← readSite c)
  if now == seen then follow c s seen
  else
    let _ ← perform c
    follow c s now

end UtilityCss.Machine

open UtilityCss Machine

def main (arguments : List String) : IO UInt32 := do
  match CommandLine.ofArguments arguments with
  | .error fault =>
    IO.eprintln fault.message
    return if fault = .help ∨ fault = .version then 0 else 2
  | .ok c =>
    let code ← perform c
    if c.task = .watch ∧ code = 0 then
      let t ← readSite c
      if let .ok s := Settings.find Libraries.standard.toml t c.arguments then
        follow c s (sources s t)
    return code
