import TermForest.CommandLine.Request
import TermForest.Display
import TermForest.Forest.Encoding
import TermForest.Format.Command
import TermForest.Format.Level
import TermForest.Format.Settings
import TermForest.Game

/-!
# Running a request

What a request prints, and why it fails if it does. What was printed before a failure stays printed.
-/

namespace TermForest

namespace Request

/-! ### Printing -/

/-- Computations that print and may fail. A failure is a chain of texts, each the cause of the one
before it. -/
abbrev Printing : Type → Type := ExceptT (List String) (StateM String)

/-- Prints a text. -/
def print (s : String) : Printing Unit := modify (· ++ s)

/-- Prints a line. -/
def printLine (s : String) : Printing Unit := print (s ++ "\n")

/-- Fails with a fault, which happened while doing what the texts say. -/
def orFail {α : Type} (doing : List String) : Except Fault α → Printing α
  | .ok a => return a
  | .error fault => throw (doing ++ [fault.message])

/-! ### Files -/

/-- What the files hold; a file that cannot be read holds nothing. -/
abbrev Files : Type := String → Option String

/-- The levels of a file. -/
def loadLevels (files : Files) (path : String) : Printing LevelFile := do
  match files path with
  | none => throw ["Failed to read level file: " ++ path]
  | some content =>
    match LevelFile.parse? content with
    | none => throw ["Failed to parse level file: " ++ path, Fault.format.message]
    | some set => return set

/-- The settings of a file, or the usual ones. -/
def loadSettings (files : Files) : Option String → Printing Settings
  | none => return {}
  | some path => orFail ["Failed to load config: " ++ path] (Settings.load (files path))

/-- The commands of a file. -/
def loadScript (files : Files) (path : String) : Printing (List Command) := do
  match files path with
  | none => throw ["Failed to read script: " ++ path]
  | some content =>
    match Command.parseScript? content with
    | none => throw ["Failed to parse script: " ++ path]
    | some commands => return commands

/-! ### The three requests -/

/-- Builds the levels one after the other with one supply of ids, and says how large they are. -/
def runCheck (files : Files) (path : String) : Printing Unit := do
  let set ← loadLevels files path
  if set.levels = [] then throw ["No levels in " ++ path]
  let _ ← (List.range set.levels.length).foldlM
    (fun next index => do
      let (result, next) := (set.load .standard index).runFrom next
      let s ← orFail [s!"Level {index} is invalid"] result
      printLine <| s!"Level {index}: {s.nodes.size} nodes, {s.board.length} on board, " ++
        s!"{s.toolbox.length} in toolbox"
      return next)
    (Supply.first 0)
  printLine s!"{set.levels.length} levels OK"

/-- Shows the four areas of a level as it starts. -/
def runShow (files : Files) (path : String) (level : Nat) : Printing Unit := do
  let set ← loadLevels files path
  let s ← orFail [] ((set.load .standard level).runFrom (Supply.first 0)).1
  printLine s!"Level {level}"
  let area (title : String) (roots : List NodeId) : Printing Unit := do
    let terms ← orFail [] (s.nodes.displayRoots roots)
    printLine (title ++ ":\n" ++ terms)
  area "board" s.board
  area "toolbox" s.toolbox
  area "defs" s.defs
  area "goal" s.goal

/-- Says what a command led to. -/
def report (session : Session State Move) (position : Nat) (c : Command) : Printing Unit := do
  let s := session.present
  printLine (s!"[{position}] " ++ c.toJson.compact ++ " -> " ++ s.mode.name)
  print (← orFail [] (s.nodes.displayRoots s.board))
  if let some why := session.timeline.error then printLine ("  error: " ++ why.message)
  printLine ("  state: " ++ s.nodes.digest)

/-- Plays a script on a level, and says after each command what it led to. -/
def runPlay (files : Files) (path : String) (level : Nat) (script : String)
    (config : Option String) : Printing Unit := do
  let levels ← loadLevels files path
  let settings ← loadSettings files config
  let commands ← loadScript files script
  let game : Game := { levels, settings }
  let session ← orFail [] (game.start level)
  let _ ← commands.zipIdx.foldlM
    (fun session (c, position) => do
      let (session, fault) := session.perform (.command c)
      if let some fault := fault then throw [fault.message]
      report session position c
      return session)
    session

/-! ### Outcomes -/

/-- How a run of the program ends. -/
structure Outcome where
  exit : Nat
  /-- What was printed. -/
  output : String := ""
  /-- Why the run failed, each text the cause of the one before it. -/
  chain : List String := []
  deriving DecidableEq, Repr

/-- Does what is asked for. -/
def run (files : Files) (r : Request) : Outcome :=
  let printing :=
    match r with
    | .check levels => runCheck files levels
    | .show levels level => runShow files levels level
    | .play levels level script config => runPlay files levels level script config
  match printing.run.run "" with
  | (.ok (), output) => { exit := 0, output }
  | (.error chain, output) => { exit := 1, output, chain }

/-- The outcome of a command line. -/
def runWords (files : Files) (words : List String) : Outcome :=
  match parse words with
  | .ok r => r.run files
  | .error .help => { exit := 0 }
  | .error .usage => { exit := 2 }

end Request

end TermForest
