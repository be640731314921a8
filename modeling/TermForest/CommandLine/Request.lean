/-!
# Requests of the command line

What the words of a command line ask for. Options may stand before or after the level file; each is
given at most once.
-/

namespace TermForest

/-- What is to be done. -/
inductive Request where
  /-- Builds every level of a file. -/
  | check (levels : String)
  /-- Shows how a level starts. -/
  | show (levels : String) (level : Nat)
  /-- Plays a script. -/
  | play (levels : String) (level : Nat) (script : String) (config : Option String)
  deriving DecidableEq, Repr

namespace Request

/-- How the requests are written. -/
def usage : String :=
  "Usage:\n" ++
  "  check LEVELS\n" ++
  "  show LEVELS [--level NUMBER]\n" ++
  "  play LEVELS --script FILE [--level NUMBER] [--config FILE]\n"

/-- Why words ask for nothing that can be done. -/
inductive Refusal where
  /-- The words ask how to use the program. -/
  | help
  /-- The words do not fit together. -/
  | usage
  deriving DecidableEq, Repr

/-! ### Words -/

/-- The words of a request, sorted. -/
structure Words where
  /-- The words that are not options. -/
  plain : List String := []
  /-- The options with their values. -/
  options : List (String × String) := []

/-- Adds an option that is known and not yet there. -/
def Words.withOption (ws : Words) (known : List String) (option value : String) :
    Except Refusal Words :=
  if option ∉ known ∨ (ws.options.lookup option).isSome then .error .usage
  else .ok { ws with options := ws.options ++ [(option, value)] }

/-- Adds a word that is not an option. Only one is taken, and it is not empty. -/
def Words.withPlain (ws : Words) (word : String) : Except Refusal Words :=
  if word = "" ∨ ws.plain ≠ [] then .error .usage
  else .ok { ws with plain := ws.plain ++ [word] }

/-- An option's name and, if it is given in the same word, its value. -/
def splitOption (word : String) : String × Option String :=
  let cs := word.toList.drop 2
  let name := String.ofList (cs.takeWhile (· ≠ '='))
  match cs.dropWhile (· ≠ '=') with
  | [] => (name, none)
  | _ :: value => (name, some (String.ofList value))

/-- Whether a word looks like an option and so cannot be the value of one. -/
def looksLikeOption (word : String) : Bool :=
  match word.toList with
  | '-' :: _ :: _ => true
  | _ => false

/-- Sorts words into plain ones and options; each value is checked as it comes. After a bare double
dash all words are plain. -/
def sort (known : List String) (valid : String → String → Bool) :
    Words → List String → Except Refusal Words
  | ws, [] => .ok ws
  | ws, word :: rest =>
    if word = "--" then rest.foldlM Words.withPlain ws
    else if word = "--help" ∨ word = "-h" then .error .help
    else if word.startsWith "--" then
      match splitOption word, rest with
      | (name, some value), rest => do
        let ws ← ws.withOption known name value
        if valid name value then sort known valid ws rest else throw .usage
      | (name, none), value :: rest => do
        let ws ← ws.withOption known name value
        if looksLikeOption value ∨ !valid name value then throw .usage
        sort known valid ws rest
      | (_, none), [] => throw .usage
    else if looksLikeOption word then .error .usage
    else do
      let ws ← ws.withPlain word
      sort known valid ws rest

/-! ### Requests -/

/-- A count below `2 ^ 64` in decimal digits, with a plus or without. -/
def count? (s : String) : Option Nat :=
  let digits :=
    match s.toList with
    | '+' :: ds => ds
    | ds => ds
  if digits = [] ∨ !digits.all Char.isDigit then none
  else
    let n := digits.foldl (fun n d => n * 10 + (d.toNat - '0'.toNat)) 0
    if n < UInt64.size then some n else none

/-- Whether an option takes a value: a level is a count, and a file has a name. -/
def validValue (option value : String) : Bool :=
  if option = "level" then (count? value).isSome else value ≠ ""

/-- The level that the words name, or else the first. -/
def Words.level (ws : Words) : Nat := ((ws.options.lookup "level").bind count?).getD 0

/-- The request of a command line. -/
def parse : List String → Except Refusal Request
  | [] => .error .usage
  | "check" :: rest => do
    match (← sort [] validValue {} rest).plain with
    | [levels] => return .check levels
    | _ => throw .usage
  | "show" :: rest => do
    let ws ← sort ["level"] validValue {} rest
    match ws.plain with
    | [levels] => return .show levels ws.level
    | _ => throw .usage
  | "play" :: rest => do
    let ws ← sort ["level", "script", "config"] validValue {} rest
    match ws.plain, ws.options.lookup "script" with
    | [levels], some script => return .play levels ws.level script (ws.options.lookup "config")
    | _, _ => throw .usage
  | "help" :: rest =>
    match rest with
    | [] | ["help"] | ["check"] | ["show"] | ["play"] => .error .help
    | _ => .error .usage
  | word :: _ => if word = "--help" ∨ word = "-h" then .error .help else .error .usage

/-- The files that a request reads. -/
def files : Request → List String
  | .check levels | .show levels _ => [levels]
  | .play levels _ script config => levels :: script :: config.toList

end Request

end TermForest
