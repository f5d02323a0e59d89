import Monkey.Session.Dialogue
import Monkey.Session.Script
import Monkey.Text.Digit
/-!
# The command line

Arguments are options and at most one operand, the file.  A long option may be cut to any beginning that belongs to it
alone, and a value may be attached to it by an equals sign; short options may stand together behind one dash.  Behind
`--` everything is an operand.  Options take effect from left to right, so that a request for the version is granted
before a later argument can be found wrong.
-/
namespace Monkey

/-- The options of the command line. -/
inductive Flag where
  | help | interactive | parse | tokens | debug | recursionLimit | version
  deriving DecidableEq

namespace Flag

def spellings : List (String × Flag) :=
  [("-h", help), ("--help", help), ("-i", interactive), ("--interactive", interactive), ("--parse", parse),
   ("--tokens", tokens), ("--debug", debug), ("--recursion-limit", recursionLimit), ("--version", version)]

def ofSpelling? (text : List Char) : Option Flag := spellings.lookup (String.ofList text)

/-- The options with a spelling that begins with a text. -/
def beginning (text : List Char) : List Flag :=
  (spellings.filter fun entry => text.isPrefixOf entry.1.toList).map (·.2)

end Flag

/-- An argument by its form: an operand, an option perhaps with a value behind an equals sign, a short option with more
letters behind it, an option that does not exist, one that is cut too short, or the mark behind which all are operands.
Short options take no values, so what stands behind one is letters, even behind an equals sign. -/
inductive Argument where
  | operand (text : String)
  | flag (flag : Flag) (value : Option (List Char))
  | cluster (first : Flag) (others : List Char)
  | unknown
  | ambiguous
  | terminator
  deriving DecidableEq

namespace Argument

def isDigit (c : Char) : Bool := (Text.digit? c).isSome

/-- Whether a text behind a dash is a number: digits, perhaps with a point before the last of them, and perhaps a line
feed behind them. -/
def isNumber (text : List Char) : Bool :=
  let text := if text.getLast? = some '\n' then text.dropLast else text
  let whole := text.takeWhile isDigit
  match text.dropWhile isDigit with
  | [] => !whole.isEmpty
  | '.' :: digits => !digits.isEmpty && digits.all isDigit
  | _ => false

/-- An argument that begins with a dash, and names no option in full, read as an option all the same. -/
def abbreviated (text : List Char) : Argument :=
  let candidates : List Argument :=
    match text with
    | '-' :: '-' :: _ =>
      let head := text.takeWhile (· ≠ '=')
      let value := if '=' ∈ text then some (text.drop (head.length + 1)) else none
      (Flag.beginning head).map fun f => flag f value
    | _ =>
      match Flag.ofSpelling? (text.take 2) with
      | some f => [cluster f (text.drop 2)]
      | none => (Flag.beginning text).map fun f => flag f none
  match candidates with
  | [a] => a
  | [] => if isNumber text.tail || ' ' ∈ text then operand (String.ofList text) else unknown
  | _ => ambiguous

/-- The form of an argument before any terminator. -/
def ofText (argument : String) : Argument :=
  match argument.toList with
  | ['-'] => operand argument
  | ['-', '-'] => terminator
  | '-' :: rest =>
    let text := '-' :: rest
    match Flag.ofSpelling? text with
    | some f => flag f none
    | none =>
      let head := text.takeWhile (· ≠ '=')
      let value := text.drop (head.length + 1)
      match (if '=' ∈ text then Flag.ofSpelling? head else none) with
      | some f => if rest.head? = some '-' then flag f (some value) else cluster f value
      | none => abbreviated text
  | _ => operand argument

/-- The forms of arguments: those behind the first terminator are operands. -/
def ofTexts : List String → List Argument
  | [] => []
  | "--" :: rest => terminator :: rest.map operand
  | text :: rest => ofText text :: ofTexts rest

end Argument

/-- What the options ask for. -/
structure Options where
  script : Option String
  interactive : Bool
  parse : Bool
  tokens : Bool
  debug : Bool
  recursionLimit : Int

/-- What a command line asks for. -/
inductive Command where
  | help
  | version
  | misuse
  | run (options : Options)

namespace Command

/-- The integer that the value of an option denotes: digits, perhaps with underscores between them, a sign before them
and blank characters around them. -/
def integer? (text : List Char) : Option Int :=
  match Text.trim text with
  | '-' :: digits => (magnitude? digits).map fun n => -(Int.ofNat n)
  | '+' :: digits => (magnitude? digits).map Int.ofNat
  | digits => (magnitude? digits).map Int.ofNat
where
  /-- The number that digits with single underscores between them denote. -/
  magnitude? (text : List Char) : Option Nat :=
    if isSpaced text then
      ((text.filter (· ≠ '_')).mapM Text.digit?).map fun digits => digits.foldl (fun n d => 10 * n + d) 0
    else none
  /-- Whether every underscore stands between two other characters. -/
  isSpaced : List Char → Bool
    | [] => false
    | ['_'] => false
    | [_] => true
    | c :: d :: rest => c ≠ '_' && (if d = '_' then isSpaced rest else isSpaced (d :: rest))

/-- The reading of a command line so far: the options, whether anything was found that belongs nowhere, and whether the
last argument was the file. -/
structure Reading where
  options : Options
  surplus : Bool
  behindFile : Bool

def Reading.operand (r : Reading) (text : String) : Reading :=
  match r.options.script with
  | none => { r with options := { r.options with script := some text }, behindFile := true }
  | some _ => { r with surplus := true, behindFile := false }

/-- The reading after an option that takes no value, or the request that ends it. -/
def Reading.flag (r : Reading) (f : Flag) : Except Command Reading :=
  let r := { r with behindFile := false }
  match f with
  | .help => .error .help
  | .version => .error .version
  | .interactive => .ok { r with options := { r.options with interactive := true } }
  | .parse => .ok { r with options := { r.options with parse := true } }
  | .tokens => .ok { r with options := { r.options with tokens := true } }
  | .debug => .ok { r with options := { r.options with debug := true } }
  | .recursionLimit => .error .misuse

/-- The reading after an option that takes an integer. -/
def Reading.limit (r : Reading) (text : List Char) : Except Command Reading :=
  match integer? text with
  | some n => .ok { r with options := { r.options with recursionLimit := n }, behindFile := false }
  | none => .error .misuse

/-- The options that the letters behind a short option stand for.  There have to be letters, and each has to stand for
an option; a single stray one spoils the whole argument. -/
def letters : List Char → Except Command (List Flag)
  | [] => .error .misuse
  | cs => cs.mapM fun c =>
    match Flag.ofSpelling? ['-', c] with
    | some f => .ok f
    | none => .error .misuse

/-- The reading after arguments, or the request that ends it. -/
def read (r : Reading) : List Argument → Except Command Reading
  | [] => .ok r
  | .operand text :: rest => read (r.operand text) rest
  | .unknown :: rest => read { r with surplus := true, behindFile := false } rest
  | .ambiguous :: _ => .error .misuse
  | .terminator :: rest =>
    read { r with surplus := r.surplus || (r.options.script.isSome && !r.behindFile) } rest
  | .flag .recursionLimit (some text) :: rest => do
    let r ← r.limit text
    read r rest
  | .flag .recursionLimit none :: .operand text :: rest => do
    let r ← r.limit text.toList
    read r rest
  | .flag .recursionLimit none :: _ => .error .misuse
  | .flag _ (some _) :: _ => .error .misuse
  | .flag f none :: rest => do
    let r ← r.flag f
    read r rest
  | .cluster first others :: rest => do
    let flags ← letters others
    let r ← (first :: flags).foldlM Reading.flag r
    read r rest

def defaultLimit : Int := 10000

def ofArguments (arguments : List String) : Command :=
  let forms := Argument.ofTexts arguments
  let start : Reading := ⟨⟨none, false, false, false, false, defaultLimit⟩, false, false⟩
  if .ambiguous ∈ forms then misuse
  else
    match read start forms with
    | .error command => command
    | .ok r => if r.surplus then misuse else run r.options

end Command

namespace Options

/-- How deep nodes may be nested at most, whatever the recursion limit. -/
def maxNesting : Nat := 20000

/-- The settings that options ask for: a nested node takes two levels of the recursion limit. -/
def settings (o : Options) : Settings := ⟨o.debug, min (o.recursionLimit.toNat / 2) maxNesting⟩

/-- The file to be read, unless none is named. -/
def path? (o : Options) : Option String :=
  match o.script with
  | some path => if path.isEmpty then none else some path
  | none => none

/-- What is done with the bytes of a file. -/
def runScript (o : Options) (path : String) (bytes : List Nat) : Exit :=
  if o.tokens then Script.listTokens path bytes
  else if o.parse then Script.listStatements o.debug path bytes
  else Script.run o.settings path bytes

/-- What the language is, shown before a dialogue that was not asked for. -/
def introduction : String :=
  printed ["Monkey Programming Language", String.ofList (List.replicate 50 '='),
    "A small dynamically typed expression language with:",
    "• Integers, booleans, strings, arrays and hashes",
    "• First-class functions and closures",
    "• Lexically scoped let bindings",
    ""]

/-- What is shown before the opening of a dialogue. -/
def greeting (o : Options) : String := if o.interactive then "" else introduction

end Options

namespace Command

def versionNotice : String := printed ["Monkey v" ++ Dialogue.version]

def usage : String :=
  printed ["usage: monkey [-h] [-i] [--parse] [--tokens] [--debug] [--recursion-limit RECURSION_LIMIT] [--version]",
    "              [script]"]

/-- Carries out a command, given the files by name and the whole input. -/
def execute (files : String → Option (List Nat)) (input : List Char) : Command → Exit
  | help => ⟨usage, 0⟩
  | version => ⟨versionNotice, 0⟩
  | misuse => ⟨"", 2⟩
  | run options =>
    match options.path? with
    | some path =>
      match files path with
      | some bytes => options.runScript path bytes
      | none => Script.missing path
    | none => ⟨options.greeting ++ Dialogue.transcript options.settings input, 0⟩

end Command

end Monkey
