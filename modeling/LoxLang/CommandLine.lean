import LoxLang.Prompt

/-!
The command line: `[SCRIPT]`, `--print-ast`, `--max-call-depth N`, `--help`, `--version`. The arguments are
read from left to right, and the first that settles the matter wins.
-/
namespace LoxLang.CommandLine

structure Options where
  script : Option String := none
  showTree : Bool := false
  limit : Option Nat := none

inductive Request where
  | misuse
  | help
  | version
  | run (options : Options)

def word64? (text : String) : Option Nat :=
  let digits := match text.toList with
    | '+' :: digits => digits
    | digits => digits
  if digits.isEmpty || !digits.all Char.isDigit then none
  else
    let n := Number.valueOfDigits digits
    if n < UInt64.size then some n else none

def Options.setScript? (o : Options) (arg : String) : Option Options :=
  if o.script.isNone && arg ≠ "" then some { o with script := some arg } else none

def Options.setLimit? (o : Options) (arg : String) : Option Options :=
  if o.limit.isNone then (word64? arg).map fun n => { o with limit := some n } else none

def Options.setShowTree? (o : Options) : Option Options :=
  if o.showTree then none else some { o with showTree := true }

/-- After `--` all is script. -/
def scripts (o : Options) : List String → Request
  | [] => .run o
  | arg :: args =>
    match o.setScript? arg with
    | some o => scripts o args
    | none => .misuse

def limitName : String := "--max-call-depth"

inductive Item where
  | separator
  | help
  | version
  | showTree
  | limit
  | limitIs (value : String)
  | unknown
  | script (name : String)

def Item.ofArg (arg : String) : Item :=
  if arg = "--" then .separator
  else if arg = "--help" then .help
  else if arg = "--version" then .version
  else if arg = "--print-ast" then .showTree
  else if arg = limitName then .limit
  else if arg.startsWith (limitName ++ "=") then
    .limitIs (.ofList (arg.toList.drop (limitName.length + 1)))
  else
    match arg.toList with
    | '-' :: 'h' :: _ => .help
    | '-' :: 'V' :: _ => .version
    | '-' :: _ :: _ => .unknown
    | _ => .script arg

/-- An argument that begins with a dash, and is more than the dash, is no value. -/
def isValue (arg : String) : Bool :=
  match arg.toList with
  | '-' :: _ :: _ => false
  | _ => true

def read (o : Options) : List String → Request
  | [] => .run o
  | arg :: args =>
    match Item.ofArg arg with
    | .separator => scripts o args
    | .help => .help
    | .version => .version
    | .unknown => .misuse
    | .showTree =>
      match o.setShowTree? with
      | some o => read o args
      | none => .misuse
    | .limitIs value =>
      match o.setLimit? value with
      | some o => read o args
      | none => .misuse
    | .limit =>
      match args with
      | [] => .misuse
      | value :: args =>
        if isValue value then
          match o.setLimit? value with
          | some o => read o args
          | none => .misuse
        else .misuse
    | .script name =>
      match o.setScript? name with
      | some o => read o args
      | none => .misuse

def ofArgs (args : List String) : Request := read {} args

def Options.mode (o : Options) : Mode := if o.showTree then .showTree else .run

def Options.depth (o : Options) : Nat := o.limit.getD Machine.defaultLimit

def version : Reply := .said "glox 0.1.0\n"

def usage : String := "usage: glox [SCRIPT] [--print-ast] [--max-call-depth N] [--help] [--version]\n"

def help : Reply := .said usage

def misuse : Reply := ⟨64, "", usage⟩

def unreadable (name : String) : Reply :=
  ⟨66, "", "Failed to read the input file '" ++ name ++ "'. Perhaps this file does not exist?\n"⟩

def scriptReply (steps : Nat) (o : Options) (name : String) (contents : Option ByteArray) : Option Reply :=
  match contents.bind String.fromUTF8? with
  | some source => (o.mode.reply steps (.start (some o.depth) (.empty none)) source).map (·.1)
  | none => some (unreadable name)

def reply (steps : Nat) (args : List String) (files : String → Option ByteArray) (input : ByteArray) :
    Option Reply :=
  match ofArgs args with
  | .misuse => some misuse
  | .help => some help
  | .version => some version
  | .run o =>
    match o.script with
    | none => Prompt.reply steps o.mode o.depth input
    | some name => scriptReply steps o name (files name)

end LoxLang.CommandLine
