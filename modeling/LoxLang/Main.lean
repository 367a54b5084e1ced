import LoxLang.CommandLine

/-! The program itself: it reads scripts and lines, and writes what they answer. -/
open LoxLang

def write (r : Reply) : IO Unit := do
  let out ← IO.getStdout
  out.putStr r.out
  out.flush
  (← IO.getStderr).putStr r.err

def finish (r : Reply) : IO UInt32 := do
  write r
  pure r.exitCode

def contents? (name : String) : IO (Option ByteArray) :=
  try some <$> IO.FS.readBinFile name catch _ => pure none

partial def lineBytes (input : IO.FS.Stream) (line : ByteArray) : IO ByteArray := do
  let byte ← input.read 1
  let line := line ++ byte
  if byte.isEmpty || byte.data[0]? = some 10 then pure line else lineBytes input line

def nextLine? : IO (Option String) := do
  let line ← lineBytes (← IO.getStdin) .empty
  pure (Prompt.lines line).head?

structure Ahead where

partial def Ahead.each (f : String → σ → OptionT IO (ForInStep σ)) (s : σ) : OptionT IO σ := do
  match ← OptionT.lift nextLine? with
  | none => pure s
  | some line =>
    match ← f line s with
    | .done s => pure s
    | .yield s => each f s

instance : ForIn (OptionT IO) Ahead String where
  forIn _ s f := Ahead.each f s

def prompt (o : CommandLine.Options) : OptionT IO Unit :=
  Prompt.dialogue write stepsAllowed o.mode (.start (some o.depth) (.empty none)) Ahead.mk

def main (args : List String) : IO UInt32 := do
  match CommandLine.ofArgs args with
  | .misuse => finish CommandLine.misuse
  | .help => finish CommandLine.help
  | .version => finish CommandLine.version
  | .run o =>
    match o.script with
    | none => pure (if (← (prompt o).run).isSome then 0 else 70)
    | some name =>
      match CommandLine.scriptReply stepsAllowed o name (← contents? name) with
      | some r => finish r
      | none => pure 70
