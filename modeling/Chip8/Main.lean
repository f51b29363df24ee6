import Chip8.CommandLine.Reader
import Chip8.CommandLine.Usage
import Chip8.Console

/-!
# Running programs in a terminal

The outer layer: it reads the command line and the program file, keeps the clock, passes typed
characters on as keys, and writes what the console answers. Every decision is the console's.
-/

set_option autoImplicit false

namespace Chip8.Main

structure Session where
  options : Options
  journal : IO.FS.Handle
  typed : IO.Ref (List Char)

def record (s : Session) (r : Record) : IO Unit := do
  s.journal.putStr (s.options.logLevel.written r)
  s.journal.flush

def put (text : String) : IO Unit := do
  let output ← IO.getStdout
  output.putStr text
  output.flush

partial def listen (input : IO.FS.Stream) (typed : IO.Ref (List Char)) : IO Unit := do
  let line ← input.getLine
  if line.isEmpty then return
  typed.modify (· ++ line.toList)
  listen input typed

def keyOfChar (c : Char) : Key := if c = '\n' then .enter else .char c

def escape : Char := '\x1b'

/-- Performs actions in order, as far as the first fault. -/
def performAll (s : Session) : List Action → Console → IO (Except Fault Console)
  | [], c => return .ok c
  | a :: actions, c => do
    let reply := c.perform a
    (s.options.logLevel.records reply.events).forM (record s)
    match reply.answer with
    | .fault f => return .error f
    | .ran _ true => put "\x07"
    | .drawn (some text) => put text
    | _ => pure ()
    performAll s actions reply.console

partial def frames (s : Session) (c : Console) : IO (Option Fault) := do
  let started ← IO.monoMsNow
  let chars ← s.typed.modifyGet fun cs => (cs, [])
  if chars.contains escape then return none
  let actions := Console.frameActions (chars.map keyOfChar) s.options.cyclesPerFrame
  match ← performAll s actions c with
  | .error f => return some f
  | .ok next =>
    let spent := (← IO.monoMsNow) - started
    IO.sleep (UInt32.ofNat (min (s.options.frameMs - spent) 0xFFFFFFFF))
    frames s next

def seedOf (o : Options) : IO UInt64 := do
  match o.seed with
  | some seed => return seed
  | none => return (← IO.getRandomBytes 8).foldl (fun n b => n * 256 + b.toUInt64) 0

def contentOf (o : Options) : IO (Option (List UInt8)) := do
  match o.rom with
  | none => return none
  | some path =>
    try
      return some (← IO.FS.readBinFile path).toList
    catch _ => return none

def play (s : Session) (c : Console) : IO UInt32 := do
  let input ← IO.getStdin
  let _ ← IO.asTask (listen input s.typed) .dedicated
  put "\x1b[2J\x1b[?25l"
  let stopped ← frames s c
  put "\x1b[?25h\x1b[1E"
  match stopped with
  | none => return 0
  | some f =>
    record s ⟨.error, "chip8_vm", "machine stopped: " ++ f.message⟩
    IO.eprintln f.message
    return 1

def run (o : Options) : IO UInt32 := do
  let s : Session := ⟨o, ← IO.FS.Handle.mk o.logFile .write, ← IO.mkRef []⟩
  match o.program (← contentOf o) with
  | .error e =>
    IO.eprintln e.message
    return 1
  | .ok program =>
    let reply := (Console.fresh (.ofSeed (← seedOf o)) o.keyHoldFrames).perform (.load program)
    match reply.answer with
    | .oversize e =>
      IO.eprintln e.message
      return 1
    | _ =>
      (o.logLevel.records reply.events).forM (record s)
      record s ⟨.info, "chip8_vm", "starting with " ++ toString program.length ++ " program bytes"⟩
      play s reply.console

end Chip8.Main

def main (args : List String) : IO UInt32 := do
  match Chip8.Options.ofArguments args with
  | .ok o => Chip8.Main.run o
  | .error stop =>
    if stop.isFailure then
      IO.eprint stop.message
      return 2
    else
      IO.print stop.message
      return 0
