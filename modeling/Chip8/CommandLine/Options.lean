import Chip8.Journal.Level
import Chip8.Program.Text
import Chip8.Text.Number

/-!
# Options

What a run is given besides its keys: where the program comes from, how long a frame lasts and how
many cycles it has, how long a key counts as held, the seed, and the journal. Each setting is named
by one word and takes one value, which has to be a text of its kind.
-/

set_option autoImplicit false

namespace Chip8

structure Options where
  rom : Option String
  hex : Option String
  frameMs : Nat
  cyclesPerFrame : Nat
  keyHoldFrames : Nat
  seed : Option UInt64
  logFile : String
  logLevel : Threshold
  deriving DecidableEq

inductive Setting where
  | hex | frameMs | cyclesPerFrame | keyHoldFrames | seed | logFile | logLevel
  deriving DecidableEq

inductive Stop where
  | help
  | version
  | unknown (argument : String)
  | valueForFlag (name : String)
  | missingValue (setting : Setting)
  | emptyPath
  | repeated (setting : Setting)
  | malformed (setting : Setting) (text : String)
  | twoPrograms
  deriving DecidableEq

namespace Setting

def name : Setting → String
  | hex => "hex"
  | frameMs => "frame-ms"
  | cyclesPerFrame => "cycles-per-frame"
  | keyHoldFrames => "key-hold-frames"
  | seed => "seed"
  | logFile => "log-file"
  | logLevel => "log-level"

def all : List Setting := [hex, frameMs, cyclesPerFrame, keyHoldFrames, seed, logFile, logLevel]

/-- Names are given in full and in lower case. -/
def ofName? (name : String) : Option Setting := all.find? (·.name == name)

end Setting

namespace Options

def default : Options where
  rom := none
  hex := none
  frameMs := 16
  cyclesPerFrame := 1
  keyHoldFrames := 6
  seed := none
  logFile := "chip8.log"
  logLevel := .upTo .warn

def setRom (o : Options) (path : String) : Except Stop Options :=
  if path.isEmpty then .error .emptyPath else .ok { o with rom := some path }

def set (o : Options) (s : Setting) (text : String) : Except Stop Options :=
  match s with
  | .hex => .ok { o with hex := some text }
  | .frameMs =>
    match Number.natural? 0x10000000000000000 text with
    | some n => .ok { o with frameMs := n }
    | none => .error (.malformed s text)
  | .cyclesPerFrame =>
    match Number.natural? 0x10000000000000000 text with
    | some n => .ok { o with cyclesPerFrame := n }
    | none => .error (.malformed s text)
  | .keyHoldFrames =>
    match Number.signed? 0x100000000 text with
    | some n => .ok { o with keyHoldFrames := n }
    | none => .error (.malformed s text)
  | .seed =>
    match Number.natural? 0x10000000000000000 text with
    | some n => .ok { o with seed := some (UInt64.ofNat n) }
    | none => .error (.malformed s text)
  | .logFile => if text.isEmpty then .error .emptyPath else .ok { o with logFile := text }
  | .logLevel =>
    match Threshold.parse? text with
    | some t => .ok { o with logLevel := t }
    | none => .error (.malformed s text)

def check (o : Options) : Except Stop Options :=
  if o.rom.isSome && o.hex.isSome then .error .twoPrograms else .ok o

end Options

inductive ProgramError where
  | unreadable
  | text (e : ProgramText.Error)
  deriving DecidableEq

/-- `content` is what the program file holds, or nothing if it cannot be read. Without a file and
without digits the program is the demonstration. -/
def Options.program (o : Options) (content : Option (List UInt8)) :
    Except ProgramError (List UInt8) :=
  match o.rom with
  | some _ =>
    match content with
    | some bytes => .ok bytes
    | none => .error .unreadable
  | none =>
    match ProgramText.parse (o.hex.getD ProgramText.demo) with
    | .ok bytes => .ok bytes
    | .error e => .error (.text e)

end Chip8
