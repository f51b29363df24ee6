import Chip8.CommandLine.Options

/-!
# What a command line is told

What is printed where a command line starts no machine: the version if it is asked for, and else how a
command line is made up.
-/

set_option autoImplicit false

namespace Chip8

def versionText : String := "chip8-vm 0.1.0\n"

def usageText : String := "Usage: chip8-vm [OPTIONS] [ROM]\n"

def Stop.message : Stop → String
  | version => versionText
  | _ => usageText

def Stop.isFailure : Stop → Bool
  | help => false
  | version => false
  | _ => true

def ProgramError.message : ProgramError → String
  | unreadable => "cannot read the program file"
  | text e => e.message

end Chip8
