import Chip8.Random.ChaCha

/-!
# Random tape

A machine's random numbers are read from a tape that a key determines. The tape is held as the key
and the number of words taken so far; a word is looked at with `word` and passed with `next`. The key
is expanded from a seed or, where no seed is given, is any key at all.
-/

set_option autoImplicit false

namespace Chip8

structure Tape where
  key : ChaCha.Key
  position : Nat
  deriving DecidableEq

namespace Tape

def ofKey (key : ChaCha.Key) : Tape := ⟨key, 0⟩

def ofSeed (seed : UInt64) : Tape := ofKey (ChaCha.keyOfSeed seed)

def word (t : Tape) : UInt32 := ChaCha.word t.key t.position

def byte (t : Tape) : UInt8 := t.word.toUInt8

def next (t : Tape) : Tape := { t with position := t.position + 1 }

end Tape

end Chip8
