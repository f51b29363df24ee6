/-!
# ChaCha key stream

Twenty rounds over sixteen 32-bit words: four constants, eight words of key, a 64-bit block counter
and two zero words. The key is expanded from a 64-bit seed by a linear congruential generator whose
states are folded to 32 bits and rotated. `word key k` is the `k`-th word of the stream, so the
stream is a function of its position and nothing is carried from word to word.
-/

set_option autoImplicit false

namespace Chip8.ChaCha

abbrev Key := Vector UInt32 8

abbrev State := Vector UInt32 16

def rotateLeft (w k : UInt32) : UInt32 := (w <<< k) ||| (w >>> (32 - k))

def rotateRight (w k : UInt32) : UInt32 := (w >>> k) ||| (w <<< (32 - k))

/-- Adds cell `b` to cell `a`, then turns the sum of `a` and `d` without carries by `k` bits. -/
def mix {n : Nat} (k : UInt32) (a b d : Fin n) (s : Vector UInt32 n) : Vector UInt32 n :=
  let t := s.set a (s[a] + s[b])
  t.set d (rotateLeft (t[d] ^^^ t[a]) k)

def quarterRound (a b c d : Fin 16) (s : State) : State :=
  mix 7 c d b (mix 8 a b d (mix 12 c d b (mix 16 a b d s)))

def columns (s : State) : State :=
  quarterRound 3 7 11 15 (quarterRound 2 6 10 14 (quarterRound 1 5 9 13 (quarterRound 0 4 8 12 s)))

def diagonals (s : State) : State :=
  quarterRound 3 4 9 14 (quarterRound 2 7 8 13 (quarterRound 1 6 11 12 (quarterRound 0 5 10 15 s)))

def rounds : Nat → State → State
  | 0, s => s
  | n + 1, s => rounds n (diagonals (columns s))

def initial (key : Key) (counter : UInt64) : State :=
  (#v[0x61707865, 0x3320646e, 0x79622d32, 0x6b206574] : Vector UInt32 4) ++ key ++
    (#v[counter.toUInt32, (counter >>> 32).toUInt32, 0, 0] : Vector UInt32 4)

def block (key : Key) (counter : UInt64) : State :=
  let s := initial key counter
  (rounds 10 s).zipWith (· + ·) s

def word (key : Key) (k : Nat) : UInt32 :=
  (block key (UInt64.ofNat (k / 16)))[Fin.ofNat 16 k]

def advance (state : UInt64) : UInt64 := state * 6364136223846793005 + 11634580027462260723

def fold (state : UInt64) : UInt32 :=
  rotateRight (((state >>> 18) ^^^ state) >>> 27).toUInt32 (state >>> 59).toUInt32

def keyWord (seed : UInt64) : Nat → UInt32
  | 0 => fold (advance seed)
  | n + 1 => keyWord (advance seed) n

def keyOfSeed (seed : UInt64) : Key := Vector.ofFn fun i => keyWord seed i

end Chip8.ChaCha
