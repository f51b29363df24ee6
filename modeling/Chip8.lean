import Chip8.Main
import Chip8.Proofs.Effect
import Chip8.Proofs.History
import Chip8.Proofs.AddressSpace
import Chip8.Proofs.Batch
import Chip8.Proofs.CallStack
import Chip8.Proofs.Checked
import Chip8.Proofs.Decoding
import Chip8.Proofs.InBounds
import Chip8.Proofs.Safety
import Chip8.Proofs.Frames
import Chip8.Proofs.Loading
import Chip8.Proofs.Staleness
import Chip8.Proofs.KeyWait
import Chip8.Proofs.KeyAges
import Chip8.Proofs.KeyTimeline
import Chip8.Proofs.Footprint
import Chip8.Proofs.Trail
import Chip8.Proofs.RandomWords
import Chip8.Proofs.SoundCue
import Chip8.Proofs.Faults
import Chip8.Proofs.Observation
import Chip8.Proofs.Digits
import Chip8.Proofs.JournalLines
import Chip8.Proofs.Sprites
import Chip8.Proofs.Timers
import Chip8.Proofs.Layers
import Chip8.Proofs.Arithmetic
import Chip8.Proofs.RegisterBlocks
import Chip8.Proofs.AssemblyReader
import Chip8.Proofs.TerminalControls
import Chip8.Proofs.VideoTerminal
import Chip8.Proofs.ProgramDigits
import Chip8.Proofs.ProgramTexts
import Chip8.Proofs.JournalReader
import Chip8.Proofs.Thresholds
import Chip8.Proofs.CommandEntries
import Chip8.Proofs.CommandReading
import Chip8.Proofs.CommandLines
