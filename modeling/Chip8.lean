import Chip8.Driver.Schedule
import Chip8.FileSystem.Tree
import Chip8.Instruction.Encode
import Chip8.Main
import Chip8.Picture
import Chip8.Proofs.Command.Disassembly
import Chip8.Proofs.CommandLine.RunLine
import Chip8.Proofs.Driver.Bounds
import Chip8.Proofs.Driver.CatchUp
import Chip8.Proofs.Driver.Halting
import Chip8.Proofs.Driver.Interval
import Chip8.Proofs.Driver.Pacing
import Chip8.Proofs.Driver.Policy
import Chip8.Proofs.Driver.RunOff
import Chip8.Proofs.Driver.Trace
import Chip8.Proofs.Framebuffer.History
import Chip8.Proofs.Instruction.Assembly
import Chip8.Proofs.Instruction.Table
import Chip8.Proofs.Keyboard.Forwarding
import Chip8.Proofs.Keypad.Sharing
import Chip8.Proofs.Listing.Execution
import Chip8.Proofs.Machine.Arithmetic
import Chip8.Proofs.Machine.Digits
import Chip8.Proofs.Machine.Failure
import Chip8.Proofs.Machine.Faults
import Chip8.Proofs.Machine.Footprint
import Chip8.Proofs.Machine.Inputs
import Chip8.Proofs.Machine.Overlay
import Chip8.Proofs.Machine.Repaint
import Chip8.Proofs.Machine.Reset
import Chip8.Proofs.Machine.Saving
import Chip8.Proofs.Machine.Subroutine
import Chip8.Proofs.Machine.Successor
import Chip8.Proofs.Machine.Waiting
import Chip8.Proofs.Machine.Writes
import Chip8.Proofs.Picture
