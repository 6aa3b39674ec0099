import Chip8.Fault
import Chip8.Font
import Chip8.Opcode
import Chip8.Overwrite

/-!
# Memory

4096 bytes. The font lies at the bottom, programs start at `0x200`.

## Shape of an access

Bytes are read one by one (`get`, `read`) and written as a list from an address on (`write`). Both
are total: a read past the end gives zero and a write past the end is dropped. `Memory.span` and
`Memory.load` are the checks that keep the machine from ever relying on that, and each checks the
whole range before anything is read or written.
-/

namespace Chip8

/-- The bytes that programs and data live in. -/
structure Memory where
  bytes : Vector UInt8 4096
deriving DecidableEq

namespace Memory

/-- The number of bytes. -/
abbrev size : Nat := 4096

/-- Where a program image is loaded and starts to run. -/
abbrev programStart : Nat := 0x200

/-- All bytes zero. -/
def zero : Memory :=
  ⟨Vector.replicate 4096 0⟩

/-- The byte at an address; zero past the end. -/
def get (m : Memory) (address : Nat) : UInt8 :=
  if h : address < 4096 then m.bytes[address] else 0

/-- The `count` bytes from an address on. -/
def read (m : Memory) (start count : Nat) : List UInt8 :=
  (List.range count).map fun k => m.get (start + k)

/-- The memory with `xs` stored from an address on. -/
def write (m : Memory) (start : Nat) (xs : List UInt8) : Memory :=
  ⟨overwrite m.bytes start xs⟩

/-- The memory of a machine that has just been switched on: the font, and zeros. -/
def initial : Memory :=
  zero.write Font.start Font.bytes

/-- The address of a range of `count` bytes, unless the range leaves memory. -/
def span (start count : Nat) : Except Fault Nat :=
  if start + count > size then .error (.outOfMemory (start + count - 1)) else .ok start

/-- The big-endian word at an address, unless one of its bytes is outside of memory. -/
def word (m : Memory) (address : Nat) : Except Fault UInt16 :=
  if address + 1 ≥ size then
    .error (.outOfMemory (address + 1))
  else
    .ok (Opcode.ofBytes (m.get address) (m.get (address + 1)))

/-- The memory with a program image at the program start, unless the image does not fit. -/
def load (m : Memory) (image : List UInt8) : Except Fault Memory :=
  if image.length > size - programStart then
    .error (.outOfMemory (programStart + image.length - 1))
  else
    .ok (m.write programStart image)

/-! ## Reading back -/

/-- Inside of memory a byte is read as it is stored. -/
theorem get_of_lt {m : Memory} {a : Nat} (h : a < 4096) : m.get a = m.bytes[a] :=
  dif_pos h

/-- Memories in which the same is read everywhere are equal. -/
@[ext] theorem ext_get {m₁ m₂ : Memory} (h : ∀ a, a < 4096 → m₁.get a = m₂.get a) : m₁ = m₂ := by
  obtain ⟨b₁⟩ := m₁
  obtain ⟨b₂⟩ := m₂
  congr 1
  refine Vector.ext fun a ha => ?_
  have h' := h a ha
  rw [get_of_lt ha, get_of_lt ha] at h'
  rw [h']

@[simp] theorem length_read (m : Memory) (start count : Nat) :
    (m.read start count).length = count := by
  simp [read]

@[simp] theorem getElem_read (m : Memory) (start count k : Nat)
    (h : k < (m.read start count).length) : (m.read start count)[k] = m.get (start + k) := by
  simp [read]

/-- After a write, an address in the written span holds the new byte and any other the old one. -/
theorem get_write (m : Memory) (start : Nat) (xs : List UInt8) (a : Nat) (ha : a < 4096) :
    (m.write start xs).get a =
      if h : start ≤ a ∧ a < start + xs.length then xs[a - start] else m.get a := by
  rw [get_of_lt ha, get_of_lt ha]
  exact getElem_overwrite m.bytes start xs a ha

/-- A write leaves the addresses outside of its span alone. -/
theorem get_write_of_not_mem {m : Memory} {start : Nat} {xs : List UInt8} {a : Nat}
    (h : ¬ (start ≤ a ∧ a < start + xs.length)) : (m.write start xs).get a = m.get a := by
  by_cases ha : a < 4096
  · rw [get_write _ _ _ _ ha, dif_neg h]
  · rw [get, get, dif_neg ha, dif_neg ha]

end Memory

end Chip8
