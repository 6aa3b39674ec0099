import Chip8.Machine.Execute
import Mathlib.Logic.Basic

/-!
# Arithmetic with a flag

Five instructions leave a byte in Vx and report in VF how it came about: a carry, which of two
values was the greater one, or the bit that a shift drops. `Arithmetic.result` and `Arithmetic.flag`
say this in whole numbers. The index register has an addition of its own, which reports in VF too.

## Shape of the proof

VF can be an operand, and it can be Vx. All five instructions read before they write, and they write
VF before Vx (`setVF`), so `leaves_setVF` settles which value is found in which register, whatever
the registers are. The rest is arithmetic on single bytes. That nothing is lost with a carry or a
dropped bit, and that an addition undoes a subtraction, is then seen from the numbers alone.
-/

namespace Chip8

namespace Registers

variable {r : Registers} {x y value : UInt8} {up : Bool}

/-- Numbers below sixteen name different registers. -/
theorem slot_ne (hx : x.toNat < 16) (hy : y.toNat < 16) (h : x ≠ y) : slot x ≠ slot y := by
  intro hslot
  have hval : x.toNat % 16 = y.toNat % 16 := congrArg Fin.val hslot
  rw [Nat.mod_eq_of_lt hx, Nat.mod_eq_of_lt hy] at hval
  exact h (UInt8.toNat.inj hval)

/-- The result is written last, so it wins over the flag. -/
theorem get_setWithFlag_self : (r.setWithFlag x value up).get x = value :=
  get_set_self _ _ _

/-- The flag is there unless the result has taken its place. -/
theorem get_setWithFlag_flag (hx : slot x ≠ slot flag) :
    (r.setWithFlag x value up).get flag = up.toUInt8 := by
  rw [setWithFlag, get_set_of_ne hx, get_set_self]

/-- No other register is touched. -/
theorem get_setWithFlag_of_ne (hx : slot x ≠ slot y) (hflag : slot flag ≠ slot y) :
    (r.setWithFlag x value up).get y = r.get y := by
  rw [setWithFlag, get_set_of_ne hx, get_set_of_ne hflag]

end Registers

namespace Machine

variable {m m' m₁ m₂ : Machine} {x y : UInt8}

/-- The value of a register as a whole number. -/
def number (m : Machine) (x : UInt8) : Int :=
  (m.v x).toNat

theorem number_nonneg (m : Machine) (x : UInt8) : 0 ≤ m.number x :=
  Int.natCast_nonneg _

/-- Every number in a register fits in a byte. -/
theorem number_lt (m : Machine) (x : UInt8) : m.number x < 256 := by
  have h := (m.v x).toNat_lt
  unfold number
  omega

/-! ## The specification -/

/-- The instructions that leave a byte in Vx and report in VF. -/
inductive Arithmetic where
  | add
  | sub
  | subFrom
  | shiftRight
  | shiftLeft
deriving DecidableEq

namespace Arithmetic

/-- The instruction on given registers. A shift has only the first of them. -/
def instruction (x y : UInt8) : Arithmetic → Instruction
  | add => .add x y
  | sub => .sub x y
  | subFrom => .subFrom x y
  | shiftRight => .shiftRight x
  | shiftLeft => .shiftLeft x

/-- What is left in Vx, given the numbers in Vx and Vy before. -/
def result (a b : Int) : Arithmetic → Int
  | add => (a + b) % 256
  | sub => (a - b) % 256
  | subFrom => (b - a) % 256
  | shiftRight => a / 2
  | shiftLeft => 2 * a % 256

/-- What is reported in VF, given the numbers in Vx and Vy before. -/
def flag (a b : Int) : Arithmetic → Int
  | add => if a + b ≥ 256 then 1 else 0
  | sub => if a > b then 1 else 0
  | subFrom => if b > a then 1 else 0
  | shiftRight => a % 2
  | shiftLeft => if a ≥ 128 then 1 else 0

end Arithmetic

/-- The result is in Vx and the flag in VF, where Vx itself has the result if it is VF. The other
registers are as before. -/
structure Leaves (m m' : Machine) (x : UInt8) (result flag : Int) : Prop where
  result_eq : m'.number x = result
  flag_eq : x ≠ Registers.flag → m'.number Registers.flag = flag
  other_eq : ∀ z : UInt8, z.toNat < 16 → z ≠ x → z ≠ Registers.flag → m'.v z = m.v z

/-! ## The order of the writes -/

/-- A flag is one if it is up, and zero if not. -/
theorem toNat_toUInt8 (b : Bool) : (b.toUInt8.toNat : Int) = if b then 1 else 0 := by
  cases b <;> rfl

/-- Whatever register Vx is, a value and a truth value are left in Vx and VF. -/
theorem leaves_setVF {value : UInt8} {up : Bool} {result flag : Int} (hx : x.toNat < 16)
    (hvalue : (value.toNat : Int) = result) (hup : (if up then 1 else 0) = flag) :
    Leaves m (m.setVF x value up) x result flag where
  result_eq := by
    show (((m.registers.setWithFlag x value up).get x).toNat : Int) = result
    rw [Registers.get_setWithFlag_self, hvalue]
  flag_eq hne := by
    show (((m.registers.setWithFlag x value up).get Registers.flag).toNat : Int) = flag
    rw [Registers.get_setWithFlag_flag (Registers.slot_ne hx (by decide) hne), toNat_toUInt8, hup]
  other_eq z hz hzx hflag :=
    Registers.get_setWithFlag_of_ne (Registers.slot_ne hx hz hzx.symm)
      (Registers.slot_ne (by decide) hz hflag.symm)

/-! ## Bytes as numbers -/

/-- A sum goes around at 256. -/
theorem toNat_sum (a b : UInt8) : ((a + b).toNat : Int) = ((a.toNat : Int) + b.toNat) % 256 := by
  rw [UInt8.toNat_add]
  omega

theorem toNat_difference (a b : UInt8) :
    ((a - b).toNat : Int) = ((a.toNat : Int) - b.toNat) % 256 := by
  have hb := b.toNat_lt
  rw [UInt8.toNat_sub]
  omega

/-- Half a byte is rounded down. -/
theorem toNat_half (a : UInt8) : ((a / 2).toNat : Int) = (a.toNat : Int) / 2 := by
  rw [UInt8.toNat_div]
  rfl

theorem toNat_double (a : UInt8) : ((a * 2).toNat : Int) = 2 * (a.toNat : Int) % 256 := by
  rw [UInt8.toNat_mul]
  show ((a.toNat * 2 % 2 ^ 8 : Nat) : Int) = _
  omega

/-- The lowest bit is what a halving leaves over. -/
theorem lowestBit_eq (a : UInt8) :
    (if a.toNat.testBit 0 then 1 else 0) = (a.toNat : Int) % 2 := by
  rw [Nat.testBit_zero]
  simp only [decide_eq_true_eq]
  omega

/-- The highest bit is set in the upper half of the bytes. -/
theorem testBit_seven_iff (a : UInt8) : a.toNat.testBit 7 = true ↔ (a.toNat : Int) ≥ 128 := by
  have ha := a.toNat_lt
  rw [Nat.testBit_eq_decide_div_mod_eq, decide_eq_true_eq]
  omega

/-! ## The instructions -/

/-- Every arithmetic instruction leaves its result and its flag. -/
theorem exists_leaves (m : Machine) (op : Arithmetic) (hx : x.toNat < 16) (y : UInt8) :
    ∃ m', m.execute (op.instruction x y) = .ok m' ∧
      Leaves m m' x (op.result (m.number x) (m.number y)) (op.flag (m.number x) (m.number y)) := by
  cases op with
  | add =>
    refine ⟨_, rfl, leaves_setVF hx (toNat_sum _ _) (if_congr ?_ rfl rfl)⟩
    rw [decide_eq_true_eq, number, number]
    omega
  | sub =>
    refine ⟨_, rfl, leaves_setVF hx (toNat_difference _ _) (if_congr ?_ rfl rfl)⟩
    rw [decide_eq_true_eq, gt_iff_lt, UInt8.lt_iff_toNat_lt]
    exact Int.ofNat_lt.symm
  | subFrom =>
    refine ⟨_, rfl, leaves_setVF hx (toNat_difference _ _) (if_congr ?_ rfl rfl)⟩
    rw [decide_eq_true_eq, gt_iff_lt, UInt8.lt_iff_toNat_lt]
    exact Int.ofNat_lt.symm
  | shiftRight => exact ⟨_, rfl, leaves_setVF hx (toNat_half _) (lowestBit_eq _)⟩
  | shiftLeft =>
    refine ⟨_, rfl, leaves_setVF hx (toNat_double _) (if_congr ?_ rfl rfl)⟩
    exact testBit_seven_iff _

/-- Executed, each of the instructions leaves its result and its flag. -/
theorem leaves_of_execute (op : Arithmetic) (hx : x.toNat < 16) (y : UInt8)
    (h : m.execute (op.instruction x y) = .ok m') :
    Leaves m m' x (op.result (m.number x) (m.number y)) (op.flag (m.number x) (m.number y)) := by
  obtain ⟨m₁, hm₁, hleaves⟩ := exists_leaves m op hx y
  cases hm₁.symm.trans h
  exact hleaves

/-- The carry of an addition is the quotient of the sum. -/
theorem flag_add_eq (m : Machine) (x y : UInt8) :
    Arithmetic.flag (m.number x) (m.number y) .add = (m.number x + m.number y) / 256 := by
  have hx := m.number_nonneg x
  have hx' := m.number_lt x
  have hy := m.number_nonneg y
  have hy' := m.number_lt y
  rw [Arithmetic.flag]
  omega

/-- The bit that a doubling drops is the quotient of the double. -/
theorem flag_shiftLeft_eq (m : Machine) (x y : UInt8) :
    Arithmetic.flag (m.number x) (m.number y) .shiftLeft = 2 * m.number x / 256 := by
  have hx := m.number_nonneg x
  have hx' := m.number_lt x
  rw [Arithmetic.flag]
  omega

/-- Adding the same register again undoes a subtraction, if the subtraction left that register
alone. -/
theorem exists_add_after_sub (m : Machine) (hx : x.toNat < 16) (hy : y.toNat < 16)
    (hflag : y ≠ Registers.flag) (hne : y ≠ x) :
    ∃ m₁ m₂, m.execute (.sub x y) = .ok m₁ ∧ m₁.execute (.add x y) = .ok m₂ ∧ m₂.v x = m.v x := by
  obtain ⟨m₁, hsub, h₁⟩ := exists_leaves m .sub hx y
  obtain ⟨m₂, hadd, h₂⟩ := exists_leaves m₁ .add hx y
  refine ⟨m₁, m₂, hsub, hadd, UInt8.toNat.inj (Int.ofNat.inj ?_)⟩
  have hy₁ : m₁.number y = m.number y := by
    unfold number
    rw [h₁.other_eq y hy hne hflag]
  have hnonneg := m.number_nonneg x
  have hlt := m.number_lt x
  calc m₂.number x
      = (m₁.number x + m₁.number y) % 256 := h₂.result_eq
    _ = ((m.number x - m.number y) % 256 + m.number y) % 256 := by rw [hy₁, h₁.result_eq]; rfl
    _ = m.number x := by omega

/-- The index register takes up a byte modulo 65536, and VF reports a sum past the last address. -/
theorem leaves_addIndex (m : Machine) (value : UInt8) :
    (m.addIndex value).index.toNat = (m.index.toNat + value.toNat) % 65536 ∧
      (m.addIndex value).number Registers.flag =
        (if m.index.toNat + value.toNat > 0xFFF then 1 else 0) ∧
      ∀ z : UInt8, z.toNat < 16 → z ≠ Registers.flag → (m.addIndex value).v z = m.v z := by
  refine ⟨UInt16.toNat_ofNat', ?_, ?_⟩
  · show (((m.registers.set Registers.flag _).get Registers.flag).toNat : Int) = _
    rw [Registers.get_set_self, toNat_toUInt8]
    simp only [decide_eq_true_eq]
  · intro z hz hne
    exact Registers.get_set_of_ne (Registers.slot_ne (by decide) hz hne.symm) _ _

/-- Arithmetic in Vx is arithmetic of whole numbers modulo 256, with the flag in VF unless VF is Vx,
which then has the result. What a carry or a dropped bit says makes up for what the byte has lost,
and adding Vy takes back subtracting it. An addition to the index register is one modulo 65536, and
reports in VF in any case. -/
theorem execute_arithmetic (m : Machine) (hx : x.toNat < 16) (hy : y.toNat < 16) :
    (∀ op : Arithmetic, ∃ m', m.execute (op.instruction x y) = .ok m' ∧
      Leaves m m' x (op.result (m.number x) (m.number y)) (op.flag (m.number x) (m.number y))) ∧
    (x ≠ Registers.flag →
      (∀ m', m.execute (.add x y) = .ok m' →
        256 * m'.number Registers.flag + m'.number x = m.number x + m.number y) ∧
      (∀ m', m.execute (.shiftLeft x) = .ok m' →
        256 * m'.number Registers.flag + m'.number x = 2 * m.number x) ∧
      ∀ m', m.execute (.shiftRight x) = .ok m' →
        2 * m'.number x + m'.number Registers.flag = m.number x) ∧
    (y ≠ Registers.flag → y ≠ x →
      ∃ m₁ m₂, m.execute (.sub x y) = .ok m₁ ∧ m₁.execute (.add x y) = .ok m₂ ∧
        m₂.v x = m.v x) ∧
    ∃ m', m.execute (.addIndex x) = .ok m' ∧
      m'.index.toNat = (m.index.toNat + (m.v x).toNat) % 65536 ∧
      m'.number Registers.flag = (if m.index.toNat + (m.v x).toNat > 0xFFF then 1 else 0) ∧
      ∀ z : UInt8, z.toNat < 16 → z ≠ Registers.flag → m'.v z = m.v z := by
  refine ⟨fun op => exists_leaves m op hx y, fun hne => ⟨?_, ?_, ?_⟩,
    exists_add_after_sub m hx hy, _, rfl, leaves_addIndex m (m.v x)⟩
  -- with the flag as the quotient, each of the three is a division with remainder
  · intro m' h
    have hleaves := leaves_of_execute .add hx y h
    rw [hleaves.flag_eq hne, hleaves.result_eq, flag_add_eq]
    exact Int.mul_ediv_add_emod _ 256
  · intro m' h
    have hleaves := leaves_of_execute .shiftLeft hx y h
    rw [hleaves.flag_eq hne, hleaves.result_eq, flag_shiftLeft_eq]
    exact Int.mul_ediv_add_emod _ 256
  · intro m' h
    have hleaves := leaves_of_execute .shiftRight hx y h
    rw [hleaves.flag_eq hne, hleaves.result_eq]
    exact Int.mul_ediv_add_emod _ 2

/-- A machine with a greater value in VF than in V1, and the index register at its end. -/
def brimming : Machine :=
  { ofSeed 0 with
    registers := (Registers.zero.set 1 0x80).set 0xF 0x90
    index := 0xFFFF }

/-- VF as the destination has the sum and not the carry, and a subtraction from it is taken back. As
an operand it is read before the carry is written. The index register wraps. -/
theorem execute_arithmetic_flagRegister :
    (∃ m', brimming.execute (.add 0xF 1) = .ok m' ∧ m'.number 0xF = 0x10) ∧
    (∃ m₁ m₂, brimming.execute (.sub 0xF 1) = .ok m₁ ∧ m₁.execute (.add 0xF 1) = .ok m₂ ∧
      m₂.v 0xF = 0x90) ∧
    (∃ m', brimming.execute (.add 1 0xF) = .ok m' ∧
      256 * m'.number 0xF + m'.number 1 = 0x110) ∧
    ∃ m', brimming.execute (.addIndex 0xF) = .ok m' ∧ m'.index.toNat = 0x8F ∧
      m'.number 0xF = 1 := by
  have h1 : (1 : UInt8).toNat < 16 := by decide
  have hF : (0xF : UInt8).toNat < 16 := by decide
  obtain ⟨hall, -, hback, m', hindex, hsum, hpast, -⟩ := execute_arithmetic brimming hF h1
  obtain ⟨m₁, hadd, hleaves⟩ := hall .add
  obtain ⟨-, hlaws, -, -⟩ := execute_arithmetic brimming h1 hF
  refine ⟨⟨m₁, hadd, hleaves.result_eq⟩, hback (by decide) (by decide), ⟨_, rfl, ?_⟩,
    m', hindex, hsum, hpast⟩
  exact (hlaws (by decide)).1 _ rfl

end Machine

end Chip8
