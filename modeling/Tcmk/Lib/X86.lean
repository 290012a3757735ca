import Tcmk.Lib.Memory

/-!
# Some instructions of the x86

A processor with words of `w` bits, 32 or 64, and the instructions that a stub for a system call is
made of: constants, stores to the stack, addresses in the stack, `int` and `ret`. Registers are
numbered as in the encoding, so that 4 is the stack pointer.

`Traps` is a run up to the next `int`. What an `int` does is not a matter of the processor.
-/

namespace Lib.X86

structure Cpu where
  regs : ℕ → ℕ
  ip : ℕ
  mem : ℕ → UInt8

inductive Instr
  /-- `mov r, imm` -/
  | movImm (r imm : ℕ)
  /-- `lea r, [sp + disp]` -/
  | lea (r disp : ℕ)
  /-- `mov [sp + disp], r` -/
  | store (r disp : ℕ)
  | int (vector : ℕ)
  /-- `ret pop` -/
  | ret (pop : ℕ)
  deriving DecidableEq

/-- The number of the stack pointer. -/
def sp : ℕ := 4

section Decode

variable (w : ℕ) (code : ℕ → UInt8)

/-- A displacement of one byte, with its sign. -/
def disp8 (b : UInt8) : ℕ := if b.toNat < 128 then b.toNat else 2 ^ w - 256 + b.toNat

/-- There is a REX prefix. -/
def hasRex : Bool := w == 64 && (code 0).toNat / 16 == 4

/-- The operand at `[sp + disp8]` and the register of a whole word: the ModRM byte `mod = 1, rm = 4`
and the SIB byte without an index, after `n` bytes. -/
def stackOperand (n : ℕ) : Bool :=
  (code n).toNat / 64 == 1 && (code n).toNat % 8 == 4 && code (n + 1) == 0x24

/-- The instruction that begins with the bytes `code 0`, `code 1`, …, and its length. -/
def decode : Option (Instr × ℕ) :=
  if hasRex w code then
    let rex := (code 0).toNat % 16
    -- REX.W, and neither REX.X nor REX.B
    if (rex = 8 ∨ rex = 12) ∧ stackOperand code 2 then
      let r := (code 2).toNat / 8 % 8 + rex / 4 % 2 * 8
      if code 1 = 0x89 then some (.store r (disp8 w (code 4)), 5)
      else if code 1 = 0x8D then some (.lea r (disp8 w (code 4)), 5)
      else none
    else none
  else if code 0 = 0xB8 then some (.movImm 0 (leNat code 1 4), 5)
  else if code 0 = 0xCD then some (.int (code 1).toNat, 2)
  else if code 0 = 0xC3 then some (.ret 0, 1)
  else if code 0 = 0xC2 then some (.ret (leNat code 1 2), 3)
  else if w = 32 ∧ stackOperand code 1 then
    if code 0 = 0x89 then some (.store ((code 1).toNat / 8 % 8) (disp8 w (code 3)), 4)
    else if code 0 = 0x8D then some (.lea ((code 1).toNat / 8 % 8) (disp8 w (code 3)), 4)
    else none
  else none

end Decode

namespace Cpu

variable (w : ℕ)

/-- The instruction at the instruction pointer. -/
def fetch (c : Cpu) : Option (Instr × ℕ) := decode w fun k => c.mem ((c.ip + k) % 2 ^ w)

def set (c : Cpu) (r value : ℕ) : Cpu := { c with regs := Function.update c.regs r value }

/-- Go on after an instruction of `n` bytes. -/
def skip (c : Cpu) (n : ℕ) : Cpu := { c with ip := (c.ip + n) % 2 ^ w }

/-- Where an operand `[sp + disp]` is. -/
def stackAddr (c : Cpu) (disp : ℕ) : ℕ := (c.regs sp + disp) % 2 ^ w

/-- What an instruction does that does not trap. -/
def exec (c : Cpu) : Instr → Cpu
  | .movImm r imm => c.set r imm
  | .lea r disp => c.set r (c.stackAddr w disp)
  | .store r disp =>
    { c with mem := Lib.store w c.mem (c.stackAddr w disp) (w / 8) (leByte (c.regs r)) }
  | .int _ => c
  | .ret pop =>
    { c.set sp ((c.regs sp + w / 8 + pop) % 2 ^ w) with ip := loadNat w c.mem (c.regs sp) (w / 8) }

end Cpu

/-- The processor executes this instruction, which does not trap. -/
def Step (w : ℕ) (c : Cpu) (c' : Cpu) : Prop :=
  ∃ i n, c.fetch w = some (i, n) ∧ (∀ v, i ≠ .int v) ∧ c' = (c.skip w n).exec w i

/-- The processor runs into an `int`, which it has executed when it is in `c'`. -/
inductive Traps (w : ℕ) : Cpu → ℕ → Cpu → Prop
  | trap {c : Cpu} {vector n : ℕ} (hfetch : c.fetch w = some (.int vector, n)) :
    Traps w c vector (c.skip w n)
  | step {c c' c'' : Cpu} {vector : ℕ} (hstep : Step w c c') (hrest : Traps w c' vector c'') :
    Traps w c vector c''

/-! ## Code in memory -/

/-- The bytes are at `a`. -/
def CodeAt (w : ℕ) (mem : ℕ → UInt8) (a : ℕ) (bytes : List UInt8) : Prop :=
  ∀ k < bytes.length, mem ((a + k) % 2 ^ w) = bytes.getD k 0

variable {w a b n o v : ℕ} {mem : ℕ → UInt8} {f : ℕ → UInt8} {bytes : List UInt8} {c : Cpu}

/-- Code is not changed by a store elsewhere. -/
theorem CodeAt.store (h : CodeAt w mem a bytes) (hlen : bytes.length ≤ 2 ^ w)
    (hapart : Apart w a bytes.length b n) : CodeAt w (Lib.store w mem b n f) a bytes := by
  intro k hk
  rw [store_of_not (hapart _ (touches_add hk (hk.trans_le hlen)))]
  exact h k hk

/-- The byte at an offset of the code, for a processor that has got there. -/
theorem CodeAt.byte (h : CodeAt w c.mem a bytes) (hip : c.ip = (a + o) % 2 ^ w) {k : ℕ}
    (hk : o + k < bytes.length) : c.mem ((c.ip + k) % 2 ^ w) = bytes.getD (o + k) 0 := by
  rw [hip, Nat.mod_add_mod, Nat.add_assoc]
  exact h _ hk

@[simp] theorem skip_regs (c : Cpu) (n : ℕ) : (c.skip w n).regs = c.regs := rfl

@[simp] theorem skip_mem (c : Cpu) (n : ℕ) : (c.skip w n).mem = c.mem := rfl

@[simp] theorem set_mem (c : Cpu) (r value : ℕ) : (c.set r value).mem = c.mem := rfl

@[simp] theorem set_ip (c : Cpu) (r value : ℕ) : (c.set r value).ip = c.ip := rfl

/-- The offset of the next instruction. -/
theorem skip_ip (hip : c.ip = (a + o) % 2 ^ w) : (c.skip w n).ip = (a + (o + n)) % 2 ^ w := by
  rw [Cpu.skip, hip, Nat.mod_add_mod, Nat.add_assoc]

theorem leNat_getD {code : ℕ → UInt8} {o : ℕ} (hv : v < 256 ^ n)
    (h : ∀ k < n, code (o + k) = leByte v k) : leNat code o n = v := by
  rw [leNat_of_leByte v h, Nat.mod_eq_of_lt hv]

/-! ## Single instructions -/

section Instructions

variable {code : ℕ → UInt8}

theorem decode_movImm (h : code 0 = 0xB8) :
    decode w code = some (.movImm 0 (leNat code 1 4), 5) := by
  simp [decode, hasRex, h]

theorem decode_int (h : code 0 = 0xCD) : decode w code = some (.int (code 1).toNat, 2) := by
  simp [decode, hasRex, h]

theorem decode_ret (h : code 0 = 0xC3) : decode w code = some (.ret 0, 1) := by
  simp [decode, hasRex, h]

theorem decode_retImm (h : code 0 = 0xC2) : decode w code = some (.ret (leNat code 1 2), 3) := by
  simp [decode, hasRex, h]

theorem decode_lea32 (h : code 0 = 0x8D) (hoperand : stackOperand code 1 = true) :
    decode 32 code = some (.lea ((code 1).toNat / 8 % 8) (disp8 32 (code 3)), 4) := by
  simp [decode, hasRex, h, hoperand]

/-- The instructions of a whole word of 64 bits: the prefix has REX.W, and may have REX.R. -/
theorem decode_wide (hrex : code 0 = 0x48 ∨ code 0 = 0x4C) (hoperand : stackOperand code 2 = true) :
    (code 1 = 0x89 → decode 64 code = some (.store ((code 2).toNat / 8 % 8 +
        (code 0).toNat % 16 / 4 % 2 * 8) (disp8 64 (code 4)), 5)) ∧
      (code 1 = 0x8D → decode 64 code = some (.lea ((code 2).toNat / 8 % 8 +
        (code 0).toNat % 16 / 4 % 2 * 8) (disp8 64 (code 4)), 5)) := by
  constructor
  · intro h
    rcases hrex with hrex | hrex <;> simp [decode, hasRex, hrex, h, hoperand]
  · intro h
    rcases hrex with hrex | hrex <;> simp [decode, hasRex, hrex, h, hoperand]

end Instructions

/-- What the processor fetches from code that is in memory. -/
theorem CodeAt.fetch {r : Instr × ℕ} (h : CodeAt w c.mem a bytes) (hip : c.ip = (a + o) % 2 ^ w)
    (hn : o + n ≤ bytes.length)
    (hdecode : ∀ code : ℕ → UInt8, (∀ k < n, code k = bytes.getD (o + k) 0) →
      decode w code = some r) : c.fetch w = some r :=
  hdecode _ fun _ hk => h.byte hip (by omega)

theorem Step.of_fetch {i : Instr} (hfetch : c.fetch w = some (i, n)) (hint : ∀ v, i ≠ .int v) :
    Step w c ((c.skip w n).exec w i) := ⟨i, n, hfetch, hint, rfl⟩

end Lib.X86
