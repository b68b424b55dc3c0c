/-
Computational instructions of the core against RV32I: the 21 forms of OP, OP-IMM, LUI and AUIPC.

`Instr` is the instruction listing, `Encodes` its encoding table (opcode, funct3, funct7 and operand fields of a word) and
`Instr.step` what RV32I says. `Computational` is the set of words that are such instructions.
- `exists_instr`: it is exactly the set of words the table has;
- `alu_value`: the ALU computes what the specification says, for register and immediate forms, although they share the
  operand mux, the shifter and bit 30;
- `computes`: one cycle of the core executes one of them, and leaves the data memory and the memory port alone.
-/
import AegisSoc.Cpu.Transfers

namespace AegisSoc.Compute

open RiscVICore
open Transfers (Executes next_eq_compute next_compute setReg_of_wbEn quiet)

/-! ## RV32I -/

/-- the operations on two registers -/
inductive RegOp where
  | add
  | sub
  | sll
  | slt
  | sltu
  | xor
  | srl
  | sra
  | or
  | and
deriving DecidableEq, Repr

namespace RegOp

def funct3 : RegOp → BitVec 3
  | add | sub => 0
  | sll => 1
  | slt => 2
  | sltu => 3
  | xor => 4
  | srl | sra => 5
  | or => 6
  | and => 7

def funct7 : RegOp → BitVec 7
  | sub | sra => 0x20
  | _ => 0

/-- shifts take the low five bits of the second operand; SRA divides by a power of two, rounding down -/
def value : RegOp → BitVec 32 → BitVec 32 → BitVec 32
  | add, x, y => x + y
  | sub, x, y => x - y
  | sll, x, y => x <<< (y.toNat % 32)
  | slt, x, y => if x.toInt < y.toInt then 1 else 0
  | sltu, x, y => if x.toNat < y.toNat then 1 else 0
  | xor, x, y => x ^^^ y
  | srl, x, y => x >>> (y.toNat % 32)
  | sra, x, y => BitVec.ofInt 32 (x.toInt / 2 ^ (y.toNat % 32))
  | or, x, y => x ||| y
  | and, x, y => x &&& y

end RegOp

/-- the operations on a register and a sign-extended immediate -/
inductive ImmOp where
  | addi
  | slti
  | sltiu
  | xori
  | ori
  | andi
deriving DecidableEq, Repr

def ImmOp.op : ImmOp → RegOp
  | addi => .add
  | slti => .slt
  | sltiu => .sltu
  | xori => .xor
  | ori => .or
  | andi => .and

/-- the shifts by an immediate -/
inductive ShiftOp where
  | slli
  | srli
  | srai
deriving DecidableEq, Repr

def ShiftOp.op : ShiftOp → RegOp
  | slli => .sll
  | srli => .srl
  | srai => .sra

inductive Instr where
  | op (o : RegOp) (rd rs1 rs2 : BitVec 5)
  | opImm (o : ImmOp) (rd rs1 : BitVec 5) (imm : BitVec 12)
  | shift (o : ShiftOp) (rd rs1 shamt : BitVec 5)
  | lui (rd : BitVec 5) (imm20 : BitVec 20)
  | auipc (rd : BitVec 5) (imm20 : BitVec 20)
deriving DecidableEq, Repr

def funct7 (w : BitVec 32) : BitVec 7 := w.extractLsb' 25 7

/-- the word `w` encodes the instruction -/
def Encodes (w : BitVec 32) : Instr → Prop
  | .op o d s t => opcode w = 0x33 ∧ f3 w = o.funct3 ∧ funct7 w = o.funct7 ∧ rd w = d ∧ rs1 w = s ∧ rs2 w = t
  | .opImm o d s imm => opcode w = 0x13 ∧ f3 w = o.op.funct3 ∧ w.extractLsb' 20 12 = imm ∧ rd w = d ∧ rs1 w = s
  | .shift o d s sh =>
    opcode w = 0x13 ∧ f3 w = o.op.funct3 ∧ funct7 w = o.op.funct7 ∧ rd w = d ∧ rs1 w = s ∧ rs2 w = sh
  | .lui d u => opcode w = 0x37 ∧ rd w = d ∧ w.extractLsb' 12 20 = u
  | .auipc d u => opcode w = 0x17 ∧ rd w = d ∧ w.extractLsb' 12 20 = u

/-- OP with a funct7 of RV32I, OP-IMM with an upper immediate of RV32I if it is a shift, LUI and AUIPC -/
def Computational (w : BitVec 32) : Prop :=
  opcode w = 0x33 ∧ (funct7 w = 0 ∨ funct7 w = 0x20 ∧ (f3 w = 0 ∨ f3 w = 5)) ∨
  opcode w = 0x13 ∧ (f3 w = 1 → funct7 w = 0) ∧ (f3 w = 5 → funct7 w = 0 ∨ funct7 w = 0x20) ∨
  opcode w = 0x37 ∨ opcode w = 0x17

instance (w : BitVec 32) : Decidable (Computational w) := inferInstanceAs (Decidable (_ ∨ _))

/-- what RV32I says -/
def Instr.step (p : Instr) (a : Arch) : Arch :=
  match p with
  | op o d s t => ⟨a.pc + 4, setReg a.rf d (o.value (a.rf s) (a.rf t))⟩
  | opImm o d s imm => ⟨a.pc + 4, setReg a.rf d (o.op.value (a.rf s) (imm.signExtend 32))⟩
  | shift o d s sh => ⟨a.pc + 4, setReg a.rf d (o.op.value (a.rf s) (sh.setWidth 32))⟩
  | lui d u => ⟨a.pc + 4, setReg a.rf d (u ++ 0#12)⟩
  | auipc d u => ⟨a.pc + 4, setReg a.rf d (a.pc + (u ++ 0#12))⟩

/-! ## The encoding table -/

theorem funct3_cases (f : BitVec 3) : f = 0 ∨ f = 1 ∨ f = 2 ∨ f = 3 ∨ f = 4 ∨ f = 5 ∨ f = 6 ∨ f = 7 := by
  revert f
  decide

theorem exists_op {w : BitVec 32} (hop : opcode w = 0x33)
    (h7 : funct7 w = 0 ∨ funct7 w = 0x20 ∧ (f3 w = 0 ∨ f3 w = 5)) : ∃ p, Encodes w p := by
  have hp : ∀ o : RegOp, f3 w = o.funct3 → funct7 w = o.funct7 → ∃ p, Encodes w p := fun o hf h7 =>
    ⟨.op o (rd w) (rs1 w) (rs2 w), hop, hf, h7, rfl, rfl, rfl⟩
  rcases h7 with h7 | ⟨h7, hf | hf⟩
  · rcases funct3_cases (f3 w) with hf | hf | hf | hf | hf | hf | hf | hf
    · exact hp .add hf h7
    · exact hp .sll hf h7
    · exact hp .slt hf h7
    · exact hp .sltu hf h7
    · exact hp .xor hf h7
    · exact hp .srl hf h7
    · exact hp .or hf h7
    · exact hp .and hf h7
  · exact hp .sub hf h7
  · exact hp .sra hf h7

theorem exists_opImm {w : BitVec 32} (hop : opcode w = 0x13) (h1 : f3 w = 1 → funct7 w = 0)
    (h5 : f3 w = 5 → funct7 w = 0 ∨ funct7 w = 0x20) : ∃ p, Encodes w p := by
  have hi : ∀ o : ImmOp, f3 w = o.op.funct3 → ∃ p, Encodes w p := fun o hf =>
    ⟨.opImm o (rd w) (rs1 w) _, hop, hf, rfl, rfl, rfl⟩
  have hs : ∀ o : ShiftOp, f3 w = o.op.funct3 → funct7 w = o.op.funct7 → ∃ p, Encodes w p := fun o hf h7 =>
    ⟨.shift o (rd w) (rs1 w) (rs2 w), hop, hf, h7, rfl, rfl, rfl⟩
  rcases funct3_cases (f3 w) with hf | hf | hf | hf | hf | hf | hf | hf
  · exact hi .addi hf
  · exact hs .slli hf (h1 hf)
  · exact hi .slti hf
  · exact hi .sltiu hf
  · exact hi .xori hf
  · rcases h5 hf with h7 | h7
    · exact hs .srli hf h7
    · exact hs .srai hf h7
  · exact hi .ori hf
  · exact hi .andi hf

/-- **The table has every computational instruction.** -/
theorem exists_instr {w : BitVec 32} (h : Computational w) : ∃ p, Encodes w p := by
  rcases h with ⟨hop, h7⟩ | ⟨hop, h1, h5⟩ | hop | hop
  · exact exists_op hop h7
  · exact exists_opImm hop h1 h5
  · exact ⟨.lui (rd w) _, hop, rfl, rfl⟩
  · exact ⟨.auipc (rd w) _, hop, rfl, rfl⟩

/-! ## The ALU -/

variable {w : BitVec 32} {a : Arch}

theorem immI_eq (w : BitVec 32) : immI w = (w.extractLsb' 20 12).signExtend 32 := by
  apply BitVec.eq_of_getLsbD_eq
  intro b hb
  rw [immI, BitVec.getLsbD_append, BitVec.getLsbD_signExtend, Asm.getLsbD_fill]
  by_cases hlt : b < 12
  · simp [hlt, hb]
  · simp [hlt, hb, BitVec.msb_eq_getLsbD_last, show b - 12 < 20 by omega]

theorem bit30_eq (w : BitVec 32) : w.getLsbD 30 = (funct7 w).getLsbD 5 := by
  simp [funct7]

theorem sra_eq (x : BitVec 32) (n : ℕ) : x.sshiftRight n = BitVec.ofInt 32 (x.toInt / 2 ^ n) := by
  rw [BitVec.sshiftRight, Int.shiftRight_eq_div_pow]
  norm_cast

/-- **The ALU.** `y` is the second operand; bit 30 is looked at by the register forms and by the right shifts only. -/
theorem alu_value {o : RegOp} {y : BitVec 32} (hf : f3 w = o.funct3) (hy : u2 w a = y)
    (hshift : (shiftAmt w a).toNat = y.toNat % 32) (hop : o = .sub → isOp w = true)
    (hbit : isOp w = true ∨ o.funct3 = 5 → w.getLsbD 30 = o.funct7.getLsbD 5) :
    alu w a = o.value (rs1v w a) y := by
  have hrs2 : isOp w = true → rs2v w a = y := fun h => by rw [← hy, u2, if_pos h]
  rw [alu, hf]
  cases o with
  | add =>
    have hadd : (isOp w && w.getLsbD 30) = false := by
      cases h : isOp w with
      | false => rfl
      | true => rw [hbit (.inl h)]; rfl
    show (if isOp w && w.getLsbD 30 then rs1v w a - rs2v w a else rs1v w a + u2 w a) = rs1v w a + y
    rw [hadd, if_neg Bool.false_ne_true, hy]
  | sub =>
    have hsub := hop rfl
    simp [RegOp.funct3, RegOp.value, hsub, hbit (.inl hsub), RegOp.funct7, hrs2 hsub]
  | sll => simp [RegOp.funct3, RegOp.value, hshift]
  | slt => simp [RegOp.funct3, RegOp.value, slt, hy, BitVec.slt_eq_decide]
  | sltu => simp [RegOp.funct3, RegOp.value, sltu, hy, BitVec.ult_eq_decide]
  | xor => simp [RegOp.funct3, RegOp.value, hy]
  | srl =>
    have hsrl : w.getLsbD 30 = false := hbit (.inr rfl)
    show (if w.getLsbD 30 then _ else rs1v w a >>> (shiftAmt w a).toNat) = rs1v w a >>> (y.toNat % 32)
    rw [hsrl, if_neg Bool.false_ne_true, hshift]
  | sra =>
    have hsra : w.getLsbD 30 = true := hbit (.inr rfl)
    show (if w.getLsbD 30 then (rs1v w a).sshiftRight (shiftAmt w a).toNat else _) = _
    rw [hsra, if_pos rfl, hshift, sra_eq]
    rfl
  | or => simp [RegOp.funct3, RegOp.value, hy]
  | and => simp [RegOp.funct3, RegOp.value, hy]

/-! ## One cycle -/

theorem wbVal_alu (h : opcode w = 0x33 ∨ opcode w = 0x13) : wbVal w a = alu w a := by
  rcases h with h | h <;> simp [wbVal, isJal, isJalr, isAuipc, isLui, h]

theorem rs2_eq_shamt (w : BitVec 32) : (immI w).extractLsb' 0 5 = rs2 w := by
  apply BitVec.eq_of_getLsbD_eq
  intro b hb
  rw [BitVec.getLsbD_extractLsb', immI, BitVec.getLsbD_append, rs2, BitVec.getLsbD_extractLsb']
  simp [hb, show b < 12 by omega]

/-- a shift reads the low five bits of its second operand -/
theorem shift_value (o : ShiftOp) {x y z : BitVec 32} (h : y.toNat % 32 = z.toNat % 32) :
    o.op.value x y = o.op.value x z := by
  cases o <;> simp only [ShiftOp.op, RegOp.value, h]

/-- the value written back -/
theorem wbVal_eq {p : Instr} (h : Encodes w p) : setReg a.rf (rd w) (wbVal w a) = (p.step a).rf := by
  cases p with
  | op o d s t =>
    obtain ⟨hop, hf, h7, rfl, rfl, rfl⟩ := h
    have hisOp : isOp w = true := by simp [isOp, hop]
    have hu : u2 w a = a.rf (rs2 w) := by rw [u2, if_pos hisOp, rs2v]
    have hshift : (shiftAmt w a).toNat = (a.rf (rs2 w)).toNat % 32 := by
      simp [shiftAmt, isOpImm, hop, rs2v]
    rw [wbVal_alu (.inl hop), alu_value hf hu hshift (fun _ => hisOp) fun _ => by rw [bit30_eq, h7]]
    rfl
  | opImm o d s imm =>
    obtain ⟨hop, hf, rfl, rfl, rfl⟩ := h
    have hisOp : isOp w = false := by simp [isOp, hop]
    have hu : u2 w a = (w.extractLsb' 20 12).signExtend 32 := by
      rw [← immI_eq]
      simp [u2, hisOp, isStore, hop]
    have hshift : (shiftAmt w a).toNat = ((w.extractLsb' 20 12).signExtend 32).toNat % 32 := by
      rw [← immI_eq]
      simp [shiftAmt, isOpImm, hop]
    have hnot : ¬ (isOp w = true ∨ o.op.funct3 = 5) := by cases o <;> simp [hisOp, ImmOp.op, RegOp.funct3]
    have hsub : o.op = .sub → isOp w = true := by cases o <;> simp [ImmOp.op]
    rw [wbVal_alu (.inr hop), alu_value hf hu hshift hsub fun h => absurd h hnot]
    rfl
  | shift o d s sh =>
    obtain ⟨hop, hf, h7, rfl, rfl, rfl⟩ := h
    have hu : u2 w a = immI w := by simp [u2, isOp, isStore, hop]
    have hshamt : (immI w).toNat % 32 = (rs2 w).toNat := by
      rw [← rs2_eq_shamt]
      simp
    have hshift : (shiftAmt w a).toNat = (immI w).toNat % 32 := by
      simp [shiftAmt, isOpImm, hop]
    have hsub : o.op = .sub → isOp w = true := by cases o <;> simp [ShiftOp.op]
    have hlow : (immI w).toNat % 32 = ((rs2 w).setWidth 32).toNat % 32 := by
      have hlt := (rs2 w).isLt
      rw [hshamt, BitVec.toNat_setWidth]
      omega
    rw [wbVal_alu (.inr hop), alu_value hf hu hshift hsub fun _ => by rw [bit30_eq, h7], shift_value o hlow]
    rfl
  | lui d u =>
    obtain ⟨hop, rfl, rfl⟩ := h
    simp [wbVal, isJal, isJalr, isAuipc, isLui, hop, Instr.step, immU]
  | auipc d u =>
    obtain ⟨hop, rfl, rfl⟩ := h
    simp [wbVal, isJal, isJalr, isAuipc, hop, Instr.step, immU]

theorem opcode_of_encodes {p : Instr} (h : Encodes w p) :
    opcode w = 0x33 ∨ opcode w = 0x13 ∨ opcode w = 0x37 ∨ opcode w = 0x17 := by
  cases p with
  | op => exact .inl h.1
  | opImm => exact .inr (.inl h.1)
  | shift => exact .inr (.inl h.1)
  | lui => exact .inr (.inr (.inl h.1))
  | auipc => exact .inr (.inr (.inr h.1))

theorem step_pc (p : Instr) (a : Arch) : (p.step a).pc = a.pc + 4 := by
  cases p <;> rfl

/-- **Computational instructions follow RV32I.** For every core state about to execute one of them, with either data
memory, any pc, any register file and any inputs, one cycle
- sets the destination register (unless it is x0) to the value of the specification, leaves the other registers, and adds
  4 to the pc;
- leaves the data memory alone and drives neither a request nor a ready response on the memory port;
- and the core is ready for the next instruction. -/
theorem computes (e : Bool) (r : Reg) (i : In) (he : Executes r) (hw : Computational (inst r)) :
    (∃ p, Encodes (inst r) p) ∧
    ∀ p, Encodes (inst r) p →
      arch (next e r i) = p.step (arch r) ∧ (next e r i).dmem = r.dmem ∧
        memReqValid e r = false ∧ memRespReady r = false ∧ Executes (next e r i) := by
  refine ⟨exists_instr hw, fun p hp => ?_⟩
  have hop := opcode_of_encodes hp
  have hhalt : opcode (inst r) ≠ 0x7f := by rcases hop with h | h | h | h <;> simp [h]
  have hmem : isMem (inst r) = false := by rcases hop with h | h | h | h <;> simp [isMem, isLoad, isStore, h]
  have hpc : nextPc (inst r) (arch r) = r.pc + 4 := by
    rcases hop with h | h | h | h <;> simp [nextPc, isJalr, isJal, isBranch, h, arch]
  obtain ⟨harch, he'⟩ := next_compute (e := e) (i := i) he hhalt hmem
  refine ⟨?_, ?_, ?_, he.memWait, he'⟩
  · rw [harch, setReg_of_wbEn (by rcases hop with h | h | h | h <;> simp [h]), hpc]
    exact congrArg₂ Arch.mk (step_pc p (arch r)).symm (wbVal_eq (a := arch r) hp)
  · rw [next_eq_compute he hhalt hmem]
    rfl
  · simp [memReqValid, hmem]

/-- `srai x5, x5, 4` with -16 in x5 -/
def shifting : Reg := { reset with
  imem := fun _ => 0x4042d293
  rf := fun x => if x = 5 then 0xfffffff0 else 0
  running := true }

theorem computes_srai :
    arch (next true shifting quiet) = (Instr.shift .srai 5 5 4).step (arch shifting) ∧
      (next true shifting quiet).rf 5 = 0xffffffff := by
  obtain ⟨-, h⟩ := computes true shifting quiet ⟨rfl, rfl, rfl, rfl⟩ (by decide)
  obtain ⟨harch, -⟩ := h (.shift .srai 5 5 4) (by unfold Encodes; decide)
  refine ⟨harch, ?_⟩
  rw [show (next true shifting quiet).rf = (arch (next true shifting quiet)).rf from rfl, harch]
  decide

end AegisSoc.Compute
