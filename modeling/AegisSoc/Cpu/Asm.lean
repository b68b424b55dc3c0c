/-
The instruction encoder that the test programs are built with (`cpu/Asm.scala`), and what the core reads out of the words
it produces.

- `rType_eq`, `iType_eq`, `sType_eq`, `bType_eq`, `uType_eq`, `jType_eq`: every format is a word of placed fields;
- `immI_iType`, `immB_bType`, `immU_uType`: the core reassembles the immediate;
- `immJ_jType`: except that of the J format, which it reassembles without bit 31.
-/
import AegisSoc.Cpu.RiscVICore
import AegisSoc.Lib.Fields

namespace AegisSoc.Asm

open Fields RiscVICore

/-! ## Formats -/

/-- Scala's `Int` has 32 bits, and `>>` keeps the sign -/
def bit (x : BitVec 32) (i : ℕ) : BitVec 32 := x.sshiftRight i &&& 1
def mask (v : BitVec 32) (hi lo : ℕ) : BitVec 32 := v.sshiftRight lo &&& ((1 : BitVec 32) <<< (hi - lo + 1) - 1)

def rType (funct7 rs2 rs1 funct3 rd op : BitVec 32) : BitVec 32 :=
  (funct7 <<< 25) ||| (rs2 <<< 20) ||| (rs1 <<< 15) ||| (funct3 <<< 12) ||| (rd <<< 7) ||| op

def iType (imm rs1 funct3 rd op : BitVec 32) : BitVec 32 :=
  ((imm &&& 0xfff) <<< 20) ||| (rs1 <<< 15) ||| (funct3 <<< 12) ||| (rd <<< 7) ||| op

def sType (imm rs2 rs1 funct3 op : BitVec 32) : BitVec 32 :=
  (mask imm 11 5 <<< 25) ||| (rs2 <<< 20) ||| (rs1 <<< 15) ||| (funct3 <<< 12) ||| (mask imm 4 0 <<< 7) ||| op

def bType (imm rs2 rs1 funct3 op : BitVec 32) : BitVec 32 :=
  (bit imm 12 <<< 31) ||| (mask imm 10 5 <<< 25) ||| (rs2 <<< 20) ||| (rs1 <<< 15) ||| (funct3 <<< 12) |||
    (mask imm 4 1 <<< 8) ||| (bit imm 11 <<< 7) ||| op

def uType (imm rd op : BitVec 32) : BitVec 32 := ((imm &&& 0xfffff) <<< 12) ||| (rd <<< 7) ||| op

def jType (imm rd op : BitVec 32) : BitVec 32 :=
  (bit imm 20 <<< 31) ||| (mask imm 10 1 <<< 21) ||| (bit imm 11 <<< 20) ||| (mask imm 19 12 <<< 12) ||| (rd <<< 7) ||| op

/-! ## Control transfers and AUIPC -/

def beq (rs1 rs2 off : BitVec 32) : BitVec 32 := bType off rs2 rs1 0 0x63
def bne (rs1 rs2 off : BitVec 32) : BitVec 32 := bType off rs2 rs1 1 0x63
def blt (rs1 rs2 off : BitVec 32) : BitVec 32 := bType off rs2 rs1 4 0x63
def bge (rs1 rs2 off : BitVec 32) : BitVec 32 := bType off rs2 rs1 5 0x63
def bltu (rs1 rs2 off : BitVec 32) : BitVec 32 := bType off rs2 rs1 6 0x63
def bgeu (rs1 rs2 off : BitVec 32) : BitVec 32 := bType off rs2 rs1 7 0x63
def auipc (rd imm20 : BitVec 32) : BitVec 32 := uType imm20 rd 0x17
def jal (rd off : BitVec 32) : BitVec 32 := jType off rd 0x6f
def jalr (rd rs1 imm : BitVec 32) : BitVec 32 := iType imm rs1 0 rd 0x67

/-! ## The other instructions -/

protected def add (rd rs1 rs2 : BitVec 32) : BitVec 32 := rType 0 rs2 rs1 0 rd 0x33
protected def sub (rd rs1 rs2 : BitVec 32) : BitVec 32 := rType 0x20 rs2 rs1 0 rd 0x33
protected def and (rd rs1 rs2 : BitVec 32) : BitVec 32 := rType 0 rs2 rs1 7 rd 0x33
protected def or (rd rs1 rs2 : BitVec 32) : BitVec 32 := rType 0 rs2 rs1 6 rd 0x33
protected def xor (rd rs1 rs2 : BitVec 32) : BitVec 32 := rType 0 rs2 rs1 4 rd 0x33
protected def sll (rd rs1 rs2 : BitVec 32) : BitVec 32 := rType 0 rs2 rs1 1 rd 0x33
protected def srl (rd rs1 rs2 : BitVec 32) : BitVec 32 := rType 0 rs2 rs1 5 rd 0x33
protected def sra (rd rs1 rs2 : BitVec 32) : BitVec 32 := rType 0x20 rs2 rs1 5 rd 0x33
protected def slt (rd rs1 rs2 : BitVec 32) : BitVec 32 := rType 0 rs2 rs1 2 rd 0x33
protected def sltu (rd rs1 rs2 : BitVec 32) : BitVec 32 := rType 0 rs2 rs1 3 rd 0x33

protected def addi (rd rs1 imm : BitVec 32) : BitVec 32 := iType imm rs1 0 rd 0x13
protected def slli (rd rs1 sh : BitVec 32) : BitVec 32 := iType sh rs1 1 rd 0x13
protected def srli (rd rs1 sh : BitVec 32) : BitVec 32 := iType sh rs1 5 rd 0x13
protected def srai (rd rs1 sh : BitVec 32) : BitVec 32 := iType (0x400 ||| sh) rs1 5 rd 0x13
protected def andi (rd rs1 imm : BitVec 32) : BitVec 32 := iType imm rs1 7 rd 0x13
protected def ori (rd rs1 imm : BitVec 32) : BitVec 32 := iType imm rs1 6 rd 0x13
protected def xori (rd rs1 imm : BitVec 32) : BitVec 32 := iType imm rs1 4 rd 0x13
protected def slti (rd rs1 imm : BitVec 32) : BitVec 32 := iType imm rs1 2 rd 0x13
protected def sltiu (rd rs1 imm : BitVec 32) : BitVec 32 := iType imm rs1 3 rd 0x13

protected def lw (rd rs1 imm : BitVec 32) : BitVec 32 := iType imm rs1 2 rd 0x03
protected def lh (rd rs1 imm : BitVec 32) : BitVec 32 := iType imm rs1 1 rd 0x03
protected def lb (rd rs1 imm : BitVec 32) : BitVec 32 := iType imm rs1 0 rd 0x03
protected def lbu (rd rs1 imm : BitVec 32) : BitVec 32 := iType imm rs1 4 rd 0x03
protected def lhu (rd rs1 imm : BitVec 32) : BitVec 32 := iType imm rs1 5 rd 0x03

protected def sw (rs1 rs2 imm : BitVec 32) : BitVec 32 := sType imm rs2 rs1 2 0x23
protected def sh (rs1 rs2 imm : BitVec 32) : BitVec 32 := sType imm rs2 rs1 1 0x23
protected def sb (rs1 rs2 imm : BitVec 32) : BitVec 32 := sType imm rs2 rs1 0 0x23

protected def lui (rd imm20 : BitVec 32) : BitVec 32 := uType imm20 rd 0x37

protected def halt : BitVec 32 := 0xffffffff

/-! ## What the core reads out of them -/

theorem bit_field (x : BitVec 32) {i : ℕ} (h : i < 32) : bit x i = (x.extractLsb' i 1).setWidth 32 := bit_eq x h

theorem mask_field (x : BitVec 32) {hi lo k : ℕ} (hk : hi - lo + 1 = k) (h : lo + k ≤ 32) (hlt : k < 32) :
    mask x hi lo = (x.extractLsb' lo k).setWidth 32 := by
  subst hk
  exact mask_eq x h hlt

theorem getLsbD_fill (n : ℕ) (b : Bool) (i : ℕ) : (fill n b).getLsbD i = (decide (i < n) && b) := by
  cases b <;> simp [fill]

section

variable (imm : BitVec 32) (r1 r2 r : BitVec 5) (f : BitVec 3) (op g : BitVec 7)

theorem rType_eq : rType (g.setWidth 32) (r2.setWidth 32) (r1.setWidth 32) (f.setWidth 32) (r.setWidth 32)
      (op.setWidth 32) =
    place 32 25 g ||| place 32 20 r2 ||| place 32 15 r1 ||| place 32 12 f ||| place 32 7 r ||| place 32 0 op := by
  rw [rType, place_zero op]
  rfl

theorem sType_eq : sType imm (r2.setWidth 32) (r1.setWidth 32) (f.setWidth 32) (op.setWidth 32) =
    place 32 25 (imm.extractLsb' 5 7) ||| place 32 20 r2 ||| place 32 15 r1 ||| place 32 12 f |||
      place 32 7 (imm.extractLsb' 0 5) ||| place 32 0 op := by
  rw [sType, mask_field imm (k := 7) rfl (by decide) (by decide), mask_field imm (k := 5) rfl (by decide) (by decide),
    place_zero op]
  rfl

theorem iType_eq : iType imm (r1.setWidth 32) (f.setWidth 32) (r.setWidth 32) (op.setWidth 32) =
    place 32 20 (imm.extractLsb' 0 12) ||| place 32 15 r1 ||| place 32 12 f ||| place 32 7 r ||| place 32 0 op := by
  have hmask : imm &&& 0xfff = (imm.extractLsb' 0 12).setWidth 32 := low_eq imm (m := 12) (by decide)
  rw [iType, hmask, place_zero op]
  rfl

theorem bType_eq : bType imm (r2.setWidth 32) (r1.setWidth 32) (f.setWidth 32) (op.setWidth 32) =
    place 32 31 (imm.extractLsb' 12 1) ||| place 32 25 (imm.extractLsb' 5 6) ||| place 32 20 r2 ||| place 32 15 r1 |||
      place 32 12 f ||| place 32 8 (imm.extractLsb' 1 4) ||| place 32 7 (imm.extractLsb' 11 1) ||| place 32 0 op := by
  rw [bType, bit_field imm (by decide), bit_field imm (by decide), mask_field imm (k := 6) rfl (by decide) (by decide),
    mask_field imm (k := 4) rfl (by decide) (by decide), place_zero op]
  rfl

theorem uType_eq : uType imm (r.setWidth 32) (op.setWidth 32) =
    place 32 12 (imm.extractLsb' 0 20) ||| place 32 7 r ||| place 32 0 op := by
  have hmask : imm &&& 0xfffff = (imm.extractLsb' 0 20).setWidth 32 := low_eq imm (m := 20) (by decide)
  rw [uType, hmask, place_zero op]
  rfl

theorem jType_eq : jType imm (r.setWidth 32) (op.setWidth 32) =
    place 32 31 (imm.extractLsb' 20 1) ||| place 32 21 (imm.extractLsb' 1 10) ||| place 32 20 (imm.extractLsb' 11 1) |||
      place 32 12 (imm.extractLsb' 12 8) ||| place 32 7 r ||| place 32 0 op := by
  rw [jType, bit_field imm (by decide), bit_field imm (by decide), mask_field imm (k := 10) rfl (by decide) (by decide),
    mask_field imm (k := 8) rfl (by decide) (by decide), place_zero op]
  rfl

theorem rType_fields :
    let w := rType (g.setWidth 32) (r2.setWidth 32) (r1.setWidth 32) (f.setWidth 32) (r.setWidth 32) (op.setWidth 32)
    opcode w = op ∧ rd w = r ∧ f3 w = f ∧ rs1 w = r1 ∧ rs2 w = r2 ∧ w.extractLsb' 25 7 = g := by
  intro w
  simp only [w, rType_eq, opcode, rd, rs1, rs2, f3, BitVec.extractLsb'_or]
  simp (disch := omega) only [extract_place, extract_place_off, BitVec.or_zero, BitVec.zero_or, and_self]

theorem sType_fields : let w := sType imm (r2.setWidth 32) (r1.setWidth 32) (f.setWidth 32) (op.setWidth 32)
    opcode w = op ∧ rs1 w = r1 ∧ rs2 w = r2 ∧ f3 w = f ∧ w.extractLsb' 25 7 = imm.extractLsb' 5 7 ∧
      w.extractLsb' 7 5 = imm.extractLsb' 0 5 := by
  intro w
  simp only [w, sType_eq, opcode, rs1, rs2, f3, BitVec.extractLsb'_or]
  simp (disch := omega) only [extract_place, extract_place_off, BitVec.or_zero, BitVec.zero_or, and_self]

theorem iType_fields : let w := iType imm (r1.setWidth 32) (f.setWidth 32) (r.setWidth 32) (op.setWidth 32)
    opcode w = op ∧ rd w = r ∧ rs1 w = r1 ∧ f3 w = f ∧ w.extractLsb' 20 12 = imm.extractLsb' 0 12 := by
  intro w
  simp only [w, iType_eq, opcode, rd, rs1, f3, BitVec.extractLsb'_or]
  simp (disch := omega) only [extract_place, extract_place_off, BitVec.or_zero, BitVec.zero_or, and_self]

theorem bType_fields : let w := bType imm (r2.setWidth 32) (r1.setWidth 32) (f.setWidth 32) (op.setWidth 32)
    opcode w = op ∧ rs1 w = r1 ∧ rs2 w = r2 ∧ f3 w = f ∧ w.extractLsb' 31 1 = imm.extractLsb' 12 1 ∧
      w.extractLsb' 7 1 = imm.extractLsb' 11 1 ∧ w.extractLsb' 25 6 = imm.extractLsb' 5 6 ∧
      w.extractLsb' 8 4 = imm.extractLsb' 1 4 := by
  intro w
  simp only [w, bType_eq, opcode, rs1, rs2, f3, BitVec.extractLsb'_or]
  simp (disch := omega) only [extract_place, extract_place_off, BitVec.or_zero, BitVec.zero_or, and_self]

theorem uType_fields : let w := uType imm (r.setWidth 32) (op.setWidth 32)
    opcode w = op ∧ rd w = r ∧ w.extractLsb' 12 20 = imm.extractLsb' 0 20 := by
  intro w
  simp only [w, uType_eq, opcode, rd, BitVec.extractLsb'_or]
  simp (disch := omega) only [extract_place, extract_place_off, BitVec.or_zero, BitVec.zero_or, and_self]

theorem jType_fields : let w := jType imm (r.setWidth 32) (op.setWidth 32)
    opcode w = op ∧ rd w = r ∧ w.extractLsb' 31 1 = imm.extractLsb' 20 1 ∧ w.extractLsb' 21 10 = imm.extractLsb' 1 10 ∧
      w.extractLsb' 20 1 = imm.extractLsb' 11 1 ∧ w.extractLsb' 12 8 = imm.extractLsb' 12 8 := by
  intro w
  simp only [w, jType_eq, opcode, rd, BitVec.extractLsb'_or]
  simp (disch := omega) only [extract_place, extract_place_off, BitVec.or_zero, BitVec.zero_or, and_self]

end

/-! ## Immediates -/

section

variable (r1 r2 r : BitVec 5) (f : BitVec 3) (op : BitVec 7)

theorem immI_iType (y : BitVec 12) :
    immI (iType (y.signExtend 32) (r1.setWidth 32) (f.setWidth 32) (r.setWidth 32) (op.setWidth 32)) = y.signExtend 32 := by
  obtain ⟨-, -, -, -, himm⟩ := iType_fields (y.signExtend 32) r1 r f op
  have hsign : (iType (y.signExtend 32) (r1.setWidth 32) (f.setWidth 32) (r.setWidth 32) (op.setWidth 32)).getLsbD 31 =
      y.getLsbD 11 := by
    have hbit := congrArg (fun z => z.getLsbD 11) himm
    simpa [BitVec.getElem_signExtend] using hbit
  rw [immI, hsign, himm]
  apply BitVec.eq_of_getLsbD_eq
  intro i hi
  simp only [BitVec.getLsbD_append, getLsbD_fill, BitVec.getLsbD_extractLsb', BitVec.getLsbD_signExtend,
    BitVec.msb_eq_getLsbD_last]
  interval_cases i <;> simp

theorem immB_bType (y : BitVec 13) (h0 : y[0] = false) :
    immB (bType (y.signExtend 32) (r2.setWidth 32) (r1.setWidth 32) (f.setWidth 32) (op.setWidth 32)) = y.signExtend 32 := by
  obtain ⟨-, -, -, -, h31, h7, h25, h8⟩ := bType_fields (y.signExtend 32) r1 r2 f op
  rw [immB, getLsbD_eq_extract, h31, h7, h25, h8]
  apply BitVec.eq_of_getLsbD_eq
  intro i hi
  simp only [BitVec.getLsbD_append, getLsbD_fill, BitVec.getLsbD_extractLsb', BitVec.getLsbD_signExtend,
    BitVec.msb_eq_getLsbD_last]
  interval_cases i <;> simp [h0]

theorem immU_uType (u : BitVec 20) : immU (uType (u.setWidth 32) (r.setWidth 32) (op.setWidth 32)) = u ++ 0#12 := by
  obtain ⟨-, -, himm⟩ := uType_fields (u.setWidth 32) r op
  rw [immU, himm, place_zero u, extract_place u (by decide)]

/-- the sign is extended to bit 30 only -/
theorem immJ_jType (y : BitVec 21) (h0 : y[0] = false) :
    immJ (jType (y.signExtend 32) (r.setWidth 32) (op.setWidth 32)) = y.signExtend 31 := by
  obtain ⟨-, -, h31, h21, h20, h12⟩ := jType_fields (y.signExtend 32) r op
  rw [immJ, getLsbD_eq_extract, h31, h21, h20, h12]
  apply BitVec.eq_of_getLsbD_eq
  intro i hi
  simp only [BitVec.getLsbD_append, getLsbD_fill, BitVec.getLsbD_extractLsb', BitVec.getLsbD_signExtend,
    BitVec.msb_eq_getLsbD_last]
  interval_cases i <;> simp [h0]

end

end AegisSoc.Asm
