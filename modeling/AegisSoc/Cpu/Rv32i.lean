/-
The instructions of RV32I (the computational ones, the transfers, the loads and the stores), their encoding table, and the
assembler of the test programs (`cpu/Asm.scala`) against it.

- `decode`: the row of the table that has a word; `Encodes` says the same as a relation;
- `Instr.word`: what the assembler emits;
- `encodes_word`, `encodes_unique`: it encodes the instruction, and no other word does;
- `decode_eq_some_iff`: so the assembler and the table are inverse.
-/
import AegisSoc.Cpu.Loads

namespace AegisSoc.Rv32i

open RiscVICore
open Compute (RegOp ImmOp ShiftOp funct7)
open Loads (LoadOp Load)
open Transfers (Cond)

/-! ## Instructions -/

inductive StoreOp where
  | sb
  | sh
  | sw
deriving DecidableEq, Repr

def StoreOp.funct3 : StoreOp → BitVec 3
  | sb => 0
  | sh => 1
  | sw => 2

def StoreOp.bytes : StoreOp → ℕ
  | sb => 1
  | sh => 2
  | sw => 4

structure Store where
  op : StoreOp
  rs1 : BitVec 5
  rs2 : BitVec 5
  imm : BitVec 12
deriving DecidableEq, Repr

/-- offsets of branches and JAL are in units of two bytes, as they are encoded -/
inductive Instr where
  | compute (p : Compute.Instr)
  | branch (c : Cond) (rs1 rs2 : BitVec 5) (off : BitVec 12)
  | jal (rd : BitVec 5) (off : BitVec 20)
  | jalr (rd rs1 : BitVec 5) (imm : BitVec 12)
  | load (p : Load)
  | store (p : Store)
deriving DecidableEq, Repr

/-! ## The encoding table -/

section Table

variable (w : BitVec 32)

def offB : BitVec 12 := w.extractLsb' 31 1 ++ w.extractLsb' 7 1 ++ w.extractLsb' 25 6 ++ w.extractLsb' 8 4
def offJ : BitVec 20 := w.extractLsb' 31 1 ++ w.extractLsb' 12 8 ++ w.extractLsb' 20 1 ++ w.extractLsb' 21 10
def offS : BitVec 12 := w.extractLsb' 25 7 ++ w.extractLsb' 7 5

end Table

/-- the word `w` encodes the instruction -/
def Encodes (w : BitVec 32) : Instr → Prop
  | .compute p => Compute.Encodes w p
  | .branch c s t off => opcode w = 0x63 ∧ f3 w = c.funct3 ∧ rs1 w = s ∧ rs2 w = t ∧ offB w = off
  | .jal d off => opcode w = 0x6f ∧ rd w = d ∧ offJ w = off
  | .jalr d s imm => opcode w = 0x67 ∧ f3 w = 0 ∧ rd w = d ∧ rs1 w = s ∧ w.extractLsb' 20 12 = imm
  | .load p => opcode w = 0x03 ∧ f3 w = p.op.funct3 ∧ rd w = p.rd ∧ rs1 w = p.rs1 ∧ w.extractLsb' 20 12 = p.imm
  | .store p => opcode w = 0x23 ∧ f3 w = p.op.funct3 ∧ rs1 w = p.rs1 ∧ rs2 w = p.rs2 ∧ offS w = p.imm

def regOps : List RegOp := [.add, .sub, .sll, .slt, .sltu, .xor, .srl, .sra, .or, .and]
def immOps : List ImmOp := [.addi, .slti, .sltiu, .xori, .ori, .andi]
def shiftOps : List ShiftOp := [.slli, .srli, .srai]
def conds : List Cond := [.eq, .ne, .lt, .ge, .ltu, .geu]
def loadOps : List LoadOp := [.lb, .lh, .lw, .lbu, .lhu]
def storeOps : List StoreOp := [.sb, .sh, .sw]

/-- the row of the table that has the word, if there is one -/
def decode (w : BitVec 32) : Option Instr :=
  if opcode w = 0x33 then
    (regOps.find? fun o => f3 w = o.funct3 ∧ funct7 w = o.funct7).map fun o => .compute (.op o (rd w) (rs1 w) (rs2 w))
  else if opcode w = 0x13 then
    ((immOps.find? fun o => f3 w = o.op.funct3).map fun o => .compute (.opImm o (rd w) (rs1 w) (w.extractLsb' 20 12))).or
      ((shiftOps.find? fun o => f3 w = o.op.funct3 ∧ funct7 w = o.op.funct7).map fun o =>
        .compute (.shift o (rd w) (rs1 w) (rs2 w)))
  else if opcode w = 0x37 then some (.compute (.lui (rd w) (w.extractLsb' 12 20)))
  else if opcode w = 0x17 then some (.compute (.auipc (rd w) (w.extractLsb' 12 20)))
  else if opcode w = 0x63 then
    (conds.find? fun c => f3 w = c.funct3).map fun c => .branch c (rs1 w) (rs2 w) (offB w)
  else if opcode w = 0x6f then some (.jal (rd w) (offJ w))
  else if opcode w = 0x67 then
    if f3 w = 0 then some (.jalr (rd w) (rs1 w) (w.extractLsb' 20 12)) else none
  else if opcode w = 0x03 then
    (loadOps.find? fun o => f3 w = o.funct3).map fun o => .load ⟨o, rd w, rs1 w, w.extractLsb' 20 12⟩
  else if opcode w = 0x23 then
    (storeOps.find? fun o => f3 w = o.funct3).map fun o => .store ⟨o, rs1 w, rs2 w, offS w⟩
  else none

/-- a row that is found has the key -/
theorem find_key {α : Type} {l : List α} {q : α → Prop} [DecidablePred q] {o : α}
    (h : l.find? (fun o => q o) = some o) : q o := by
  have hq := List.find?_some h
  simpa using hq

theorem encodes_of_decode {w : BitVec 32} {p : Instr} (h : decode w = some p) : Encodes w p := by
  unfold decode at h
  -- one opcode at a time, in the order of the table
  by_cases h33 : opcode w = 0x33
  · rw [if_pos h33] at h
    obtain ⟨o, ho, rfl⟩ := Option.map_eq_some_iff.1 h
    obtain ⟨hf3, hf7⟩ := find_key ho
    exact ⟨h33, hf3, hf7, rfl, rfl, rfl⟩
  rw [if_neg h33] at h
  by_cases h13 : opcode w = 0x13
  · rw [if_pos h13] at h
    rcases Option.or_eq_some_iff.1 h with h | ⟨-, h⟩
    · obtain ⟨o, ho, rfl⟩ := Option.map_eq_some_iff.1 h
      have hf3 := find_key ho
      exact ⟨h13, hf3, rfl, rfl, rfl⟩
    · obtain ⟨o, ho, rfl⟩ := Option.map_eq_some_iff.1 h
      obtain ⟨hf3, hf7⟩ := find_key ho
      exact ⟨h13, hf3, hf7, rfl, rfl, rfl⟩
  rw [if_neg h13] at h
  by_cases h37 : opcode w = 0x37
  · rw [if_pos h37] at h
    obtain rfl := Option.some.inj h
    exact ⟨h37, rfl, rfl⟩
  rw [if_neg h37] at h
  by_cases h17 : opcode w = 0x17
  · rw [if_pos h17] at h
    obtain rfl := Option.some.inj h
    exact ⟨h17, rfl, rfl⟩
  rw [if_neg h17] at h
  by_cases h63 : opcode w = 0x63
  · rw [if_pos h63] at h
    obtain ⟨c, hc, rfl⟩ := Option.map_eq_some_iff.1 h
    have hf3 := find_key hc
    exact ⟨h63, hf3, rfl, rfl, rfl⟩
  rw [if_neg h63] at h
  by_cases h6f : opcode w = 0x6f
  · rw [if_pos h6f] at h
    obtain rfl := Option.some.inj h
    exact ⟨h6f, rfl, rfl⟩
  rw [if_neg h6f] at h
  by_cases h67 : opcode w = 0x67
  · rw [if_pos h67] at h
    obtain ⟨hf, h⟩ := Option.ite_none_right_eq_some.1 h
    obtain rfl := Option.some.inj h
    exact ⟨h67, hf, rfl, rfl, rfl⟩
  rw [if_neg h67] at h
  by_cases h03 : opcode w = 0x03
  · rw [if_pos h03] at h
    obtain ⟨o, ho, rfl⟩ := Option.map_eq_some_iff.1 h
    have hf3 := find_key ho
    exact ⟨h03, hf3, rfl, rfl, rfl⟩
  rw [if_neg h03] at h
  obtain ⟨h23, h⟩ := Option.ite_none_right_eq_some.1 h
  obtain ⟨o, ho, rfl⟩ := Option.map_eq_some_iff.1 h
  have hf3 := find_key ho
  exact ⟨h23, hf3, rfl, rfl, rfl⟩

theorem decode_of_encodes {w : BitVec 32} {p : Instr} (h : Encodes w p) : decode w = some p := by
  cases p with
  | compute p =>
    cases p with
    | op o d s t =>
      obtain ⟨hop, hf3, hf7, rfl, rfl, rfl⟩ := h
      have hfind : (regOps.find? fun o => f3 w = o.funct3 ∧ funct7 w = o.funct7) = some o := by
        rw [hf3, hf7]
        cases o <;> decide
      simp only [decode, hop, hfind, BitVec.reduceEq, reduceIte, Option.map_some]
    | opImm o d s imm =>
      obtain ⟨hop, hf3, rfl, rfl, rfl⟩ := h
      have hfind : (immOps.find? fun o => f3 w = o.op.funct3) = some o := by
        rw [hf3]
        cases o <;> decide
      simp only [decode, hop, hfind, BitVec.reduceEq, reduceIte, Option.map_some, Option.some_or]
    | shift o d s sh =>
      obtain ⟨hop, hf3, hf7, rfl, rfl, rfl⟩ := h
      have hnone : (immOps.find? fun o => f3 w = o.op.funct3) = none := by
        rw [hf3]
        cases o <;> decide
      have hfind : (shiftOps.find? fun o => f3 w = o.op.funct3 ∧ funct7 w = o.op.funct7) = some o := by
        rw [hf3, hf7]
        cases o <;> decide
      simp only [decode, hop, hnone, hfind, BitVec.reduceEq, reduceIte, Option.map_none, Option.map_some, Option.none_or]
    | lui d u =>
      obtain ⟨hop, rfl, rfl⟩ := h
      simp [decode, hop]
    | auipc d u =>
      obtain ⟨hop, rfl, rfl⟩ := h
      simp [decode, hop]
  | branch c s t off =>
    obtain ⟨hop, hf3, rfl, rfl, rfl⟩ := h
    have hfind : (conds.find? fun c => f3 w = c.funct3) = some c := by
      rw [hf3]
      cases c <;> decide
    simp only [decode, hop, hfind, BitVec.reduceEq, reduceIte, Option.map_some]
  | jal d off =>
    obtain ⟨hop, rfl, rfl⟩ := h
    simp [decode, hop]
  | jalr d s imm =>
    obtain ⟨hop, hf3, rfl, rfl, rfl⟩ := h
    simp [decode, hop, hf3]
  | load p =>
    obtain ⟨o, d, s, imm⟩ := p
    obtain ⟨hop, hf3, rfl, rfl, rfl⟩ := h
    have hfind : (loadOps.find? fun o => f3 w = o.funct3) = some o := by
      rw [show f3 w = o.funct3 from hf3]
      clear hf3
      cases o <;> decide
    simp only [decode, hop, hfind, BitVec.reduceEq, reduceIte, Option.map_some]
  | store p =>
    obtain ⟨o, s, t, imm⟩ := p
    obtain ⟨hop, hf3, rfl, rfl, rfl⟩ := h
    have hfind : (storeOps.find? fun o => f3 w = o.funct3) = some o := by
      rw [show f3 w = o.funct3 from hf3]
      clear hf3
      cases o <;> decide
    simp only [decode, hop, hfind, BitVec.reduceEq, reduceIte, Option.map_some]

/-! ## The assembler -/

def regWord : RegOp → BitVec 32 → BitVec 32 → BitVec 32 → BitVec 32
  | .add => Asm.add
  | .sub => Asm.sub
  | .sll => Asm.sll
  | .slt => Asm.slt
  | .sltu => Asm.sltu
  | .xor => Asm.xor
  | .srl => Asm.srl
  | .sra => Asm.sra
  | .or => Asm.or
  | .and => Asm.and

def immWord : ImmOp → BitVec 32 → BitVec 32 → BitVec 32 → BitVec 32
  | .addi => Asm.addi
  | .slti => Asm.slti
  | .sltiu => Asm.sltiu
  | .xori => Asm.xori
  | .ori => Asm.ori
  | .andi => Asm.andi

def shiftWord : ShiftOp → BitVec 32 → BitVec 32 → BitVec 32 → BitVec 32
  | .slli => Asm.slli
  | .srli => Asm.srli
  | .srai => Asm.srai

def condWord : Cond → BitVec 32 → BitVec 32 → BitVec 32 → BitVec 32
  | .eq => Asm.beq
  | .ne => Asm.bne
  | .lt => Asm.blt
  | .ge => Asm.bge
  | .ltu => Asm.bltu
  | .geu => Asm.bgeu

def loadWord : LoadOp → BitVec 32 → BitVec 32 → BitVec 32 → BitVec 32
  | .lb => Asm.lb
  | .lh => Asm.lh
  | .lw => Asm.lw
  | .lbu => Asm.lbu
  | .lhu => Asm.lhu

def storeWord : StoreOp → BitVec 32 → BitVec 32 → BitVec 32 → BitVec 32
  | .sb => Asm.sb
  | .sh => Asm.sh
  | .sw => Asm.sw

/-- what the assembler emits for the instruction, its operands passed as signed numbers -/
def Instr.word : Instr → BitVec 32
  | .compute (.op o d s t) => regWord o (d.setWidth 32) (s.setWidth 32) (t.setWidth 32)
  | .compute (.opImm o d s imm) => immWord o (d.setWidth 32) (s.setWidth 32) (imm.signExtend 32)
  | .compute (.shift o d s sh) => shiftWord o (d.setWidth 32) (s.setWidth 32) (sh.setWidth 32)
  | .compute (.lui d u) => Asm.lui (d.setWidth 32) (u.setWidth 32)
  | .compute (.auipc d u) => Asm.auipc (d.setWidth 32) (u.setWidth 32)
  | .branch c s t off => condWord c (s.setWidth 32) (t.setWidth 32) ((off ++ 0#1).signExtend 32)
  | .jal d off => Asm.jal (d.setWidth 32) ((off ++ 0#1).signExtend 32)
  | .jalr d s imm => Asm.jalr (d.setWidth 32) (s.setWidth 32) (imm.signExtend 32)
  | .load ⟨o, d, s, imm⟩ => loadWord o (d.setWidth 32) (s.setWidth 32) (imm.signExtend 32)
  | .store ⟨o, s, t, imm⟩ => storeWord o (s.setWidth 32) (t.setWidth 32) (imm.signExtend 32)

/-! The six fields of a word, read out of the longer ones. -/

section Fields

variable (w : BitVec 32)

theorem funct7_immI : funct7 w = (w.extractLsb' 20 12).extractLsb' 5 7 := by
  apply BitVec.eq_of_getLsbD_eq
  intro b hb
  simp [funct7, hb, show 5 + b < 12 by omega, show 25 + b = 20 + (5 + b) by omega]

theorem rs2_immI : rs2 w = (w.extractLsb' 20 12).extractLsb' 0 5 := by
  apply BitVec.eq_of_getLsbD_eq
  intro b hb
  simp [rs2, hb, show b < 12 by omega]

theorem fields_immU : f3 w = (w.extractLsb' 12 20).extractLsb' 0 3 ∧ rs1 w = (w.extractLsb' 12 20).extractLsb' 3 5 ∧
    rs2 w = (w.extractLsb' 12 20).extractLsb' 8 5 ∧ funct7 w = (w.extractLsb' 12 20).extractLsb' 13 7 := by
  refine ⟨?_, ?_, ?_, ?_⟩ <;> apply BitVec.eq_of_getLsbD_eq <;> intro b hb <;>
    simp only [f3, rs1, rs2, funct7, BitVec.getLsbD_extractLsb'] <;> interval_cases b <;> simp

theorem fields_offS : rd w = (offS w).extractLsb' 0 5 ∧ funct7 w = (offS w).extractLsb' 5 7 := by
  rw [offS, BitVec.extractLsb'_append_eq_left, BitVec.extractLsb'_append_eq_right]
  exact ⟨rfl, rfl⟩

theorem fields_offB : rd w = (offB w).extractLsb' 0 4 ++ (offB w).extractLsb' 10 1 ∧
    funct7 w = (offB w).extractLsb' 11 1 ++ (offB w).extractLsb' 4 6 := by
  refine ⟨?_, ?_⟩ <;> apply BitVec.eq_of_getLsbD_eq <;> intro b hb <;>
    simp only [rd, funct7, offB, BitVec.getLsbD_append, BitVec.getLsbD_extractLsb'] <;> interval_cases b <;> simp

theorem fields_offJ : f3 w = (offJ w).extractLsb' 11 3 ∧ rs1 w = (offJ w).extractLsb' 14 5 ∧
    rs2 w = (offJ w).extractLsb' 0 4 ++ (offJ w).extractLsb' 10 1 ∧
    funct7 w = (offJ w).extractLsb' 19 1 ++ (offJ w).extractLsb' 4 6 := by
  refine ⟨?_, ?_, ?_, ?_⟩ <;> apply BitVec.eq_of_getLsbD_eq <;> intro b hb <;>
    simp only [f3, rs1, rs2, funct7, offJ, BitVec.getLsbD_append, BitVec.getLsbD_extractLsb'] <;>
    interval_cases b <;> simp

/-- a word is determined by its six fields -/
theorem ext_fields {w w' : BitVec 32} (hop : opcode w = opcode w') (hd : rd w = rd w') (hf : f3 w = f3 w')
    (hs : rs1 w = rs1 w') (ht : rs2 w = rs2 w') (h7 : funct7 w = funct7 w') : w = w' := by
  have hall : ∀ w : BitVec 32, w = funct7 w ++ rs2 w ++ rs1 w ++ f3 w ++ rd w ++ opcode w := by
    intro w
    apply BitVec.eq_of_getLsbD_eq
    intro b hb
    simp only [funct7, rs2, rs1, f3, rd, opcode, BitVec.getLsbD_append, BitVec.getLsbD_extractLsb']
    interval_cases b <;> simp
  rw [hall w, hall w', hop, hd, hf, hs, ht, h7]

end Fields

theorem low_setWidth {k : ℕ} (x : BitVec k) (h : k ≤ 32) : (x.setWidth 32).extractLsb' 0 k = x := by
  rw [Fields.place_zero x]
  exact Fields.extract_place x (by omega)

theorem low_signExtend (x : BitVec 12) : (x.signExtend 32).extractLsb' 0 12 = x := by
  apply BitVec.eq_of_getLsbD_eq
  intro b hb
  simp only [BitVec.getLsbD_extractLsb', BitVec.getLsbD_signExtend, hb, show b < 32 by omega, Nat.zero_add, decide_true,
    Bool.true_and, if_true]

/-! The immediates of the S, B and J formats are put together again as they were cut. -/

theorem immS_cut (x : BitVec 12) : (x.signExtend 32).extractLsb' 5 7 ++ (x.signExtend 32).extractLsb' 0 5 = x := by
  apply BitVec.eq_of_getLsbD_eq
  intro b hb
  simp only [BitVec.getLsbD_append, BitVec.getLsbD_extractLsb', BitVec.getLsbD_signExtend]
  interval_cases b <;> simp

theorem offB_cut (x : BitVec 12) : ((x ++ 0#1).signExtend 32).extractLsb' 12 1 ++ ((x ++ 0#1).signExtend 32).extractLsb' 11 1 ++
    ((x ++ 0#1).signExtend 32).extractLsb' 5 6 ++ ((x ++ 0#1).signExtend 32).extractLsb' 1 4 = x := by
  apply BitVec.eq_of_getLsbD_eq
  intro b hb
  simp only [BitVec.getLsbD_append, BitVec.getLsbD_extractLsb', BitVec.getLsbD_signExtend]
  interval_cases b <;> simp

theorem offJ_cut (x : BitVec 20) : ((x ++ 0#1).signExtend 32).extractLsb' 20 1 ++ ((x ++ 0#1).signExtend 32).extractLsb' 12 8 ++
    ((x ++ 0#1).signExtend 32).extractLsb' 11 1 ++ ((x ++ 0#1).signExtend 32).extractLsb' 1 10 = x := by
  apply BitVec.eq_of_getLsbD_eq
  intro b hb
  simp only [BitVec.getLsbD_append, BitVec.getLsbD_extractLsb', BitVec.getLsbD_signExtend]
  interval_cases b <;> simp

/-- the immediate of a shift: its amount, with the funct7 of the operation above it -/
theorem shiftWord_eq (o : ShiftOp) (d s sh : BitVec 5) :
    shiftWord o (d.setWidth 32) (s.setWidth 32) (sh.setWidth 32) = Asm.iType ((o.op.funct7 ++ sh).setWidth 32) (s.setWidth 32)
      (o.op.funct3.setWidth 32) (d.setWidth 32) ((0x13 : BitVec 7).setWidth 32) := by
  have himm : ∀ sh : BitVec 5, sh.setWidth 32 = ((0 : BitVec 7) ++ sh).setWidth 32 ∧
      0x400 ||| sh.setWidth 32 = ((0x20 : BitVec 7) ++ sh).setWidth 32 := by decide
  cases o with
  | slli => exact congrArg (Asm.iType · _ _ _ _) (himm sh).1
  | srli => exact congrArg (Asm.iType · _ _ _ _) (himm sh).1
  | srai => exact congrArg (Asm.iType · _ _ _ _) (himm sh).2

/-- **Every word the assembler emits encodes its instruction.** -/
theorem encodes_word (p : Instr) : Encodes p.word p := by
  cases p with
  | compute p =>
    cases p with
    | op o d s t =>
      have hword : (Instr.compute (.op o d s t)).word = Asm.rType (o.funct7.setWidth 32) (t.setWidth 32) (s.setWidth 32)
          (o.funct3.setWidth 32) (d.setWidth 32) ((0x33 : BitVec 7).setWidth 32) := by cases o <;> rfl
      obtain ⟨hop, hd, hf, hs, ht, h7⟩ := Asm.rType_fields s t d o.funct3 0x33 o.funct7
      rw [hword]
      exact ⟨hop, hf, h7, hd, hs, ht⟩
    | opImm o d s imm =>
      have hword : (Instr.compute (.opImm o d s imm)).word = Asm.iType (imm.signExtend 32) (s.setWidth 32)
          (o.op.funct3.setWidth 32) (d.setWidth 32) ((0x13 : BitVec 7).setWidth 32) := by cases o <;> rfl
      obtain ⟨hop, hd, hs, hf, hi⟩ := Asm.iType_fields (imm.signExtend 32) s d o.op.funct3 0x13
      rw [hword]
      exact ⟨hop, hf, hi.trans (low_signExtend imm), hd, hs⟩
    | shift o d s sh =>
      have hword : (Instr.compute (.shift o d s sh)).word = _ := shiftWord_eq o d s sh
      obtain ⟨hop, hd, hs, hf, hi⟩ := Asm.iType_fields ((o.op.funct7 ++ sh).setWidth 32) s d o.op.funct3 0x13
      rw [low_setWidth _ (by decide)] at hi
      rw [hword]
      refine ⟨hop, hf, ?_, hd, hs, ?_⟩
      · rw [funct7_immI, hi, BitVec.extractLsb'_append_eq_left]
      · rw [rs2_immI, hi, BitVec.extractLsb'_append_eq_right]
    | lui d u =>
      obtain ⟨hop, hd, hu⟩ := Asm.uType_fields (u.setWidth 32) d 0x37
      exact ⟨hop, hd, hu.trans (low_setWidth u (by decide))⟩
    | auipc d u =>
      obtain ⟨hop, hd, hu⟩ := Asm.uType_fields (u.setWidth 32) d 0x17
      exact ⟨hop, hd, hu.trans (low_setWidth u (by decide))⟩
  | branch c s t off =>
    have hword : (Instr.branch c s t off).word = Asm.bType ((off ++ 0#1).signExtend 32) (t.setWidth 32) (s.setWidth 32)
        (c.funct3.setWidth 32) ((0x63 : BitVec 7).setWidth 32) := by cases c <;> rfl
    obtain ⟨hop, hs, ht, hf, h31, h7, h25, h8⟩ := Asm.bType_fields ((off ++ 0#1).signExtend 32) s t c.funct3 0x63
    rw [hword]
    refine ⟨hop, hf, hs, ht, ?_⟩
    rw [offB, h31, h7, h25, h8, offB_cut]
  | jal d off =>
    obtain ⟨hop, hd, h31, h21, h20, h12⟩ := Asm.jType_fields ((off ++ 0#1).signExtend 32) d 0x6f
    refine ⟨hop, hd, ?_⟩
    have hword : (Instr.jal d off).word =
      Asm.jType ((off ++ 0#1).signExtend 32) (d.setWidth 32) ((0x6f : BitVec 7).setWidth 32) := rfl
    rw [hword, offJ, h31, h12, h20, h21, offJ_cut]
  | jalr d s imm =>
    obtain ⟨hop, hd, hs, hf, hi⟩ := Asm.iType_fields (imm.signExtend 32) s d 0 0x67
    exact ⟨hop, hf, hd, hs, hi.trans (low_signExtend imm)⟩
  | load p =>
    obtain ⟨o, d, s, imm⟩ := p
    have hword : (Instr.load ⟨o, d, s, imm⟩).word = Asm.iType (imm.signExtend 32) (s.setWidth 32)
        (o.funct3.setWidth 32) (d.setWidth 32) ((0x03 : BitVec 7).setWidth 32) := by cases o <;> rfl
    obtain ⟨hop, hd, hs, hf, hi⟩ := Asm.iType_fields (imm.signExtend 32) s d o.funct3 0x03
    rw [hword]
    exact ⟨hop, hf, hd, hs, hi.trans (low_signExtend imm)⟩
  | store p =>
    obtain ⟨o, s, t, imm⟩ := p
    have hword : (Instr.store ⟨o, s, t, imm⟩).word = Asm.sType (imm.signExtend 32) (t.setWidth 32) (s.setWidth 32)
        (o.funct3.setWidth 32) ((0x23 : BitVec 7).setWidth 32) := by cases o <;> rfl
    obtain ⟨hop, hs, ht, hf, h25, h7⟩ := Asm.sType_fields (imm.signExtend 32) s t o.funct3 0x23
    rw [hword]
    refine ⟨hop, hf, hs, ht, ?_⟩
    rw [offS, h25, h7, immS_cut]

/-- no other word encodes it -/
theorem encodes_unique {w w' : BitVec 32} {p : Instr} (h : Encodes w p) (h' : Encodes w' p) : w = w' := by
  have himmI : w.extractLsb' 20 12 = w'.extractLsb' 20 12 → rs2 w = rs2 w' ∧ funct7 w = funct7 w' := fun hi => by
    rw [rs2_immI, rs2_immI, funct7_immI, funct7_immI, hi]
    exact ⟨rfl, rfl⟩
  have himmU : w.extractLsb' 12 20 = w'.extractLsb' 12 20 → opcode w = opcode w' → rd w = rd w' → w = w' := fun hu hop hd => by
    obtain ⟨hf, hs, ht, h7⟩ := fields_immU w
    obtain ⟨hf', hs', ht', h7'⟩ := fields_immU w'
    rw [← hu] at hf' hs' ht' h7'
    exact ext_fields hop hd (hf.trans hf'.symm) (hs.trans hs'.symm) (ht.trans ht'.symm) (h7.trans h7'.symm)
  cases p with
  | compute p =>
    cases p with
    | op o d s t =>
      obtain ⟨hop, hf, h7, hd, hs, ht⟩ := h
      obtain ⟨hop', hf', h7', hd', hs', ht'⟩ := h'
      exact ext_fields (hop.trans hop'.symm) (hd.trans hd'.symm) (hf.trans hf'.symm) (hs.trans hs'.symm)
        (ht.trans ht'.symm) (h7.trans h7'.symm)
    | opImm o d s imm =>
      obtain ⟨hop, hf, hi, hd, hs⟩ := h
      obtain ⟨hop', hf', hi', hd', hs'⟩ := h'
      obtain ⟨ht, h7⟩ := himmI (hi.trans hi'.symm)
      exact ext_fields (hop.trans hop'.symm) (hd.trans hd'.symm) (hf.trans hf'.symm) (hs.trans hs'.symm) ht h7
    | shift o d s sh =>
      obtain ⟨hop, hf, h7, hd, hs, ht⟩ := h
      obtain ⟨hop', hf', h7', hd', hs', ht'⟩ := h'
      exact ext_fields (hop.trans hop'.symm) (hd.trans hd'.symm) (hf.trans hf'.symm) (hs.trans hs'.symm)
        (ht.trans ht'.symm) (h7.trans h7'.symm)
    | lui d u =>
      obtain ⟨hop, hd, hu⟩ := h
      obtain ⟨hop', hd', hu'⟩ := h'
      exact himmU (hu.trans hu'.symm) (hop.trans hop'.symm) (hd.trans hd'.symm)
    | auipc d u =>
      obtain ⟨hop, hd, hu⟩ := h
      obtain ⟨hop', hd', hu'⟩ := h'
      exact himmU (hu.trans hu'.symm) (hop.trans hop'.symm) (hd.trans hd'.symm)
  | branch c s t off =>
    obtain ⟨hop, hf, hs, ht, ho⟩ := h
    obtain ⟨hop', hf', hs', ht', ho'⟩ := h'
    obtain ⟨hd, h7⟩ := fields_offB w
    obtain ⟨hd', h7'⟩ := fields_offB w'
    rw [ho', ← ho] at hd' h7'
    exact ext_fields (hop.trans hop'.symm) (hd.trans hd'.symm) (hf.trans hf'.symm) (hs.trans hs'.symm)
      (ht.trans ht'.symm) (h7.trans h7'.symm)
  | jal d off =>
    obtain ⟨hop, hd, ho⟩ := h
    obtain ⟨hop', hd', ho'⟩ := h'
    obtain ⟨hf, hs, ht, h7⟩ := fields_offJ w
    obtain ⟨hf', hs', ht', h7'⟩ := fields_offJ w'
    rw [ho', ← ho] at hf' hs' ht' h7'
    exact ext_fields (hop.trans hop'.symm) (hd.trans hd'.symm) (hf.trans hf'.symm) (hs.trans hs'.symm)
      (ht.trans ht'.symm) (h7.trans h7'.symm)
  | jalr d s imm =>
    obtain ⟨hop, hf, hd, hs, hi⟩ := h
    obtain ⟨hop', hf', hd', hs', hi'⟩ := h'
    obtain ⟨ht, h7⟩ := himmI (hi.trans hi'.symm)
    exact ext_fields (hop.trans hop'.symm) (hd.trans hd'.symm) (hf.trans hf'.symm) (hs.trans hs'.symm) ht h7
  | load p =>
    obtain ⟨hop, hf, hd, hs, hi⟩ := h
    obtain ⟨hop', hf', hd', hs', hi'⟩ := h'
    obtain ⟨ht, h7⟩ := himmI (hi.trans hi'.symm)
    exact ext_fields (hop.trans hop'.symm) (hd.trans hd'.symm) (hf.trans hf'.symm) (hs.trans hs'.symm) ht h7
  | store p =>
    obtain ⟨hop, hf, hs, ht, ho⟩ := h
    obtain ⟨hop', hf', hs', ht', ho'⟩ := h'
    obtain ⟨hd, h7⟩ := fields_offS w
    obtain ⟨hd', h7'⟩ := fields_offS w'
    rw [ho', ← ho] at hd' h7'
    exact ext_fields (hop.trans hop'.symm) (hd.trans hd'.symm) (hf.trans hf'.symm) (hs.trans hs'.symm)
      (ht.trans ht'.symm) (h7.trans h7'.symm)

/-- **The assembler and the encoding table are inverse.** A word decodes to an instruction exactly if it is the word the
assembler emits for it. -/
theorem decode_eq_some_iff (w : BitVec 32) (p : Instr) : decode w = some p ↔ w = p.word := by
  constructor
  · intro h
    exact encodes_unique (encodes_of_decode h) (encodes_word p)
  · rintro rfl
    exact decode_of_encodes (encodes_word p)

end AegisSoc.Rv32i
