/-
Control transfers of the core against RV32I.

`Instr` are the branches, JAL, JALR and AUIPC, with their offsets as numbers; `Instr.word` is their encoding, `Instr.step`
what RV32I says they do. The core executes one of them per cycle.
- `next_branch`, `next_jalr`, `next_auipc`: as specified, for every pc, register file and encodable offset;
- `next_jal`: the link is as specified, and so is the pc, up to bit 31 if the offset is negative: the core reassembles the
  immediate of the J format with one sign bit too few;
- `transfers_iff`: so an instruction does what RV32I says exactly if it is not a backward JAL, and so does every run
  without one; `backward_jal`: after one, AUIPC and the links are wrong.
-/
import AegisSoc.Cpu.Asm
import AegisSoc.Lib.Machine

namespace AegisSoc.Transfers

open Machine RiscVICore Asm

/-! ## RV32I -/

/-- the branch conditions -/
inductive Cond where
  | eq
  | ne
  | lt
  | ge
  | ltu
  | geu
deriving DecidableEq, Repr

/-- the comparison is signed or unsigned -/
def Cond.holds : Cond → BitVec 32 → BitVec 32 → Bool
  | .eq, x, y => x = y
  | .ne, x, y => x ≠ y
  | .lt, x, y => x.toInt < y.toInt
  | .ge, x, y => y.toInt ≤ x.toInt
  | .ltu, x, y => x.toNat < y.toNat
  | .geu, x, y => y.toNat ≤ x.toNat

inductive Instr where
  | branch (c : Cond) (rs1 rs2 : BitVec 5) (off : ℤ)
  | jal (rd : BitVec 5) (off : ℤ)
  | jalr (rd rs1 : BitVec 5) (imm : ℤ)
  | auipc (rd : BitVec 5) (imm20 : BitVec 20)
deriving DecidableEq, Repr

namespace Instr

/-- the offset fits its format -/
def Encodable : Instr → Prop
  | branch _ _ _ off => -4096 ≤ off ∧ off ≤ 4094 ∧ 2 ∣ off
  | jal _ off => -2 ^ 20 ≤ off ∧ off ≤ 2 ^ 20 - 2 ∧ 2 ∣ off
  | jalr _ _ imm => -2048 ≤ imm ∧ imm ≤ 2047
  | auipc _ _ => True

instance (p : Instr) : Decidable p.Encodable := by
  cases p <;> unfold Encodable <;> infer_instance

/-- the encoding -/
def word : Instr → BitVec 32
  | branch .eq rs1 rs2 off => Asm.beq (rs1.setWidth 32) (rs2.setWidth 32) (BitVec.ofInt 32 off)
  | branch .ne rs1 rs2 off => Asm.bne (rs1.setWidth 32) (rs2.setWidth 32) (BitVec.ofInt 32 off)
  | branch .lt rs1 rs2 off => Asm.blt (rs1.setWidth 32) (rs2.setWidth 32) (BitVec.ofInt 32 off)
  | branch .ge rs1 rs2 off => Asm.bge (rs1.setWidth 32) (rs2.setWidth 32) (BitVec.ofInt 32 off)
  | branch .ltu rs1 rs2 off => Asm.bltu (rs1.setWidth 32) (rs2.setWidth 32) (BitVec.ofInt 32 off)
  | branch .geu rs1 rs2 off => Asm.bgeu (rs1.setWidth 32) (rs2.setWidth 32) (BitVec.ofInt 32 off)
  | jal rd off => Asm.jal (rd.setWidth 32) (BitVec.ofInt 32 off)
  | jalr rd rs1 imm => Asm.jalr (rd.setWidth 32) (rs1.setWidth 32) (BitVec.ofInt 32 imm)
  | auipc rd imm20 => Asm.auipc (rd.setWidth 32) (imm20.setWidth 32)

/-- what RV32I says; JALR uses the register as it was, also if it is the link register -/
def step (p : Instr) (a : Arch) : Arch :=
  match p with
  | branch c rs1 rs2 off => ⟨if c.holds (a.rf rs1) (a.rf rs2) then a.pc + BitVec.ofInt 32 off else a.pc + 4, a.rf⟩
  | jal rd off => ⟨a.pc + BitVec.ofInt 32 off, setReg a.rf rd (a.pc + 4)⟩
  | jalr rd rs1 imm => ⟨(a.rf rs1 + BitVec.ofInt 32 imm) &&& ~~~1, setReg a.rf rd (a.pc + 4)⟩
  | auipc rd imm20 => ⟨a.pc + 4, setReg a.rf rd (a.pc + (imm20 ++ 0#12))⟩

/-- not a JAL with a negative offset -/
def Forward : Instr → Prop
  | jal _ off => 0 ≤ off
  | _ => True

instance (p : Instr) : Decidable p.Forward := by
  cases p <;> unfold Forward <;> infer_instance

end Instr

/-! ## One instruction -/

/-- the core is about to execute an instruction -/
structure Executes (r : Reg) : Prop where
  running : r.running = true
  halted : r.halted = false
  loadWait : r.loadWait = false
  memWait : r.memWait = false

variable {e : Bool} {r : Reg} {i : In}

theorem isHalt_of_opcode {w : BitVec 32} (h : opcode w ≠ 0x7f) : isHalt w = false := by
  rw [isHalt, beq_eq_false_iff_ne]
  rintro rfl
  exact h (by decide)

/-- an instruction without a memory access takes one cycle -/
theorem next_eq_compute (he : Executes r) (hh : opcode (inst r) ≠ 0x7f) (hm : isMem (inst r) = false) :
    next e r i = { compute r with
      imem := if i.progWe then Function.update r.imem i.progAddr i.progData else r.imem
      running := i.start || r.running } := by
  have hexec : execute e r i = compute r := execute_compute he.loadWait he.memWait (isHalt_of_opcode hh) hm
  simp only [next, he.running, he.halted, Bool.not_false, Bool.and_self, if_true, hexec]

theorem next_compute (he : Executes r) (hh : opcode (inst r) ≠ 0x7f) (hm : isMem (inst r) = false) :
    arch (next e r i) =
        ⟨nextPc (inst r) (arch r), if wbEn (inst r) then setReg r.rf (rd (inst r)) (wbVal (inst r) (arch r)) else r.rf⟩ ∧
      Executes (next e r i) := by
  have hset : (if wbEn (inst r) then Function.update r.rf (rd (inst r)) (wbVal (inst r) (arch r)) else r.rf) =
      if wbEn (inst r) then setReg r.rf (rd (inst r)) (wbVal (inst r) (arch r)) else r.rf := by
    split_ifs with hwb
    · rw [setReg, if_pos ((Bool.and_eq_true _ _).mp hwb).2]
    · rfl
  rw [next_eq_compute he hh hm]
  refine ⟨?_, ?_, he.halted, he.loadWait, he.memWait⟩
  · rw [← hset]
    rfl
  · simp [he.running]

/-- the instructions that write a register -/
theorem wbEn_eq {w : BitVec 32} (h : opcode w ∈ [0x33, 0x13, 0x37, 0x17, 0x6f, 0x67]) : wbEn w = (rd w != 0) := by
  simp only [List.mem_cons, List.not_mem_nil, or_false] at h
  rcases h with h | h | h | h | h | h <;> simp [wbEn, isOp, isOpImm, isLui, isAuipc, isJal, isJalr, h]

theorem setReg_of_wbEn {w : BitVec 32} (h : opcode w ∈ [0x33, 0x13, 0x37, 0x17, 0x6f, 0x67])
    (rf : BitVec 5 → BitVec 32) (v : BitVec 32) :
    (if wbEn w then setReg rf (rd w) v else rf) = setReg rf (rd w) v := by
  rw [wbEn_eq h]
  split_ifs with h0
  · rfl
  · rw [setReg, if_neg h0]

/-- the funct3 field of a branch -/
def Cond.funct3 : Cond → BitVec 3
  | .eq => 0
  | .ne => 1
  | .lt => 4
  | .ge => 5
  | .ltu => 6
  | .geu => 7

theorem brTaken_eq {w : BitVec 32} {c : Cond} {a : Arch} (hop : opcode w = 0x63) (hf : f3 w = c.funct3) :
    brTaken w a = c.holds (a.rf (rs1 w)) (a.rf (rs2 w)) := by
  rw [Bool.eq_iff_iff]
  cases c <;>
    simp [brTaken, isBranch, hop, hf, Cond.funct3, Cond.holds, rs1v, rs2v, BitVec.slt_eq_decide, BitVec.ult_eq_decide]

theorem next_branch {c : Cond} {r1 r2 : BitVec 5} {off : ℤ} (he : Executes r)
    (hp : (Instr.branch c r1 r2 off).Encodable) (hw : inst r = (Instr.branch c r1 r2 off).word) :
    arch (next e r i) = (Instr.branch c r1 r2 off).step (arch r) ∧ Executes (next e r i) := by
  obtain ⟨hlo, hhi, heven⟩ := hp
  have hword : (Instr.branch c r1 r2 off).word = bType (BitVec.ofInt 32 off) (r2.setWidth 32) (r1.setWidth 32)
      (c.funct3.setWidth 32) ((0x63 : BitVec 7).setWidth 32) := by
    cases c <;> rfl
  obtain ⟨hop, hr1, hr2, hf, -⟩ := bType_fields (BitVec.ofInt 32 off) r1 r2 c.funct3 0x63
  have hsign : BitVec.ofInt 32 off = (BitVec.ofInt 13 off).signExtend 32 :=
    Fields.ofInt_eq_signExtend (by decide) (by decide) (by norm_num; omega) (by norm_num; omega)
  have himm : immB (inst r) = BitVec.ofInt 32 off := by
    rw [hw, hword, hsign]
    exact immB_bType _ _ _ _ _ (Fields.even_ofInt (by decide) heven)
  rw [← hword, ← hw] at hop hr1 hr2 hf
  obtain ⟨harch, he'⟩ := next_compute (e := e) (i := i) he (by rw [hop]; decide) (by simp [isMem, isLoad, isStore, hop])
  refine ⟨?_, he'⟩
  have htaken := brTaken_eq (a := arch r) hop hf
  rw [hr1, hr2] at htaken
  have hwb : wbEn (inst r) = false := by simp [wbEn, isOp, isOpImm, isLui, isAuipc, isJal, isJalr, hop]
  rw [harch, hwb, Instr.step, nextPc, himm, htaken]
  cases c.holds ((arch r).rf r1) ((arch r).rf r2) <;> simp [isJalr, isJal, isBranch, hop, arch]

theorem next_jalr {d r1 : BitVec 5} {imm : ℤ} (he : Executes r) (hp : (Instr.jalr d r1 imm).Encodable)
    (hw : inst r = (Instr.jalr d r1 imm).word) :
    arch (next e r i) = (Instr.jalr d r1 imm).step (arch r) ∧ Executes (next e r i) := by
  obtain ⟨hlo, hhi⟩ := hp
  have hword : (Instr.jalr d r1 imm).word = iType (BitVec.ofInt 32 imm) (r1.setWidth 32) ((0 : BitVec 3).setWidth 32)
      (d.setWidth 32) ((0x67 : BitVec 7).setWidth 32) := rfl
  obtain ⟨hop, hd, hr1, -, -⟩ := iType_fields (BitVec.ofInt 32 imm) r1 d 0 0x67
  have hsign : BitVec.ofInt 32 imm = (BitVec.ofInt 12 imm).signExtend 32 :=
    Fields.ofInt_eq_signExtend (by decide) (by decide) (by norm_num; omega) (by norm_num; omega)
  have himm : immI (inst r) = BitVec.ofInt 32 imm := by
    rw [hw, hword, hsign]
    exact immI_iType _ _ _ _ _
  rw [← hword, ← hw] at hop hd hr1
  obtain ⟨harch, he'⟩ := next_compute (e := e) (i := i) he (by rw [hop]; decide) (by simp [isMem, isLoad, isStore, hop])
  refine ⟨?_, he'⟩
  have hval : wbVal (inst r) (arch r) = r.pc + 4 := by simp [wbVal, isJal, isJalr, hop, arch]
  have haddr : addr (inst r) (arch r) = r.rf r1 + BitVec.ofInt 32 imm := by
    simp [addr, u2, isOp, isStore, hop, rs1v, hr1, himm, arch]
  have hpc : nextPc (inst r) (arch r) = (r.rf r1 + BitVec.ofInt 32 imm) &&& ~~~1 := by
    rw [nextPc, haddr, if_pos (by simp [isJalr, hop])]
    exact Fields.extract_append_zero _
  rw [harch, setReg_of_wbEn (by simp [hop]), hd, hval, hpc]
  rfl

theorem next_auipc {d : BitVec 5} {u : BitVec 20} (he : Executes r) (hw : inst r = (Instr.auipc d u).word) :
    arch (next e r i) = (Instr.auipc d u).step (arch r) ∧ Executes (next e r i) := by
  have hword : (Instr.auipc d u).word = uType (u.setWidth 32) (d.setWidth 32) ((0x17 : BitVec 7).setWidth 32) := rfl
  obtain ⟨hop, hd, -⟩ := uType_fields (u.setWidth 32) d 0x17
  have himm : immU (inst r) = u ++ 0#12 := by
    rw [hw, hword]
    exact immU_uType _ _ _
  rw [← hword, ← hw] at hop hd
  obtain ⟨harch, he'⟩ := next_compute (e := e) (i := i) he (by rw [hop]; decide) (by simp [isMem, isLoad, isStore, hop])
  refine ⟨?_, he'⟩
  have hval : wbVal (inst r) (arch r) = r.pc + (u ++ 0#12) := by
    simp [wbVal, isJal, isJalr, isAuipc, hop, arch, himm]
  have hpc : nextPc (inst r) (arch r) = r.pc + 4 := by simp [nextPc, isJalr, isJal, isBranch, hop, arch]
  rw [harch, setReg_of_wbEn (by simp [hop]), hd, hval, hpc]
  rfl

/-- the offset as the core takes it: bit 31 is missing -/
def taken (off : ℤ) : BitVec 32 := (BitVec.ofInt 32 off).setWidth 31 |>.setWidth 32

theorem next_jal {d : BitVec 5} {off : ℤ} (he : Executes r) (hp : (Instr.jal d off).Encodable)
    (hw : inst r = (Instr.jal d off).word) :
    arch (next e r i) = ⟨r.pc + taken off, ((Instr.jal d off).step (arch r)).rf⟩ ∧ Executes (next e r i) := by
  obtain ⟨hlo, hhi, heven⟩ := hp
  have hword : (Instr.jal d off).word =
      jType (BitVec.ofInt 32 off) (d.setWidth 32) ((0x6f : BitVec 7).setWidth 32) := rfl
  obtain ⟨hop, hd, -⟩ := jType_fields (BitVec.ofInt 32 off) d 0x6f
  have hsign : BitVec.ofInt 32 off = (BitVec.ofInt 21 off).signExtend 32 :=
    Fields.ofInt_eq_signExtend (by decide) (by decide) (by norm_num; omega) (by norm_num; omega)
  have himm : immJ (inst r) = (BitVec.ofInt 32 off).setWidth 31 := by
    rw [hw, hword, hsign, immJ_jType _ _ _ (Fields.even_ofInt (by decide) heven)]
    apply BitVec.eq_of_getLsbD_eq
    intro k hk
    rw [BitVec.getLsbD_setWidth, BitVec.getLsbD_signExtend, BitVec.getLsbD_signExtend]
    simp [hk, show k < 32 by omega]
  rw [← hword, ← hw] at hop hd
  obtain ⟨harch, he'⟩ := next_compute (e := e) (i := i) he (by rw [hop]; decide) (by simp [isMem, isLoad, isStore, hop])
  refine ⟨?_, he'⟩
  have hval : wbVal (inst r) (arch r) = r.pc + 4 := by simp [wbVal, isJal, hop, arch]
  have hpc : nextPc (inst r) (arch r) = r.pc + taken off := by
    simp [nextPc, isJalr, isJal, hop, arch, himm, taken]
  rw [harch, setReg_of_wbEn (by simp [hop]), hd, hval, hpc]
  rfl

/-- a negative offset loses its sign -/
theorem taken_eq_iff {off : ℤ} (hlo : -2 ^ 31 ≤ off) (hhi : off < 2 ^ 31) : taken off = BitVec.ofInt 32 off ↔ 0 ≤ off := by
  have hmsb : (BitVec.ofInt 32 off).msb = decide (off < 0) := by
    rw [BitVec.msb_eq_toInt, BitVec.toInt_ofInt_eq_self (by decide) hlo hhi]
  have hiff : taken off = BitVec.ofInt 32 off ↔ _ := Fields.setWidth_setWidth_eq_iff (n := 31) _
  rw [hiff, hmsb, decide_eq_false_iff_not, not_lt]

/-- **One instruction does what RV32I says exactly if it is not a backward JAL.** -/
theorem next_iff {p : Instr} (he : Executes r) (hp : p.Encodable) (hw : inst r = p.word) :
    (arch (next e r i) = p.step (arch r) ↔ p.Forward) ∧ Executes (next e r i) := by
  cases p with
  | branch c r1 r2 off =>
    obtain ⟨hstep, he'⟩ := next_branch (e := e) (i := i) he hp hw
    exact ⟨iff_of_true hstep trivial, he'⟩
  | jalr d r1 imm =>
    obtain ⟨hstep, he'⟩ := next_jalr (e := e) (i := i) he hp hw
    exact ⟨iff_of_true hstep trivial, he'⟩
  | auipc d u =>
    obtain ⟨hstep, he'⟩ := next_auipc (e := e) (i := i) he hw
    exact ⟨iff_of_true hstep trivial, he'⟩
  | jal d off =>
    obtain ⟨hstep, he'⟩ := next_jal (e := e) (i := i) he hp hw
    obtain ⟨hlo, hhi, -⟩ := hp
    refine ⟨?_, he'⟩
    rw [hstep, Instr.step, Arch.mk.injEq, and_iff_left rfl]
    exact (BitVec.add_right_inj _).trans (taken_eq_iff (by omega) (by omega))

/-! ## Runs -/

/-- the transfers in an image -/
abbrev Program := BitVec 8 → Option Instr

/-- the image holds the program -/
def Holds (π : Program) (imem : BitVec 8 → BitVec 32) : Prop := ∀ k, ∀ p ∈ π k, imem k = p.word

/-- the instruction at the pc is a transfer, and not a backward JAL -/
def Regular (π : Program) (r : Reg) : Prop := ∃ p ∈ π (r.pc.extractLsb' 2 8), p.Encodable ∧ p.Forward

instance (π : Program) (r : Reg) : Decidable (Regular π r) := inferInstanceAs (Decidable (∃ p ∈ π _, _))

/-- RV32I on the program -/
def isaStep (π : Program) (a : Arch) : Arch := (π (a.pc.extractLsb' 2 8)).elim a fun p => p.step a

def isa (π : Program) (a : Arch) : ℕ → Arch
  | 0 => a
  | n + 1 => isa π (isaStep π a) n

/-- **Control transfers follow RV32I but for the backward JAL.**
- One executed instruction, whatever the pc, the register file and the encodable offset, leaves the pc and the registers that
  RV32I says if and only if it is not a JAL with a negative offset;
- after every run of branches, JALR, AUIPC and forward JAL the pc and all registers, links and AUIPC results among them, are
  those of RV32I. -/
theorem transfers_iff (ext : Bool) :
    (∀ (r : Reg) (i : In) (p : Instr), Executes r → p.Encodable → inst r = p.word →
      (arch (next ext r i) = p.step (arch r) ↔ p.Forward)) ∧
    (∀ (π : Program) (r : Reg) (ins : List In), Executes r → Holds π r.imem →
      Always (next ext) (fun r i => i.progWe = false ∧ Regular π r) r ins →
      arch (run (next ext) r ins) = isa π (arch r) ins.length) := by
  refine ⟨fun r i p he hp hw => (next_iff he hp hw).1, fun π r ins he hπ hins => ?_⟩
  induction ins generalizing r with
  | nil => rfl
  | cons i ins ih =>
    obtain ⟨⟨hprog, p, hp, henc, hfwd⟩, hrest⟩ := hins
    obtain ⟨hiff, he'⟩ := next_iff (e := ext) (i := i) he henc (hπ _ p hp)
    have himem : (next ext r i).imem = r.imem := by simp [next, hprog]
    have hisa : isaStep π (arch r) = p.step (arch r) := by
      have hfetch : π ((arch r).pc.extractLsb' 2 8) = some p := hp
      rw [isaStep, hfetch]
      rfl
    rw [run_cons, ih _ he' (himem ▸ hπ) hrest, hiff.2 hfwd, ← hisa]
    rfl

/-- nothing is driven from outside -/
def quiet : In := ⟨false, 0, 0, false, false, false, 0⟩

/-- load the words of a program, and start -/
def boot (words : List (BitVec 32)) : List In :=
  words.zipIdx.map (fun w => { quiet with progWe := true, progAddr := BitVec.ofNat 8 w.2, progData := w.1 }) ++
    [{ quiet with start := true }]

/-- a jump over one instruction, and back to it -/
def loop (back : Instr) : List Instr := [.branch .eq 0 0 8, .auipc 5 0, back]

def loopAt (back : Instr) : Program := fun k => (loop back)[k.toNat]?

/-- the core, booted with the loop -/
def looping (back : Instr) : Reg := run (next true) reset (boot ((loop back).map Instr.word))

theorem holds_loop {back : Instr} {imem : BitVec 8 → BitVec 32} (h0 : imem 0 = (Instr.branch .eq 0 0 8).word)
    (h1 : imem 1 = (Instr.auipc 5 0).word) (h2 : imem 2 = back.word) : Holds (loopAt back) imem := by
  intro k p hp
  have hk : k.toNat < 3 := (List.getElem?_eq_some_iff.1 hp).1
  obtain rfl | rfl | rfl : k = 0 ∨ k = 1 ∨ k = 2 := by
    simp only [← BitVec.toNat_inj]
    have h1 : (1 : BitVec 8).toNat = 1 := rfl
    have h2 : (2 : BitVec 8).toNat = 2 := rfl
    have h0 : (0 : BitVec 8).toNat = 0 := rfl
    omega
  · obtain rfl : Instr.branch .eq 0 0 8 = p := Option.some.inj hp
    exact h0
  · obtain rfl : Instr.auipc 5 0 = p := Option.some.inj hp
    exact h1
  · obtain rfl : back = p := Option.some.inj hp
    exact h2

def backBranch : Instr := .branch .geu 1 2 (-4)
def backJal : Instr := .jal 1 (-4)

/-- with a branch back: AUIPC gives 4 -/
theorem transfers_iff_branch :
    (run (next true) (looping backBranch) (List.replicate 3 quiet)).rf 5 = 4 ∧
      arch (run (next true) (looping backBranch) (List.replicate 3 quiet)) =
        isa (loopAt backBranch) (arch (looping backBranch)) (List.replicate 3 quiet).length :=
  ⟨by decide +kernel, (transfers_iff true).2 (loopAt backBranch) (looping backBranch) (List.replicate 3 quiet)
    ⟨by decide +kernel, by decide +kernel, by decide +kernel, by decide +kernel⟩
    (holds_loop (by decide +kernel) (by decide +kernel) (by decide +kernel)) (by decide +kernel)⟩

/-- **A backward JAL sets bit 31 of the pc wrong.** It is encodable and lands on the right instruction, but AUIPC there gives
`0x80000004` instead of 4. -/
theorem backward_jal : backJal.Encodable ∧ (looping backJal).imem 2 = backJal.word ∧
    (run (next true) (looping backJal) (List.replicate 3 quiet)).rf 5 = 0x80000004 ∧
    (isa (loopAt backJal) (arch (looping backJal)) 3).rf 5 = 4 := by
  decide +kernel

end AegisSoc.Transfers
