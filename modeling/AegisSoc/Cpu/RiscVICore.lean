/-
The RV32I core (`cpu/RiscVCore.scala`): fetch from its own 256-word instruction memory, decode, ALU, next pc, and two
data-memory paths chosen at elaboration (`useExtMem`): an internal 256-word memory with a wait state for loads, or a
word port on which the pc advances when the request is accepted and the load is written back when the response comes.

The combinational functions (decode, ALU, write-back value, next pc, load extension) are functions of the instruction
word and of the architectural state `Arch`, so that the core and the one-instruction-per-step machine `exec` are built
from the same ones.

`exec` is that machine: one instruction, with the data its memory access returns.
-/
import AegisSoc.Types

namespace AegisSoc.RiscVICore

/-! ## Instruction fields -/

/-- the architectural state -/
structure Arch where
  pc : BitVec 32
  rf : BitVec 5 → BitVec 32

def fill (n : ℕ) (b : Bool) : BitVec n := if b then BitVec.allOnes n else 0

section Decode

variable (inst : BitVec 32)

def opcode : BitVec 7 := inst.extractLsb' 0 7
def rd : BitVec 5 := inst.extractLsb' 7 5
def f3 : BitVec 3 := inst.extractLsb' 12 3
def rs1 : BitVec 5 := inst.extractLsb' 15 5
def rs2 : BitVec 5 := inst.extractLsb' 20 5

def immI : BitVec 32 := fill 20 (inst.getLsbD 31) ++ inst.extractLsb' 20 12
def immS : BitVec 32 := fill 20 (inst.getLsbD 31) ++ inst.extractLsb' 25 7 ++ inst.extractLsb' 7 5
def immB : BitVec 32 :=
  fill 19 (inst.getLsbD 31) ++ inst.extractLsb' 31 1 ++ inst.extractLsb' 7 1 ++ inst.extractLsb' 25 6 ++
    inst.extractLsb' 8 4 ++ 0#1
def immU : BitVec 32 := inst.extractLsb' 12 20 ++ 0#12

/-- eleven sign bits only: the immediate is 31 bits wide -/
def immJ : BitVec 31 :=
  fill 11 (inst.getLsbD 31) ++ inst.extractLsb' 12 8 ++ inst.extractLsb' 20 1 ++ inst.extractLsb' 21 10 ++ 0#1

def isLoad : Bool := opcode inst == 0x03
def isStore : Bool := opcode inst == 0x23
def isBranch : Bool := opcode inst == 0x63
def isJal : Bool := opcode inst == 0x6f
def isJalr : Bool := opcode inst == 0x67
def isOpImm : Bool := opcode inst == 0x13
def isOp : Bool := opcode inst == 0x33
def isLui : Bool := opcode inst == 0x37
def isAuipc : Bool := opcode inst == 0x17
def isHalt : Bool := inst == 0xffffffff

def isMem : Bool := isLoad inst || isStore inst

/-! The size flags of a load, kept in registers while it waits. -/
def byteOp : Bool := f3 inst == 0 || f3 inst == 4
def halfOp : Bool := f3 inst == 1 || f3 inst == 5
def signedOp : Bool := f3 inst == 0 || f3 inst == 1 || f3 inst == 2

end Decode

/-! ## The datapath -/

section Datapath

variable (inst : BitVec 32) (a : Arch)

def rs1v : BitVec 32 := a.rf (rs1 inst)
def rs2v : BitVec 32 := a.rf (rs2 inst)

def u2 : BitVec 32 := if isOp inst then rs2v inst a else if isStore inst then immS inst else immI inst
def addr : BitVec 32 := rs1v inst a + u2 inst a
def shiftAmt : BitVec 5 := if isOpImm inst then (immI inst).extractLsb' 0 5 else (rs2v inst a).extractLsb' 0 5
def sltu : BitVec 32 := if (rs1v inst a).ult (u2 inst a) then 1 else 0
def slt : BitVec 32 := if (rs1v inst a).slt (u2 inst a) then 1 else 0

def alu : BitVec 32 :=
  match (f3 inst).toNat with
  | 0 => if isOp inst && inst.getLsbD 30 then rs1v inst a - rs2v inst a else rs1v inst a + u2 inst a
  | 1 => rs1v inst a <<< (shiftAmt inst a).toNat
  | 2 => slt inst a
  | 3 => sltu inst a
  | 4 => rs1v inst a ^^^ u2 inst a
  | 5 =>
    if inst.getLsbD 30 then (rs1v inst a).sshiftRight (shiftAmt inst a).toNat
    else rs1v inst a >>> (shiftAmt inst a).toNat
  | 6 => rs1v inst a ||| u2 inst a
  | _ => rs1v inst a &&& u2 inst a

/-- the last connection that applies wins -/
def wbVal : BitVec 32 :=
  if isJal inst || isJalr inst then a.pc + 4
  else if isAuipc inst then a.pc + immU inst
  else if isLui inst then immU inst
  else alu inst a

def wbEn : Bool :=
  (isOp inst || isOpImm inst || isLui inst || isAuipc inst || isJal inst || isJalr inst) && rd inst != 0

def brTaken : Bool :=
  isBranch inst &&
    match (f3 inst).toNat with
    | 0 => rs1v inst a == rs2v inst a
    | 1 => !(rs1v inst a == rs2v inst a)
    | 4 => (rs1v inst a).slt (rs2v inst a)
    | 5 => !(rs1v inst a).slt (rs2v inst a)
    | 6 => (rs1v inst a).ult (rs2v inst a)
    | 7 => !(rs1v inst a).ult (rs2v inst a)
    | _ => false

def nextPc : BitVec 32 :=
  if isJalr inst then (addr inst a).extractLsb' 1 31 ++ 0#1
  else if isJal inst then a.pc + (immJ inst).setWidth 32
  else if isBranch inst && brTaken inst a then a.pc + immB inst
  else a.pc + 4

/-- the request on the word port -/
def request : WordMemReq where
  addr := (addr inst a).setWidth 64
  data := rs2v inst a
  isWrite := isStore inst
  size := if byteOp inst then 2 else if halfOp inst then 1 else 0

end Datapath

/-- sign or zero extension of a right-aligned field -/
def extend (byte half signed : Bool) (x : BitVec 32) : BitVec 32 :=
  if byte then (if signed && x.getLsbD 7 then 0xffffff00 else 0) ||| (x.extractLsb' 0 8).setWidth 32
  else if half then (if signed && x.getLsbD 15 then 0xffff0000 else 0) ||| (x.extractLsb' 0 16).setWidth 32
  else x

/-- write a register; register 0 is never written -/
def setReg (rf : BitVec 5 → BitVec 32) (r : BitVec 5) (v : BitVec 32) : BitVec 5 → BitVec 32 :=
  if r != 0 then Function.update rf r v else rf

/-! ## The core -/

structure Reg where
  imem : BitVec 8 → BitVec 32
  dmem : BitVec 8 → BitVec 32
  rf : BitVec 5 → BitVec 32
  pc : BitVec 32
  running : Bool
  halted : Bool
  loadWait : Bool
  ldAddr : BitVec 32
  ldRd : BitVec 5
  ldByte : Bool
  ldHalf : Bool
  ldSigned : Bool
  memWait : Bool
  memRd : BitVec 5
  memWr : Bool

/-- what the core sees in one cycle: the boot port and its side of the word port -/
structure In where
  progWe : Bool
  progAddr : BitVec 8
  progData : BitVec 32
  start : Bool
  memReqReady : Bool
  memRespValid : Bool
  memRespBits : BitVec 32

def arch (r : Reg) : Arch := ⟨r.pc, r.rf⟩

/-- the instruction at a pc -/
def fetch (imem : BitVec 8 → BitVec 32) (pc : BitVec 32) : BitVec 32 := imem (pc.extractLsb' 2 8)

def inst (r : Reg) : BitVec 32 := fetch r.imem r.pc

/-- the load result from the internal memory -/
def loadRes (r : Reg) : BitVec 32 :=
  extend r.ldByte r.ldHalf r.ldSigned
    (r.dmem (r.ldAddr.extractLsb' 2 8) >>> (8 * (r.ldAddr.extractLsb' 0 2).toNat))

/-- the load result from the word port -/
def mres (r : Reg) (bits : BitVec 32) : BitVec 32 := extend r.ldByte r.ldHalf r.ldSigned bits

section Core

variable (useExtMem : Bool)

def memReqValid (r : Reg) : Bool :=
  r.running && !r.halted && !r.loadWait && !r.memWait && (isMem (inst r) && useExtMem)

def memReq (r : Reg) : WordMemReq := request (inst r) (arch r)

def memRespReady (r : Reg) : Bool := r.memWait

def memReqFire (r : Reg) (i : In) : Bool := memReqValid useExtMem r && i.memReqReady
def memRespFire (r : Reg) (i : In) : Bool := i.memRespValid && memRespReady r

/-- the registers that remember a memory instruction while it waits -/
def remember (r : Reg) : Reg :=
  { r with
    ldAddr := addr (inst r) (arch r)
    ldRd := rd (inst r)
    ldByte := byteOp (inst r)
    ldHalf := halfOp (inst r)
    ldSigned := signedOp (inst r) }

/-- the external path on an accepted request -/
def issue (r : Reg) : Reg :=
  { remember r with
    memWr := isStore (inst r)
    memRd := rd (inst r)
    memWait := true
    pc := nextPc (inst r) (arch r) }

/-- the external path on a response -/
def takeResp (r : Reg) (bits : BitVec 32) : Reg :=
  { r with rf := if !r.memWr then setReg r.rf r.memRd (mres r bits) else r.rf, memWait := false }

/-- the internal path: the first cycle of a load, its second cycle, and a store -/
def startLoad (r : Reg) : Reg := { remember r with loadWait := true, pc := nextPc (inst r) (arch r) }

def takeLoad (r : Reg) : Reg := { r with rf := setReg r.rf r.ldRd (loadRes r), loadWait := false }

def storeWord (r : Reg) : Reg :=
  { r with
    dmem := Function.update r.dmem ((addr (inst r) (arch r)).extractLsb' 2 8) (rs2v (inst r) (arch r))
    pc := nextPc (inst r) (arch r) }

/-- an instruction without a memory access -/
def compute (r : Reg) : Reg :=
  { r with
    rf := if wbEn (inst r) then Function.update r.rf (rd (inst r)) (wbVal (inst r) (arch r)) else r.rf
    pc := nextPc (inst r) (arch r) }

/-- the halt sentinel -/
def halt (r : Reg) : Reg := { r with halted := true }

/-- the execution block of a running core -/
def execute (r : Reg) (i : In) : Reg :=
  if r.loadWait then takeLoad r
  else if r.memWait then if memRespFire r i then takeResp r i.memRespBits else r
  else if isHalt (inst r) then halt r
  else if isMem (inst r) then
    if useExtMem then if memReqFire useExtMem r i then issue r else r
    else if isLoad (inst r) then startLoad r
    else storeWord r
  else compute r

/-- the instruction memory port and the start latch work in every cycle -/
def next (r : Reg) (i : In) : Reg :=
  let r' := if r.running && !r.halted then execute useExtMem r i else r
  { r' with
    imem := if i.progWe then Function.update r.imem i.progAddr i.progData else r.imem
    running := i.start || r.running }

/-- an instruction is completed in this cycle -/
def retires (r : Reg) (i : In) : Bool :=
  r.running && !r.halted &&
    if r.loadWait then true
    else if r.memWait then memRespFire r i
    else !isHalt (inst r) && (!isMem (inst r) || !useExtMem && isStore (inst r))

end Core

def reset : Reg where
  imem _ := 0
  dmem _ := 0
  rf _ := 0
  pc := 0
  running := false
  halted := false
  loadWait := false
  ldAddr := 0
  ldRd := 0
  ldByte := false
  ldHalf := false
  ldSigned := false
  memWait := false
  memRd := 0
  memWr := false

/-! ## One instruction per step -/

/-- the architectural state after the instruction at the pc; `d` is what its memory access returns -/
def exec (imem : BitVec 8 → BitVec 32) (a : Arch) (d : BitVec 32) : Arch :=
  let inst := fetch imem a.pc
  { pc := nextPc inst a
    rf :=
      if isLoad inst then setReg a.rf (rd inst) (extend (byteOp inst) (halfOp inst) (signedOp inst) d)
      else if isStore inst then a.rf
      else if wbEn inst then Function.update a.rf (rd inst) (wbVal inst a)
      else a.rf }

/-! ## What a cycle does -/

theorem isStore_of_isLoad {inst : BitVec 32} (h : isLoad inst = true) : isStore inst = false := by
  simp only [isLoad, beq_iff_eq] at h
  simp [isStore, h]

/-- the halt sentinel is no memory instruction -/
theorem isHalt_of_isMem {inst : BitVec 32} (h : isMem inst = true) : isHalt inst = false := by
  cases hh : isHalt inst with
  | false => rfl
  | true =>
    simp only [isHalt, beq_iff_eq] at hh
    rw [hh] at h
    exact absurd h (by decide)

section Cycle

variable {ext : Bool} {r : Reg} {i : In}

theorem execute_imem : (execute ext r i).imem = r.imem := by
  unfold execute
  split_ifs <;> rfl

theorem execute_running : (execute ext r i).running = r.running := by
  unfold execute
  split_ifs <;> rfl

/-! The execution block, branch by branch. -/

theorem execute_takeLoad (hl : r.loadWait = true) : execute ext r i = takeLoad r := by
  simp [execute, hl]

theorem execute_takeResp (hl : r.loadWait = false) (hm : r.memWait = true) (hv : i.memRespValid = true) :
    execute ext r i = takeResp r i.memRespBits := by
  simp [execute, memRespFire, memRespReady, hl, hm, hv]

theorem execute_hold (hl : r.loadWait = false) (hm : r.memWait = true) (hv : i.memRespValid = false) :
    execute ext r i = r := by
  simp [execute, memRespFire, hl, hm, hv]

theorem execute_halt (hl : r.loadWait = false) (hm : r.memWait = false) (hhalt : isHalt (inst r) = true) :
    execute ext r i = halt r := by
  simp [execute, hl, hm, hhalt]

theorem execute_compute (hl : r.loadWait = false) (hm : r.memWait = false) (hhalt : isHalt (inst r) = false)
    (hmem : isMem (inst r) = false) : execute ext r i = compute r := by
  simp [execute, hl, hm, hhalt, hmem]

theorem execute_issue (hf : memReqFire true r i = true) : execute true r i = issue r := by
  have hv := hf
  simp only [memReqFire, memReqValid, Bool.and_true, Bool.and_eq_true, Bool.not_eq_true'] at hv
  obtain ⟨⟨⟨⟨-, hl⟩, hm⟩, hmem⟩, -⟩ := hv
  simp [execute, hl, hm, isHalt_of_isMem hmem, hmem, hf]

theorem execute_refused (hl : r.loadWait = false) (hm : r.memWait = false) (hmem : isMem (inst r) = true)
    (hf : memReqFire true r i = false) : execute true r i = r := by
  simp [execute, hl, hm, isHalt_of_isMem hmem, hmem, hf]

theorem execute_startLoad (hl : r.loadWait = false) (hm : r.memWait = false) (hload : isLoad (inst r) = true) :
    execute false r i = startLoad r := by
  have hmem : isMem (inst r) = true := by rw [isMem, hload, Bool.true_or]
  simp [execute, hl, hm, isHalt_of_isMem hmem, hmem, hload]

theorem execute_storeWord (hl : r.loadWait = false) (hm : r.memWait = false) (hst : isStore (inst r) = true) :
    execute false r i = storeWord r := by
  have hmem : isMem (inst r) = true := by rw [isMem, hst, Bool.or_true]
  have hload : isLoad (inst r) = false := by
    cases hload : isLoad (inst r) with
    | false => rfl
    | true => exact absurd ((isStore_of_isLoad hload).symm.trans hst) Bool.false_ne_true
  simp [execute, hl, hm, isHalt_of_isMem hmem, hmem, hload]

/-- a running core does what its execution block does, the image apart -/
theorem next_execute (hr : r.running = true) (hh : r.halted = false) : next ext r i =
    { execute ext r i with
      imem := if i.progWe then Function.update r.imem i.progAddr i.progData else r.imem
      running := true } := by
  simp only [next, hr, hh, Bool.not_false, Bool.and_self, ite_true, Bool.or_true]

/-- a running core whose image is not written does what its execution block does -/
theorem next_running (hr : r.running = true) (hh : r.halted = false) (hw : i.progWe = false) :
    next ext r i = execute ext r i := by
  have himem : (execute ext r i).imem = r.imem := execute_imem
  have hrun : (execute ext r i).running = true := execute_running.trans hr
  rw [next_execute hr hh, hw, if_neg Bool.false_ne_true, ← himem, ← hrun]

/-- a halted core changes nothing but its image -/
theorem next_halted (hh : r.halted = true) :
    arch (next ext r i) = arch r ∧ (next ext r i).halted = true ∧ (next ext r i).memWait = r.memWait ∧
      (next ext r i).loadWait = r.loadWait ∧ (next ext r i).dmem = r.dmem := by
  simp [next, hh, arch]

end Cycle

end AegisSoc.RiscVICore
