/-
An RV32I hart with a byte memory, and the machine the CPU lane follows against it.

`State n` is the pc, the registers and a memory of `2 ^ n` bytes that repeats through the address space. `Instr.step` is what
RV32I says of them, as long as no trap is taken.
- `Supported`: what the core and its adapter do otherwise: a JAL backwards, an access that crosses a line, and a byte or half
  store of a register with bits above the field;
- `next_abs`: every other instruction, executed by the machine of the CPU lane (`CpuLane.Mach`) on the 256 lines of the shared
  memory, does to their bytes what RV32I says;
- `mach_abs`: so does every run of them, from the same contents.
-/
import AegisSoc.Cpu.Rv32i
import AegisSoc.Memory.SplitPrioritizer

namespace AegisSoc.Rv32i

open RiscVICore CoreMemToHBM Lanes
open CpuLane (Mach mach mach_succ)
open Loads (LoadOp Load)
open SplitPrioritizer (line)
open StallInsensitive (boot)

/-! ## RV32I -/

structure State (n : ℕ) where
  arch : Arch
  mem : BitVec n → BitVec 8

/-- the number of bytes a load reads -/
def loadBytes : LoadOp → ℕ
  | .lb | .lbu => 1
  | .lh | .lhu => 2
  | .lw => 4

/-- the value loaded from the bytes `f 0, f 1, …`, the first one lowest -/
def loadValue : LoadOp → (ℕ → BitVec 8) → BitVec 32
  | .lb, f => (f 0).signExtend 32
  | .lh, f => (f 1 ++ f 0).signExtend 32
  | .lw, f => f 3 ++ (f 2 ++ (f 1 ++ f 0))
  | .lbu, f => (f 0).setWidth 32
  | .lhu, f => (f 1 ++ f 0).setWidth 32

def Store.addr (p : Store) (a : Arch) : BitVec 32 := a.rf p.rs1 + p.imm.signExtend 32

/-- the bytes from `a` on replaced by the low `k` bytes of `v`, the lowest one first -/
def storeBytesAt {n : ℕ} (mem : BitVec n → BitVec 8) (a : BitVec n) (k : ℕ) (v : BitVec 32) : BitVec n → BitVec 8 :=
  fun b => if (b - a).toNat < k then lane 8 v (b - a).toNat else mem b

/-- what RV32I says -/
def Instr.step {n : ℕ} (p : Instr) (s : State n) : State n :=
  match p with
  | .compute p => ⟨p.step s.arch, s.mem⟩
  | .branch c r1 r2 off =>
    ⟨⟨if c.holds (s.arch.rf r1) (s.arch.rf r2) then s.arch.pc + (off ++ 0#1).signExtend 32 else s.arch.pc + 4, s.arch.rf⟩,
      s.mem⟩
  | .jal d off => ⟨⟨s.arch.pc + (off ++ 0#1).signExtend 32, setReg s.arch.rf d (s.arch.pc + 4)⟩, s.mem⟩
  | .jalr d r1 imm => ⟨⟨(s.arch.rf r1 + imm.signExtend 32) &&& ~~~1, setReg s.arch.rf d (s.arch.pc + 4)⟩, s.mem⟩
  | .load p =>
    ⟨⟨s.arch.pc + 4, setReg s.arch.rf p.rd
      (loadValue p.op fun j => s.mem ((p.addr s.arch).setWidth n + BitVec.ofNat n j))⟩, s.mem⟩
  | .store p =>
    ⟨⟨s.arch.pc + 4, s.arch.rf⟩,
      storeBytesAt s.mem ((p.addr s.arch).setWidth n) p.op.bytes (s.arch.rf p.rs2)⟩

/-- what the core and its adapter do as RV32I says: any JAL forwards, and accesses inside one line, stores of a register that
fits the field -/
def Supported (p : Instr) (a : Arch) : Prop :=
  match p with
  | .jal _ off => off.msb = false
  | .load p => (p.addr a).toNat % 64 + loadBytes p.op ≤ 64
  | .store p => (p.addr a).toNat % 64 + p.op.bytes ≤ 64 ∧ (a.rf p.rs2).toNat < 2 ^ (8 * p.op.bytes)
  | _ => True

instance (p : Instr) (a : Arch) : Decidable (Supported p a) := by
  cases p <;> unfold Supported <;> infer_instance

/-! ## The bytes of the shared memory -/

/-- byte `b` of the 256 lines -/
def bytesOf (mem : BitVec 8 → BitVec 512) (b : BitVec 14) : BitVec 8 :=
  lane 8 (mem (b.extractLsb' 6 8)) (b.toNat % 64)

/-- the state of the hart that a machine of the CPU lane has -/
def abs (m : Mach (BitVec 8)) : State 14 := ⟨m.arch, bytesOf m.mem⟩

theorem line_lineBase (a : BitVec 32) : line (lineBase (a.setWidth 64)) = (a.setWidth 14).extractLsb' 6 8 := by
  apply BitVec.eq_of_getLsbD_eq
  intro b hb
  simp only [line, lineBase, BitVec.getLsbD_extractLsb', BitVec.getLsbD_append, BitVec.getLsbD_setWidth, hb, decide_true,
    Bool.true_and, show ¬ 6 + b < 6 by omega, if_false, Nat.add_sub_cancel_left, show b < 58 by omega,
    show 6 + b < 64 by omega, show 6 + b < 14 by omega]

/-- a byte of the line of an access -/
theorem bytesOf_add (mem : BitVec 8 → BitVec 512) (a : BitVec 32) {j : ℕ} (h : a.toNat % 64 + j < 64) :
    bytesOf mem (a.setWidth 14 + BitVec.ofNat 14 j) = lane 8 (mem (line (lineBase (a.setWidth 64)))) (a.toNat % 64 + j) := by
  have hline : (a.setWidth 14 + BitVec.ofNat 14 j).extractLsb' 6 8 = (a.setWidth 14).extractLsb' 6 8 := by
    apply BitVec.eq_of_toNat_eq
    simp only [BitVec.extractLsb'_toNat, BitVec.toNat_add, BitVec.toNat_setWidth, BitVec.toNat_ofNat,
      Nat.shiftRight_eq_div_pow]
    omega
  have hoff : (a.setWidth 14 + BitVec.ofNat 14 j).toNat % 64 = a.toNat % 64 + j := by
    simp only [BitVec.toNat_add, BitVec.toNat_setWidth, BitVec.toNat_ofNat]
    omega
  rw [bytesOf, hline, hoff, line_lineBase]

/-- the bytes after the bytes of a store have been replaced in its line -/
theorem bytesOf_store (mem : BitVec 8 → BitVec 512) (q : WordMemReq) (a : BitVec 32) (ha : q.addr = a.setWidth 64)
    (h : a.toNat % 64 + CoreMemToHBM.bytes q.size ≤ 64) :
    bytesOf (Function.update mem (line (lineBase q.addr)) (storeBytes q (mem (line (lineBase q.addr))))) =
      storeBytesAt (bytesOf mem) (a.setWidth 14) (CoreMemToHBM.bytes q.size) q.data := by
  funext b
  have hoff : offset q.addr = a.toNat % 64 := by
    rw [ha, offset, BitVec.toNat_setWidth]
    omega
  have hin : (b - a.setWidth 14).toNat < CoreMemToHBM.bytes q.size ↔ b.extractLsb' 6 8 = line (lineBase q.addr) ∧
      a.toNat % 64 ≤ b.toNat % 64 ∧ b.toNat % 64 < a.toNat % 64 + CoreMemToHBM.bytes q.size := by
    rw [ha, line_lineBase, ← BitVec.toNat_inj]
    simp only [BitVec.toNat_sub, BitVec.extractLsb'_toNat, BitVec.toNat_setWidth, Nat.shiftRight_eq_div_pow]
    have hb := b.isLt
    omega
  rw [bytesOf, storeBytesAt]
  by_cases hline : b.extractLsb' 6 8 = line (lineBase q.addr)
  · rw [hline, Function.update_self, storeBytes, lane_patch _ _ (by omega), hoff]
    by_cases hb : a.toNat % 64 ≤ b.toNat % 64 ∧ b.toNat % 64 < a.toNat % 64 + CoreMemToHBM.bytes q.size
    · have hdist : (b - a.setWidth 14).toNat = b.toNat % 64 - a.toNat % 64 := by
        rw [ha, line_lineBase, ← BitVec.toNat_inj] at hline
        simp only [BitVec.extractLsb'_toNat, BitVec.toNat_setWidth, Nat.shiftRight_eq_div_pow] at hline
        simp only [BitVec.toNat_sub, BitVec.toNat_setWidth]
        have hb := b.isLt
        omega
      rw [if_pos hb, if_pos (hin.2 ⟨hline, hb⟩), hdist]
      rfl
    · rw [if_neg hb, if_neg fun hlt => hb (hin.1 hlt).2, bytesOf, hline]
      rfl
  · rw [Function.update_of_ne hline, if_neg fun hlt => hline (hin.1 hlt).1, bytesOf]

/-! ## One instruction -/

section Exec

variable {img : BitVec 8 → BitVec 32} {a : Arch}

/-- an instruction that is neither a load nor a store -/
theorem exec_eq (hm : isMem (fetch img a.pc) = false) (d : BitVec 32) :
    exec img a d = ⟨nextPc (fetch img a.pc) a, if wbEn (fetch img a.pc) then
      Function.update a.rf (rd (fetch img a.pc)) (wbVal (fetch img a.pc) a) else a.rf⟩ := by
  simp only [isMem, Bool.or_eq_false_iff] at hm
  simp [exec, hm.1, hm.2]

/-- one that writes a register -/
theorem exec_setReg (hop : opcode (fetch img a.pc) ∈ [0x33, 0x13, 0x37, 0x17, 0x6f, 0x67]) (d : BitVec 32) :
    exec img a d = ⟨nextPc (fetch img a.pc) a, setReg a.rf (rd (fetch img a.pc)) (wbVal (fetch img a.pc) a)⟩ := by
  have hm : isMem (fetch img a.pc) = false := by
    simp only [List.mem_cons, List.not_mem_nil, or_false] at hop
    rcases hop with h | h | h | h | h | h <;> simp [isMem, isLoad, isStore, h]
  rw [exec_eq hm, Transfers.wbEn_eq hop]
  rfl

theorem exec_compute {p : Compute.Instr} (h : Compute.Encodes (fetch img a.pc) p) (d : BitVec 32) :
    exec img a d = p.step a := by
  have hop := Compute.opcode_of_encodes h
  have hpc : nextPc (fetch img a.pc) a = (p.step a).pc := by
    rw [Compute.step_pc]
    rcases hop with hop | hop | hop | hop <;> simp [nextPc, isJalr, isJal, isBranch, hop]
  rw [exec_setReg (by rcases hop with hop | hop | hop | hop <;> simp [hop]), hpc, Compute.wbVal_eq h]

theorem even_append {k : ℕ} (x : BitVec k) : (x ++ 0#1)[0] = false := by
  rw [← BitVec.getLsbD_eq_getElem, BitVec.getLsbD_append]
  rfl

/-- the immediates of branches and of JAL, as the assembler splits them -/
theorem immB_eq {w : BitVec 32} {c : Transfers.Cond} {r1 r2 : BitVec 5} {off : BitVec 12}
    (h : Encodes w (.branch c r1 r2 off)) : immB w = (off ++ 0#1).signExtend 32 := by
  have hword : (Instr.branch c r1 r2 off).word = Asm.bType ((off ++ 0#1).signExtend 32) (r2.setWidth 32) (r1.setWidth 32)
      (c.funct3.setWidth 32) ((0x63 : BitVec 7).setWidth 32) := by
    cases c <;> rfl
  rw [encodes_unique h (encodes_word _), hword]
  exact Asm.immB_bType _ _ _ _ _ (even_append off)

theorem immJ_eq {w : BitVec 32} {d : BitVec 5} {off : BitVec 20} (h : Encodes w (.jal d off)) :
    immJ w = (off ++ 0#1).signExtend 31 := by
  have hword : (Instr.jal d off).word =
      Asm.jType ((off ++ 0#1).signExtend 32) (d.setWidth 32) ((0x6f : BitVec 7).setWidth 32) := rfl
  rw [encodes_unique h (encodes_word _), hword]
  exact Asm.immJ_jType _ _ _ (even_append off)

theorem immS_eq (w : BitVec 32) : immS w = (offS w).signExtend 32 := by
  apply BitVec.eq_of_getLsbD_eq
  intro b hb
  simp only [immS, offS, BitVec.getLsbD_append, BitVec.getLsbD_signExtend, Asm.getLsbD_fill,
    BitVec.getLsbD_extractLsb', BitVec.msb_eq_getLsbD_last, hb]
  by_cases hlt : b < 12
  · simp [hlt, show b - 5 < 7 by omega]
  · simp [hlt, show ¬ b < 5 by omega, show ¬ b - 5 < 7 by omega, show b - 5 - 7 < 20 by omega]

theorem exec_branch {c : Transfers.Cond} {r1 r2 : BitVec 5} {off : BitVec 12}
    (h : Encodes (fetch img a.pc) (.branch c r1 r2 off)) (d : BitVec 32) :
    exec img a d =
      ⟨if c.holds (a.rf r1) (a.rf r2) then a.pc + (off ++ 0#1).signExtend 32 else a.pc + 4, a.rf⟩ := by
  have himm := immB_eq h
  obtain ⟨hop, hf, rfl, rfl, -⟩ := h
  have hwb : wbEn (fetch img a.pc) = false := by simp [wbEn, isOp, isOpImm, isLui, isAuipc, isJal, isJalr, hop]
  have htaken := Transfers.brTaken_eq (a := a) hop hf
  rw [exec_eq (by simp [isMem, isLoad, isStore, hop]), hwb, nextPc, himm, htaken]
  simp [isJalr, isJal, isBranch, hop]

theorem exec_jal {rd' : BitVec 5} {off : BitVec 20} (h : Encodes (fetch img a.pc) (.jal rd' off))
    (hoff : off.msb = false) (d : BitVec 32) :
    exec img a d = ⟨a.pc + (off ++ 0#1).signExtend 32, setReg a.rf rd' (a.pc + 4)⟩ := by
  have himm : (immJ (fetch img a.pc)).setWidth 32 = (off ++ 0#1).signExtend 32 := by
    have hmsb : (off ++ 0#1).msb = false := by rw [BitVec.msb_append]; simpa using hoff
    rw [immJ_eq h, BitVec.signExtend_eq_setWidth_of_msb_false hmsb, BitVec.signExtend_eq_setWidth_of_msb_false hmsb,
      BitVec.setWidth_setWidth (by decide)]
  obtain ⟨hop, rfl, -⟩ := h
  rw [exec_setReg (by simp [hop]), nextPc, himm]
  simp [wbVal, isJalr, isJal, hop]

theorem exec_jalr {rd' r1 : BitVec 5} {imm : BitVec 12} (h : Encodes (fetch img a.pc) (.jalr rd' r1 imm))
    (d : BitVec 32) :
    exec img a d = ⟨(a.rf r1 + imm.signExtend 32) &&& ~~~1, setReg a.rf rd' (a.pc + 4)⟩ := by
  obtain ⟨hop, -, rfl, rfl, rfl⟩ := h
  have haddr : addr (fetch img a.pc) a = a.rf (rs1 (fetch img a.pc)) + ((fetch img a.pc).extractLsb' 20 12).signExtend 32 := by
    simp [addr, u2, isOp, isStore, rs1v, hop, Compute.immI_eq]
  rw [exec_setReg (by simp [hop]), nextPc, if_pos (by simp [isJalr, hop]), haddr]
  simp only [wbVal, isJalr, isJal, hop, beq_self_eq_true, Bool.or_true, if_true]
  rw [← Fields.extract_append_zero]

theorem exec_load {p : Load} (h : Loads.Encodes (fetch img a.pc) p) (d : BitVec 32) :
    exec img a d = ⟨a.pc + 4, setReg a.rf p.rd
      (extend (byteOp (fetch img a.pc)) (halfOp (fetch img a.pc)) (signedOp (fetch img a.pc)) d)⟩ := by
  simp [exec, nextPc, isLoad, isJalr, isJal, isBranch, h.opcode, h.rd]

theorem exec_store (hop : opcode (fetch img a.pc) = 0x23) (d : BitVec 32) : exec img a d = ⟨a.pc + 4, a.rf⟩ := by
  simp [exec, nextPc, isLoad, isStore, isJalr, isJal, isBranch, hop]

end Exec

/-! ## Loads and stores -/

section Access

variable {img : BitVec 8 → BitVec 32} {m : Mach (BitVec 8)}

theorem loadValue_lane (o : LoadOp) (l : BitVec 512) (k : ℕ) : loadValue o (fun j => lane 8 l (k + j)) = o.value l k := by
  cases o <;> rfl

/-- a load reads the bytes it is given -/
theorem loadValue_congr {o : LoadOp} {f g : ℕ → BitVec 8} (h : ∀ j < loadBytes o, f j = g j) :
    loadValue o f = loadValue o g := by
  cases o <;> simp [loadBytes, loadValue] at h ⊢ <;> simp [h]

theorem next_load {p : Load} (h : Encodes (m.inst img) (.load p))
    (hin : (p.addr m.arch).toNat % 64 + loadBytes p.op ≤ 64) : abs (m.next img line) = (Instr.load p).step (abs m) := by
  have he : Loads.Encodes (m.inst img) p := ⟨h.1, h.2.1, h.2.2.1, h.2.2.2.1, h.2.2.2.2⟩
  have hst : isStore (m.inst img) = false := by simp [isStore, h.1]
  have haddr : (m.req img).addr = (p.addr m.arch).setWidth 64 := congrArg (BitVec.setWidth 64) (Loads.addr_eq he)
  have hval : extend (byteOp (m.inst img)) (halfOp (m.inst img)) (signedOp (m.inst img)) (m.data img line) =
      loadValue p.op fun j => bytesOf m.mem ((p.addr m.arch).setWidth 14 + BitVec.ofNat 14 j) := by
    rw [Mach.data, hst, if_neg Bool.false_ne_true, Mach.line, haddr]
    refine (Loads.value_eq he _).trans ?_
    rw [← loadValue_lane]
    exact loadValue_congr fun j hj => (bytesOf_add _ _ (by omega)).symm
  rw [abs, CpuLane.Mach.next_mem_of_not_store hst, Mach.next, exec_load he]
  exact congrArg (fun v => (⟨⟨_, setReg _ _ v⟩, _⟩ : State 14)) hval

theorem next_store {p : Store} (h : Encodes (m.inst img) (.store p)) (hin : (p.addr m.arch).toNat % 64 + p.op.bytes ≤ 64)
    (hfit : (m.arch.rf p.rs2).toNat < 2 ^ (8 * p.op.bytes)) : abs (m.next img line) = (Instr.store p).step (abs m) := by
  obtain ⟨hop, hf3, hr1, hr2, himm⟩ := h
  have hst : isStore (m.inst img) = true := by simp [isStore, hop]
  have haddr : (m.req img).addr = (p.addr m.arch).setWidth 64 := by
    simp [Mach.req, request, addr, u2, isOp, hst, hop, rs1v, hr1, immS_eq, himm, Store.addr]
  have hbytes : CoreMemToHBM.bytes (m.req img).size = p.op.bytes := by
    refine (CpuLane.bytes_request _ _).trans ?_
    cases hp : p.op <;> simp [byteOp, halfOp, hf3, hp, StoreOp.funct3, StoreOp.bytes]
  have hdata : (m.req img).data = m.arch.rf p.rs2 := congrArg m.arch.rf hr2
  have hspill : NoSpill (m.req img) (m.mem (m.line img line)) := by
    intro k _ hk _ hd
    rw [hdata] at hd
    rw [hbytes] at hk
    have hlt : (m.arch.rf p.rs2).toNat < 2 ^ k := lt_of_lt_of_le hfit (Nat.pow_le_pow_right (by decide) hk)
    exact absurd (hd.symm.trans (Nat.testBit_lt_two_pow hlt)) (by decide)
  have hmem := bytesOf_store m.mem (m.req img) (p.addr m.arch) haddr (by rw [hbytes]; exact hin)
  rw [hbytes, hdata] at hmem
  rw [abs, Mach.next, exec_store hop, hst, if_pos rfl, (storeLine_eq_iff _ _).2 hspill, Mach.line, hmem]
  rfl

end Access

/-! ## The machine of the CPU lane -/

variable (img : BitVec 8 → BitVec 32)

/-- **Every supported instruction does what RV32I says.** -/
theorem next_abs {m : Mach (BitVec 8)} {p : Instr} (hp : decode (m.inst img) = some p) (hs : Supported p m.arch) :
    abs (m.next img line) = p.step (abs m) := by
  have h := encodes_of_decode hp
  have hmem : isStore (m.inst img) = false → (m.next img line).mem = m.mem := CpuLane.Mach.next_mem_of_not_store
  cases p with
  | compute p =>
    have hst : isStore (m.inst img) = false := by
      rcases Compute.opcode_of_encodes h with hop | hop | hop | hop <;> simp [isStore, hop]
    rw [abs, hmem hst, Mach.next, exec_compute h]
    rfl
  | branch c r1 r2 off =>
    rw [abs, hmem (by simp [isStore, h.1]), Mach.next, exec_branch h]
    rfl
  | jal d off =>
    rw [abs, hmem (by simp [isStore, h.1]), Mach.next, exec_jal h hs]
    rfl
  | jalr d r1 imm =>
    rw [abs, hmem (by simp [isStore, h.1]), Mach.next, exec_jalr h]
    rfl
  | load p => exact next_load h hs
  | store p => exact next_store h hs.1 hs.2

/-! ## Runs -/

section Hart

variable {n : ℕ}

/-- the instruction at the pc -/
def State.instr (s : State n) : Option Instr := decode (fetch img s.arch.pc)

/-- one instruction; a word that encodes none is not executed -/
def State.next (s : State n) : State n := (s.instr img).elim s fun p => p.step s

/-- the instruction at the pc is a supported one -/
def State.Regular (s : State n) : Prop := ∃ p ∈ s.instr img, Supported p s.arch

instance (s : State n) : Decidable (s.Regular img) := inferInstanceAs (Decidable (∃ p ∈ s.instr img, _))

/-- the hart after `k` instructions from reset, the memory holding `m₀` -/
def hart (m₀ : BitVec n → BitVec 8) (k : ℕ) : State n := (State.next img)^[k] ⟨boot, m₀⟩

theorem hart_succ (m₀ : BitVec n → BitVec 8) (k : ℕ) : hart img m₀ (k + 1) = (hart img m₀ k).next img :=
  Function.iterate_succ_apply' _ _ _

end Hart

/-- **The machine of the CPU lane is an RV32I hart** on the bytes of its lines, as long as the instructions are supported. -/
theorem mach_abs (m₀ : BitVec 8 → BitVec 512) (n : ℕ) (h : ∀ k < n, (hart img (bytesOf m₀) k).Regular img) :
    ∀ k ≤ n, abs (mach img line m₀ k) = hart img (bytesOf m₀) k := by
  intro k hk
  induction k with
  | zero => rfl
  | succ k ih =>
    have ih := ih (by omega)
    obtain ⟨p, hp, hs⟩ := h k (by omega)
    rw [mach_succ, hart_succ, State.next, hp, ← ih]
    rw [← ih] at hp hs
    exact next_abs img hp hs

end AegisSoc.Rv32i
