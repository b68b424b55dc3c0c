/-
Loads, from the instruction to the line port: the core and its adapter together, on a memory port that accepts, delays and
answers as it likes, with the boot port active in any cycle.

Size and signedness of a load are encoded three times: in funct3, in the size code of the word request, and in the flags
the core keeps while it waits and is already at the next instruction.
- `Load` and `Load.step`: the five loads and what RV32I says of them, given the line the memory returns;
- `value_eq`: the field the adapter cuts out of the line, extended by the flags of the core, is the value RV32I names;
- `Coupled`: the adapter is idle exactly when the core does not wait for it, in every reachable state (`coupled_run`);
- `loads_exact`: from any such state a load makes one line read and nothing else on the port, does what RV32I says, and
  waits for nothing but the port.
-/
import AegisSoc.Cpu.Compute
import AegisSoc.Cpu.CpuLane

namespace AegisSoc.Loads

open Machine RiscVICore CoreMemToHBM Lanes
open CpuLane (Boot coreIn wordOut)
open StallInsensitive (Waits)
open Transfers (Executes)

/-! ## RV32I -/

inductive LoadOp where
  | lb
  | lh
  | lw
  | lbu
  | lhu
deriving DecidableEq, Repr

namespace LoadOp

def funct3 : LoadOp → BitVec 3
  | lb => 0
  | lh => 1
  | lw => 2
  | lbu => 4
  | lhu => 5

/-- the value of the bytes of the line from byte `k` on, the first one lowest -/
def value (o : LoadOp) (l : BitVec 512) (k : ℕ) : BitVec 32 :=
  match o with
  | lb => (lane 8 l k).signExtend 32
  | lh => (lane 8 l (k + 1) ++ lane 8 l k).signExtend 32
  | lw => lane 8 l (k + 3) ++ (lane 8 l (k + 2) ++ (lane 8 l (k + 1) ++ lane 8 l k))
  | lbu => (lane 8 l k).setWidth 32
  | lhu => (lane 8 l (k + 1) ++ lane 8 l k).setWidth 32

end LoadOp

structure Load where
  op : LoadOp
  rd : BitVec 5
  rs1 : BitVec 5
  imm : BitVec 12
deriving DecidableEq, Repr

/-- the word `w` encodes the load -/
structure Encodes (w : BitVec 32) (p : Load) : Prop where
  opcode : opcode w = 0x03
  funct3 : f3 w = p.op.funct3
  rd : rd w = p.rd
  rs1 : rs1 w = p.rs1
  imm : w.extractLsb' 20 12 = p.imm

namespace Load

variable (p : Load) (a : Arch)

def addr : BitVec 32 := a.rf p.rs1 + p.imm.signExtend 32

/-- the address with its low six bits cleared -/
def line : BitVec 64 := (p.addr a).setWidth 64 &&& ~~~63

def offset : ℕ := (p.addr a).toNat % 64

/-- what RV32I says, when the line of the address is `l` and holds all the bytes; past the end of the line there are
zeros -/
def step (l : BitVec 512) : Arch := ⟨a.pc + 4, setReg a.rf p.rd (p.op.value l (p.offset a))⟩

end Load

/-! ## The value loaded -/

/-- sign extension by or-ing ones above the field -/
theorem or_ones {n : ℕ} (hn : 0 < n) {ones : BitVec 32} (hones : ∀ b : Fin 32, ones.getLsbD b = decide (n ≤ b.val))
    (s : Bool) (x : BitVec 32) :
    (if s && x.getLsbD (n - 1) then ones else 0) ||| (x.extractLsb' 0 n).setWidth 32 =
      if s then (x.extractLsb' 0 n).signExtend 32 else (x.extractLsb' 0 n).setWidth 32 := by
  apply BitVec.eq_of_getLsbD_eq
  intro b hb
  have hb' := hones ⟨b, hb⟩
  cases s with
  | false => simp
  | true =>
    simp only [Bool.true_and, if_true, BitVec.getLsbD_or, BitVec.getLsbD_setWidth, BitVec.getLsbD_signExtend,
      BitVec.getLsbD_extractLsb', BitVec.msb_eq_getLsbD_last, hb, decide_true, Nat.zero_add]
    by_cases hlt : b < n
    · cases x.getLsbD (n - 1) <;> simp [hlt, hb', show ¬ n ≤ b by omega]
    · cases x.getLsbD (n - 1) <;> simp [hlt, hb', show n ≤ b by omega, hn]

theorem extend_byte (s : Bool) (x : BitVec 32) :
    extend true false s x = if s then (x.extractLsb' 0 8).signExtend 32 else (x.extractLsb' 0 8).setWidth 32 := by
  have hones : ∀ b : Fin 32, (0xffffff00 : BitVec 32).getLsbD b = decide (8 ≤ b.val) := by decide
  rw [← or_ones (n := 8) (by decide) hones, extend, if_pos rfl]

theorem extend_half (s : Bool) (x : BitVec 32) :
    extend false true s x = if s then (x.extractLsb' 0 16).signExtend 32 else (x.extractLsb' 0 16).setWidth 32 := by
  have hones : ∀ b : Fin 32, (0xffff0000 : BitVec 32).getLsbD b = decide (16 ≤ b.val) := by decide
  rw [← or_ones (n := 16) (by decide) hones, extend, if_neg Bool.false_ne_true, if_pos rfl]

/-- adjacent bytes of a line -/
theorem lane_append (l : BitVec 512) (k : ℕ) {n : ℕ} :
    lane 8 l (k + n) ++ l.extractLsb' (8 * k) (8 * n) = l.extractLsb' (8 * k) (8 + 8 * n) := by
  apply BitVec.eq_of_getLsbD_eq
  intro b hb
  simp only [BitVec.getLsbD_append, getLsbD_lane, BitVec.getLsbD_extractLsb', hb, decide_true, Bool.true_and]
  by_cases hlt : b < 8 * n
  · simp [hlt]
  · simp only [hlt, decide_false, ite_false, show b - 8 * n < 8 by omega, decide_true, Bool.true_and]
    congr 1
    omega

/-- the field of a load, as a slice of the line -/
theorem field_eq (q : WordMemReq) (l : BitVec 512) {n : ℕ} (hn : n ≤ 8 * CoreMemToHBM.bytes q.size) :
    (loadField q l).extractLsb' 0 n = l.extractLsb' (8 * CoreMemToHBM.offset q.addr) n := by
  apply BitVec.eq_of_getLsbD_eq
  intro b hb
  simp only [BitVec.getLsbD_extractLsb', hb, decide_true, Bool.true_and, Nat.zero_add]
  exact loadField_getLsbD l (by omega)

theorem half_eq (l : BitVec 512) (k : ℕ) : lane 8 l (k + 1) ++ lane 8 l k = l.extractLsb' (8 * k) 16 :=
  lane_append l k

theorem word_eq (l : BitVec 512) (k : ℕ) :
    lane 8 l (k + 3) ++ (lane 8 l (k + 2) ++ (lane 8 l (k + 1) ++ lane 8 l k)) = l.extractLsb' (8 * k) 32 := by
  rw [half_eq]
  exact (congrArg (lane 8 l (k + 3) ++ ·) (lane_append l k (n := 2))).trans (lane_append l k (n := 3))

section Value

variable {w : BitVec 32} {p : Load} {a : Arch}

theorem addr_eq (h : Encodes w p) : RiscVICore.addr w a = p.addr a := by
  simp [RiscVICore.addr, u2, isOp, isStore, rs1v, Load.addr, h.opcode, h.rs1, Compute.immI_eq, h.imm]

theorem offset_eq (h : Encodes w p) : CoreMemToHBM.offset (request w a).addr = p.offset a := by
  simp only [CoreMemToHBM.offset, request, addr_eq h, BitVec.toNat_setWidth, Load.offset]
  omega

/-- clearing the low six bits -/
theorem lineBase_eq (x : BitVec 64) : lineBase x = x &&& ~~~63 := by
  have hmask : ∀ b : Fin 64, (~~~63#64).getLsbD b = decide (6 ≤ b.val) := by decide
  apply BitVec.eq_of_getLsbD_eq
  intro b hb
  have hb' := hmask ⟨b, hb⟩
  rw [lineBase, BitVec.getLsbD_append, BitVec.getLsbD_and]
  refine Eq.trans ?_ (congrArg _ hb'.symm)
  by_cases hlt : b < 6
  · simp [hlt, show ¬ 6 ≤ b by omega]
  · simp [hlt, show b - 6 < 58 by omega, show 6 ≤ b by omega, show 6 + (b - 6) = b by omega]

theorem readReq_eq (h : Encodes w p) : readReq (request w a) = ⟨p.line a, 0, false⟩ := by
  rw [readReq, lineBase_eq, Load.line, ← addr_eq h]
  rfl

/-- **The three encodings of size and sign agree.** The adapter cuts the field by the size code, the core extends it by the
flags it kept. -/
theorem value_eq (h : Encodes w p) (l : BitVec 512) :
    extend (byteOp w) (halfOp w) (signedOp w) (loadField (request w a) l) = p.op.value l (p.offset a) := by
  have hfield : ∀ {n}, n ≤ 8 * CoreMemToHBM.bytes (request w a).size →
      (loadField (request w a) l).extractLsb' 0 n = l.extractLsb' (8 * p.offset a) n := by
    intro n hn
    rw [field_eq _ _ hn, offset_eq h]
  have hf := h.funct3
  rw [CpuLane.bytes_request] at hfield
  cases hop : p.op with
  | lb =>
    have hb : byteOp w = true ∧ halfOp w = false ∧ signedOp w = true := by
      simp [byteOp, halfOp, signedOp, hf, hop, LoadOp.funct3]
    rw [hb.1, hb.2.1, hb.2.2, extend_byte, hfield (by simp [hb])]
    rfl
  | lh =>
    have hb : byteOp w = false ∧ halfOp w = true ∧ signedOp w = true := by
      simp [byteOp, halfOp, signedOp, hf, hop, LoadOp.funct3]
    rw [hb.1, hb.2.1, hb.2.2, extend_half, hfield (by simp [hb]), ← half_eq]
    rfl
  | lw =>
    have hb : byteOp w = false ∧ halfOp w = false ∧ signedOp w = true := by
      simp [byteOp, halfOp, signedOp, hf, hop, LoadOp.funct3]
    rw [hb.1, hb.2.1, LoadOp.value, word_eq, ← hfield (by simp [hb]), BitVec.extractLsb'_eq_self]
    rfl
  | lbu =>
    have hb : byteOp w = true ∧ halfOp w = false ∧ signedOp w = false := by
      simp [byteOp, halfOp, signedOp, hf, hop, LoadOp.funct3]
    rw [hb.1, hb.2.1, hb.2.2, extend_byte, hfield (by simp [hb])]
    rfl
  | lhu =>
    have hb : byteOp w = false ∧ halfOp w = true ∧ signedOp w = false := by
      simp [byteOp, halfOp, signedOp, hf, hop, LoadOp.funct3]
    rw [hb.1, hb.2.1, hb.2.2, extend_half, hfield (by simp [hb]), ← half_eq]
    rfl

end Value

/-! ## The lane on a memory port -/

/-- the boot port and the memory port -/
structure In where
  boot : Boot
  mem : MemIn

def step (r : CpuLane.Reg) (i : In) : CpuLane.Reg := CpuLane.next r i.boot i.mem

/-- what happens on the memory port -/
inductive Event where
  | req (q : MemReq)
  | resp (l : BitVec 512)
deriving DecidableEq, Repr

def events (r : CpuLane.Reg) (i : In) : List Event :=
  (if hbmReqValid r.adp && i.mem.reqReady then [.req (hbmReq r.adp)] else []) ++
    if i.mem.respValid && hbmRespReady r.adp then [.resp i.mem.respBits] else []

/-- an instruction is completed in this cycle -/
def retired (r : CpuLane.Reg) (i : In) : Bool := retires true r.core (coreIn r i.boot)

/-- a cycle in which the adapter does not wait for the memory port -/
def unstalled (r : CpuLane.Reg) (i : In) : List Unit :=
  if hbmReqValid r.adp && !i.mem.reqReady || hbmRespReady r.adp && !i.mem.respValid then [] else [()]

/-! ## The core and its adapter, in step -/

/-- the adapter is idle exactly when the core does not wait for it -/
structure Coupled (r : CpuLane.Reg) : Prop where
  noLoad : r.core.loadWait = false
  rests : r.core.memWait = false → r.adp.state = .idle
  waits : r.core.memWait = true → r.core.running = true ∧ r.core.halted = false ∧ r.adp.state ≠ .idle

section Core

variable {c : RiscVICore.Reg} {x : RiscVICore.In}

/-- a core that waits and gets no answer -/
theorem core_hold (hr : c.running = true) (hh : c.halted = false) (hl : c.loadWait = false) (hm : c.memWait = true)
    (hv : x.memRespValid = false) : RiscVICore.next true c x =
      { c with
        imem := if x.progWe then Function.update c.imem x.progAddr x.progData else c.imem
        running := true } := by
  rw [next_execute hr hh, execute_hold hl hm hv]

/-- a core that gets the answer it waits for -/
theorem core_take (hr : c.running = true) (hh : c.halted = false) (hl : c.loadWait = false) (hm : c.memWait = true)
    (hv : x.memRespValid = true) : RiscVICore.next true c x =
      { takeResp c x.memRespBits with
        imem := if x.progWe then Function.update c.imem x.progAddr x.progData else c.imem
        running := true } := by
  rw [next_execute hr hh, execute_takeResp hl hm hv]

/-- a core whose memory instruction is accepted -/
theorem core_issue (hv : memReqValid true c = true) (hx : x.memReqReady = true) : RiscVICore.next true c x =
      { issue c with
        imem := if x.progWe then Function.update c.imem x.progAddr x.progData else c.imem
        running := true } := by
  have hf : memReqFire true c x = true := by rw [memReqFire, hv, hx]; rfl
  simp only [memReqValid, Bool.and_eq_true, Bool.not_eq_true'] at hv
  rw [next_execute hv.1.1.1.1 hv.1.1.1.2, execute_issue hf]

/-- a core that does not wait and asks for nothing -/
theorem core_other (hl : c.loadWait = false) (hm : c.memWait = false) (hv : memReqValid true c = false) :
    (RiscVICore.next true c x).loadWait = false ∧ (RiscVICore.next true c x).memWait = false := by
  have hf : memReqFire true c x = false := by rw [memReqFire, hv]; rfl
  simp only [RiscVICore.next, execute, hl, hm, hf]
  split_ifs <;> simp_all [halt, compute]

end Core

section Step

variable {r : CpuLane.Reg} {i : In}

theorem step_adp : (step r i).adp = CoreMemToHBM.next r.adp ⟨wordOut r, i.mem⟩ := rfl

/-- an adapter that serves an access and has no answer yet goes on serving it -/
theorem adp_busy {a : CoreMemToHBM.Reg} (x : CoreMemToHBM.In) (hs : a.state ≠ .idle) (hr : a.state ≠ .rsp) :
    (CoreMemToHBM.next a x).state ≠ .idle := by
  cases h : a.state <;> simp only [CoreMemToHBM.next, h] <;> split_ifs <;> simp_all

theorem coupled_step (h : Coupled r) : Coupled (step r i) := by
  cases hm : r.core.memWait with
  | true =>
    obtain ⟨hr, hh, hs⟩ := h.waits hm
    by_cases hrsp : r.adp.state = .rsp
    · have hv : (coreIn r i.boot).memRespValid = true := by simp [coreIn, wordRespValid, hrsp]
      have hidle : (step r i).adp.state = .idle := by
        simp [step_adp, CoreMemToHBM.next, wordRespFire, wordRespValid, wordOut, memRespReady, hrsp, hm]
      have hcore : (step r i).core = _ := core_take hr hh h.noLoad hm hv
      refine ⟨by rw [hcore]; exact h.noLoad, fun _ => hidle, fun hw => ?_⟩
      rw [hcore] at hw
      exact absurd hw Bool.false_ne_true
    · have hv : (coreIn r i.boot).memRespValid = false := by simp [coreIn, wordRespValid, hrsp]
      have hcore : (step r i).core = _ := core_hold hr hh h.noLoad hm hv
      refine ⟨by rw [hcore]; exact h.noLoad, fun hw => ?_, fun _ => ?_⟩
      · rw [hcore] at hw
        exact absurd (hw.symm.trans hm) Bool.false_ne_true
      · rw [hcore]
        exact ⟨rfl, hh, adp_busy _ hs hrsp⟩
  | false =>
    have hs := h.rests hm
    cases hv : memReqValid true r.core with
    | true =>
      have hcore : (step r i).core = _ := core_issue hv (by simp [coreIn, wordReqReady, hs])
      have hadp : (step r i).adp.state = .rdreq := by
        simp [step_adp, CoreMemToHBM.next, wordReqFire, wordReqReady, wordOut, capture, hs, hv]
      simp only [memReqValid, Bool.and_true, Bool.and_eq_true, Bool.not_eq_true'] at hv
      refine ⟨by rw [hcore]; exact h.noLoad, fun hw => ?_, fun _ => ?_⟩
      · rw [hcore] at hw
        exact absurd hw.symm Bool.false_ne_true
      · rw [hcore, hadp]
        exact ⟨rfl, hv.1.1.1.2, by decide⟩
    | false =>
      obtain ⟨hl, hw⟩ := core_other (x := coreIn r i.boot) h.noLoad hm hv
      have hadp : (step r i).adp = r.adp := by
        simp [step_adp, CoreMemToHBM.next, wordReqFire, wordOut, hs, hv]
      exact ⟨hl, fun _ => by rw [hadp, hs], fun hw' => absurd (hw.symm.trans hw') Bool.false_ne_true⟩

end Step

theorem coupled_run (ins : List In) : Coupled (run step CpuLane.reset ins) :=
  run_inv Coupled (fun _ _ h _ => coupled_step h) ⟨rfl, fun _ => rfl, fun h => absurd h Bool.false_ne_true⟩
    (always_true step _ ins)

/-! ## A load in progress -/

/-- where the load `q` has come to in the adapter, and what it has shown on the port -/
def Phase (q : WordMemReq) (a : CoreMemToHBM.Reg) (es : List Event) : Prop :=
  match a.state with
  | .rdreq => es = []
  | .rdresp => es = [.req (readReq q)]
  | .rsp => es = [.req (readReq q), .resp a.lineReg]
  | _ => False

/-- the load at `r₀` is being executed -/
structure Loading (r₀ r : CpuLane.Reg) (es : List Event) : Prop where
  running : r.core.running = true
  halted : r.core.halted = false
  noLoad : r.core.loadWait = false
  memWait : r.core.memWait = true
  waits : Waits r₀.core.imem r.core (arch r₀.core)
  dmem : r.core.dmem = r₀.core.dmem
  off : OffOk r.adp
  access : captured r.adp = memReq r₀.core
  phase : Phase (memReq r₀.core) r.adp es

/-- the unstalled cycles to the end of the load -/
def left (r : CpuLane.Reg) : ℕ :=
  match r.adp.state with
  | .rdreq => 3
  | .rdresp => 2
  | _ => 1

section Progress

variable {r₀ r : CpuLane.Reg} {i : In} {es : List Event}

theorem isMem_of_load (hl : isLoad (inst r.core) = true) : isMem (inst r.core) = true := by
  rw [isMem, hl, Bool.true_or]

/-- the first cycle: the adapter takes the request -/
theorem loading_start (h : Coupled r) (he : Executes r.core) (hl : isLoad (inst r.core) = true) :
    retired r i = false ∧ events r i = [] ∧ left (step r i) = 3 ∧ Loading r (step r i) [] := by
  have hs := h.rests he.memWait
  have hmem := isMem_of_load hl
  have hv : memReqValid true r.core = true := by
    simp [memReqValid, he.running, he.halted, he.loadWait, he.memWait, hmem]
  have hcore : (step r i).core = _ := core_issue hv (by simp [coreIn, wordReqReady, hs])
  have hadp : (step r i).adp = capture r.adp (memReq r.core) := by
    simp [step_adp, CoreMemToHBM.next, wordReqFire, wordReqReady, wordOut, hs, hv]
  refine ⟨?_, ?_, ?_, ?_⟩
  · simp [retired, retires, he.loadWait, he.memWait, hmem]
  · simp [events, hbmReqValid, hbmRespReady, hs]
  · rw [left, hadp]
    rfl
  · constructor
    · rw [hcore]
    · rw [hcore]; exact he.halted
    · rw [hcore]; exact he.loadWait
    · rw [hcore]; rfl
    · rw [hcore]; exact ⟨hmem, rfl, rfl, rfl, rfl, rfl, rfl, rfl⟩
    · rw [hcore]; rfl
    · rw [hadp]; rfl
    · rw [hadp]; rfl
    · rw [hadp]; rfl

/-- an answer retires the load, and nothing else does -/
theorem retired_eq (h : Loading r₀ r es) : retired r i = wordRespValid r.adp := by
  simp [retired, retires, memRespFire, memRespReady, coreIn, h.running, h.halted, h.noLoad, h.memWait]

/-- a cycle in which the core waits moves the adapter only -/
theorem loading_hold (h : Loading r₀ r es) (hret : retired r i = false) {es' : List Event}
    (hcap : captured (step r i).adp = captured r.adp) (hphase : Phase (memReq r₀.core) (step r i).adp es') :
    Loading r₀ (step r i) es' := by
  rw [retired_eq h] at hret
  have hcore : (step r i).core = _ := core_hold (x := coreIn r i.boot) h.running h.halted h.noLoad h.memWait hret
  refine ⟨?_, ?_, ?_, ?_, ?_, ?_, offOk_next _ _ h.off, hcap.trans h.access, hphase⟩ <;> rw [hcore]
  · exact h.halted
  · exact h.noLoad
  · exact h.memWait
  · obtain ⟨hmem, hpc, hrf, hrd, hwr, hb, hh, hs⟩ := h.waits
    exact ⟨hmem, hpc, hrf, hrd, hwr, hb, hh, hs⟩
  · exact h.dmem

theorem loading_step (h : Loading r₀ r es) (hl : isLoad (inst r₀.core) = true) (hret : retired r i = false) :
    Loading r₀ (step r i) (es ++ events r i) ∧ left (step r i) + (unstalled r i).length ≤ left r := by
  have hph := h.phase
  have hrd : r.adp.isWrReg = false := (congrArg WordMemReq.isWrite h.access).trans (isStore_of_isLoad hl)
  cases hs : r.adp.state with
  | rdreq =>
    simp only [Phase, hs] at hph
    subst hph
    have hreq := hbmReq_rdreq hs
    rw [h.access] at hreq
    cases hr : i.mem.reqReady with
    | true =>
      have hadp : (step r i).adp = { r.adp with state := .rdresp } := by
        simp [step_adp, CoreMemToHBM.next, hbmReqFire, hbmReqValid, hs, hr]
      have hev : events r i = [.req (readReq (memReq r₀.core))] := by
        simp [events, hbmReqValid, hbmRespReady, hs, hr, hreq]
      refine ⟨loading_hold h hret (by rw [hadp]; rfl) ?_, ?_⟩
      · rw [hadp, hev]
        rfl
      · simp [left, hadp, hs, unstalled, hbmReqValid, hbmRespReady, hr]
    | false =>
      have hadp : (step r i).adp = r.adp := by simp [step_adp, CoreMemToHBM.next, hbmReqFire, hbmReqValid, hs, hr]
      have hev : events r i = [] := by simp [events, hbmReqValid, hbmRespReady, hs, hr]
      refine ⟨loading_hold h hret (by rw [hadp]) ?_, ?_⟩
      · rw [hadp, hev]
        simp only [Phase, hs, List.append_nil]
      · simp [left, hadp, hs, unstalled, hbmReqValid, hr]
  | rdresp =>
    simp only [Phase, hs] at hph
    subst hph
    cases hv : i.mem.respValid with
    | true =>
      have hadp : (step r i).adp = { r.adp with lineReg := i.mem.respBits, state := .rsp } := by
        simp [step_adp, CoreMemToHBM.next, hbmRespFire, hbmRespReady, hs, hv, hrd]
      have hev : events r i = [.resp i.mem.respBits] := by simp [events, hbmReqValid, hbmRespReady, hs, hv]
      refine ⟨loading_hold h hret (by rw [hadp]; rfl) ?_, ?_⟩
      · rw [hadp, hev]
        rfl
      · simp [left, hadp, hs, unstalled, hbmReqValid, hbmRespReady, hv]
    | false =>
      have hadp : (step r i).adp = r.adp := by simp [step_adp, CoreMemToHBM.next, hbmRespFire, hs, hv]
      have hev : events r i = [] := by simp [events, hbmReqValid, hs, hv]
      refine ⟨loading_hold h hret (by rw [hadp]) ?_, ?_⟩
      · rw [hadp, hev]
        simp only [Phase, hs, List.append_nil]
      · simp [left, hadp, hs, unstalled, hbmRespReady, hv]
  | rsp =>
    rw [retired_eq h, wordRespValid, hs] at hret
    exact absurd hret.symm Bool.false_ne_true
  | idle => simp only [Phase, hs] at hph
  | wrreq => simp only [Phase, hs] at hph
  | wrresp => simp only [Phase, hs] at hph

/-- until the load retires -/
theorem loading_run (h : Loading r₀ r es) (hl : isLoad (inst r₀.core) = true) {ins : List In}
    (hins : Always step (fun r i => retired r i = false) r ins) :
    Loading r₀ (run step r ins) (es ++ collect step events r ins) ∧
      left (run step r ins) + (collect step unstalled r ins).length ≤ left r := by
  induction ins generalizing r es with
  | nil => exact ⟨by simpa using h, le_rfl⟩
  | cons i ins ih =>
    obtain ⟨h', hleft⟩ := loading_step h hl hins.1
    obtain ⟨hrun, hrest⟩ := ih h' hins.2
    rw [List.append_assoc] at hrun
    refine ⟨hrun, ?_⟩
    rw [run_cons, collect_cons, List.length_append]
    omega

/-- the cycle in which the load retires -/
theorem loading_end (h : Loading r₀ r es) (hl : isLoad (inst r₀.core) = true) (hret : retired r i = true) :
    ∃ l, es ++ events r i = [.req (readReq (memReq r₀.core)), .resp l] ∧
      arch (step r i).core = exec r₀.core.imem (arch r₀.core) (loadField (memReq r₀.core) l) ∧
      (step r i).core.dmem = r₀.core.dmem ∧ Executes (step r i).core := by
  have hph := h.phase
  rw [retired_eq h] at hret
  have hs : r.adp.state = .rsp := by simpa [wordRespValid] using hret
  simp only [Phase, hs] at hph
  have hev : events r i = [] := by simp [events, hbmReqValid, hbmRespReady, hs]
  have hrd : r.adp.isWrReg = false := (congrArg WordMemReq.isWrite h.access).trans (isStore_of_isLoad hl)
  have hbits : (coreIn r i.boot).memRespBits = loadField (memReq r₀.core) r.adp.lineReg := by
    rw [coreIn, wordRespBits_eq h.off, hrd, h.access]
    rfl
  have hcore : (step r i).core = _ := core_take (x := coreIn r i.boot) h.running h.halted h.noLoad h.memWait hret
  rw [hbits] at hcore
  refine ⟨r.adp.lineReg, by rw [hph, hev, List.append_nil], ?_, ?_, ?_⟩
  · rw [hcore, ← h.waits.exec]
    rfl
  · rw [hcore]
    exact h.dmem
  · rw [hcore]
    exact ⟨rfl, h.halted, h.noLoad, rfl⟩

/-- the events of a load in progress are those of a whole one, as far as they have come -/
theorem Loading.initial (h : Loading r₀ r es) : ∃ l, es <+: [.req (readReq (memReq r₀.core)), .resp l] := by
  have hph := h.phase
  unfold Phase at hph
  split at hph
  · exact ⟨0, hph ▸ List.nil_prefix⟩
  · exact ⟨0, hph ▸ List.prefix_append _ _⟩
  · exact ⟨r.adp.lineReg, by rw [hph]⟩
  · exact hph.elim

theorem left_pos (r : CpuLane.Reg) : 0 < left r := by
  unfold left
  split <;> decide

theorem unstalled_length (r : CpuLane.Reg) (i : In) : (unstalled r i).length ≤ 1 := by
  unfold unstalled
  split_ifs <;> simp

end Progress

theorem exec_load {w : BitVec 32} {p : Load} {img : BitVec 8 → BitVec 32} {a : Arch} (hw : fetch img a.pc = w)
    (h : Encodes w p) (l : BitVec 512) : exec img a (loadField (request w a) l) = p.step a l := by
  have hl : isLoad w = true := by simp [isLoad, h.opcode]
  have hpc : nextPc w a = a.pc + 4 := by simp [nextPc, isJalr, isJal, isBranch, h.opcode]
  simp only [exec, hw, hl, if_true, value_eq h, hpc, h.rd, Load.step]

/-- **Loads, end to end.** `before` is a run of cycles from the one in which the load is decoded, none of which retires an
instruction; at most three of them are not spent waiting for the memory port. In the cycle that retires the load, `last`,
the port has shown one line read and its answer. -/
theorem loads_exact :
    (∀ ins, Coupled (run step CpuLane.reset ins)) ∧
    ∀ (r : CpuLane.Reg) (p : Load), Coupled r → Executes r.core → Encodes (inst r.core) p →
      ∀ before, Always step (fun r i => retired r i = false) r before →
        (collect step unstalled r before).length ≤ 3 ∧
        (∃ l, collect step events r before <+: [.req ⟨p.line (arch r.core), 0, false⟩, .resp l]) ∧
        (run step r before).core.rf = r.core.rf ∧ (run step r before).core.dmem = r.core.dmem ∧
        ∀ last, retired (run step r before) last = true →
          ∃ l, collect step events r (before ++ [last]) = [.req ⟨p.line (arch r.core), 0, false⟩, .resp l] ∧
            arch (run step r (before ++ [last])).core = p.step (arch r.core) l ∧
            (run step r (before ++ [last])).core.dmem = r.core.dmem ∧
            Executes (run step r (before ++ [last])).core := by
  refine ⟨coupled_run, fun r p hc he hp before hbefore => ?_⟩
  have hl : isLoad (inst r.core) = true := by simp [isLoad, hp.opcode]
  have hreq : readReq (memReq r.core) = ⟨p.line (arch r.core), 0, false⟩ := readReq_eq hp
  cases before with
  | nil =>
    refine ⟨by simp, ⟨0, List.nil_prefix⟩, rfl, rfl, fun last hlast => ?_⟩
    exact absurd ((loading_start hc he hl).1.symm.trans hlast) Bool.false_ne_true
  | cons first before =>
    obtain ⟨-, hev, hleft, hstart⟩ := loading_start (i := first) hc he hl
    obtain ⟨hrun, hcount⟩ := loading_run hstart hl hbefore.2
    have hpos := left_pos (run step (step r first) before)
    have hfirst := unstalled_length r first
    refine ⟨?_, ?_, hrun.waits.rf, hrun.dmem, fun last hlast => ?_⟩
    · rw [collect_cons, List.length_append]
      omega
    · rw [collect_cons, hev, ← hreq]
      exact hrun.initial
    · obtain ⟨l, hes, harch, hdmem, hexec⟩ := loading_end hrun hl hlast
      have hw : fetch r.core.imem (arch r.core).pc = inst r.core := rfl
      rw [List.cons_append, run_cons, collect_cons, run_snoc, collect_snoc, hev, ← hreq]
      exact ⟨l, hes, harch.trans (exec_load hw hp l), hdmem, hexec⟩

/-- `lb x5, 3(x0)`, loaded at the boot port and started -/
def booted : CpuLane.Reg := run step CpuLane.reset [⟨⟨true, 0, 0x00300283, false⟩, ⟨false, false, 0⟩⟩,
  ⟨⟨false, 0, 0, true⟩, ⟨false, false, 0⟩⟩]

/-- the request waits for one cycle; a line with 0x80 in byte 3 is returned -/
def waiting : List In := [⟨⟨false, 0, 0, false⟩, ⟨false, false, 0⟩⟩, ⟨⟨false, 0, 0, false⟩, ⟨false, false, 0⟩⟩,
  ⟨⟨false, 0, 0, false⟩, ⟨true, false, 0⟩⟩, ⟨⟨false, 0, 0, false⟩, ⟨false, true, 0x80000000⟩⟩]

def answered : In := ⟨⟨false, 0, 0, false⟩, ⟨false, false, 0⟩⟩

theorem loads_exact_lb :
    collect step events booted (waiting ++ [answered]) = [.req ⟨0, 0, false⟩, .resp 0x80000000] ∧
      (run step booted (waiting ++ [answered])).core.rf 5 = 0xffffff80 := by
  have hevents : collect step events booted (waiting ++ [answered]) = [.req ⟨0, 0, false⟩, .resp 0x80000000] := by
    decide +kernel
  have hwait : Always step (fun r i => retired r i = false) booted waiting := by decide +kernel
  have hlast : retired (run step booted waiting) answered = true := by decide +kernel
  have hexec : Executes booted.core := ⟨by decide +kernel, by decide +kernel, by decide +kernel, by decide +kernel⟩
  have hword : inst booted.core = 0x00300283 := by decide +kernel
  have hload : Encodes (inst booted.core) ⟨.lb, 5, 0, 3⟩ := by
    rw [hword]
    exact ⟨by decide, by decide, by decide, by decide, by decide⟩
  obtain ⟨-, -, -, -, hend⟩ := loads_exact.2 booted ⟨.lb, 5, 0, 3⟩ (loads_exact.1 _) hexec hload waiting hwait
  obtain ⟨l, hes, harch, -⟩ := hend answered hlast
  have hl : l = 0x80000000 := by
    rw [hevents] at hes
    exact (Event.resp.inj (List.cons.inj (List.cons.inj hes).2).1).symm
  refine ⟨hevents, ?_⟩
  rw [show (run step booted (waiting ++ [answered])).core.rf = (arch (run step booted (waiting ++ [answered])).core).rf
    from rfl, harch, hl]
  decide +kernel

end AegisSoc.Loads
