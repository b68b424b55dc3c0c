/-
The SoC (`Top.scala`, default configuration): the RV32I core behind `CoreMemToHBM`, the external GPU port and the SIMT core
behind `GPUL2Cache(2)` and `AXIToMemReq`, and `GemmToMem(8)`, on the three ports of `SplitPrioritizer`. `memMode` is the
elaboration parameter. The UART and the Vortex ports are not driven in this configuration and are left out, and so are
the slave signals of the AXI mirror, which the stack does not read.

- `toFabric_next`: the SoC is an instance of `Fabric`;
- `lane_step`: so each of its three lanes runs as if attached to a memory of its own that other agents write too.
-/
import AegisSoc.Memory.Fabric
import AegisSoc.Cpu.CpuLane
import AegisSoc.Gpu.GpuPath
import AegisSoc.Gpu.SimtCore
import AegisSoc.FixedFunc.GemmToMem

namespace AegisSoc.Top

open Machine PortMemory
open SplitPrioritizer (Port)
open PortClient (Client)

/-! ## Model -/

structure Reg where
  split : SplitPrioritizer.Reg
  core : RiscVICore.Reg
  cpuAdp : CoreMemToHBM.Reg
  l2 : GPUL2Cache.Reg
  gpuAdp : AXIToMemReq.Reg
  simt : SimtCore.Reg
  gemm : GemmToMem.Reg

structure In where
  progWe : Bool
  progAddr : BitVec 8
  progData : BitVec 32
  start : Bool
  gpu : MemOut
  simtStart : Bool
  simtBaseX : BitVec 64
  simtBaseZ : BitVec 64
  simtBaseY : BitVec 64
  simtNLines : BitVec 16
  gemmStart : Bool
  gemmBase : BitVec 64
deriving DecidableEq, Repr

/-- what the registers without a reset value hold -/
structure Junk where
  rAddr : BitVec 64
  rData : BitVec 512
  rW : Bool
  gpuAdp : AXIToMemReq.Reg
deriving DecidableEq, Repr

/-- nothing is driven from outside -/
def quiet : In := ⟨false, 0, 0, false, ⟨false, ⟨0, 0, false⟩, true⟩, false, 0, 0, 0, 0, false, 0⟩

/-- the cycles that load a program at address 0 over the boot port -/
def loading (words : List (BitVec 32)) : List In :=
  words.zipIdx.map fun w => { quiet with progWe := true, progAddr := BitVec.ofNat 8 w.2, progData := w.1 }

/-- what they may hold after other work -/
def leftover : Junk := ⟨0x1000, 9, true, ⟨.idle, 0x40, 1, 2, 3, 4, 5⟩⟩

/-- what drives the clusters: cluster 0 is the external GPU port, cluster 1 the SIMT core -/
def cluster (gpu : MemOut) (simt : SimtCore.Reg) : ℕ → MemOut
  | 0 => gpu
  | _ => SimtCore.memOut simt

section

variable (memMode : BitVec 2) (r : Reg) (i : In)

def wordOut : WordOut := ⟨RiscVICore.memReqValid true r.core, RiscVICore.memReq r.core, RiscVICore.memRespReady r.core⟩

def coreIn : RiscVICore.In where
  progWe := i.progWe
  progAddr := i.progAddr
  progData := i.progData
  start := i.start
  memReqReady := CoreMemToHBM.wordReqReady r.cpuAdp
  memRespValid := CoreMemToHBM.wordRespValid r.cpuAdp
  memRespBits := CoreMemToHBM.wordRespBits r.cpuAdp

def launch : SimtCore.Launch := ⟨i.simtStart, i.simtBaseX, i.simtBaseZ, i.simtBaseY, i.simtNLines⟩

/-- what the three lanes drive on the ports of the prioritizer -/
def splitIn : SplitPrioritizer.In where
  reqValid
    | .cpu => CoreMemToHBM.hbmReqValid r.cpuAdp
    | .gpu => AXIToMemReq.memReqValid r.gpuAdp
    | .acc => GemmToMem.onPort r.gemm
  req
    | .cpu => CoreMemToHBM.hbmReq r.cpuAdp
    | .gpu => AXIToMemReq.memReq r.gpuAdp
    | .acc => GemmToMem.memReq 8 r.gemm
  respReady
    | .cpu => CoreMemToHBM.hbmRespReady r.cpuAdp
    | .gpu => AXIToMemReq.memRespReady r.gpuAdp
    | .acc => GemmToMem.onPort r.gemm
  mode := memMode

/-- what the lane on port `p` sees -/
def portIn (p : Port) : MemIn :=
  ⟨SplitPrioritizer.reqReady r.split (splitIn memMode r) p, SplitPrioritizer.respValid r.split p,
    SplitPrioritizer.respBits r.split⟩

def next : Reg where
  split := SplitPrioritizer.next r.split (splitIn memMode r)
  core := RiscVICore.next true r.core (coreIn r i)
  cpuAdp := CoreMemToHBM.next r.cpuAdp ⟨wordOut r, portIn memMode r .cpu⟩
  l2 := GPUL2Cache.next 2 r.l2 (cluster i.gpu r.simt) (AXIToMemReq.axiIn r.gpuAdp (GPUL2Cache.axiOut r.l2))
  gpuAdp := AXIToMemReq.next r.gpuAdp ⟨GPUL2Cache.axiOut r.l2, portIn memMode r .gpu⟩
  simt := SimtCore.next r.simt (launch i) (GPUL2Cache.clusterIn 2 r.l2 (cluster i.gpu r.simt) 1)
  gemm := GemmToMem.next 8 r.gemm ⟨i.gemmStart, i.gemmBase⟩ (portIn memMode r .acc)

def reset (g : Junk) : Reg where
  split := SplitPrioritizer.reset g.rAddr g.rData g.rW
  core := RiscVICore.reset
  cpuAdp := CoreMemToHBM.reset
  l2 := GPUL2Cache.reset
  gpuAdp := AXIToMemReq.reset g.gpuAdp
  simt := SimtCore.reset
  gemm := GemmToMem.reset

/-- the handshakes of one cycle on the three ports of the prioritizer -/
def handshakes : List (Ev Port MemReq (BitVec 512)) := SplitPrioritizer.ev r.split (splitIn memMode r)

/-- what the AXI mirror `mem_axi` shows in this cycle -/
def memAxi : List HBM3Stack.Beat := HBM3Stack.beats r.split.hbm

end

/-! ## The three lanes on the fabric -/

/-- the GPU side of the SoC: the path and the SIMT core on its cluster 1 -/
structure GpuReg where
  path : GpuPath.Reg
  simt : SimtCore.Reg

structure GpuIn where
  gpu : MemOut
  launch : SimtCore.Launch

def gpuClient : LineClient GpuReg GpuIn where
  reqValid r _ := AXIToMemReq.memReqValid r.path.adp
  req r _ := AXIToMemReq.memReq r.path.adp
  respReady r _ := AXIToMemReq.memRespReady r.path.adp
  next r x m :=
    ⟨GpuPath.next 2 r.path ⟨cluster x.gpu r.simt, m⟩,
      SimtCore.next r.simt x.launch (GPUL2Cache.clusterIn 2 r.path.l2 (cluster x.gpu r.simt) 1)⟩

abbrev R : Port → Type
  | .cpu => CpuLane.Reg
  | .gpu => GpuReg
  | .acc => GemmToMem.Reg

abbrev X : Port → Type
  | .cpu => CpuLane.Boot
  | .gpu => GpuIn
  | .acc => GemmToMem.Cmd

def lanes : ∀ p, LineClient (R p) (X p)
  | .cpu => CpuLane.client
  | .gpu => gpuClient
  | .acc => GemmToMem.client 8

def toFabric (r : Reg) : Fabric.Reg R where
  split := r.split
  own
    | .cpu => ⟨r.core, r.cpuAdp⟩
    | .gpu => ⟨⟨r.l2, r.gpuAdp⟩, r.simt⟩
    | .acc => r.gemm

def ofFabric (s : Fabric.Reg R) : Reg where
  split := s.split
  core := (s.own .cpu).core
  cpuAdp := (s.own .cpu).adp
  l2 := (s.own .gpu).path.l2
  gpuAdp := (s.own .gpu).path.adp
  simt := (s.own .gpu).simt
  gemm := s.own .acc

theorem toFabric_ofFabric (s : Fabric.Reg R) : toFabric (ofFabric s) = s :=
  congrArg (Fabric.Reg.mk s.split) (funext fun p => by cases p <;> rfl)

def fabricIn (memMode : BitVec 2) (i : In) : Fabric.In X where
  ext
    | .cpu => ⟨i.progWe, i.progAddr, i.progData, i.start⟩
    | .gpu => ⟨i.gpu, launch i⟩
    | .acc => ⟨i.gemmStart, i.gemmBase⟩
  mode := memMode

variable {memMode : BitVec 2} {r : Reg} {i : In}

theorem splitIn_toFabric : Fabric.splitIn lanes (toFabric r) (fabricIn memMode i) = splitIn memMode r := by
  simp only [Fabric.splitIn, splitIn, SplitPrioritizer.In.mk.injEq]
  refine ⟨?_, ?_, ?_, rfl⟩ <;> funext p <;> cases p <;> rfl

theorem portIn_toFabric (p : Port) :
    Fabric.portIn lanes (toFabric r) (fabricIn memMode i) p = portIn memMode r p := by
  rw [Fabric.portIn, splitIn_toFabric]
  rfl

theorem evs_toFabric : Fabric.evs lanes (toFabric r) (fabricIn memMode i) = handshakes memMode r := by
  rw [Fabric.evs, splitIn_toFabric]
  rfl

/-- **The SoC is an instance of the fabric.** -/
theorem toFabric_next : toFabric (next memMode r i) = Fabric.next lanes (toFabric r) (fabricIn memMode i) := by
  have hsplit : (toFabric (next memMode r i)).split = (Fabric.next lanes (toFabric r) (fabricIn memMode i)).split := by
    simp only [Fabric.next, splitIn_toFabric]
    rfl
  have hown : (toFabric (next memMode r i)).own = (Fabric.next lanes (toFabric r) (fabricIn memMode i)).own := by
    funext p
    simp only [Fabric.next, portIn_toFabric]
    cases p <;> rfl
  exact congrArg₂ Fabric.Reg.mk hsplit hown

/-! ## Runs with the atomic memory alongside -/

/-- one cycle of the SoC and of the atomic memory it refines -/
def joint (memMode : BitVec 2) (j : Fabric.Joint R) (i : In) : Fabric.Joint R :=
  Fabric.jnext lanes j (fabricIn memMode i)

theorem joint_toFabric (α : St Port (BitVec 8) (BitVec 512)) : joint memMode ⟨toFabric r, α⟩ i =
    ⟨toFabric (next memMode r i), after SplitPrioritizer.access α (handshakes memMode r)⟩ := by
  rw [joint, Fabric.jnext, toFabric_next, evs_toFabric]

theorem run_joint (α : St Port (BitVec 8) (BitVec 512)) (ins : List In) : run (joint memMode) ⟨toFabric r, α⟩ ins =
    ⟨toFabric (run (next memMode) r ins),
      after SplitPrioritizer.access α (collect (next memMode) (fun r _ => handshakes memMode r) r ins)⟩ := by
  induction ins generalizing r α with
  | nil => rfl
  | cons i ins ih => rw [run_cons, joint_toFabric, ih, run_cons, collect_cons, after_append]

theorem always_joint {P : Fabric.Reg R → In → Prop} {α : St Port (BitVec 8) (BitVec 512)} {ins : List In} :
    Always (joint memMode) (fun j i => P j.reg i) ⟨toFabric r, α⟩ ins ↔
      Always (next memMode) (fun r i => P (toFabric r) i) r ins := by
  induction ins generalizing r α with
  | nil => exact Iff.rfl
  | cons i ins ih =>
    rw [always_cons, always_cons, joint_toFabric]
    exact and_congr Iff.rfl ih

theorem collect_joint {E : Type*} {f : Fabric.Reg R → In → List E} {α : St Port (BitVec 8) (BitVec 512)} {ins : List In} :
    collect (joint memMode) (fun j i => f j.reg i) ⟨toFabric r, α⟩ ins =
      collect (next memMode) (fun r i => f (toFabric r) i) r ins := by
  induction ins generalizing r α with
  | nil => rfl
  | cons i ins ih => rw [collect_cons, collect_cons, joint_toFabric, ih]

theorem sound_joint (memMode : BitVec 2) (j : Fabric.Joint R) (i : In) (h : Fabric.Sound j) :
    Fabric.Sound (joint memMode j i) :=
  Fabric.sound_step lanes j _ h

/-- the SoC after reset, over an empty memory -/
def start (g : Junk) : Fabric.Joint R := ⟨toFabric (reset g), ⟨fun _ => 0, none⟩⟩

theorem sound_start (g : Junk) : Fabric.Sound (start g) := SplitPrioritizer.rel_reset _ _ _

/-- the handshakes of a run are events of the atomic memory -/
theorem run_trace (memMode : BitVec 2) (g : Junk) (ins : List In) :
    Trace SplitPrioritizer.access ⟨fun _ => 0, none⟩
        (collect (next memMode) (fun r _ => handshakes memMode r) (reset g) ins) ∧
      SplitPrioritizer.Rel (run (next memMode) (reset g) ins).split
        (after SplitPrioritizer.access ⟨fun _ => 0, none⟩
          (collect (next memMode) (fun r _ => handshakes memMode r) (reset g) ins)) :=
  trace_run (fun (r : Reg) α => SplitPrioritizer.Rel r.split α)
    (fun r α _ h => SplitPrioritizer.sim_step r.split α (splitIn memMode r) h) (SplitPrioritizer.rel_reset _ _ _) ins

/-- the request in the stack is the last one accepted -/
theorem run_last (memMode : BitVec 2) (g : Junk) (ins : List In) :
    SplitPrioritizer.Last (run (next memMode) (reset g) ins).split
      (collect (next memMode) (fun r _ => handshakes memMode r) (reset g) ins) := by
  induction ins using List.reverseRecOn with
  | nil => exact fun hb => absurd hb Bool.false_ne_true
  | append_singleton ins i ih =>
    rw [run_snoc, collect_snoc]
    exact SplitPrioritizer.last_step (run_trace memMode g ins).2.tags ih _

theorem run_timed (memMode : BitVec 2) (g : Junk) (ins : List In) :
    HBM3Stack.Timed (run (next memMode) (reset g) ins).split.hbm :=
  run_inv (fun r : Reg => HBM3Stack.Timed r.split.hbm) (fun _ _ h _ => HBM3Stack.timed_next _ _ h)
    (HBM3Stack.timed_reset _ _ _ _) (always_true _ _ _)

/-- the lane on port `p` and its inputs, in the SoC -/
def laneIn (memMode : BitVec 2) (p : Port) (j : Fabric.Joint R) (i : In) :
    PortClient.In (X p) (BitVec 8) (BitVec 512) := Fabric.viewIn lanes p j (fabricIn memMode i)

/-- **One cycle of the SoC is one cycle of each lane on the memory its port sees.** -/
theorem lane_step (memMode : BitVec 2) (p : Port) (j : Fabric.Joint R) (i : In) (h : Fabric.Sound j) :
    Fabric.view p (joint memMode j i) =
      PortClient.step (lanes p) SplitPrioritizer.access (Fabric.view p j) (laneIn memMode p j i) :=
  Fabric.view_step lanes p j _ h

/-- the lane on port `p`, over the atomic memory `α` -/
abbrev laneOf (p : Port) (r : Reg) (α : St Port (BitVec 8) (BitVec 512)) :
    PortClient.Reg (R p) (BitVec 8) (BitVec 512) := Fabric.view p ⟨toFabric r, α⟩

theorem laneOf_next (p : Port) (i : In) {α : St Port (BitVec 8) (BitVec 512)} (h : Fabric.Sound ⟨toFabric r, α⟩) :
    laneOf p (next memMode r i) (after SplitPrioritizer.access α (handshakes memMode r)) =
      PortClient.step (lanes p) SplitPrioritizer.access (laneOf p r α) (laneIn memMode p ⟨toFabric r, α⟩ i) := by
  rw [laneOf, ← joint_toFabric (i := i)]
  exact lane_step memMode p _ i h

end AegisSoc.Top
