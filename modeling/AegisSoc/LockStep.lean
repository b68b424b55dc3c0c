/-
Requests and responses of the SoC go in lock-step: over every run from reset, whatever the program, the GPU traffic, the
launches and the memory mode.

- `locked_step`: every adapter waits for a response exactly while it is owed one, and the engine on the accelerator port
  never leaves the port while it is owed one;
- `mirror_run`: so no response is ever held up, and the AXI mirror shows every accepted request once, in acceptance
  order;
- `lock_step`: both, read off the handshakes of whole runs.
-/
import AegisSoc.Top
import AegisSoc.FixedFunc.GemmRun

namespace AegisSoc.LockStep

open Machine PortMemory AegisSoc.Top
open PortClient (Waiting owed owed_eq_some)
open SplitPrioritizer (Port src)

/-! ## One cycle -/

theorem gpu_waiting : Waiting gpuClient fun r => AXIToMemReq.memRespReady r.path.adp where
  ready _ _ := rfl
  accepted r _ m hv hr := AXIToMemReq.waiting.accepted r.path.adp (GPUL2Cache.axiOut r.path.l2) m hv hr
  taken r _ m hw hv := AXIToMemReq.waiting.taken r.path.adp (GPUL2Cache.axiOut r.path.l2) m hw hv
  held r _ m hq hp := AXIToMemReq.waiting.held r.path.adp (GPUL2Cache.axiOut r.path.l2) m hq hp

/-- what each lane knows of the response it is owed -/
structure Locked (j : Fabric.Joint R) : Prop where
  sound : Fabric.Sound j
  cpu : (owed .cpu j.mem).isSome = CoreMemToHBM.hbmRespReady (j.reg.own .cpu).adp
  gpu : (owed .gpu j.mem).isSome = AXIToMemReq.memRespReady (j.reg.own .gpu).path.adp
  acc : GemmToMem.onPort (j.reg.own .acc) = false → owed .acc j.mem = none

variable (memMode : BitVec 2)

theorem locked_start (g : Junk) : Locked (start g) := ⟨sound_start g, rfl, rfl, fun _ => rfl⟩

/-- **Every cycle keeps the lanes and the memory in lock-step.** -/
theorem locked_step (j : Fabric.Joint R) (i : In) (h : Locked j) : Locked (joint memMode j i) := by
  have hcpu := Waiting.step SplitPrioritizer.access (c := lanes .cpu) CpuLane.waiting (s := Fabric.view .cpu j)
    (laneIn memMode .cpu j i) h.cpu
  have hgpu := Waiting.step SplitPrioritizer.access (c := lanes .gpu) gpu_waiting (s := Fabric.view .gpu j)
    (laneIn memMode .gpu j i) h.gpu
  rw [← lane_step memMode .cpu j i h.sound] at hcpu
  rw [← lane_step memMode .gpu j i h.sound] at hgpu
  have hacc : GemmToMem.onPort (Fabric.view .acc (joint memMode j i)).own = false →
      (Fabric.view .acc (joint memMode j i)).owed = none := by
    have hview : Fabric.view .acc (joint memMode j i) =
        GemmRun.step 8 SplitPrioritizer.line (Fabric.view .acc j) (laneIn memMode .acc j i) :=
      lane_step memMode .acc j i h.sound
    rw [hview]
    exact GemmRun.off_step h.acc
  exact ⟨sound_joint memMode j i h.sound, hcpu, hgpu, hacc⟩

variable {r : Reg} {α : St Port (BitVec 8) (BitVec 512)}

/-- a port that is owed a response is ready for it -/
theorem ready_of_owed (h : Locked ⟨toFabric r, α⟩) {p : Port} (hp : (owed p α).isSome = true) :
    (splitIn memMode r).respReady p = true := by
  cases p with
  | cpu => exact h.cpu.symm.trans hp
  | gpu => exact h.gpu.symm.trans hp
  | acc =>
    cases hon : GemmToMem.onPort r.gemm with
    | true => exact hon
    | false => simp [h.acc hon] at hp

/-- **No response is held up.** -/
theorem ready_of_busy (h : Locked ⟨toFabric r, α⟩) (hb : HBM3Stack.busy r.split.hbm = true) :
    (SplitPrioritizer.hbmIn r.split (splitIn memMode r)).respReady = true := by
  obtain ⟨d, hd⟩ := h.sound.busy_iff.1 hb
  rw [SplitPrioritizer.hbmIn_respReady]
  have ho : owed (src r.split) α = some d := owed_eq_some.2 hd
  exact ready_of_owed memMode h (by rw [ho]; rfl)

theorem ready_of_cmd (h : Locked ⟨toFabric r, α⟩) (hs : r.split.hbm.state = .cmd) :
    (SplitPrioritizer.hbmIn r.split (splitIn memMode r)).respReady = true :=
  ready_of_busy memMode h (by simp [HBM3Stack.busy, hs])

/-- the request in the stack and the one accepted in this cycle are the one the mirror shows and the one in the stack
after it -/
theorem mirror_step (h : Locked ⟨toFabric r, α⟩) (i : In) :
    (HBM3Stack.inFlight r.split.hbm ++ (accepted (handshakes memMode r)).map Prod.snd).map HBM3Stack.Beat.of =
      memAxi r ++ (HBM3Stack.inFlight (next memMode r i).split.hbm).map HBM3Stack.Beat.of := by
  have htags : (r.split.srcCpu && r.split.srcGpu) = false := h.sound.tags
  rw [handshakes, SplitPrioritizer.accepted_ev htags]
  exact HBM3Stack.inFlight_next r.split.hbm _ (ready_of_cmd memMode h)

/-! ## Whole runs -/

theorem locked_run (h : Locked ⟨toFabric r, α⟩) (ins : List In) :
    Locked ⟨toFabric (run (next memMode) r ins),
      after SplitPrioritizer.access α (collect (next memMode) (fun r _ => handshakes memMode r) r ins)⟩ := by
  rw [← run_joint]
  exact run_inv Locked (fun j i h _ => locked_step memMode j i h) h (always_true _ _ _)

/-- the mirror shows the accepted requests, one by one; the last one may still be in the stack -/
theorem mirror_run (h : Locked ⟨toFabric r, α⟩) (ins : List In) :
    (HBM3Stack.inFlight r.split.hbm ++
        (accepted (collect (next memMode) (fun r _ => handshakes memMode r) r ins)).map Prod.snd).map HBM3Stack.Beat.of =
      collect (next memMode) (fun r _ => memAxi r) r ins ++
        (HBM3Stack.inFlight (run (next memMode) r ins).split.hbm).map HBM3Stack.Beat.of := by
  induction ins generalizing r α with
  | nil => simp [accepted]
  | cons i ins ih =>
    have hnext := locked_step memMode _ i h
    rw [joint_toFabric] at hnext
    have hsplit : ∀ a b : List (Port × MemReq),
        (HBM3Stack.inFlight r.split.hbm ++ (a ++ b).map Prod.snd).map HBM3Stack.Beat.of =
          (HBM3Stack.inFlight r.split.hbm ++ a.map Prod.snd).map HBM3Stack.Beat.of ++
            (b.map Prod.snd).map HBM3Stack.Beat.of := fun a b => by simp
    rw [collect_cons, collect_cons, run_cons, accepted_append, hsplit, mirror_step memMode h i, List.append_assoc,
      ← List.map_append, ih hnext, List.append_assoc]

/-- the next beat of a busy stack is that of the request in it -/
theorem shown (more : List In) (h : Locked ⟨toFabric r, α⟩) (ht : HBM3Stack.Timed r.split.hbm)
    (hb : HBM3Stack.busy r.split.hbm = true) (hl : HBM3Stack.lag r.split.hbm < more.length) :
    [HBM3Stack.Beat.of (HBM3Stack.captured r.split.hbm)] <+: collect (next memMode) (fun r _ => memAxi r) r more := by
  induction more generalizing r α with
  | nil => exact absurd hl (Nat.not_lt_zero _)
  | cons i more ih =>
    rw [collect_cons]
    by_cases hs : r.split.hbm.state = .cmd
    · rw [memAxi, HBM3Stack.beats_cmd hs]
      exact List.prefix_append _ _
    · have hnext := locked_step memMode _ i h
      rw [joint_toFabric] at hnext
      have hf : HBM3Stack.reqFire r.split.hbm (SplitPrioritizer.hbmIn r.split (splitIn memMode r)) = false := by
        cases hst : r.split.hbm.state <;> simp [HBM3Stack.busy, HBM3Stack.reqFire, HBM3Stack.reqReady, hst] at hb ⊢
      obtain ⟨hb', hl'⟩ := HBM3Stack.lag_next r.split.hbm (SplitPrioritizer.hbmIn r.split (splitIn memMode r)) ht hb hs
      have hrest := ih (r := next memMode r i) hnext (HBM3Stack.timed_next _ _ ht) hb' (by
        have : HBM3Stack.lag (next memMode r i).split.hbm + 1 ≤ more.length := hl' ▸ Nat.le_of_lt_succ hl
        omega)
      rw [memAxi, HBM3Stack.beats_nil hs, List.nil_append]
      rwa [show HBM3Stack.captured (next memMode r i).split.hbm = _ from (HBM3Stack.captured_next hf).1] at hrest

/-- what holds of the registers `r` after the handshakes `es` -/
structure InStep (memMode : BitVec 2) (r : Reg) (es : List (Ev Port MemReq (BitVec 512))) : Prop where
  /-- the stack is busy exactly while a port has an accepted and unanswered request; every other request is answered -/
  stack : r.split.hbm.state = .prech ∨ r.split.hbm.state = .act ∨ r.split.hbm.state = .cmd ↔ ∃ p, Outstanding p es
  settled : ∀ p, ¬ Outstanding p es →
    (accepted es).countP (fun x => x.1 = p) = (responses es).countP (fun x => x.1 = p)
  /-- that port is the one the tags record, and it is ready for the response -/
  recorded : ∀ p, Outstanding p es →
    r.split.srcCpu = decide (p = .cpu) ∧ r.split.srcGpu = decide (p = .gpu) ∧ (splitIn memMode r).respReady p = true
  cpu : r.cpuAdp.state = .rdresp ∨ r.cpuAdp.state = .wrresp ↔ Outstanding .cpu es
  gpu : r.gpuAdp.state = .wwrsp ∨ r.gpuAdp.state = .aresp ∨ r.gpuAdp.state = .wldrsp ↔ Outstanding .gpu es
  acc : Outstanding .acc es → r.gemm.state = .fetchA ∨ r.gemm.state = .fetchB ∨ r.gemm.state = .store
  /-- the command state lasts one cycle -/
  command : r.split.hbm.state = .cmd → ∀ i, (next memMode r i).split.hbm.state = .idle
  /-- the two channels of a write move together -/
  channels : HBM3Stack.awvalid r.split.hbm = HBM3Stack.wvalid r.split.hbm

theorem inStep {m : BitVec 8 → BitVec 512} {es : List (Ev Port MemReq (BitVec 512))}
    (ht : Trace SplitPrioritizer.access ⟨m, none⟩ es)
    (h : Locked ⟨toFabric r, after SplitPrioritizer.access ⟨m, none⟩ es⟩) : InStep memMode r es := by
  have hpending : ∀ p, Outstanding p es ↔ ∃ d, (after SplitPrioritizer.access ⟨m, none⟩ es).pending = some (p, d) :=
    fun p => ht.outstanding_iff
  generalize after SplitPrioritizer.access ⟨m, none⟩ es = α at h hpending
  have howed : ∀ p, Outstanding p es ↔ (owed p α).isSome = true := fun p => by
    rw [hpending, Option.isSome_iff_exists]
    exact exists_congr fun d => owed_eq_some.symm
  have howner : ∀ p, Outstanding p es → p = src r.split := fun p hp => by
    obtain ⟨d, hd⟩ := (hpending p).1 hp
    exact h.sound.owner p d hd
  have hbusy : HBM3Stack.busy r.split.hbm = true ↔ ∃ d, α.pending = some (src r.split, d) := h.sound.busy_iff
  have hcpu : (owed .cpu α).isSome = CoreMemToHBM.hbmRespReady r.cpuAdp := h.cpu
  have hgpu : (owed .gpu α).isSome = AXIToMemReq.memRespReady r.gpuAdp := h.gpu
  have hacc : GemmToMem.onPort r.gemm = false → owed .acc α = none := h.acc
  refine ⟨?_, fun p hp => ht.settled hp, fun p hp => ?_, ?_, ?_, fun hp => ?_, fun hs i => ?_, rfl⟩
  · rw [show (r.split.hbm.state = .prech ∨ r.split.hbm.state = .act ∨ r.split.hbm.state = .cmd) ↔
      HBM3Stack.busy r.split.hbm = true by simp [HBM3Stack.busy, or_assoc], hbusy, ← hpending]
    refine ⟨fun hp => ⟨_, hp⟩, ?_⟩
    rintro ⟨p, hp⟩
    exact howner p hp ▸ hp
  · have htags : (r.split.srcCpu && r.split.srcGpu) = false := h.sound.tags
    refine ⟨?_, ?_, ready_of_owed memMode h ((howed p).1 hp)⟩ <;> rw [howner p hp] <;>
      cases hc : r.split.srcCpu <;> cases hg : r.split.srcGpu <;> simp_all [src]
  · rw [howed, hcpu]
    simp [CoreMemToHBM.hbmRespReady]
  · rw [howed, hgpu]
    simp [AXIToMemReq.memRespReady, or_assoc]
  · have hon : GemmToMem.onPort r.gemm = true := by
      by_contra hoff
      have hnone := (howed .acc).1 hp
      rw [hacc (by simpa using hoff)] at hnone
      exact absurd hnone Bool.false_ne_true
    simpa [GemmToMem.onPort, or_assoc] using hon
  · have hr := ready_of_cmd memMode h hs
    simp [Top.next, SplitPrioritizer.next, HBM3Stack.next, hs, hr]

/-- **Requests and responses of the SoC go in lock-step.** After any run from reset:
- the stack, the tags and the adapters agree on the one request outstanding, and the command state lasts one cycle;
- the mirror has shown each accepted request in one cycle, in acceptance order, with its address and write data; the
  request still in the stack is shown within `tPRE + tACT + 1` further cycles. -/
theorem lock_step (memMode : BitVec 2) (g : Junk) (ins : List In) :
    let r := run (next memMode) (reset g) ins
    let es := collect (next memMode) (fun r _ => handshakes memMode r) (reset g) ins
    InStep memMode r es ∧
    (accepted es).map (fun x => HBM3Stack.Beat.of x.2) =
      collect (next memMode) (fun r _ => memAxi r) (reset g) ins ++
        (HBM3Stack.inFlight r.split.hbm).map HBM3Stack.Beat.of ∧
    (∀ q ∈ HBM3Stack.inFlight r.split.hbm, ∀ more, HBM3Stack.tPRE + HBM3Stack.tACT < more.length →
      [HBM3Stack.Beat.of q] <+: collect (next memMode) (fun r _ => memAxi r) r more) := by
  intro r es
  have hlocked : Locked ⟨toFabric r, after SplitPrioritizer.access ⟨fun _ => 0, none⟩ es⟩ :=
    locked_run memMode (locked_start g) ins
  refine ⟨inStep memMode (run_trace memMode g ins).1 hlocked, ?_, fun q hq more hmore => ?_⟩
  · have hmirror := mirror_run memMode (locked_start g) ins
    rw [show HBM3Stack.inFlight (reset g).split.hbm = [] from rfl, List.nil_append, List.map_map] at hmirror
    exact hmirror
  · rw [HBM3Stack.inFlight, List.mem_ite_nil_right, List.mem_singleton] at hq
    rw [hq.2]
    exact shown memMode more hlocked (run_timed memMode g ins) hq.1 ((HBM3Stack.lag_le _).trans_lt hmore)

end AegisSoc.LockStep
