/-
The SIMT core in the SoC, with any traffic of the CPU, the external GPU port and the GEMM engine.

- `linked_step`: the core waits for a response exactly while the L2 has its request in hand, so that what it sees on its
  interface are the handshakes of cluster 1 (`ev_linked`);
- `Ready`: with the lock-step of the GPU path, what holds of every reachable state of the SoC;
- `kernel_run`: while nobody else writes the lines of the three arrays, a kernel runs as on a memory of its own;
- `kernel_exact`: when `done` rises, the shared memory holds on these lines what executing the kernel line after line makes
  of the contents at launch, for any placement of the arrays, and a read accepted from any port returns it.
-/
import AegisSoc.Top
import AegisSoc.Gpu.SimtKernel
import AegisSoc.Gpu.ClusterPort

namespace AegisSoc.SimtShared

open Machine PortMemory AegisSoc.Top
open SplitPrioritizer (Port line access)
open GPUL2Cache (reqFire respFire clusterIn)
open ClusterPort (own Serves Spares)
open ClusterData (storing)
open GpuPath (Fit Phase)
open SimtKernel (Kernel Running Completed Touches execute)

/-! ## The SIMT core on its cluster -/

section Cluster

/-- the core waits while the L2 has its request in hand, and both know whether it is a store -/
structure Linked (r : GpuReg) : Prop where
  waits : SimtCore.memRespReady r.simt = own 1 r.path
  kind : own 1 r.path = true → storing r.path.l2.state = (r.simt.state == .wrYr)

variable {r : GpuReg}

/-- the handshakes of the core are those of its cluster -/
theorem fires (x : GpuIn) :
    SimtCore.memReqFire r.simt (clusterIn 2 r.path.l2 (cluster x.gpu r.simt) 1) =
        reqFire 2 r.path.l2 (cluster x.gpu r.simt) 1 ∧
      SimtCore.memRespFire r.simt (clusterIn 2 r.path.l2 (cluster x.gpu r.simt) 1) =
        respFire r.path.l2 (cluster x.gpu r.simt) 1 := ⟨rfl, rfl⟩

theorem linked_step (h : Linked r) (x : GpuIn) (m : MemIn) : Linked (gpuClient.next r x m) := by
  obtain ⟨hreq, hresp⟩ := fires (r := r) x
  have hwaits : SimtCore.memRespReady (gpuClient.next r x m).simt = _ := SimtCore.memRespReady_next
  rw [hreq, hresp, h.waits] at hwaits
  cases hown : own 1 r.path with
  | false =>
    obtain ⟨hnext, hstore⟩ := ClusterPort.own_free (N := 2) (c := cluster x.gpu r.simt) (by decide) hown m
    rw [hown, if_neg Bool.false_ne_true, ← hnext] at hwaits
    refine ⟨hwaits, fun ho => ?_⟩
    have hfire := hnext.symm.trans ho
    rw [gpuClient, hstore hfire]
    exact (SimtCore.storing_next (hreq.trans hfire)).symm
  | true =>
    obtain ⟨hnext, hstore⟩ := ClusterPort.own_held (N := 2) (c := cluster x.gpu r.simt) hown m
    rw [hown, if_pos rfl, ← hnext] at hwaits
    refine ⟨hwaits, fun ho => ?_⟩
    have hfire : respFire r.path.l2 (cluster x.gpu r.simt) 1 = false := by
      simpa using hnext.symm.trans ho
    have hstate : (gpuClient.next r x m).simt.state = r.simt.state :=
      SimtCore.waiting_next (h.waits.trans hown) (hresp.trans hfire)
    rw [hstate, ← h.kind hown, ← hstore hfire]
    rfl

/-- what the core sees on its interface are the handshakes of cluster 1 -/
theorem ev_linked (h : Linked r) (x : GpuIn) :
    SimtKernel.ev r.simt ⟨x.launch, clusterIn 2 r.path.l2 (cluster x.gpu r.simt) 1⟩ =
      ClusterPort.ev 2 1 r.path (cluster x.gpu r.simt) := by
  obtain ⟨hreq, hresp⟩ := fires (r := r) x
  rw [SimtKernel.ev, ClusterPort.ev, hreq, hresp]
  refine congrArg₂ (· ++ ·) rfl ?_
  cases hfire : respFire r.path.l2 (cluster x.gpu r.simt) 1 with
  | false => rfl
  | true =>
    have hvalid : (r.path.l2.state = .wack ∨ r.path.l2.state = .resp) ∧ 1 = r.path.l2.selR := by
      simpa [GPUL2Cache.respValid] using ((Bool.and_eq_true _ _).mp hfire).1
    have hbusy : r.path.l2.state ≠ .idle := by
      rcases hvalid.1 with hl | hl <;> simp [hl]
    have hkind := h.kind (by simp [own, hbusy, hvalid.2])
    have hiff : r.simt.state = .wrYr ↔ r.path.l2.state = .wack := by
      rcases hvalid.1 with hl | hl <;> rw [hl] at hkind ⊢ <;> simpa [storing] using hkind.symm
    simp only [hiff]
    rfl

end Cluster

/-! ## In the SoC -/

section Soc

variable (memMode : BitVec 2)

def gpuSide (j : Fabric.Joint R) : GpuReg := j.reg.own .gpu

/-- what holds of the GPU side in every reachable state -/
structure Ready (j : Fabric.Joint R) : Prop where
  sound : Fabric.Sound j
  fit : Fit 2 (gpuSide j).path
  phase : ∃ p, Phase (gpuSide j).path p
  linked : Linked (gpuSide j)

theorem ready_start (g : Junk) : Ready (start g) where
  sound := sound_start g
  fit := ⟨Nat.zero_lt_two, rfl⟩
  phase := ⟨[], .idle rfl rfl⟩
  linked := ⟨rfl, fun h => absurd h Bool.false_ne_true⟩

theorem ready_step (j : Fabric.Joint R) (i : In) (h : Ready j) : Ready (joint memMode j i) where
  sound := sound_joint memMode j i h.sound
  fit := GpuPath.fit_step (by decide) h.fit _
  phase := GpuPath.phase_next (by decide) h.fit h.phase _
  linked := linked_step h.linked _ _

/-- what the SIMT core sees in this cycle -/
def simtIn (j : Fabric.Joint R) (i : In) : SimtKernel.In :=
  ⟨launch i, clusterIn 2 (gpuSide j).path.l2 (cluster i.gpu (gpuSide j).simt) 1⟩

/-- the GPU path and the memory as its port sees it -/
def pathView (j : Fabric.Joint R) : ClusterPort.Sys (BitVec 8) :=
  ⟨(gpuSide j).path, j.mem.mem, PortClient.owed .gpu j.mem⟩

def pathIn (j : Fabric.Joint R) (i : In) : ClusterPort.SysIn (BitVec 8) where
  ext := cluster i.gpu (gpuSide j).simt
  grant := (laneIn memMode .gpu j i).grant
  deliver := (laneIn memMode .gpu j i).deliver
  bus := (laneIn memMode .gpu j i).bus
  others := (laneIn memMode .gpu j i).others

/-- the handshakes of cluster 1 -/
def simtEv (j : Fabric.Joint R) (i : In) : SimtKernel.Events :=
  ClusterPort.ev 2 1 (gpuSide j).path (cluster i.gpu (gpuSide j).simt)

/-- nobody but the SIMT core has a write to a line of `K` accepted in this cycle: a request on the GPU port is the core's own
when the L2 has cluster 1 in hand -/
def Spared (K : BitVec 8 → Prop) (r : Reg) : Prop :=
  ∀ x ∈ accepted (handshakes memMode r), x.2.isWrite = true → K (line x.2.addr) → x.1 = .gpu ∧ r.l2.selR = 1

instance (K : BitVec 8 → Prop) [DecidablePred K] (r : Reg) : Decidable (Spared memMode K r) := by
  unfold Spared
  infer_instance

variable {memMode} {j : Fabric.Joint R} {i : In} {K : BitVec 8 → Prop} {κ : Kernel}

theorem simt_step : (gpuSide (joint memMode j i)).simt = SimtKernel.step (gpuSide j).simt (simtIn j i) := rfl

theorem path_step (h : Ready j) :
    pathView (joint memMode j i) = ClusterPort.step line 2 (pathView j) (pathIn memMode j i) := by
  have hstep := lane_step memMode .gpu j i h.sound
  exact congrArg (fun v : PortClient.Reg GpuReg (BitVec 8) (BitVec 512) =>
    (⟨v.own.path, v.mem, v.owed⟩ : ClusterPort.Sys (BitVec 8))) hstep

/-- the same as cluster 1 sees it -/
theorem spares (h : Ready j) (hsp : Spared memMode K (ofFabric j.reg))
    (hin : ∀ q, .accept () q ∈ simtEv j i → K (line q.addr)) : Spares line K 2 1 (pathView j) (pathIn memMode j i) := by
  rw [Spared, ← evs_toFabric (i := i), toFabric_ofFabric] at hsp
  refine ⟨fun w hw hK => ?_, fun hacc hwrite hsel hK => ?_, fun hfire => ?_⟩
  · obtain ⟨x, hx, hif⟩ := List.mem_filterMap.1 hw
    simp only [Option.ite_none_right_eq_some, Option.some.injEq] at hif
    obtain ⟨⟨hp, hwrite⟩, rfl⟩ := hif
    exact hp (hsp x hx hwrite hK).1
  · have hfire : SplitPrioritizer.reqFire j.reg.split (Fabric.splitIn lanes j.reg (fabricIn memMode i)) .gpu = true :=
      (Fabric.accepts_view lanes h.sound (fabricIn memMode i) .gpu).symm.trans hacc
    have hmem := mem_accepted.2 (SplitPrioritizer.accept_mem_ev.2 ⟨hfire, rfl⟩)
    exact hsel (hsp _ hmem hwrite hK).2
  · refine hin (GpuPath.lineReq (cluster i.gpu (gpuSide j).simt 1).req) (List.mem_append_left _ ?_)
    have hfire : reqFire 2 (gpuSide j).path.l2 (cluster i.gpu (gpuSide j).simt) 1 = true := hfire
    rw [hfire, if_pos rfl]
    exact List.mem_singleton.2 rfl

/-- the core's own events, as the path shows them -/
theorem collect_simt (h : Ready j) (ins : List In) : collect (joint memMode) simtEv j ins =
    collect SimtKernel.step SimtKernel.ev (gpuSide j).simt (inputs (joint memMode) simtIn j ins) :=
  collect_proj (fun j => (gpuSide j).simt) simtIn (ready_step memMode) (fun _ _ _ => simt_step)
    (fun _ i h => (ev_linked h.linked ⟨i.gpu, launch i⟩).symm) h ins

theorem collect_path (h : Ready j) (ins : List In) : collect (joint memMode) simtEv j ins =
    collect (ClusterPort.step line 2) (fun s i => ClusterPort.ev 2 1 s.own i.ext) (pathView j)
      (inputs (joint memMode) (pathIn memMode) j ins) :=
  collect_proj (f := simtEv) pathView (pathIn memMode) (ready_step memMode) (fun _ _ => path_step)
    (fun j i _ => show simtEv j i = ClusterPort.ev 2 1 (pathView j).own (pathIn memMode j i).ext from rfl) h ins

/-- **A kernel in the SoC**, from the cycle after its launch to the rise of `done` -/
theorem kernel_run (h : Ready j) (hrun : Running κ (gpuSide j).simt []) (hown : own 1 (gpuSide j).path = false)
    {ins : List In}
    (hsp : Always (joint memMode) (fun j _ => Spared memMode (Touches line κ κ.lines) (ofFabric j.reg)) j ins)
    (hlow : Always (joint memMode) (fun j _ => SimtCore.done (gpuSide j).simt = false) j ins)
    (hdone : SimtCore.done (gpuSide (run (joint memMode) j ins)).simt = true) (l : BitVec 8)
    (hl : Touches line κ κ.lines l) :
    (run (joint memMode) j ins).mem.mem l = execute line κ κ.lines j.mem.mem l := by
  have hsimt : (gpuSide (run (joint memMode) j ins)).simt = _ :=
    run_proj (fun j => (gpuSide j).simt) simtIn (ready_step memMode) (fun _ _ _ => simt_step) h ins
  have hlow' : Always SimtKernel.step (fun r _ => SimtCore.done r = false) (gpuSide j).simt
      (inputs (joint memMode) simtIn j ins) :=
    always_proj (fun j => (gpuSide j).simt) simtIn (ready_step memMode) (fun _ _ _ => simt_step) (fun _ _ _ hl => hl) h hlow
  have hlaunched := SimtKernel.launched_run (.inl hrun) (always_imp (fun _ _ _ hl => .inr hl) hlow')
  rw [← hsimt, List.nil_append, ← collect_simt h] at hlaunched
  -- the events of the run are those of the kernel
  obtain ⟨hidle, -, ws, hlen, hes⟩ := hlaunched.completed hdone
  have hmem : Always (joint memMode) (fun j i => ∀ e ∈ simtEv j i, e ∈ SimtKernel.rowsEvents κ ws) j ins :=
    always_collect fun e he => hes ▸ he
  have hspares : Always (ClusterPort.step line 2) (Spares line (Touches line κ κ.lines) 2 1) (pathView j)
      (inputs (joint memMode) (pathIn memMode) j ins) :=
    always_proj pathView (pathIn memMode) (ready_step memMode) (fun _ _ => path_step)
      (fun _ _ h hP => spares h hP.1 fun q hq => hlen ▸ SimtKernel.rows_touch (hP.2 _ hq)) h (always_and hsp hmem)
  -- and run on a memory of their own
  have hserves : Serves line (Touches line κ κ.lines) 2 1 (pathView j) ⟨j.mem.mem, none⟩ := by
    refine ⟨h.fit, h.phase, ?_, fun l _ => ?_, fun ho => absurd (hown.symm.trans ho) Bool.false_ne_true⟩
    · have hown : own 1 (pathView j).own = false := hown
      rw [hown]
      rfl
    · have hown : own 1 (pathView j).own = false := hown
      simp only [ClusterPort.effective, hown, Bool.false_and, Bool.false_eq_true, if_false]
      rfl
  obtain ⟨htrace, hfinal⟩ := ClusterPort.serves_run (by decide) hserves hspares
  have hview := run_proj pathView (pathIn memMode) (ready_step memMode) (fun _ _ => path_step) h ins
  rw [← collect_path h, hes] at htrace hfinal
  rw [SimtKernel.rows_execute htrace, hlen, ← hview] at hfinal
  have hready := run_inv Ready (fun j i h _ => ready_step memMode j i h) h (always_true (joint memMode) j ins)
  have hown' : own 1 (pathView (run (joint memMode) j ins)).own = false := by
    rw [show own 1 (pathView (run (joint memMode) j ins)).own = _ from hready.linked.waits.symm]
    simp [SimtCore.memRespReady, hidle]
  have hagree := hfinal.agree l hl
  simp only [ClusterPort.effective, hown', Bool.false_and, Bool.false_eq_true, if_false] at hagree
  exact hagree

end Soc

/-! ## From launch to `done` -/

/-- the shared memory after a run from reset: what the accepted requests have made of it -/
def contents (memMode : BitVec 2) (g : Junk) (ins : List In) : BitVec 8 → BitVec 512 :=
  (after access ⟨fun _ => 0, none⟩ (collect (next memMode) (fun r _ => handshakes memMode r) (reset g) ins)).mem

theorem run_contents (memMode : BitVec 2) (g : Junk) (ins : List In) :
    ∃ owed, run (joint memMode) (start g) ins =
      ⟨toFabric (run (next memMode) (reset g) ins), ⟨contents memMode g ins, owed⟩⟩ :=
  ⟨_, run_joint _ _⟩

/-- a read that is accepted after a run is owed the contents of its line -/
theorem read_owed {memMode : BitVec 2} {g : Junk} {ins : List In} {p : Port} {q : MemReq} (i : In)
    (h : (p, q) ∈ accepted (handshakes memMode (run (next memMode) (reset g) ins))) (hq : q.isWrite = false) :
    (after access ⟨fun _ => 0, none⟩ (collect (next memMode) (fun r _ => handshakes memMode r) (reset g)
      (ins ++ [i]))).pending = some (p, contents memMode g ins (line q.addr)) := by
  have hone : handshakes memMode (run (next memMode) (reset g) ins) = [.accept p q] := by
    rcases SplitPrioritizer.ev_cases (run_trace memMode g ins).2.tags (splitIn memMode (run (next memMode) (reset g) ins))
      with ⟨-, -, p', -, he⟩ | ⟨-, -, he⟩ | ⟨-, -, he⟩
    · rw [handshakes, he] at h ⊢
      obtain ⟨rfl, rfl⟩ := Prod.mk.inj (List.mem_singleton.1 h)
      rfl
    · rw [handshakes, he] at h
      exact absurd h List.not_mem_nil
    · rw [handshakes, he] at h
      exact absurd h List.not_mem_nil
  rw [collect_snoc, after_append, hone]
  simp [PortMemory.next, answer, access, MemReq.access, hq, contents]

/-- the arrays when `done` rises, for a kernel launched from the idle state -/
theorem kernel_contents {memMode : BitVec 2} {g : Junk} {before during : List In} {go : In} {κ : Kernel}
    (hκ : κ = Kernel.of (launch go)) (hidle : (run (next memMode) (reset g) before).simt.state = .idle)
    (hgo : go.simtStart = true)
    (hsp : Always (next memMode) (fun r _ => Spared memMode (Touches line κ κ.lines) r)
      (run (next memMode) (reset g) (before ++ [go])) during)
    (hlow : Always (next memMode) (fun r _ => SimtCore.done r.simt = false) (run (next memMode) (reset g) (before ++ [go]))
      during)
    (hdone : SimtCore.done (run (next memMode) (reset g) (before ++ [go] ++ during)).simt = true) {l : BitVec 8}
    (hl : Touches line κ κ.lines l) :
    contents memMode g (before ++ [go] ++ during) l = execute line κ κ.lines (contents memMode g (before ++ [go])) l := by
  obtain ⟨owed, hj⟩ := run_contents memMode g (before ++ [go])
  obtain ⟨owed', hj'⟩ := run_contents memMode g (before ++ [go] ++ during)
  have hready : Ready (run (joint memMode) (start g) (before ++ [go])) :=
    run_inv Ready (fun j i h _ => ready_step memMode j i h) (ready_start g) (always_true _ _ _)
  have hfinal := run_append (joint memMode) (start g) (before ++ [go]) during
  have hlaunched := run_snoc (next memMode) (reset g) before go
  rw [hj', hj] at hfinal
  rw [hj] at hready
  have hrun : Running κ (run (next memMode) (reset g) (before ++ [go])).simt [] := by
    rw [hlaunched, hκ]
    exact (SimtKernel.running_start (i := ⟨launch go, _⟩) hidle hgo).1
  have hown : own 1 (gpuSide ⟨toFabric (run (next memMode) (reset g) (before ++ [go])),
      ⟨contents memMode g (before ++ [go]), owed⟩⟩).path = false := by
    rw [← hready.linked.waits, hlaunched]
    simp [gpuSide, toFabric, Top.next, SimtCore.next, SimtCore.memRespReady, hidle, hgo, launch]
  have hkernel := kernel_run hready hrun hown
    ((always_joint (P := fun s _ => Spared memMode (Touches line κ κ.lines) (ofFabric s))).2 hsp)
    ((always_joint (P := fun s _ => SimtCore.done (s.own .gpu).simt = false)).2 hlow)
  rw [← hfinal] at hkernel
  exact hkernel hdone l hl

/-- **A kernel is executed exactly, whatever else goes on.** From any reachable state in which the core is idle, launch a
kernel over `n ≥ 1` lines, with the three arrays anywhere. If nobody else has a write to one of their lines accepted until
`done` rises, then at that moment these lines hold what executing the lines `0, …, n - 1` in order makes of the contents at
launch, and a read of such a line that is accepted now, from any port, is answered with that. -/
theorem kernel_exact (memMode : BitVec 2) (g : Junk) (before : List In) (go : In) (during : List In)
    (hidle : (run (next memMode) (reset g) before).simt.state = .idle) (hgo : go.simtStart = true)
    (hn : go.simtNLines ≠ 0) :
    let κ := Kernel.of (launch go)
    let n := go.simtNLines.toNat
    let launched := run (next memMode) (reset g) (before ++ [go])
    let final := run (next memMode) (reset g) (before ++ [go] ++ during)
    let result := execute line κ n (contents memMode g (before ++ [go]))
    Always (next memMode) (fun r _ => Spared memMode (Touches line κ n) r) launched during →
    Always (next memMode) (fun r _ => SimtCore.done r.simt = false) launched during →
    SimtCore.done final.simt = true →
      (∀ l, Touches line κ n l → contents memMode g (before ++ [go] ++ during) l = result l) ∧
      ∀ (p : Port) (q : MemReq) (i : In), (p, q) ∈ accepted (handshakes memMode final) → q.isWrite = false →
        Touches line κ n (line q.addr) →
        (after access ⟨fun _ => 0, none⟩ (collect (next memMode) (fun r _ => handshakes memMode r) (reset g)
          (before ++ [go] ++ during ++ [i]))).pending = some (p, result (line q.addr)) := by
  intro κ n launched final result hsp hlow hdone
  have hlines : κ.lines = n := Kernel.lines_eq hn
  have hcontents : ∀ l, Touches line κ n l → contents memMode g (before ++ [go] ++ during) l = result l := by
    have hkernel : Always (next memMode) (fun r _ => Spared memMode (Touches line κ κ.lines) r) launched during →
        ∀ l, Touches line κ κ.lines l → contents memMode g (before ++ [go] ++ during) l =
          execute line κ κ.lines (contents memMode g (before ++ [go])) l :=
      fun hsp _ hl => kernel_contents rfl hidle hgo hsp hlow hdone hl
    rw [hlines] at hkernel
    exact hkernel hsp
  refine ⟨hcontents, fun p q i hq hread htouch => ?_⟩
  rw [read_owed i hq hread, hcontents _ htouch]

/-- the external GPU port stores to a line -/
def filling : In := { quiet with gpu := ⟨true, ⟨0x40, 0xffff8003, true⟩, true⟩ }

/-- it keeps reading that line -/
def reading : In := { quiet with gpu := ⟨true, ⟨0x40, 0, false⟩, true⟩ }

/-- a kernel in place over that line, the second operand 16 KB further up -/
def doubling : In :=
  { reading with simtStart := true, simtBaseX := 0x40, simtBaseZ := 0x4040, simtBaseY := 0x40, simtNLines := 1 }

theorem kernel_exact_doubling :
    contents 0 leftover ([filling, quiet, quiet] ++ [doubling] ++ List.replicate 62 reading) (line 0x40) = 0xfffe0006 := by
  have h := (kernel_exact 0 leftover [filling, quiet, quiet] doubling (List.replicate 62 reading) (by decide +kernel) rfl
    (by decide) (by decide +kernel) (by decide +kernel) (by decide +kernel)).1 (line 0x40) (by decide)
  rw [h]
  decide +kernel

end AegisSoc.SimtShared
