/-
Every kernel of the SIMT core completes, in every mode and whatever the CPU, the external GPU port and the GEMM engine do, as
long as that port takes its responses.

A line is two loads, one cycle of additions and one store. Each access waits for the L2, which the external port may have
before it, and then for the stack.
- `kernel_closer`: every cycle short of the last brings `done` closer;
- `kernel_completes`: `done` rises in a time proportional to the number of lines, and the arrays then hold the result.
-/
import AegisSoc.GpuService

namespace AegisSoc.SimtCompletes

open Machine AegisSoc.Top GpuService
open PortMemory hiding next
open Liveness (priority)
open SplitPrioritizer (line)
open SimtKernel (Kernel Running Completed Touches execute)
open SimtShared (Spared contents filling reading doubling)

variable {memMode : BitVec 2} {r : Reg} {i : In} {κ : Kernel} {es : SimtKernel.Events}

/-! ## What is left to do -/

/-- the cycles of one access, at most -/
def maxAccess (pr : Bool) : ℕ := maxCluster pr + maxTx pr + 2

/-- the cycles of one line, at most -/
def maxLine (pr : Bool) : ℕ := 3 * maxAccess pr + 1

/-- the cycles left for the line in progress, at most -/
def lineLeft (memMode : BitVec 2) (r : Reg) : ℕ :=
  let access := maxAccess (priority memMode)
  let request := clusterWait memMode r 1 + maxTx (priority memMode) + 2
  match r.simt.state with
  | .idle => 0
  | .rdX => request + 2 * access
  | .rdXr => txLeft memMode r + 1 + 2 * access
  | .rdZ => request + access
  | .rdZr => txLeft memMode r + 1 + access
  | .calc => access
  | .wrY => clusterWait memMode r 1 + maxTx (priority memMode) + 1
  | .wrYr => txLeft memMode r

/-- the cycles left for the kernel, at most -/
def kernelLeft (memMode : BitVec 2) (κ : Kernel) (r : Reg) : ℕ :=
  maxLine (priority memMode) * (κ.lines - 1 - r.simt.line.toNat) + lineLeft memMode r

theorem lineLeft_lt (memMode : BitVec 2) (r : Reg) : lineLeft memMode r < maxLine (priority memMode) := by
  have hwait := clusterWait_le memMode r (k := 1) (by decide)
  have htx := txLeft_le memMode r
  unfold lineLeft maxLine maxAccess
  simp only
  split <;> omega

/-! ## One cycle -/

/-- the core waits for a response exactly while the L2 has its request in hand -/
theorem waiting_iff (h : Working r) : SimtCore.memRespReady r.simt = true ↔ r.l2.state ≠ .idle ∧ r.l2.selR = 1 := by
  obtain ⟨-, α, hready⟩ := h
  have hwaits : SimtCore.memRespReady r.simt = ClusterPort.own 1 ⟨r.l2, r.gpuAdp⟩ := hready.linked.waits
  rw [hwaits]
  simp [ClusterPort.own]

/-- a core that waits, and is not answered in this cycle, is closer to the answer -/
theorem answer_closer (h : Working r) (ht : Takes r i) (hw : SimtCore.memRespReady r.simt = true)
    (hn : GPUL2Cache.respValid r.l2 1 = false) : txLeft memMode (next memMode r i) < txLeft memMode r := by
  obtain ⟨hs, hsel⟩ := (waiting_iff h).1 hw
  have hanswered : ¬ Answered r i := by
    intro ha
    have hvalid := ((Bool.and_eq_true _ _).mp ha).1
    rw [hsel, hn] at hvalid
    exact Bool.false_ne_true hvalid
  exact (tx_closer h hs ht hanswered).1

/-- a core that requests, and is not accepted in this cycle, is closer to being accepted -/
theorem accept_closer (h : Working r) (ht : Takes r i) (hv : SimtCore.memReqValid r.simt = true)
    (hn : GPUL2Cache.reqReady 2 r.l2 (clusters r i) 1 = false) :
    clusterWait memMode (next memMode r i) 1 < clusterWait memMode r 1 := by
  have hv' : (clusters r i 1).reqValid = true := hv
  refine cluster_closer h (by decide) ht hv' ?_
  rw [GPUL2Cache.reqFire, hn, Bool.and_false]

/-- what the core sees in this cycle -/
def simtIn (r : Reg) (i : In) : SimtKernel.In := ⟨launch i, GPUL2Cache.clusterIn 2 r.l2 (clusters r i) 1⟩

theorem simt_next : (next memMode r i).simt = SimtKernel.step r.simt (simtIn r i) := rfl

/-- **Every cycle short of the last brings `done` closer.** -/
theorem kernel_closer (h : Working r) (hrun : Running κ r.simt es) (ht : Takes r i)
    (hn : ¬ SimtCore.done (next memMode r i).simt = true) : kernelLeft memMode κ (next memMode r i) < kernelLeft memMode κ r := by
  have hwait := clusterWait_le memMode (next memMode r i) (k := 1) (by decide)
  have htx := txLeft_le memMode (next memMode r i)
  have hstep : (next memMode r i).simt = _ := simt_next.trans (SimtKernel.step_busy hrun.busy hrun.clear (simtIn r i))
  have hreq : (simtIn r i).mem.reqReady = GPUL2Cache.reqReady 2 r.l2 (clusters r i) 1 := rfl
  have hresp : (simtIn r i).mem.respValid = GPUL2Cache.respValid r.l2 1 := rfl
  -- within a line the counter stays, and only the line in progress matters
  have hwithin : (next memMode r i).simt.line = r.simt.line → lineLeft memMode (next memMode r i) < lineLeft memMode r →
      kernelLeft memMode κ (next memMode r i) < kernelLeft memMode κ r := fun hl hlt => by
    rw [kernelLeft, kernelLeft, hl]
    exact Nat.add_lt_add_left hlt _
  have haccept : SimtCore.memReqValid r.simt = true → GPUL2Cache.reqReady 2 r.l2 (clusters r i) 1 = false →
      clusterWait memMode (next memMode r i) 1 < clusterWait memMode r 1 := accept_closer h ht
  have hanswer : SimtCore.memRespReady r.simt = true → GPUL2Cache.respValid r.l2 1 = false →
      txLeft memMode (next memMode r i) < txLeft memMode r := answer_closer h ht
  cases hs : r.simt.state with
  | idle => exact absurd hs hrun.busy
  | rdX | rdZ | wrY =>
    simp only [hs, hreq] at hstep
    cases hgrant : GPUL2Cache.reqReady 2 r.l2 (clusters r i) 1 with
    | true =>
      rw [hgrant, if_pos rfl] at hstep
      refine hwithin (by rw [hstep]) ?_
      simp only [lineLeft, hs, hstep, maxAccess]
      omega
    | false =>
      rw [hgrant, if_neg Bool.false_ne_true] at hstep
      have hcloser := haccept (by simp [SimtCore.memReqValid, hs]) hgrant
      refine hwithin (by rw [hstep]) ?_
      simp only [lineLeft, hs, hstep]
      omega
  | rdXr | rdZr =>
    simp only [hs, hresp] at hstep
    cases hvalid : GPUL2Cache.respValid r.l2 1 with
    | true =>
      rw [hvalid, if_pos rfl] at hstep
      refine hwithin (by rw [hstep]) ?_
      simp only [lineLeft, hs, hstep, maxAccess]
      omega
    | false =>
      rw [hvalid, if_neg Bool.false_ne_true] at hstep
      have hcloser := hanswer (by simp [SimtCore.memRespReady, hs]) hvalid
      refine hwithin (by rw [hstep]) ?_
      simp only [lineLeft, hs, hstep]
      omega
  | wrYr =>
    simp only [hs, hresp] at hstep
    cases hvalid : GPUL2Cache.respValid r.l2 1 with
    | true =>
      rw [hvalid, if_pos rfl] at hstep
      by_cases hlast : r.simt.line = r.simt.nReg - 1
      · rw [if_pos hlast] at hstep
        exact absurd (by rw [hstep]; rfl) hn
      · -- a line less, whatever the next one takes
        rw [if_neg hlast] at hstep
        obtain ⟨hsucc, hmore⟩ := hrun.line_succ hlast
        have hlt := lineLeft_lt memMode (next memMode r i)
        have hline : (next memMode r i).simt.line.toNat = r.simt.line.toNat + 1 := by rw [hstep]; exact hsucc
        have hleft : κ.lines - 1 - r.simt.line.toNat = κ.lines - 1 - (r.simt.line.toNat + 1) + 1 := by omega
        rw [kernelLeft, kernelLeft, hline, hleft, Nat.mul_succ]
        omega
    | false =>
      rw [hvalid, if_neg Bool.false_ne_true] at hstep
      have hcloser := hanswer (by simp [SimtCore.memRespReady, hs]) hvalid
      refine hwithin (by rw [hstep]) ?_
      simp only [lineLeft, hs, hstep]
      omega
  | _ =>
    simp only [hs] at hstep
    refine hwithin (by rw [hstep]) ?_
    simp only [lineLeft, hs, hstep, maxAccess]
    omega

/-! ## The whole kernel -/

/-- the kernel is running, `done` at most `k` cycles away -/
structure Underway (memMode : BitVec 2) (κ : Kernel) (k : ℕ) (r : Reg) : Prop where
  working : Working r
  running : ∃ es, Running κ r.simt es
  left : kernelLeft memMode κ r ≤ k

theorem underway_next {k : ℕ} (h : Underway memMode κ k r) (ht : Takes r i)
    (hn : ¬ SimtCore.done (next memMode r i).simt = true) : ∃ k' < k, Underway memMode κ k' (next memMode r i) := by
  obtain ⟨hw, ⟨es, hrun⟩, hle⟩ := h
  have hcloser := kernel_closer hw hrun ht hn
  refine ⟨_, hcloser.trans_le hle, working_next hw, ?_, le_rfl⟩
  rcases SimtKernel.running_step hrun (simtIn r i) with hrun' | hcompleted
  · exact ⟨_, hrun'⟩
  · exact absurd hcompleted.done hn

/-- a launch is at most `maxLine` cycles away from `done` for every line, short of one -/
theorem underway_launch (h : Working r) (hidle : r.simt.state = .idle) (hgo : i.simtStart = true) :
    Underway memMode (Kernel.of (launch i)) (maxLine (priority memMode) * (Kernel.of (launch i)).lines - 1)
      (next memMode r i) := by
  have hrun := (SimtKernel.running_start (i := simtIn r i) hidle hgo).1
  refine ⟨working_next h, ⟨_, hrun⟩, ?_⟩
  have hline : (next memMode r i).simt.line.toNat = 0 := by simp [Top.next, SimtCore.next, hidle, launch, hgo]
  have hlt := lineLeft_lt memMode (next memMode r i)
  have hlines : (Kernel.of (launch i)).lines = (Kernel.of (launch i)).lines - 1 + 1 := rfl
  rw [kernelLeft, hline, hlines, Nat.mul_succ]
  simp only [Nat.add_sub_cancel, Nat.sub_zero]
  omega

/-- **Every kernel completes.** From any reachable state in which the core is idle, launch a kernel, with the three arrays
anywhere. As long as the external GPU port takes its responses, `done` rises within 952 cycles for each line in the modes with
CPU priority, and 412 in those without, whatever the ports ask for and whatever start pulses come in between. If nobody else
has a write to a line of the arrays accepted until then, they hold at that moment what executing the kernel line after line
makes of the contents at launch. (A kernel launched with 0 lines has 2 ^ 16.) -/
theorem kernel_completes (memMode : BitVec 2) (g : Junk) (before : List In) (go : In) (ins : List In)
    (hidle : (run (next memMode) (reset g) before).simt.state = .idle) (hgo : go.simtStart = true)
    (ht : Always (next memMode) Takes (run (next memMode) (reset g) (before ++ [go])) ins)
    (hlen : (if priority memMode then 952 else 412) * (Kernel.of (launch go)).lines ≤ ins.length) :
    let κ := Kernel.of (launch go)
    let launched := run (next memMode) (reset g) (before ++ [go])
    ∃ during rest, ins = during ++ rest ∧ during.length ≤ (if priority memMode then 952 else 412) * κ.lines ∧
      Always (next memMode) (fun r _ => SimtCore.done r.simt = false) launched during ∧
      SimtCore.done (run (next memMode) (reset g) (before ++ [go] ++ during)).simt = true ∧
      (Always (next memMode) (fun r _ => Spared memMode (Touches line κ κ.lines) r) launched during →
        ∀ l, Touches line κ κ.lines l → contents memMode g (before ++ [go] ++ during) l =
          execute line κ κ.lines (contents memMode g (before ++ [go])) l) := by
  intro κ launched
  have hmax : maxLine (priority memMode) = if priority memMode then 952 else 412 := by
    cases priority memMode <;> rfl
  have hpos : 0 < maxLine (priority memMode) * κ.lines := Nat.mul_pos (Nat.succ_pos _) (Nat.succ_pos _)
  rw [← hmax] at hlen ⊢
  have hlen : maxLine (priority memMode) * κ.lines ≤ ins.length := hlen
  have hunder : Underway memMode κ (maxLine (priority memMode) * κ.lines - 1) launched := by
    rw [show launched = _ from run_snoc _ _ _ _]
    exact underway_launch (working_run (working_reset g) before) hidle hgo
  obtain ⟨during, rest, rfl, hle, hwork, hdone⟩ := finishes (D := fun r => SimtCore.done r.simt = true)
    (Underway memMode κ) (fun _ _ _ h ht hn => underway_next h ht hn) hunder ht (by omega)
  -- the kernel is running up to the cycle that raises `done`
  have hlow : Always (next memMode) (fun r _ => SimtCore.done r.simt = false) launched during :=
    always_imp (fun _ _ _ ⟨_, _, ⟨_, hrun⟩, _⟩ => hrun.clear) hwork
  have hrise : SimtCore.done (run (next memMode) (reset g) (before ++ [go] ++ during)).simt = true := by
    rw [run_append]
    exact hdone
  exact ⟨during, rest, rfl, by omega, hlow, hrise, fun hsp l hl => SimtShared.kernel_contents rfl hidle hgo hsp hlow hrise hl⟩

/-- a kernel in place, while the external port keeps reading the line it works on -/
theorem kernel_completes_doubling : ∃ during rest, List.replicate 412 reading = during ++ rest ∧
    SimtCore.done (run (next 0) (reset leftover) ([filling, quiet, quiet] ++ [doubling] ++ during)).simt = true ∧
    contents 0 leftover ([filling, quiet, quiet] ++ [doubling] ++ during) (line 0x40) = 0xfffe0006 := by
  let κ := Kernel.of (launch doubling)
  have hruns : Always (next 0) (fun r i => Takes r i ∧ Spared 0 (Touches line κ κ.lines) r)
      (run (next 0) (reset leftover) ([filling, quiet, quiet] ++ [doubling])) (List.replicate 412 reading) := by
    decide +kernel
  obtain ⟨during, rest, hins, -, -, hdone, hmem⟩ := kernel_completes 0 leftover [filling, quiet, quiet] doubling
    (List.replicate 412 reading) (by decide +kernel) rfl (always_imp (fun _ _ _ h => h.1) hruns) (by decide +kernel)
  rw [hins] at hruns
  have hsp := always_imp (fun _ _ _ h => h.2) ((always_append _ _ _ _ _).1 hruns).1
  refine ⟨during, rest, hins, hdone, ?_⟩
  rw [hmem hsp (line 0x40) (by decide)]
  decide +kernel

end AegisSoc.SimtCompletes
