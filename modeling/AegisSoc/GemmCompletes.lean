/-
Every command of the GEMM engine completes, in the modes without CPU priority, whatever the CPU, the external GPU port and the
SIMT core do. (With CPU priority the rotation restarts after each request of the CPU, with the GPU port first, and the engine
may be passed over again and again.)

- `gemm_served`: the prioritizer serves the engine in time, as `GemmPace` asks for;
- `gemm_completes`: the engine is idle again after at most 841 cycles; if nobody else wrote the lines of the command, its
  result lines hold the old C tile plus the product of the operands.
-/
import AegisSoc.GpuService
import AegisSoc.FixedFunc.GemmStored

namespace AegisSoc.GemmCompletes

open Machine AegisSoc.Top LockStep Liveness GemmStored
open PortMemory hiding next
open GemmRun hiding step
open GemmPace (Served commandLeft maxCommand)
open GemmShared (cElem Fetched SparesOps fetched_start fetched_step result_eq)
open PortClient (owed Spares)
open SplitPrioritizer (Port line access maxWait wait)
open HBM3Stack (lag slot)
open GemmToMem (onPort cmdFire linesOperand linesC)
open SimtShared (contents)

abbrev Joint := Fabric.Joint R

variable {memMode : BitVec 2} {r : Reg} {i : In} {α : St Port (BitVec 8) (BitVec 512)} {b : BitVec 64} {c0 : ℕ → BitVec 32}
  {g : Prog}

theorem tileOk : TileOk 8 := by decide

/-! ## One cycle -/

theorem gemm_next (memMode : BitVec 2) (i : In) (h : Fabric.Sound ⟨toFabric r, α⟩) :
    laneOf .acc (next memMode r i) (after access α (handshakes memMode r)) =
      GemmRun.step 8 line (laneOf .acc r α) (laneIn memMode .acc ⟨toFabric r, α⟩ i) :=
  laneOf_next .acc i h

/-- the prioritizer serves the engine in time -/
theorem gemm_served (hpr : priority memMode = false) (h : Reached r) (hα : Locked ⟨toFabric r, α⟩) :
    Served (maxWait false) slot (laneOf .acc r α) (laneIn memMode .acc ⟨toFabric r, α⟩ i)
      (wait false r.split .acc) (wait false (next memMode r i).split .acc)
      (lag r.split.hbm) (lag (next memMode r i).split.hbm) := by
  have hport : PortClient.portIn (laneOf .acc r α) (laneIn memMode .acc ⟨toFabric r, α⟩ i) =
      portIn memMode r .acc := (Fabric.portIn_view lanes hα.sound _ .acc).trans (portIn_toFabric .acc)
  refine ⟨fun hon hr => ?_, fun ho hv => ?_, SplitPrioritizer.wait_le_maxWait _ _ _, HBM3Stack.lag_lt_slot _⟩
  · rw [hport] at hr
    have hcloser := request_closer (i := i) (p := .acc) h (by rw [hpr]; decide) hon hr
    rwa [hpr] at hcloser
  · rw [hport] at hv
    exact response_closer hα h.paced ho hv

/-- a command is in progress, its end at most `k` cycles away -/
structure Underway (b : BitVec 64) (c0 : ℕ → BitVec 32) (k : ℕ) (r : Reg) : Prop where
  reached : Reached r
  busy : GemmToMem.busy r.gemm = true
  left : ∃ α g, Locked ⟨toFabric r, α⟩ ∧ Running 8 b c0 (laneOf .acc r α) g ∧
    commandLeft 8 (maxWait false) slot (wait false r.split .acc) (lag r.split.hbm) (laneOf .acc r α) g ≤ k

theorem underway_next {k : ℕ} (hpr : priority memMode = false) (h : Underway b c0 k r)
    (hn : GemmToMem.busy (next memMode r i).gemm = true) : ∃ k' < k, Underway b c0 k' (next memMode r i) := by
  obtain ⟨hreached, hb, α, g, hα, hR, hle⟩ := h
  have hl := locked_step memMode ⟨toFabric r, α⟩ i hα
  rw [joint_toFabric] at hl
  have hstep := gemm_next memMode i hα.sound
  have hn' : GemmToMem.busy (laneOf .acc (next memMode r i) (after access α (handshakes memMode r))).own = true := hn
  rw [hstep] at hn'
  have hR' := running_step line (laneIn memMode .acc ⟨toFabric r, α⟩ i) tileOk hR hb
  have hcloser := GemmPace.closer tileOk hR hb hn' (gemm_served hpr hreached hα)
  rw [← hstep] at hR' hcloser
  exact ⟨_, hcloser.trans_le hle, reached_next hreached, hn, _, _, hl, hR', le_rfl⟩

/-! ## The results in memory -/

/-- nobody but the engine has a write to a line of the command accepted in this cycle -/
def Spared (memMode : BitVec 2) (b : BitVec 64) (r : Reg) : Prop :=
  ∀ x ∈ accepted (handshakes memMode r), x.1 ≠ .acc → x.2.isWrite = true →
    ∀ n < allLines 8, line x.2.addr ≠ line (lineAt b n)

instance (memMode : BitVec 2) (b : BitVec 64) (r : Reg) : Decidable (Spared memMode b r) := by
  unfold Spared
  infer_instance

theorem sparesAll (h : Spared memMode b r) : SparesAll 8 line b (laneIn memMode .acc ⟨toFabric r, α⟩ i) := by
  intro n hn w hw
  obtain ⟨x, hx, hif⟩ := List.mem_filterMap.1 hw
  simp only [Option.ite_none_right_eq_some, Option.some.injEq] at hif
  obtain ⟨⟨hp, hwrite⟩, rfl⟩ := hif
  exact h x (evs_toFabric (i := i) ▸ hx) hp hwrite n hn

/-- the lines of a command are consecutive, and the memory has more of them -/
theorem distinct (b : BitVec 64) : Distinct 8 line b := by
  have hline : ∀ n < allLines 8, (line (lineAt b n)).toNat = (b.toNat / 64 + n) % 256 := fun n hn => by
    have hall : allLines 8 = 8 := rfl
    have hb := b.isLt
    simp only [line, lineAt, BitVec.extractLsb'_toNat, BitVec.toNat_add, BitVec.toNat_ofNat, Nat.shiftRight_eq_div_pow]
    omega
  intro n hn n' hn' heq
  have hall : allLines 8 = 8 := rfl
  have heq := congrArg BitVec.toNat heq
  rw [hline n hn, hline n' hn'] at heq
  omega

/-- the command has read the operands of `m`, and its results so far are in memory -/
structure Follows (b : BitVec 64) (c0 : ℕ → BitVec 32) (m : BitVec 8 → BitVec 512) (j : Joint) : Prop where
  sound : Fabric.Sound j
  prog : ∃ g, Running 8 b c0 (Fabric.view .acc j) g ∧ Fetched 8 line b m (Fabric.view .acc j) g ∧
    Stored 8 line b c0 (Fabric.view .acc j) g

variable {m : BitVec 8 → BitVec 512}

theorem follows_step (h : Follows b c0 m ⟨toFabric r, α⟩) (hb : GemmToMem.busy r.gemm = true) (hq : Spared memMode b r)
    (i : In) : Follows b c0 m ⟨toFabric (next memMode r i), after access α (handshakes memMode r)⟩ := by
  obtain ⟨hsound, g, hR, hF, hS⟩ := h
  have hall : SparesAll 8 line b (laneIn memMode .acc ⟨toFabric r, α⟩ i) := sparesAll hq
  have hops : SparesOps 8 line b (laneIn memMode .acc ⟨toFabric r, α⟩ i) := fun n hn =>
    hall n (hn.trans_le (Nat.le_add_right _ _))
  have hR' := running_step line (laneIn memMode .acc ⟨toFabric r, α⟩ i) tileOk hR hb
  have hF' := fetched_step hR hb hF hops
  have hS' := stored_step tileOk (distinct b) hR hb hS hall
  have hsound' := sound_joint memMode ⟨toFabric r, α⟩ i hsound
  rw [← gemm_next memMode i hsound] at hR' hF' hS'
  rw [joint_toFabric] at hsound'
  exact ⟨hsound', _, hR', hF', hS'⟩

/-- the result lines at the end of a command -/
theorem follows_done (h : Follows b c0 m ⟨toFabric r, α⟩) (hb : GemmToMem.busy r.gemm = false) {l : ℕ} (hl : l < 4) :
    α.mem (line (lineAt b (4 + l))) = cLine (cElem 8 m b c0) l := by
  obtain ⟨-, g, hR, hF, hS⟩ := h
  obtain ⟨hops, -, hreads, -⟩ := running_done hR hb
  have hlen : g.ops.length = 8 := by rw [hops, List.length_map, List.length_range]; rfl
  have hlines : 2 * linesOperand 8 = 4 := rfl
  have hstored : α.mem (line (lineAt b (4 + l))) = cLine (result 8 c0 g.reads) (4 + l - 2 * linesOperand 8) :=
    hS (4 + l) (by omega) (by omega)
  rw [hstored, hlines, Nat.add_sub_cancel_left]
  exact cLine_congr fun e he => result_eq tileOk hF hreads (by omega)

/-- a command that has just been accepted -/
theorem follows_start (memMode : BitVec 2) (hα : Locked ⟨toFabric r, α⟩)
    (hcmd : cmdFire r.gemm ⟨i.gemmStart, i.gemmBase⟩ = true) :
    Running 8 i.gemmBase r.gemm.cTile (laneOf .acc (next memMode r i) (after access α (handshakes memMode r))) .empty ∧
      Follows i.gemmBase r.gemm.cTile (after access α (handshakes memMode r)).mem
        ⟨toFabric (next memMode r i), after access α (handshakes memMode r)⟩ := by
  have hidle : r.gemm.state = .idle := by simpa [cmdFire, GemmToMem.cmdReady] using ((Bool.and_eq_true _ _).mp hcmd).2
  have hfree : owed .acc α = none := hα.acc (by simp [toFabric, onPort, hidle])
  have hR := running_start line (s := laneOf .acc r α) (i := laneIn memMode .acc ⟨toFabric r, α⟩ i) tileOk hcmd hfree
  have hsound := sound_joint memMode ⟨toFabric r, α⟩ i hα.sound
  rw [← gemm_next memMode i hα.sound] at hR
  rw [joint_toFabric] at hsound
  exact ⟨hR, hsound, _, hR, fetched_start (owed_of_empty hR), fun n _ hlt => absurd hlt (by simp [Prog.empty])⟩

/-- **Every GEMM command completes**, in the modes without CPU priority. From any reachable state in which the engine accepts a
command, it is busy for at most 841 cycles, whatever the CPU, the external GPU port and the SIMT core do and whatever commands
are offered in between. If nobody else has a write to one of the eight lines of the command accepted until then, the four
result lines hold at that moment the old C tile plus the product of the operands as they were at the start. -/
theorem gemm_completes (memMode : BitVec 2) (g : Junk) (before : List In) (go : In) (ins : List In)
    (hpr : priority memMode = false)
    (hcmd : cmdFire (run (next memMode) (reset g) before).gemm ⟨go.gemmStart, go.gemmBase⟩ = true)
    (hlen : 841 ≤ ins.length) :
    let b := go.gemmBase
    let c0 := (run (next memMode) (reset g) before).gemm.cTile
    let started := run (next memMode) (reset g) (before ++ [go])
    ∃ during rest, ins = during ++ rest ∧ during.length ≤ 841 ∧
      Always (next memMode) (fun r _ => GemmToMem.busy r.gemm = true) started during ∧
      GemmToMem.busy (run (next memMode) started during).gemm = false ∧
      (Always (next memMode) (fun r _ => Spared memMode b r) started during →
        ∀ l < 4, contents memMode g (before ++ [go] ++ during) (line (lineAt b (4 + l))) =
          cLine (cElem 8 (contents memMode g (before ++ [go])) b c0) l) := by
  intro b c0 started
  set α := after access ⟨fun _ => 0, none⟩ (collect (next memMode) (fun r _ => handshakes memMode r) (reset g) before)
  set β := after access ⟨fun _ => 0, none⟩ (collect (next memMode) (fun r _ => handshakes memMode r) (reset g)
    (before ++ [go])) with hβ
  have hα : Locked ⟨toFabric (run (next memMode) (reset g) before), α⟩ := by
    have hrun := run_inv Locked (fun j i h _ => locked_step memMode j i h) (locked_start g)
      (always_true (joint memMode) (start g) before)
    rwa [start, run_joint] at hrun
  have hsnoc : started = next memMode (run (next memMode) (reset g) before) go := run_snoc _ _ _ _
  have hβ' : β = after access α (handshakes memMode (run (next memMode) (reset g) before)) := by
    rw [hβ, collect_snoc, after_append]
  obtain ⟨hR, hfollows⟩ := follows_start memMode hα hcmd
  rw [← hβ', ← hsnoc] at hR hfollows
  have hreached : Reached started := reached_run g _
  have hlocked : Locked ⟨toFabric started, β⟩ := by
    have hl := locked_step memMode _ go hα
    rwa [joint_toFabric, ← hβ', ← hsnoc] at hl
  have hbusy : GemmToMem.busy started.gemm = true := by
    rw [hsnoc]
    have hidle : (run (next memMode) (reset g) before).gemm.state = .idle := by
      simpa [cmdFire, GemmToMem.cmdReady] using ((Bool.and_eq_true _ _).mp hcmd).2
    simp [Top.next, GemmToMem.next, GemmToMem.busy, hidle, hcmd]
  have hunder : Underway b c0 840 started :=
    ⟨hreached, hbusy, β, .empty, hlocked, hR, (GemmPace.commandLeft_le tileOk (SplitPrioritizer.wait_le_maxWait _ _ _)
      (HBM3Stack.lag_lt_slot _) _ _).trans_eq (by decide)⟩
  obtain ⟨during, rest, rfl, hle, hwork, hidle⟩ := finishes (D := fun r => GemmToMem.busy r.gemm = false)
    (Underway b c0) (fun _ _ _ h _ hn => underway_next hpr h (Bool.eq_true_of_not_eq_false hn)) hunder
    (always_true (next memMode) _ ins) hlen
  -- the engine is busy up to the cycle in which it takes its last response
  have hduring : Always (next memMode) (fun r _ => GemmToMem.busy r.gemm = true) started during :=
    always_imp (fun _ _ r (h : ∃ k, Underway b c0 k r) => h.elim fun _ h => h.busy) hwork
  refine ⟨during, rest, rfl, hle, hduring, hidle, fun hq l hl => ?_⟩
  have hrun := run_ghost (f := fun r _ => handshakes memMode r) (fun r α => Follows b c0 β.mem ⟨toFabric r, α⟩)
    (fun r α i h hP => follows_step h hP.1 hP.2 i) hfollows (always_and hduring hq)
  have hmem := follows_done hrun hidle hl
  rw [contents, collect_append, after_append, ← hβ]
  exact hmem

/-- the external GPU port stores a line of B -/
def fillingB : In := { quiet with gpu := ⟨true, ⟨0xC0, 5, true⟩, true⟩ }

/-- a line of A and a line of B -/
def operands : List In :=
  [SimtShared.filling] ++ List.replicate 14 quiet ++ [fillingB] ++ List.replicate 14 quiet

/-- a command at the line of A -/
def multiplying : In := { quiet with gemmStart := true, gemmBase := 0x40 }

/-- the CPU and the GPU side are at rest -/
structure Resting (r : Reg) : Prop where
  core : r.core.running = false
  cpuAdp : r.cpuAdp.state = .idle
  l2 : r.l2.state = .idle
  gpuAdp : r.gpuAdp.state = .idle
  simt : r.simt.state = .idle

theorem resting_next (h : Resting r) : Resting (next memMode r quiet) := by
  obtain ⟨hcore, hcpu, hl2, hgpu, hsimt⟩ := h
  have hany : GPUL2Cache.any 2 r.l2 (cluster quiet.gpu r.simt) = false := by
    rw [Bool.eq_false_iff]
    intro hany
    obtain ⟨k, -, hv⟩ := GPUL2Cache.any_iff.1 hany
    cases k <;> simp [cluster, quiet, SimtCore.memOut, SimtCore.memReqValid, hsimt] at hv
  refine ⟨?_, ?_, ?_, ?_, ?_⟩
  · simp [Top.next, RiscVICore.next, coreIn, quiet, hcore]
  · simp [Top.next, CoreMemToHBM.next, CoreMemToHBM.wordReqFire, wordOut, RiscVICore.memReqValid, hcpu, hcore]
  · simp [Top.next, GPUL2Cache.next, hl2, hany]
  · simp [Top.next, AXIToMemReq.next, GPUL2Cache.axiOut, hgpu, hl2]
  · simp [Top.next, SimtCore.next, launch, quiet, hsimt]

theorem spared_resting (h : Resting r) : Spared memMode b r := by
  intro x hx hp
  have hfire := (SplitPrioritizer.accept_mem_ev.1 (mem_accepted.1 hx)).1
  have hv : (splitIn memMode r).reqValid x.1 = true := ((Bool.and_eq_true _ _).mp hfire).1
  cases hport : x.1 with
  | cpu => simp [hport, splitIn, CoreMemToHBM.hbmReqValid, h.cpuAdp] at hv
  | gpu => simp [hport, splitIn, AXIToMemReq.memReqValid, h.gpuAdp] at hv
  | acc => exact absurd hport hp

theorem spared_quiet (h : Resting r) (n : ℕ) :
    Always (next memMode) (fun r _ => Spared memMode b r) r (List.replicate n quiet) := by
  induction n generalizing r with
  | zero => trivial
  | succ n ih => exact ⟨spared_resting h, ih (resting_next h)⟩

theorem gemm_completes_multiplying : ∃ during rest, List.replicate 841 quiet = during ++ rest ∧
    GemmToMem.busy (run (next 0) (reset leftover) (operands ++ [multiplying] ++ during)).gemm = false ∧
    contents 0 leftover (operands ++ [multiplying] ++ during) (line 0x140) = 0x2800f := by
  obtain ⟨during, rest, hins, -, -, hidle, hmem⟩ := gemm_completes 0 leftover operands multiplying
    (List.replicate 841 quiet) (by decide) (by decide +kernel) (by decide +kernel)
  have hresting : Resting (run (next 0) (reset leftover) (operands ++ [multiplying])) :=
    ⟨by decide +kernel, by decide +kernel, by decide +kernel, by decide +kernel, by decide +kernel⟩
  have hspared : Always (next 0) (fun r _ => Spared 0 0x40 r)
      (run (next 0) (reset leftover) (operands ++ [multiplying])) (List.replicate 841 quiet) :=
    spared_quiet hresting 841
  rw [hins] at hspared
  refine ⟨during, rest, hins, by rw [run_append]; exact hidle, ?_⟩
  have hline := hmem ((always_append _ _ _ _ _).1 hspared).1 0 (by decide)
  refine hline.trans (Eq.trans (b := cLine (fun e => if e = 0 then 0x2800f else 0) 0) ?_ (by decide +kernel))
  apply cLine_congr
  decide +kernel

end AegisSoc.GemmCompletes
