/-
What a program computes on the SoC. The other agents may prepare the memory before the program starts, and go on with work of
their own after that.

- `kept_work`: as long as no other port writes a line that the CPU uses, the CPU lane is on a memory of the kind that
  `LaneProgram` asks for;
- `soc_runs_rv32i`: so it executes the program as an RV32I hart on the bytes of the memory as it was handed over, for as long as
  the instructions are ones it supports;
- `program_completes`: and a program that ends on the hart ends on the SoC, in bounded time and with the same result.
-/
import AegisSoc.Cpu.LaneProgram
import AegisSoc.Liveness
import AegisSoc.Noninterference

namespace AegisSoc.Program

open Machine AegisSoc.Top Noninterference
open PortMemory hiding next
open CpuLane (Kept)
open Lanes (lane)
open RiscVICore (arch fetch)
open Rv32i (bytesOf hart)
open SplitPrioritizer (Port access line lineOf)

/-! ## Before and after the start -/

/-- the handshakes up to the start cycle -/
def bootEvents (a : Session) : Events :=
  collect (next a.memMode) (fun r _ => handshakes a.memMode r) (reset a.junk) (a.load ++ [a.go])

/-- the handshakes after it -/
def workEvents (a : Session) : Events := collect (next a.memMode) (fun r _ => handshakes a.memMode r) a.booted a.exe

/-- the memory as the program finds it -/
def handed (a : Session) : BitVec 8 → BitVec 512 := memAfter access (fun _ => 0) ((accepted (bootEvents a)).map Prod.snd)

/-- the lines that the other ports write -/
def foreign (es : Events) : List (BitVec 8) :=
  (accepted es).filterMap fun x => if x.1 ≠ .cpu ∧ x.2.isWrite = true then some (line x.2.addr) else none

variable {a : Session}

theorem mem_foreign {es : Events} {k : BitVec 8} :
    k ∈ foreign es ↔ ∃ x ∈ accepted es, x.1 ≠ .cpu ∧ x.2.isWrite = true ∧ line x.2.addr = k := by
  simp [foreign, and_assoc]

theorem foreign_of_apart {es : Events} (h : Apart es) {k : BitVec 8} (hk : k ∈ touched es) : k ∉ foreign es := by
  intro hf
  obtain ⟨x, hx, hp, hw, hxk⟩ := mem_foreign.1 hf
  obtain ⟨y, hy, hcpu, hyk⟩ := mem_touched.1 hk
  exact h x hx hp hw y hy hcpu (hxk.trans hyk.symm)

/-- the handshakes after the start, with the atomic memory alongside -/
theorem workEvents_eq : workEvents a = collect (joint a.memMode) (evs a.memMode) a.jointBooted a.exe := by
  obtain ⟨α, hα⟩ := a.jointBooted_eq
  rw [hα]
  refine Eq.trans ?_ (collect_joint (f := fun r i => Fabric.evs lanes r (fabricIn a.memMode i))).symm
  simp only [workEvents, evs_toFabric]

theorem booted_mem : (cpuView a.jointBooted).mem = handed a := by
  rw [Session.jointBooted, start, run_joint]
  exact after_mem _ _

theorem booted_imem : (cpuView a.jointBooted).own.core.imem = a.image := by
  obtain ⟨α, hα⟩ := a.jointBooted_eq
  rw [hα]
  rfl

theorem lane_booted (h : a.Proper) : LaneProgram.Booted (cpuView a.jointBooted) := by
  have hins : a.laneIns (start a.junk) (a.load ++ [a.go]) =
      a.laneIns (start a.junk) a.load ++ [cpuIn a.memMode (run (joint a.memMode) (start a.junk) a.load) a.go] :=
    collect_snoc _ _ _ _ _
  rw [Session.jointBooted, Session.lane_run (sound_start a.junk), hins]
  refine LaneProgram.booted rfl rfl rfl (fun i hi => ?_) h.go
  obtain ⟨j, x, hx, rfl⟩ := mem_inputs hi
  exact h.load x hx

/-- the conditions of the lane hold in every cycle after `start` -/
theorem kept_work (h : a.Proper) (ha : Apart (workEvents a)) :
    Always (CpuLane.step line) (Kept line (· ∉ foreign (workEvents a))) (cpuView a.jointBooted)
      (a.laneIns a.jointBooted a.exe) := by
  have hes : Always (joint a.memMode) (fun j i => ∀ e ∈ evs a.memMode j i, e ∈ workEvents a) a.jointBooted a.exe :=
    always_collect fun e he => by rwa [workEvents_eq]
  have hfixed : Always (joint a.memMode)
      (fun j i => StallInsensitive.Fixed (cpuView j).own.core (CpuLane.coreIn (cpuView j).own (cpuIn a.memMode j i).ext))
      a.jointBooted a.exe := by
    obtain ⟨α, hα⟩ := a.jointBooted_eq
    rw [hα]
    exact (always_joint (P := fun r i => StallInsensitive.Fixed (r.own .cpu).core
      (CpuLane.coreIn (r.own .cpu) ((fabricIn a.memMode i).ext .cpu)))).2 h.fixed
  refine always_proj cpuView (cpuIn a.memMode) (sound_joint a.memMode) (fun _ _ => cpu_step)
    (fun j i hs hP => ⟨hP.1, fun w hw hK => hK ?_, fun k hk => ?_⟩) Session.sound_booted (always_and hfixed hes)
  · obtain ⟨x, hx, hif⟩ := List.mem_filterMap.1 hw
    simp only [Option.ite_none_right_eq_some, Option.some.injEq] at hif
    obtain ⟨⟨hp, hwrite⟩, rfl⟩ := hif
    exact mem_foreign.2 ⟨x, mem_accepted.2 (hP.2 _ (mem_accepted.1 hx)), hp, hwrite, rfl⟩
  · exact foreign_of_apart ha (inside_touched hs hP.2 k hk)

theorem lane_final : cpuView a.jointFinal = run (CpuLane.step line) (cpuView a.jointBooted) (a.laneIns a.jointBooted a.exe) := by
  rw [Session.jointFinal, run_append]
  exact Session.lane_run Session.sound_booted _

/-- the array holds what the atomic memory has, except a line that a write in the stack is about to replace -/
theorem cells_eq (a : Session) (x : HBM3Stack.Idx HBM3Stack.defaultGeometry)
    (hx : ∀ q ∈ HBM3Stack.inFlight a.final.split.hbm, q.isWrite = true → line q.addr ≠ lineOf x) :
    a.final.split.hbm.cells x = (cpuView a.jointFinal).mem (lineOf x) := by
  have hrel := a.sound_final
  rw [Session.jointFinal_eq] at hrel ⊢
  refine hrel.stack.cells x fun hb hw hxr => ?_
  refine hx (HBM3Stack.captured a.final.split.hbm) ?_ hw ?_
  · have hb : HBM3Stack.busy a.final.split.hbm = true := hb
    simp [HBM3Stack.inFlight, hb]
  · rw [hxr]
    exact (SplitPrioritizer.lineOf_idx _).symm

theorem booted_running (h : a.Proper) : a.booted.core.running = true := by
  rw [Session.booted, run_snoc, Liveness.running_eq, h.go, Bool.true_or]

/-! ## RV32I -/

/-- the hart that the program runs on -/
def isa (a : Session) (k : ℕ) : Rv32i.State 14 := hart a.image (bytesOf (handed a)) k

/-- the session has ended with the result `s`: the core has halted on the sentinel, its registers are those of `s`, and the
array holds its bytes, but for lines that another port has written since the start or is about to write -/
structure Ends (a : Session) (s : Rv32i.State 14) : Prop where
  halted : a.final.core.halted = true
  sentinel : fetch a.image s.arch.pc = 0xffffffff
  arch : arch a.final.core = s.arch
  mem : ∀ (x : HBM3Stack.Idx HBM3Stack.defaultGeometry) (b : BitVec 14), b.extractLsb' 6 8 = lineOf x →
    lineOf x ∉ foreign (workEvents a) →
    (∀ q ∈ HBM3Stack.inFlight a.final.split.hbm, q.isWrite = true → line q.addr ≠ lineOf x) →
    lane 8 (a.final.split.hbm.cells x) (b.toNat % 64) = s.mem b

theorem isa_eq (k : ℕ) : LaneProgram.isa (cpuView a.jointBooted) k = isa a k := by
  rw [LaneProgram.isa, booted_imem, booted_mem]
  rfl

/-- a lane that has ended has the session ended -/
theorem ends_of_lane {s : Rv32i.State 14}
    (h : LaneProgram.Ends (· ∉ foreign (workEvents a)) a.image (cpuView a.jointFinal) s) : Ends a s := by
  obtain ⟨hhalted, hsent, harch, hmem⟩ := h
  have hown : (cpuView a.jointFinal).own.core = a.final.core := by
    rw [Session.jointFinal_eq]
    rfl
  rw [hown] at hhalted harch
  refine ⟨hhalted, hsent, harch, fun x b hb hf hq => ?_⟩
  rw [← hmem b (hb ▸ hf), hb, cells_eq a x hq]

/-- **The SoC executes RV32I.** In a session in which, after the start, no other port writes a line that the CPU uses, and for
as long as the hart meets supported instructions only, the states retired are those of the hart, one after another, on the
memory as the others have left it. If the core halts, the session ends with the result of the hart. -/
theorem soc_runs_rv32i (a : Session) (h : a.Proper) (ha : Apart (workEvents a))
    (hreg : ∀ k < a.retired.length, (isa a k).Regular a.image) :
    a.retired = (List.range a.retired.length).map (fun k => (isa a (k + 1)).arch) ∧
      (a.final.core.halted = true → Ends a (isa a a.retired.length)) := by
  obtain ⟨hret, hend⟩ := LaneProgram.lane_runs (lane_booted h) (kept_work h ha) (by
    rw [← Session.retired_eq, booted_imem]
    simpa only [isa_eq] using hreg)
  rw [← Session.retired_eq] at hret hend
  rw [← lane_final, booted_imem] at hend
  simp only [isa_eq] at hret hend
  refine ⟨hret, fun hh => ends_of_lane (hend ?_)⟩
  rw [Session.jointFinal_eq]
  exact hh

/-- the GPU port stores a line -/
def giving : In := { quiet with gpu := ⟨true, ⟨0, 7 <<< 64, true⟩, true⟩ }

/-- `lw x2, 8(x0)`, `addi x1, x2, 5`, `sw x1, 12(x0)`, halt -/
def adding : List (BitVec 32) := [Asm.lw 2 0 8, Asm.addi 1 2 5, Asm.sw 0 1 12, Asm.halt]

/-- the GPU port hands a line over to the program, and stores to another one while it runs -/
def given : Session where
  memMode := 1
  junk := leftover
  load := giving :: loading adding ++ List.replicate 20 quiet
  go := { storing with start := true }
  exe := List.replicate 240 storing

theorem given_adds : given.Proper ∧ Apart (workEvents given) ∧ ∀ k < 3, (isa given k).Regular given.image :=
  ⟨⟨by decide, rfl, by decide +kernel⟩, by decide +kernel, by decide +kernel⟩

theorem soc_runs_rv32i_given :
    given.retired.length = 3 ∧ given.retired = (List.range 3).map fun k => (isa given (k + 1)).arch :=
  have h : given.retired.length = 3 := by decide +kernel
  have hrun := soc_runs_rv32i given given_adds.1 given_adds.2.1 (h ▸ given_adds.2.2)
  ⟨h, h ▸ hrun.1⟩

/-- **A program that ends on the hart ends on the SoC**, in any mode and whatever the others do outside its lines: if the hart
meets the sentinel after `n` supported instructions, then after `60 * (n + 1)` cycles in the modes with CPU priority, or
`84 * (n + 1)` in those without, the core has retired the `n` states of the hart and the session has its result. -/
theorem program_completes (a : Session) (h : a.Proper) (ha : Apart (workEvents a)) (n : ℕ)
    (hreg : ∀ k < n, (isa a k).Regular a.image) (hhalt : fetch a.image (isa a n).arch.pc = 0xffffffff)
    (hlen : (n + 1) * (if Liveness.priority a.memMode then 60 else 84) ≤ a.exe.length) :
    a.retired = (List.range n).map (fun k => (isa a (k + 1)).arch) ∧ Ends a (isa a n) := by
  have hreach : Liveness.Reached a.booted := Liveness.reached_run a.junk _
  have hmax : Liveness.maxInstr (Liveness.priority a.memMode) + 1 = if Liveness.priority a.memMode then 60 else 84 := by
    cases Liveness.priority a.memMode <;> rfl
  have hon : (cpuView a.jointFinal).own.core.halted = true ∨ n + 1 ≤ a.retired.length := by
    rw [Session.jointFinal_eq]
    exact Liveness.instrs_in_time (n + 1) hreach (booted_running h) (by rw [hmax]; exact hlen)
  rw [lane_final, Session.retired_eq] at hon
  obtain ⟨hret, hend⟩ := LaneProgram.lane_completes (lane_booted h) (kept_work h ha) (by
    rw [booted_imem]
    simpa only [isa_eq] using hreg) (by rwa [isa_eq, booted_imem]) hon
  rw [← Session.retired_eq] at hret
  rw [← lane_final, booted_imem] at hend
  simp only [isa_eq] at hret hend
  exact ⟨hret, ends_of_lane hend⟩

theorem program_completes_given :
    (isa given 3).arch.rf 1 = 12 ∧ given.retired.length = 3 ∧ Ends given (isa given 3) :=
  have h := program_completes given given_adds.1 given_adds.2.1 3 given_adds.2.2 (by decide +kernel) (by decide +kernel)
  ⟨by decide +kernel, by rw [h.1]; rfl, h.2⟩

end AegisSoc.Program
