/-
What a program computes on the CPU lane, on any memory whose other users leave its lines alone while it runs. What they have
stored before the start is the memory that the program finds.

- `booted`: from reset to the first instruction;
- `lane_runs`: the states retired are those of the RV32I hart, one after another, for as long as the instructions are ones it
  supports, and a core that halts has the result of the hart;
- `lane_completes`: a program that ends on the hart ends on the lane, if the lane gets on.
-/
import AegisSoc.Cpu.Hart

namespace AegisSoc.LaneProgram

open Machine
open CpuLane (Agree Booting Kept Sys Tracks mach retired step)
open Lanes (lane)
open RiscVICore (arch fetch)
open Rv32i (abs bytesOf hart mach_abs)
open SplitPrioritizer (line)

variable {s s₀ : Sys (BitVec 8)} {load ins : List (CpuLane.In (BitVec 8))} {go : CpuLane.In (BitVec 8)} {K : BitVec 8 → Prop}

/-! ## Before the first instruction -/

/-- the lane stands at the first instruction of its program, on the memory as it is -/
def Booted (s : Sys (BitVec 8)) : Prop := ∀ K, Tracks s.own.core.imem line K s.mem s [] []

/-- **From reset to the first instruction**, whatever the others store. -/
theorem booted (hcore : StallInsensitive.Unstarted s₀.own.core) (hadp : s₀.own.adp = CoreMemToHBM.reset)
    (howed : s₀.owed = none) (hload : ∀ i ∈ load, i.ext.start = false) (hgo : go.ext.start = true) :
    Booted (run (step line) s₀ (load ++ [go])) := by
  -- before the start the lane needs no line for itself
  have hreset : Booting (fun _ => False) s₀.mem s₀ := ⟨hcore, hadp, howed, fun _ _ => rfl⟩
  have hquiet : Always (step line) (CpuLane.Quiet fun _ => False) s₀ load :=
    always_imp (fun i hi _ _ => ⟨hload i hi, fun _ _ hf => hf⟩) (always_true _ _ load)
  have hboot : Booting (fun _ => False) s₀.mem (run (step line) s₀ load) :=
    run_inv _ (fun _ _ hb hq => CpuLane.booting_step hb hq.1 hq.2) hreset hquiet
  have hstart : Tracks (step line (run (step line) s₀ load) go).own.core.imem line (fun _ => False) s₀.mem
      (step line (run (step line) s₀ load) go) [] [] :=
    CpuLane.tracks_start hboot hgo fun _ _ hf => hf
  have hm : (step line (run (step line) s₀ load) go).own.core.memWait = false := by
    rw [CpuLane.step_core, hboot.core]
    simp [RiscVICore.next, RiscVICore.reset]
  intro K
  rw [run_snoc]
  obtain ⟨hst, ho, -⟩ := hstart.rests hm
  refine ⟨hstart.follows, rfl, fun k hk => absurd hk (Nat.not_lt_zero k), hstart.off, ?_, ?_⟩
  · rw [hm]
    simp only [CpuLane.Phase, hst]
    exact ⟨trivial, ho, fun _ _ => rfl⟩
  · simp [CpuLane.machLines, CpuLane.asked, hst]

/-! ## RV32I -/

/-- the hart that the program runs on: its image, and the bytes of the memory it finds -/
def isa (s : Sys (BitVec 8)) (k : ℕ) : Rv32i.State 14 := hart s.own.core.imem (bytesOf s.mem) k

/-- the lane `s` has ended with the result `r`: the core has halted on the sentinel, its registers are those of `r`, and the
lines of `K` hold its bytes -/
structure Ends (K : BitVec 8 → Prop) (img : BitVec 8 → BitVec 32) (s : Sys (BitVec 8)) (r : Rv32i.State 14) : Prop where
  halted : s.own.core.halted = true
  sentinel : fetch img r.arch.pc = 0xffffffff
  arch : arch s.own.core = r.arch
  mem : ∀ b : BitVec 14, K (b.extractLsb' 6 8) → lane 8 (s.mem (b.extractLsb' 6 8)) (b.toNat % 64) = r.mem b

/-- the machine after `n` supported instructions is the hart -/
theorem mach_isa {n : ℕ} (hreg : ∀ k < n, (isa s k).Regular s.own.core.imem) {k : ℕ} (hk : k ≤ n) :
    (mach s.own.core.imem line s.mem k).arch = (isa s k).arch ∧
      bytesOf (mach s.own.core.imem line s.mem k).mem = (isa s k).mem := by
  have habs := mach_abs s.own.core.imem s.mem n hreg k hk
  exact ⟨congrArg Rv32i.State.arch habs, congrArg Rv32i.State.mem habs⟩

/-- a supported instruction is not the sentinel -/
theorem not_halt_of_regular {r : Rv32i.State 14} {img : BitVec 8 → BitVec 32} (h : r.Regular img) :
    RiscVICore.isHalt (fetch img r.arch.pc) = false := by
  obtain ⟨p, hp, -⟩ := h
  rw [Bool.eq_false_iff]
  intro hh
  have hp : Rv32i.decode (fetch img r.arch.pc) = some p := hp
  have hnone : Rv32i.decode 0xffffffff = none := by decide
  rw [beq_iff_eq.1 hh, hnone] at hp
  exact absurd hp (by simp)

/-- a halted lane has the result of the hart -/
theorem ends_of_halted {ds : List (BitVec 32)} {ls : List (BitVec 8)} {s' : Sys (BitVec 8)}
    (ht : Tracks s.own.core.imem line K s.mem s' ds ls) (hreg : ∀ k < ds.length, (isa s k).Regular s.own.core.imem)
    (hh : s'.own.core.halted = true) : Ends K s.own.core.imem s' (isa s ds.length) := by
  obtain ⟨hsent, harch, -, hagree⟩ := ht.halted hh
  obtain ⟨harch', hmem'⟩ := mach_isa hreg le_rfl
  refine ⟨hh, ?_, harch.trans harch', fun b hb => ?_⟩
  · rw [CpuLane.Mach.inst, harch'] at hsent
    exact beq_iff_eq.1 hsent
  · rw [← hmem', bytesOf, hagree _ hb]

/-- a run from the first instruction follows the machine, and what it retires is the hart's if that is supported -/
theorem lane_tracks (hb : Booted s) (hk : Always (step line) (Kept line K) s ins) :
    ∃ ds ls, Tracks s.own.core.imem line K s.mem (run (step line) s ins) ds ls ∧
      (collect (step line) retired s ins).length = ds.length ∧
      ((∀ k < ds.length, (isa s k).Regular s.own.core.imem) →
        collect (step line) retired s ins = (List.range ds.length).map (fun k => (isa s (k + 1)).arch)) := by
  obtain ⟨htracks, hret⟩ := CpuLane.tracks_run (hb K) hk
  simp only [List.nil_append, List.length_nil, Nat.zero_add] at htracks hret
  refine ⟨_, _, htracks, ?_, fun hreg => ?_⟩
  · rw [hret, List.length_map, List.length_range]
  · rw [hret]
    exact List.map_congr_left fun k hk => (mach_isa hreg (List.mem_range.1 hk)).1

/-- **The lane executes RV32I.** -/
theorem lane_runs (hb : Booted s) (hk : Always (step line) (Kept line K) s ins)
    (hreg : ∀ k < (collect (step line) retired s ins).length, (isa s k).Regular s.own.core.imem) :
    collect (step line) retired s ins =
        (List.range (collect (step line) retired s ins).length).map (fun k => (isa s (k + 1)).arch) ∧
      ((run (step line) s ins).own.core.halted = true →
        Ends K s.own.core.imem (run (step line) s ins) (isa s (collect (step line) retired s ins).length)) := by
  obtain ⟨ds, ls, htracks, hlen, hret⟩ := lane_tracks hb hk
  rw [hlen] at hreg ⊢
  exact ⟨hret hreg, ends_of_halted htracks hreg⟩

/-- **A program that ends on the hart ends on the lane**, if in the time given the lane halts or retires more instructions than
the program has. -/
theorem lane_completes (hb : Booted s) (hk : Always (step line) (Kept line K) s ins) {n : ℕ}
    (hreg : ∀ k < n, (isa s k).Regular s.own.core.imem) (hhalt : fetch s.own.core.imem (isa s n).arch.pc = 0xffffffff)
    (hon : (run (step line) s ins).own.core.halted = true ∨ n + 1 ≤ (collect (step line) retired s ins).length) :
    collect (step line) retired s ins = (List.range n).map (fun k => (isa s (k + 1)).arch) ∧
      Ends K s.own.core.imem (run (step line) s ins) (isa s n) := by
  obtain ⟨ds, ls, htracks, hlen, hret⟩ := lane_tracks hb hk
  -- the machine stands at the sentinel after `n` instructions, so no more are retired
  have hsent : RiscVICore.isHalt ((mach s.own.core.imem line s.mem n).inst s.own.core.imem) = true := by
    rw [CpuLane.Mach.inst, (mach_isa hreg le_rfl).1, hhalt]
    rfl
  have hle : ds.length ≤ n := not_lt.1 fun hlt => absurd ((htracks.noHalt n hlt).symm.trans hsent) Bool.false_ne_true
  have hend := ends_of_halted htracks (fun k hk => hreg k (by omega)) (hon.resolve_right (by omega))
  have hn : ds.length = n := by
    refine le_antisymm hle (not_lt.1 fun hlt => ?_)
    have hnot := not_halt_of_regular (hreg ds.length hlt)
    rw [hend.sentinel] at hnot
    exact absurd hnot (by decide)
  rw [hn] at hend hret
  exact ⟨hret hreg, hend⟩

end AegisSoc.LaneProgram
