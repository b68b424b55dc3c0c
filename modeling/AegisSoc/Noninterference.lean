/-
The CPU's result does not depend on the other agents of the SoC.

A session is a run of `Top` from reset: a boot phase, one cycle with `start`, and any number of further cycles. `Apart`
says, of the handshakes of a session, that no other port has a write accepted to a line on which the CPU has a request
accepted. Nothing else is assumed: the memory mode, the GPU traffic, the launches and all timing are free.

- `session_tracks`: in a session that is apart, the CPU lane follows the one-instruction-per-step machine on a memory of
  its own (`CpuLane.Mach`), which depends on the program only;
- `noninterference`: so two such sessions with the same program retire the same states as far as both go, and if both
  halt, they end with the same registers and the same contents of the lines the CPU has used.
-/
import AegisSoc.Top
import AegisSoc.Cpu.Asm

namespace AegisSoc.Noninterference

open Machine PortMemory AegisSoc.Top
open RiscVICore (Arch arch)
open SplitPrioritizer (Port line lineOf access)
open CpuLane (Agree Booting Kept Tracks mach machLines)

/-! ## Sessions -/

abbrev Events := List (Ev Port MemReq (BitVec 512))

/-- no other port writes a line on which the CPU has a request accepted -/
def Apart (es : Events) : Prop :=
  ∀ x ∈ accepted es, x.1 ≠ .cpu → x.2.isWrite = true → ∀ y ∈ accepted es, y.1 = .cpu → line x.2.addr ≠ line y.2.addr

instance (es : Events) : Decidable (Apart es) := by unfold Apart; infer_instance

/-- the lines of the CPU's accepted requests -/
def touched (es : Events) : List (BitVec 8) :=
  (accepted es).filterMap fun x => if x.1 = .cpu then some (line x.2.addr) else none

/-- the image is not rewritten before the core halts -/
def Fixed (r : Reg) (i : In) : Prop := StallInsensitive.Fixed r.core (coreIn r i)

instance (r : Reg) (i : In) : Decidable (Fixed r i) := inferInstanceAs (Decidable (StallInsensitive.Fixed _ _))

/-- the architectural state at an instruction boundary reached in this cycle -/
def retires (r : Reg) (i : In) : List Arch := StallInsensitive.retired r.core (coreIn r i)

structure Session where
  memMode : BitVec 2
  junk : Junk
  load : List In
  go : In
  exe : List In

namespace Session

variable (a : Session)

/-- the SoC after the start cycle -/
def booted : Reg := run (next a.memMode) (reset a.junk) (a.load ++ [a.go])

def final : Reg := run (next a.memMode) a.booted a.exe

/-- the program -/
def image : BitVec 8 → BitVec 32 := a.booted.core.imem

/-- the states retired, in order -/
def retired : List Arch := collect (next a.memMode) retires a.booted a.exe

/-- the handshakes of the whole session on the three ports of the memory -/
def events : Events := collect (next a.memMode) (fun r _ => handshakes a.memMode r) (reset a.junk) (a.load ++ [a.go] ++ a.exe)

/-- the program is loaded before `start` and not rewritten after -/
structure Proper : Prop where
  load : ∀ i ∈ a.load, i.start = false
  go : a.go.start = true
  fixed : Always (next a.memMode) Fixed a.booted a.exe

end Session

/-! ## The CPU lane in the SoC -/

section Lane

variable (memMode : BitVec 2)

def cpuView (j : Fabric.Joint R) : CpuLane.Sys (BitVec 8) := Fabric.view .cpu j

def cpuIn (j : Fabric.Joint R) (i : In) : CpuLane.In (BitVec 8) := laneIn memMode .cpu j i

/-- the handshakes of one cycle -/
def evs (j : Fabric.Joint R) (i : In) : Events := Fabric.evs lanes j.reg (fabricIn memMode i)

variable {memMode} {j : Fabric.Joint R} {i : In} {es : Events}

theorem cpu_step (h : Fabric.Sound j) : cpuView (joint memMode j i) = CpuLane.step line (cpuView j) (cpuIn memMode j i) :=
  lane_step memMode .cpu j i h

/-- the line of the CPU's accepted request, read off the cycle's handshakes -/
theorem touched_evs (h : Fabric.Sound j) :
    touched (evs memMode j i) = CpuLane.accepted line (cpuView j) (cpuIn memMode j i) := by
  have hfire : PortClient.accepts CpuLane.client (cpuView j) (cpuIn memMode j i) = _ :=
    Fabric.accepts_view lanes h (fabricIn memMode i) .cpu
  rw [CpuLane.accepted, hfire]
  simp only [touched, evs, Fabric.evs]
  have hnone : HBM3Stack.reqFire j.reg.split.hbm (SplitPrioritizer.hbmIn j.reg.split
        (Fabric.splitIn lanes j.reg (fabricIn memMode i))) = false →
      SplitPrioritizer.reqFire j.reg.split (Fabric.splitIn lanes j.reg (fabricIn memMode i)) .cpu = false := fun hf => by
    rw [Bool.eq_false_iff, Ne, SplitPrioritizer.reqFire_iff, hf]
    simp
  rcases SplitPrioritizer.ev_cases h.tags (Fabric.splitIn lanes j.reg (fabricIn memMode i)) with
    ⟨hf, -, p, hp, he⟩ | ⟨hf, -, he⟩ | ⟨hf, -, he⟩
  · have hiff : SplitPrioritizer.reqFire j.reg.split (Fabric.splitIn lanes j.reg (fabricIn memMode i)) .cpu =
        decide (p = .cpu) := by
      rw [Bool.eq_iff_iff, decide_eq_true_eq, SplitPrioritizer.reqFire_iff]
      exact ⟨fun hc => SplitPrioritizer.serve_unique hp hc.2, fun hc => ⟨hf, hc ▸ hp⟩⟩
    rw [he, hiff]
    cases p <;> rfl
  · rw [he, hnone hf]
    rfl
  · rw [he, hnone hf]
    rfl

theorem touched_append (es es' : Events) : touched (es ++ es') = touched es ++ touched es' := by
  rw [touched, accepted_append, List.filterMap_append]
  rfl

theorem mem_touched {k : BitVec 8} : k ∈ touched es ↔ ∃ y ∈ accepted es, y.1 = .cpu ∧ line y.2.addr = k := by
  simp [touched]

/-- a line that another port writes in this cycle is not one of the CPU's -/
theorem others_apart (hes : ∀ e ∈ evs memMode j i, e ∈ es) (ha : Apart es) :
    ∀ w ∈ (cpuIn memMode j i).others, w.1 ∉ touched es := by
  intro w hw htouched
  obtain ⟨x, hx, hif⟩ := List.mem_filterMap.1 hw
  obtain ⟨y, hy, hcpu, hline⟩ := mem_touched.1 htouched
  simp only [Option.ite_none_right_eq_some, Option.some.injEq] at hif
  obtain ⟨⟨hp, hwrite⟩, rfl⟩ := hif
  have hx' : x ∈ accepted es := mem_accepted.2 (hes _ (mem_accepted.1 hx))
  exact ha x hx' hp hwrite y hy hcpu hline.symm

theorem inside_touched (h : Fabric.Sound j) (hes : ∀ e ∈ evs memMode j i, e ∈ es) :
    ∀ k ∈ CpuLane.accepted line (cpuView j) (cpuIn memMode j i), k ∈ touched es := by
  intro k hk
  rw [← touched_evs h] at hk
  obtain ⟨y, hy, hcpu, hline⟩ := mem_touched.1 hk
  exact mem_touched.2 ⟨y, mem_accepted.2 (hes _ (mem_accepted.1 hy)), hcpu, hline⟩

end Lane

/-! ## Whole sessions -/

namespace Session

variable (a : Session)

/-- the SoC at the end of the session, with the atomic memory alongside -/
def jointFinal : Fabric.Joint R := run (joint a.memMode) (start a.junk) (a.load ++ [a.go] ++ a.exe)

theorem jointFinal_eq : a.jointFinal = ⟨toFabric a.final, after access ⟨fun _ => 0, none⟩ a.events⟩ := by
  rw [jointFinal, start, run_joint, run_append]
  rfl

theorem sound_final : Fabric.Sound a.jointFinal :=
  run_inv Fabric.Sound (fun j i h _ => sound_joint a.memMode j i h) (sound_start a.junk) (always_true _ _ _)

/-- the CPU lane's inputs in the cycles `ins` -/
def laneIns (j : Fabric.Joint R) (ins : List In) : List (CpuLane.In (BitVec 8)) :=
  inputs (joint a.memMode) (cpuIn a.memMode) j ins

variable {a} {j : Fabric.Joint R} {ins : List In}

theorem lane_run (h : Fabric.Sound j) (ins : List In) :
    cpuView (run (joint a.memMode) j ins) = run (CpuLane.step line) (cpuView j) (a.laneIns j ins) :=
  run_proj cpuView (cpuIn a.memMode) (sound_joint a.memMode) (fun _ _ => cpu_step) h ins

theorem touched_run (h : Fabric.Sound j) (ins : List In) :
    touched (collect (joint a.memMode) (evs a.memMode) j ins) =
      collect (CpuLane.step line) (CpuLane.accepted line) (cpuView j) (a.laneIns j ins) := by
  have hcollect : ∀ j : Fabric.Joint R, touched (collect (joint a.memMode) (evs a.memMode) j ins) =
      collect (joint a.memMode) (fun j i => touched (evs a.memMode j i)) j ins := by
    intro j
    induction ins generalizing j with
    | nil => rfl
    | cons i ins ih => rw [collect_cons, collect_cons, touched_append, ih]
  rw [hcollect]
  exact collect_proj cpuView (cpuIn a.memMode) (sound_joint a.memMode) (fun _ _ => cpu_step) (fun _ _ => touched_evs) h ins

/-- the handshakes of the session, cycle by cycle -/
theorem events_eq (a : Session) :
    a.events = collect (joint a.memMode) (evs a.memMode) (start a.junk) (a.load ++ [a.go] ++ a.exe) := by
  refine Eq.trans ?_ (collect_joint (f := fun r i => Fabric.evs lanes r (fabricIn a.memMode i))).symm
  simp only [events, evs_toFabric]

/-- every cycle of the session shows handshakes of the session -/
theorem events_mem (a : Session) : Always (joint a.memMode) (fun j i => ∀ e ∈ evs a.memMode j i, e ∈ a.events)
    (start a.junk) (a.load ++ [a.go] ++ a.exe) :=
  always_collect fun e he => by rwa [events_eq]

/-- the SoC after the start cycle, with the atomic memory alongside -/
def jointBooted (a : Session) : Fabric.Joint R := run (joint a.memMode) (start a.junk) (a.load ++ [a.go])

theorem jointBooted_eq : ∃ α, a.jointBooted = ⟨toFabric a.booted, α⟩ := ⟨_, run_joint _ _⟩

theorem sound_booted : Fabric.Sound a.jointBooted :=
  run_inv Fabric.Sound (fun j i h _ => sound_joint a.memMode j i h) (sound_start a.junk) (always_true _ _ _)

/-- **From reset to the first instruction**: the lane stands at the start of the program, and has asked for nothing. -/
theorem boot_tracks (h : a.Proper) (ha : Apart a.events) :
    Tracks a.image line (· ∈ touched a.events) (fun _ => 0) (cpuView a.jointBooted) [] [] ∧
      touched (collect (joint a.memMode) (evs a.memMode) (start a.junk) (a.load ++ [a.go])) = [] := by
  obtain ⟨hes, -⟩ := (always_append _ _ _ _ _).1 a.events_mem
  obtain ⟨hload, hgo, -⟩ := (always_append _ _ _ _ _).1 hes
  have hquiet : Always (CpuLane.step line) (CpuLane.Quiet (· ∈ touched a.events)) (cpuView (start a.junk))
      (a.laneIns (start a.junk) a.load) :=
    always_proj cpuView (cpuIn a.memMode) (sound_joint a.memMode) (fun _ _ => cpu_step) (fun _ _ _ hP => hP)
      (sound_start a.junk) (always_imp (fun i hi j he => ⟨h.load i hi, others_apart he ha⟩) hload)
  have hreset : Booting (· ∈ touched a.events) (fun _ => 0) (cpuView (start a.junk)) := ⟨rfl, rfl, rfl, fun _ _ => rfl⟩
  have hins : a.laneIns (start a.junk) (a.load ++ [a.go]) =
      a.laneIns (start a.junk) a.load ++ [cpuIn a.memMode (run (joint a.memMode) (start a.junk) a.load) a.go] :=
    collect_snoc _ _ _ _ _
  have himage : a.image = (cpuView a.jointBooted).own.core.imem := by
    obtain ⟨α, hα⟩ := a.jointBooted_eq
    rw [hα]
    rfl
  rw [touched_run (sound_start a.junk), himage, jointBooted, lane_run (sound_start a.junk), hins]
  exact ⟨CpuLane.tracks_boot hreset hquiet h.go (others_apart hgo ha), CpuLane.boot_silent hreset hquiet _⟩

theorem retired_eq : a.retired =
    collect (CpuLane.step line) CpuLane.retired (cpuView a.jointBooted) (a.laneIns a.jointBooted a.exe) := by
  obtain ⟨α, hα⟩ := a.jointBooted_eq
  have hlane : collect (joint a.memMode) (fun j i => CpuLane.retired (cpuView j) (cpuIn a.memMode j i)) a.jointBooted a.exe =
      collect (CpuLane.step line) CpuLane.retired (cpuView a.jointBooted) (a.laneIns a.jointBooted a.exe) :=
    collect_proj cpuView (cpuIn a.memMode) (sound_joint a.memMode) (fun _ _ => cpu_step) (fun _ _ _ => rfl) sound_booted _
  rw [← hlane, hα]
  exact (collect_joint (f := fun r i => StallInsensitive.retired (r.own .cpu).core
    (CpuLane.coreIn (r.own .cpu) ((fabricIn a.memMode i).ext .cpu)))).symm

/-- the conditions of the lane hold in every cycle after `start` -/
theorem kept_exe (h : a.Proper) (ha : Apart a.events) :
    Always (CpuLane.step line) (Kept line (· ∈ touched a.events)) (cpuView a.jointBooted)
      (a.laneIns a.jointBooted a.exe) := by
  obtain ⟨-, hes⟩ := (always_append _ _ _ _ _).1 a.events_mem
  have hfixed : Always (joint a.memMode)
      (fun j i => StallInsensitive.Fixed (cpuView j).own.core (CpuLane.coreIn (cpuView j).own (cpuIn a.memMode j i).ext))
      a.jointBooted a.exe := by
    obtain ⟨α, hα⟩ := a.jointBooted_eq
    rw [hα]
    exact (always_joint (P := fun r i => StallInsensitive.Fixed (r.own .cpu).core
      (CpuLane.coreIn (r.own .cpu) ((fabricIn a.memMode i).ext .cpu)))).2 h.fixed
  exact always_proj cpuView (cpuIn a.memMode) (sound_joint a.memMode) (fun _ _ => cpu_step)
    (fun _ _ hs hP => ⟨hP.1, others_apart hP.2 ha, inside_touched hs hP.2⟩) sound_booted (always_and hfixed hes)

/-- **A session that is apart follows the machine with a memory of its own**, which depends on the program only. -/
theorem session_tracks (h : a.Proper) (ha : Apart a.events) :
    ∃ ds, Tracks a.image line (· ∈ touched a.events) (fun _ => 0) (cpuView a.jointFinal) ds (touched a.events) ∧
      a.retired = (List.range ds.length).map fun k => (mach a.image line (fun _ => 0) (k + 1)).arch := by
  obtain ⟨hboot, hsilent⟩ := boot_tracks h ha
  obtain ⟨htracks, hretired⟩ := CpuLane.tracks_run hboot (kept_exe h ha)
  have htouched : touched a.events =
      collect (CpuLane.step line) (CpuLane.accepted line) (cpuView a.jointBooted) (a.laneIns a.jointBooted a.exe) := by
    rw [events_eq, collect_append, touched_append, hsilent, List.nil_append]
    exact touched_run sound_booted _
  have hlast : cpuView a.jointFinal = run (CpuLane.step line) (cpuView a.jointBooted) (a.laneIns a.jointBooted a.exe) := by
    rw [jointFinal, run_append]
    exact lane_run sound_booted _
  simp only [List.nil_append, List.length_nil, Nat.zero_add, ← htouched, ← hlast, ← retired_eq] at htracks hretired
  exact ⟨_, htracks, hretired⟩

/-- once the core has halted, the array holds the CPU's lines as the atomic memory has them: the request in the stack, if
there is one, is not the CPU's, and does not write one of its lines -/
theorem cells_touched {ds : List (BitVec 32)} {ls : List (BitVec 8)} (ha : Apart a.events)
    (ht : Tracks a.image line (· ∈ touched a.events) (fun _ => 0) (cpuView a.jointFinal) ds ls)
    (hh : a.final.core.halted = true) (x : HBM3Stack.Idx HBM3Stack.defaultGeometry) (hx : lineOf x ∈ touched a.events) :
    a.final.split.hbm.cells x = (mach a.image line (fun _ => 0) ds.length).mem (lineOf x) := by
  have hrel : SplitPrioritizer.Rel a.final.split (after access ⟨fun _ => 0, none⟩ a.events) := by
    have hs := a.sound_final
    rw [jointFinal_eq] at hs
    exact hs
  rw [jointFinal_eq] at ht
  have hhalt : (cpuView ⟨toFabric a.final, after access ⟨fun _ => 0, none⟩ a.events⟩).own.core.halted = true := hh
  obtain ⟨-, howed, hagree⟩ := ht.rests (ht.follows.halted hhalt)
  refine (hrel.stack.cells x fun hb hw hxr => ?_).trans (hagree _ hx)
  have hlast : SplitPrioritizer.Last a.final.split a.events := by
    have hl := run_last a.memMode a.junk (a.load ++ [a.go] ++ a.exe)
    rw [run_append] at hl
    exact hl
  obtain ⟨before, hbefore⟩ := hlast hb
  have hmem : (SplitPrioritizer.src a.final.split, HBM3Stack.captured a.final.split.hbm) ∈ accepted a.events := by
    rw [hbefore]
    simp
  have hcpu : SplitPrioritizer.src a.final.split ≠ .cpu := fun hsrc => by
    obtain ⟨d, hd⟩ := hrel.busy_iff.1 hb
    rw [hsrc] at hd
    have hsome := PortClient.owed_eq_some.2 hd
    exact absurd (howed.symm.trans hsome) (by simp)
  obtain ⟨y, hy, hycpu, hline⟩ := mem_touched.1 hx
  refine ha _ hmem hcpu hw y hy hycpu ?_
  rw [hline, hxr]
  exact (SplitPrioritizer.lineOf_idx _).symm

end Session

/-- **The CPU's result does not depend on the other agents.** Two sessions with the same program, in each of which no other
port writes a line the CPU uses, retire the same states as far as both go. If both halt, they end with the same registers,
the CPU has used the same lines, and these have the same contents. -/
theorem noninterference (a b : Session) (ha : a.Proper) (hb : b.Proper) (himg : a.image = b.image) (haa : Apart a.events)
    (hab : Apart b.events) :
    (∀ (k : ℕ) (x y : Arch), a.retired[k]? = some x → b.retired[k]? = some y → x = y) ∧
    (a.final.core.halted = true → b.final.core.halted = true →
      arch a.final.core = arch b.final.core ∧ touched a.events = touched b.events ∧
        ∀ x, lineOf x ∈ touched a.events → a.final.split.hbm.cells x = b.final.split.hbm.cells x) := by
  obtain ⟨ds, htracks, hret⟩ := Session.session_tracks ha haa
  obtain ⟨ds', htracks', hret'⟩ := Session.session_tracks hb hab
  rw [← himg] at htracks' hret'
  refine ⟨fun k x y hx hy => ?_, fun hha hhb => ?_⟩
  · have hnth : ∀ (n : ℕ) (z : Arch), ((List.range n).map fun k => (mach a.image line (fun _ => 0) (k + 1)).arch)[k]? =
        some z → z = (mach a.image line (fun _ => 0) (k + 1)).arch := by
      intro n z hz
      obtain ⟨hk, hz⟩ := List.getElem?_eq_some_iff.1 hz
      rw [← hz]
      simp
    rw [hnth _ x (hret ▸ hx), hnth _ y (hret' ▸ hy)]
  · have hcells := Session.cells_touched haa htracks hha
    have hcells' := Session.cells_touched hab (himg ▸ htracks') hhb
    rw [Session.jointFinal_eq] at htracks htracks'
    obtain ⟨hsent, harch, hlines, -⟩ := htracks.halted hha
    obtain ⟨hsent', harch', hlines', -⟩ := htracks'.halted hhb
    have hnone : ∀ k < ds.length, ¬ RiscVICore.isHalt ((mach a.image line (fun _ => 0) k).inst a.image) = true :=
      fun k hk => Bool.eq_false_iff.1 (htracks.noHalt k hk)
    have hnone' : ∀ k < ds'.length, ¬ RiscVICore.isHalt ((mach a.image line (fun _ => 0) k).inst a.image) = true :=
      fun k hk => Bool.eq_false_iff.1 (htracks'.noHalt k hk)
    have hn : ds.length = ds'.length := first_unique hnone hsent hnone' hsent'
    have htouched : touched a.events = touched b.events := by rw [hlines, hlines', hn]
    refine ⟨harch.trans (hn ▸ harch'.symm), htouched, fun x hx => ?_⟩
    rw [hcells x hx, hcells' x (htouched ▸ hx), hn, himg]

/-- `addi x1, x0, 5`, `sw x1, 8(x0)`, `lw x2, 8(x0)`, halt -/
def program : List (BitVec 32) := [Asm.addi 1 0 5, Asm.sw 0 1 8, Asm.lw 2 0 8, Asm.halt]

/-- the CPU alone -/
def alone : Session where
  memMode := 0
  junk := ⟨0, 0, false, AXIToMemReq.zeros⟩
  load := loading program
  go := { quiet with start := true }
  exe := List.replicate 30 quiet

/-- the external GPU port keeps storing to another line -/
def storing : In := { quiet with gpu := ⟨true, ⟨0x40, 7, true⟩, true⟩ }

/-- the same program in another mode, against traffic on the GPU port -/
def busy : Session where
  memMode := 1
  junk := leftover
  load := loading program
  go := { storing with start := true }
  exe := List.replicate 50 storing

theorem noninterference_busy :
    (alone.final.core.halted = true ∧ busy.final.core.halted = true ∧ busy.final.core.rf 2 = 5 ∧
        (.gpu, ⟨0x40, 7, true⟩) ∈ accepted busy.events) ∧
      arch alone.final.core = arch busy.final.core ∧ touched alone.events = touched busy.events :=
  have h : alone.final.core.halted = true ∧ busy.final.core.halted = true ∧ busy.final.core.rf 2 = 5 ∧
      (.gpu, ⟨0x40, 7, true⟩) ∈ accepted busy.events := by decide +kernel
  have heq := (noninterference alone busy ⟨by decide, rfl, by decide +kernel⟩ ⟨by decide, rfl, by decide +kernel⟩
    (funext (by decide +kernel)) (by decide +kernel) (by decide +kernel)).2 h.1 h.2.1
  ⟨h, heq.1, heq.2.1⟩

end AegisSoc.Noninterference
