/-
Nothing in the SoC waits for ever. The prioritizer serves a waiting port in bounded time if responses are taken at once
(`Memory.Service`), and the lanes do take them at once (`LockStep`); so each lane gets on with what it does, whatever the
others do.

`Reached` is what holds in every state after reset. Each lane has a number of cycles it may still need (`cpuLeft`), and
every cycle that does not end its task makes it smaller.
- `cpu_progress`: a running core completes an instruction or halts within 60 or 84 cycles, in every mode;
- `halt_final`: a core that has halted is silent for good. Nothing on the boot port starts it again.
-/
import AegisSoc.LockStep
import AegisSoc.Noninterference
import AegisSoc.Memory.Service
import AegisSoc.Cpu.CpuPace

namespace AegisSoc.Liveness

open Machine AegisSoc.Top LockStep
open PortMemory hiding next
open Noninterference (retires)
open PortClient (owed)
open SplitPrioritizer (Port maxWait wait)
open HBM3Stack (lag slot lag_lt_slot)

/-! ## States after reset -/

structure Reached (r : Reg) : Prop where
  locked : ∃ α, Locked ⟨toFabric r, α⟩
  paced : HBM3Stack.Paced r.split.hbm
  coupled : Loads.Coupled ⟨r.core, r.cpuAdp⟩
  /-- when the adapter answers the core, the stack has just been freed -/
  freed : r.cpuAdp.state = .rsp → r.split.hbm.state = .idle

variable {memMode : BitVec 2} {r : Reg} {i : In}

theorem reached_reset (g : Junk) : Reached (reset g) :=
  ⟨⟨_, locked_start g⟩, HBM3Stack.paced_reset _ _ _ _, ⟨rfl, fun _ => rfl, fun h => absurd h Bool.false_ne_true⟩,
    fun _ => rfl⟩

/-- the adapter after a cycle -/
theorem cpuAdp_next : (next memMode r i).cpuAdp = CoreMemToHBM.next r.cpuAdp ⟨wordOut r, portIn memMode r .cpu⟩ := rfl

/-- a response that is handed over frees the stack -/
theorem freed_of_respValid {p : Port} {α : St Port (BitVec 8) (BitVec 512)} (h : Locked ⟨toFabric r, α⟩)
    (hv : (portIn memMode r p).respValid = true) : (next memMode r i).split.hbm.state = .idle := by
  have hs : r.split.hbm.state = .cmd := beq_iff_eq.1 ((SplitPrioritizer.respValid_iff h.sound.tags p).1 hv).1
  have hready := ready_of_cmd memMode h hs
  simp [Top.next, SplitPrioritizer.next, HBM3Stack.next, hs, hready]

theorem freed_next (h : Reached r) (hs : (next memMode r i).cpuAdp.state = .rsp) :
    (next memMode r i).split.hbm.state = .idle := by
  obtain ⟨⟨α, hα⟩, -, hc, -⟩ := h
  cases hold : r.cpuAdp.state with
  | idle | rdreq | wrreq =>
    simp only [cpuAdp_next, CoreMemToHBM.next, hold] at hs
    split_ifs at hs <;> simp [CoreMemToHBM.capture, hold] at hs
  | rdresp | wrresp =>
    cases hv : (portIn memMode r .cpu).respValid with
    | true => exact freed_of_respValid hα hv
    | false => simp [cpuAdp_next, CoreMemToHBM.next, CoreMemToHBM.hbmRespFire, hold, hv] at hs
  | rsp =>
    -- the core takes the response at once
    have hm : r.core.memWait = true := by
      rw [← Bool.not_eq_false]
      exact fun hm => absurd ((hc.rests hm).symm.trans hold) (by decide)
    simp [cpuAdp_next, CoreMemToHBM.next, CoreMemToHBM.wordRespFire, CoreMemToHBM.wordRespValid, wordOut,
      RiscVICore.memRespReady, hold, hm] at hs

theorem reached_next (h : Reached r) : Reached (next memMode r i) := by
  have hfreed : (next memMode r i).cpuAdp.state = .rsp → (next memMode r i).split.hbm.state = .idle := freed_next h
  obtain ⟨⟨α, hα⟩, hp, hc, -⟩ := h
  have hl := locked_step memMode ⟨toFabric r, α⟩ i hα
  rw [joint_toFabric] at hl
  refine ⟨⟨_, hl⟩, HBM3Stack.paced_next _ _ hp, ?_, hfreed⟩
  exact Loads.coupled_step (i := ⟨⟨i.progWe, i.progAddr, i.progData, i.start⟩, portIn memMode r .cpu⟩) hc

theorem reached_run (g : Junk) (ins : List In) : Reached (run (next memMode) (reset g) ins) :=
  run_inv Reached (fun _ _ h _ => reached_next h) (reached_reset g) (always_true _ _ ins)

/-! ## A port of the memory -/

section Ports

variable {p : Port}

/-- the mode gives priority to the CPU -/
def priority (memMode : BitVec 2) : Bool := memMode == SplitPrioritizer.modeGaming || memMode == SplitPrioritizer.modeAi

/-- a request that is not accepted gets closer -/
theorem request_closer (h : Reached r) (hfair : SplitPrioritizer.Fair (priority memMode) p)
    (hv : (splitIn memMode r).reqValid p = true) (hn : (portIn memMode r p).reqReady = false) :
    wait (priority memMode) (next memMode r i).split p < wait (priority memMode) r.split p := by
  obtain ⟨⟨α, hα⟩, hp, -, -⟩ := h
  have hfire : SplitPrioritizer.reqFire r.split (splitIn memMode r) p = false := by
    rw [SplitPrioritizer.reqFire, hv]
    exact hn
  exact SplitPrioritizer.wait_next hp hfair rfl hv hfire (ready_of_cmd memMode hα)

/-- a response that is owed and not offered gets closer -/
theorem response_closer {α : St Port (BitVec 8) (BitVec 512)} (h : Locked ⟨toFabric r, α⟩)
    (hp : HBM3Stack.Paced r.split.hbm) (ho : (owed p α).isSome = true) (hv : (portIn memMode r p).respValid = false) :
    lag (next memMode r i).split.hbm < lag r.split.hbm :=
  SplitPrioritizer.lag_closer h.sound hp ho hv

end Ports

/-! ## The CPU -/

/-- the cycles before the instruction at hand is completed, at most -/
def cpuLeft (memMode : BitVec 2) (r : Reg) : ℕ :=
  let pr := priority memMode
  CpuPace.left (maxWait pr) slot (wait pr r.split .cpu) (lag r.split.hbm) r.cpuAdp.state

/-- 59 cycles if the CPU has priority, and 83 if it has not -/
def maxInstr (pr : Bool) : ℕ := 1 + (maxWait pr + slot) + (maxWait pr + slot)

theorem cpuLeft_le (memMode : BitVec 2) (r : Reg) : cpuLeft memMode r ≤ maxInstr (priority memMode) :=
  CpuPace.left_le (SplitPrioritizer.wait_le_maxWait _ _ _) (lag_lt_slot _) _

/-- an instruction is completed in this cycle, or the core halts -/
def Advances (memMode : BitVec 2) (r : Reg) (i : In) : Prop :=
  RiscVICore.retires true r.core (coreIn r i) = true ∨ (next memMode r i).core.halted = true

theorem cpu_closer (h : Reached r) (hr : r.core.running = true) (hh : r.core.halted = false)
    (hn : ¬ Advances memMode r i) : cpuLeft memMode (next memMode r i) < cpuLeft memMode r := by
  obtain ⟨α, hα⟩ := h.locked
  have hserved : CpuPace.Served (maxWait (priority memMode)) slot ⟨r.core, r.cpuAdp⟩ (portIn memMode r .cpu)
      (wait (priority memMode) r.split .cpu) (wait (priority memMode) (next memMode r i).split .cpu)
      (lag r.split.hbm) (lag (next memMode r i).split.hbm) :=
    ⟨fun hv hready => request_closer h (fun _ => rfl) hv hready,
      fun hready hv => response_closer hα h.paced (hα.cpu.trans hready) hv,
      SplitPrioritizer.wait_le_maxWait _ _ _, lag_lt_slot _⟩
  exact CpuPace.closer (x := ⟨i.progWe, i.progAddr, i.progData, i.start⟩) h.coupled hr hh hserved hn

/-- the start latch -/
theorem running_eq : (next memMode r i).core.running = (i.start || r.core.running) := rfl

theorem running_next (hr : r.core.running = true) : (next memMode r i).core.running = true := by
  rw [running_eq, hr, Bool.or_true]

/-- the next instruction -/
theorem instr_in_time (h : Reached r) (hr : r.core.running = true) (hh : r.core.halted = false) {ins : List In}
    (hlen : maxInstr (priority memMode) < ins.length) :
    ∃ a i b, ins = a ++ i :: b ∧ a.length ≤ maxInstr (priority memMode) ∧ Advances memMode (run (next memMode) r a) i := by
  refine reaches (P := Advances memMode)
    (fun k r => Reached r ∧ r.core.running = true ∧ r.core.halted = false ∧ cpuLeft memMode r ≤ k) ?_
    ⟨h, hr, hh, cpuLeft_le memMode _⟩ (always_true _ _ ins) hlen
  rintro k r i ⟨h, hr, hh, hk⟩ - hn
  exact ⟨_, (cpu_closer h hr hh hn).trans_le hk, reached_next h, running_next hr,
    Bool.eq_false_iff.2 fun hh' => hn (.inr hh'), le_rfl⟩

/-- one instruction after the other, as long as the core has not halted -/
theorem instrs_in_time (n : ℕ) (h : Reached r) (hr : r.core.running = true) {ins : List In}
    (hlen : n * (maxInstr (priority memMode) + 1) ≤ ins.length) :
    (run (next memMode) r ins).core.halted = true ∨ n ≤ (collect (next memMode) retires r ins).length := by
  refine repeats (P := fun r : Reg => r.core.halted = true) (fun r : Reg => Reached r ∧ r.core.running = true)
    (fun r i h => ⟨reached_next h.1, running_next h.2⟩) (fun r i hh => (RiscVICore.next_halted hh).2.1) ?_ n ⟨h, hr⟩ hlen
  intro r ins h hh hlt
  obtain ⟨a, i, b, hins, ha, hadv⟩ := instr_in_time h.1 h.2 (Bool.eq_false_iff.2 hh) hlt
  refine ⟨a, i, b, hins, ha, hadv.imp_left fun hret => ?_⟩
  simp [retires, StallInsensitive.retired, hret]

/-- **The core always gets on.** From every state after reset in which it runs, whatever happens on the boot port, on the GPU
port and in the accelerators, the core completes `n` instructions in `60 * n` cycles in the modes with CPU priority, and in
`84 * n` in those without, unless it halts. -/
theorem cpu_progress (memMode : BitVec 2) (g : Junk) (before ins : List In) (n : ℕ)
    (hr : (run (next memMode) (reset g) before).core.running = true)
    (hlen : n * (if priority memMode then 60 else 84) ≤ ins.length) :
    (run (next memMode) (reset g) (before ++ ins)).core.halted = true ∨
      n ≤ (collect (next memMode) retires (run (next memMode) (reset g) before) ins).length := by
  have hmax : maxInstr (priority memMode) + 1 = if priority memMode then 60 else 84 := by
    cases priority memMode <;> rfl
  rw [run_append]
  exact instrs_in_time n (reached_run g before) hr (by rw [hmax]; exact hlen)

/-- against traffic on the GPU port, in a mode with CPU priority -/
theorem cpu_progress_busy :
    Noninterference.busy.booted.core.running = true ∧
      ((run (next 1) (reset Noninterference.busy.junk) (Noninterference.busy.load ++ [Noninterference.busy.go] ++
          List.replicate 60 Noninterference.storing)).core.halted = true ∨
        1 ≤ (collect (next 1) retires Noninterference.busy.booted (List.replicate 60 Noninterference.storing)).length) :=
  have h : Noninterference.busy.booted.core.running = true := by decide +kernel
  ⟨h, cpu_progress 1 Noninterference.busy.junk (Noninterference.busy.load ++ [Noninterference.busy.go])
    (List.replicate 60 Noninterference.storing) 1 h (by decide)⟩

/-! ## A core that has halted -/

/-- no handshake of the CPU port -/
def CpuSilent (memMode : BitVec 2) (r : Reg) : Prop :=
  (∀ q, .accept .cpu q ∉ handshakes memMode r) ∧ ∀ d, .respond .cpu d ∉ handshakes memMode r

theorem silent_of_halted (h : Reached r) (hh : r.core.halted = true) : CpuSilent memMode r := by
  have hm : r.core.memWait = false := Bool.eq_false_iff.2 fun hm => by
    have hrunning : r.core.halted = false := (h.coupled.waits hm).2.1
    exact absurd (hrunning.symm.trans hh) Bool.false_ne_true
  have hidle : r.cpuAdp.state = .idle := h.coupled.rests hm
  constructor
  · intro q hq
    have hfire := (SplitPrioritizer.accept_mem_ev.1 hq).1
    simp [SplitPrioritizer.reqFire, splitIn, CoreMemToHBM.hbmReqValid, hidle] at hfire
  · intro d hd
    have hfire := (SplitPrioritizer.respond_mem_ev.1 hd).1
    simp [SplitPrioritizer.respFire, splitIn, CoreMemToHBM.hbmRespReady, hidle] at hfire

/-- **Halting is final.** Whatever comes after it on the boot port, a start and a new program included, and whatever the other
ports do, the registers and the pc stay, and the CPU port makes no handshake again. -/
theorem halt_final (memMode : BitVec 2) (g : Junk) (before ins : List In)
    (hh : (run (next memMode) (reset g) before).core.halted = true) :
    let halted := run (next memMode) (reset g) before
    (run (next memMode) halted ins).core.halted = true ∧
      RiscVICore.arch (run (next memMode) halted ins).core = RiscVICore.arch halted.core ∧
      Always (next memMode) (fun r _ => CpuSilent memMode r) halted ins := by
  intro halted
  have hstep : ∀ (r : Reg) (i : In), (Reached r ∧ r.core.halted = true ∧ RiscVICore.arch r.core = RiscVICore.arch halted.core) →
      True → Reached (next memMode r i) ∧ (next memMode r i).core.halted = true ∧
        RiscVICore.arch (next memMode r i).core = RiscVICore.arch halted.core := by
    rintro r i ⟨h, hh, harch⟩ -
    have hcore : RiscVICore.arch (next memMode r i).core = _ ∧ (next memMode r i).core.halted = true ∧ _ :=
      RiscVICore.next_halted hh
    exact ⟨reached_next h, hcore.2.1, hcore.1.trans harch⟩
  have hstart : Reached halted ∧ halted.core.halted = true ∧ RiscVICore.arch halted.core = RiscVICore.arch halted.core :=
    ⟨reached_run g before, hh, rfl⟩
  have htrue := always_true (next memMode) halted ins
  obtain ⟨-, hend, harch⟩ := run_inv _ hstep hstart htrue
  exact ⟨hend, harch, always_imp (fun _ _ _ h => silent_of_halted h.1.1 h.1.2.1) (always_inv _ hstep hstart htrue)⟩

/-- a program that has ended is loaded and started once more -/
theorem halt_final_again :
    let ended := run (next 1) (reset Noninterference.busy.junk)
      (Noninterference.busy.load ++ [Noninterference.busy.go] ++ Noninterference.busy.exe)
    let again := run (next 1) ended (Noninterference.busy.load ++ [Noninterference.busy.go] ++ Noninterference.busy.exe)
    ended.core.halted = true ∧ RiscVICore.arch again.core = RiscVICore.arch ended.core :=
  have h : (run (next 1) (reset Noninterference.busy.junk)
      (Noninterference.busy.load ++ [Noninterference.busy.go] ++ Noninterference.busy.exe)).core.halted = true := by
    decide +kernel
  ⟨h, (halt_final 1 Noninterference.busy.junk _
    (Noninterference.busy.load ++ [Noninterference.busy.go] ++ Noninterference.busy.exe) h).2.1⟩

end AegisSoc.Liveness
