/-
How the CPU lane gets on, on a memory port that serves it in time.

The port is described by two numbers that it may change in every cycle: the cycles before a request is accepted, and those
before an accepted request is answered, at most. If they go down while the lane waits for the one or the other (`Served`),
the cycles left for the instruction at hand go down as well (`closer`), whatever the boot port does. On a line memory of its own
the lane completes an instruction in six cycles that the memory does not hold up (`lane_paced`).
-/
import AegisSoc.Cpu.Loads

namespace AegisSoc.CpuPace

open Machine RiscVICore CoreMemToHBM CpuLane
open PortClient (portIn)
open Loads (Coupled)

variable {W S w w' g g' : ℕ} {l : CpuLane.Reg} {x : Boot} {m : MemIn}

/-- the cycles before the instruction at hand is completed, at most: two requests for a store, each with its response; a
request takes up to `W` cycles and its response less than `S` -/
def left (W S w g : ℕ) : CoreMemToHBM.State → ℕ
  | .rsp => 0
  | .wrresp => g + 1
  | .wrreq => w + S
  | .rdresp => g + 1 + (W + S)
  | .rdreq => w + S + (W + S)
  | .idle => 1 + (W + S) + (W + S)

theorem left_le (hw : w ≤ W) (hg : g + 1 < S) (s : CoreMemToHBM.State) : left W S w g s ≤ 1 + (W + S) + (W + S) := by
  cases s <;> simp only [left] <;> omega

/-- what the port does in a cycle -/
structure Served (W S : ℕ) (l : CpuLane.Reg) (m : MemIn) (w w' g g' : ℕ) : Prop where
  accepts : hbmReqValid l.adp = true → m.reqReady = false → w' < w
  answers : hbmRespReady l.adp = true → m.respValid = false → g' < g
  wait_le : w' ≤ W
  lag_lt : g' + 1 < S

/-- an instruction is completed in this cycle, or the core halts -/
def Advances (l : CpuLane.Reg) (x : Boot) : Prop :=
  retires true l.core (coreIn l x) = true ∨ (RiscVICore.next true l.core (coreIn l x)).halted = true

theorem adp_next : (CpuLane.next l x m).adp = CoreMemToHBM.next l.adp ⟨wordOut l, m⟩ := rfl

theorem closer_request (hs : Served W S l m w w' g g') (hl : l.adp.state = .rdreq ∨ l.adp.state = .wrreq) :
    left W S w' g' (CpuLane.next l x m).adp.state < left W S w g l.adp.state := by
  obtain ⟨haccepts, -, -, hlag⟩ := hs
  have hv : hbmReqValid l.adp = true := by rcases hl with hl | hl <;> simp [hbmReqValid, hl]
  cases hready : m.reqReady with
  | true =>
    rcases hl with hl | hl <;>
      simp only [adp_next, CoreMemToHBM.next, hbmReqFire, hv, hready, hl, Bool.and_self, if_true, left] <;> omega
  | false =>
    have hcloser := haccepts hv hready
    rcases hl with hl | hl <;>
      simp only [adp_next, CoreMemToHBM.next, hbmReqFire, hv, hready, hl, Bool.and_false, Bool.false_eq_true, if_false,
        left] <;> omega

theorem closer_response (hs : Served W S l m w w' g g') (hl : l.adp.state = .rdresp ∨ l.adp.state = .wrresp) :
    left W S w' g' (CpuLane.next l x m).adp.state < left W S w g l.adp.state := by
  obtain ⟨-, hanswers, hwait, -⟩ := hs
  have hrr : hbmRespReady l.adp = true := by rcases hl with hl | hl <;> simp [hbmRespReady, hl]
  cases hv : m.respValid with
  | true =>
    rcases hl with hl | hl
    · simp only [adp_next, CoreMemToHBM.next, hbmRespFire, hrr, hv, hl, Bool.and_self, if_true, left]
      split_ifs <;> simp only <;> omega
    · simp only [adp_next, CoreMemToHBM.next, hbmRespFire, hrr, hv, hl, Bool.and_self, if_true, left]
      omega
  | false =>
    have hcloser := hanswers hrr hv
    rcases hl with hl | hl <;>
      simp only [adp_next, CoreMemToHBM.next, hbmRespFire, hrr, hv, hl, Bool.false_and, Bool.false_eq_true, if_false,
        left] <;> omega

/-- a lane at rest issues the access of its instruction -/
theorem closer_idle (hc : Coupled l) (hr : l.core.running = true) (hh : l.core.halted = false) (hs : Served W S l m w w' g g')
    (hl : l.adp.state = .idle) (hn : ¬ Advances l x) :
    left W S w' g' (CpuLane.next l x m).adp.state < left W S w g l.adp.state := by
  have hm : l.core.memWait = false := Bool.eq_false_iff.2 fun hm => (hc.waits hm).2.2 hl
  have hload : l.core.loadWait = false := hc.noLoad
  have hhalt : isHalt (inst l.core) = false := Bool.eq_false_iff.2 fun hhalt => hn (.inr (by
    rw [RiscVICore.next_execute hr hh, RiscVICore.execute_halt hload hm hhalt]
    rfl))
  have hmem : isMem (inst l.core) = true := by
    rw [← Bool.not_eq_false]
    exact fun hmem => hn (.inl (by simp [retires, hr, hh, hload, hm, hhalt, hmem]))
  have hnext : (CpuLane.next l x m).adp.state = .rdreq := by
    simp [adp_next, CoreMemToHBM.next, wordReqFire, wordReqReady, wordOut, memReqValid, capture, hl, hr, hh, hload, hm, hmem]
  have hwait := hs.wait_le
  simp only [hl, hnext, left]
  omega

/-- **Every cycle completes the instruction or brings it closer.** -/
theorem closer (hc : Coupled l) (hr : l.core.running = true) (hh : l.core.halted = false) (hs : Served W S l m w w' g g')
    (hn : ¬ Advances l x) : left W S w' g' (CpuLane.next l x m).adp.state < left W S w g l.adp.state := by
  cases hl : l.adp.state with
  | idle => exact hl ▸ closer_idle hc hr hh hs hl hn
  | rdreq => exact hl ▸ closer_request hs (.inl hl)
  | wrreq => exact hl ▸ closer_request hs (.inr hl)
  | rdresp => exact hl ▸ closer_response hs (.inl hl)
  | wrresp => exact hl ▸ closer_response hs (.inr hl)
  | rsp =>
    -- the core takes the answer at once
    have hload : l.core.loadWait = false := hc.noLoad
    have hm : l.core.memWait = true := by
      rw [← Bool.not_eq_false]
      exact fun hm => absurd ((hc.rests hm).symm.trans hl) (by decide)
    refine absurd (.inl ?_) hn
    simp [retires, memRespFire, memRespReady, coreIn, wordRespValid, hr, hh, hload, hm, hl]

/-! ## On a line memory -/

section Lane

variable {L : Type*} [DecidableEq L] {idx : BitVec 64 → L} {s : Sys L} {i : CpuLane.In L}

/-- the memory holds the lane up -/
def stalled (s : Sys L) (i : CpuLane.In L) : Bool :=
  hbmReqValid s.own.adp && !i.grant || hbmRespReady s.own.adp && !i.deliver

/-- one item for every cycle in which it does not -/
def unstalled (s : Sys L) (i : CpuLane.In L) : List Unit := if stalled s i then [] else [()]

/-- a lane that waits for a response exactly while it is owed one -/
structure Attached (s : Sys L) : Prop where
  coupled : Coupled s.own
  owed : s.owed.isSome = hbmRespReady s.own.adp

theorem attached_step (h : Attached s) (i : CpuLane.In L) : Attached (step idx s i) where
  coupled := Loads.coupled_step (i := ⟨i.ext, portIn s i⟩) h.coupled
  owed := CpuLane.waiting.step (MemReq.access idx) i h.owed

theorem attached_run (m : L → BitVec 512) (ins : List (CpuLane.In L)) :
    Attached (run (step idx) ⟨CpuLane.reset, m, none⟩ ins) :=
  run_inv Attached (fun _ i h _ => attached_step h i) ⟨Loads.coupled_run [], rfl⟩ (always_true _ _ ins)

theorem running_step (hr : s.own.core.running = true) (i : CpuLane.In L) : (step idx s i).own.core.running = true := by
  have hrunning : (step idx s i).own.core.running = (i.ext.start || s.own.core.running) := rfl
  rw [hrunning, hr, Bool.or_true]

omit [DecidableEq L] in
/-- a memory that does not hold the lane up serves it at once -/
theorem served_of_unstalled (h : Attached s) (hs : stalled s i = false) : Served 0 2 s.own (portIn s i) 0 0 0 0 := by
  obtain ⟨hgrant, hdeliver⟩ := Bool.or_eq_false_iff.1 hs
  refine ⟨fun hv hready => ?_, fun hrr hvalid => ?_, le_rfl, by decide⟩
  · have hrests : hbmRespReady s.own.adp = false := by
      cases hst : s.own.adp.state <;> simp [hbmReqValid, hbmRespReady, hst] at hv ⊢
    have hnone : s.owed = none := Option.not_isSome_iff_eq_none.1 (by rw [h.owed, hrests]; exact Bool.false_ne_true)
    rw [hv, Bool.true_and, Bool.not_eq_false'] at hgrant
    simp [portIn, hnone, hgrant] at hready
  · have hsome : s.owed.isSome = true := h.owed.trans hrr
    rw [hrr, Bool.true_and, Bool.not_eq_false'] at hdeliver
    simp [portIn, hsome, hdeliver] at hvalid

/-- an adapter that is held up stays where it is -/
theorem state_of_stalled (hs : stalled s i = true) : (step idx s i).own.adp.state = s.own.adp.state := by
  have hadp : (step idx s i).own.adp = CoreMemToHBM.next s.own.adp ⟨wordOut s.own, portIn s i⟩ := rfl
  rw [hadp]
  cases hst : s.own.adp.state <;>
    simp [stalled, hbmReqValid, hbmRespReady, hst, CoreMemToHBM.next, hbmReqFire, hbmRespFire, portIn] at hs ⊢ <;>
    simp [hs, hst]

theorem pace_step (h : Attached s) (hr : s.own.core.running = true) (hh : s.own.core.halted = false) :
    (step idx s i).own.core.halted = true ∨ left 0 2 0 0 (step idx s i).own.adp.state + (unstalled s i).length ≤
      left 0 2 0 0 s.own.adp.state + (5 + 1) * (retired s i).length := by
  by_cases hn : Advances s.own i.ext
  · rcases hn with hret | hhalt
    · have hbound : left 0 2 0 0 (step idx s i).own.adp.state ≤ 5 := left_le le_rfl (by decide) _
      have hone : (unstalled s i).length ≤ 1 := by
        unfold unstalled
        split_ifs <;> simp
      have hshown : (retired s i).length = 1 := by simp [retired, StallInsensitive.retired, hret]
      rw [hshown]
      omega
    · exact .inl hhalt
  · refine .inr (Nat.le_add_right_of_le ?_)
    cases hs : stalled s i with
    | true => simp [unstalled, hs, state_of_stalled hs]
    | false =>
      have hcloser : left 0 2 0 0 (step idx s i).own.adp.state < left 0 2 0 0 s.own.adp.state :=
        closer h.coupled hr hh (served_of_unstalled h hs) hn
      rw [unstalled, hs]
      exact hcloser

/-- **The lane gets on.** Only its memory can hold it up. -/
theorem lane_paced (n : ℕ) (h : Attached s) (hr : s.own.core.running = true) {ins : List (CpuLane.In L)}
    (hlen : n * 6 ≤ (collect (step idx) unstalled s ins).length) :
    (run (step idx) s ins).own.core.halted = true ∨ n ≤ (collect (step idx) retired s ins).length :=
  paced (P := fun s : Sys L => s.own.core.halted = true) (fun s : Sys L => Attached s ∧ s.own.core.running = true)
    (fun s => left 0 2 0 0 s.own.adp.state) (fun _ i h => ⟨attached_step h.1 i, running_step h.2 i⟩)
    (fun _ _ hh => (RiscVICore.next_halted hh).2.1) (fun s => left_le le_rfl (by decide) s.own.adp.state)
    (fun _ _ h hh => pace_step h.1 h.2 (Bool.eq_false_iff.2 hh)) n ⟨h, hr⟩ hlen

end Lane

end AegisSoc.CpuPace
