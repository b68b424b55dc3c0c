/-
The core on the word port is stall-insensitive.

A run is a boot phase (program words are written, `start` is low), one cycle with `start`, and then any number of
cycles in which the image is not rewritten before the core halts. The word port does what it likes in every cycle: the
core takes a response only while it waits for one, so nothing has to be assumed about the environment.

Results:
- `follows_step`: in every cycle the registers stand at an instruction boundary of the one-instruction-per-step machine
  `exec`, or between the request and the response of its next memory instruction;
- `stall_insensitive`: over whole runs, the retired states, the accepted requests and the responses taken are those of
  `exec` fed with the data returned, in program order; a waiting request does not change;
- `frozen`: once halted, with no request outstanding, pc and registers never change and no request is made.
-/
import AegisSoc.Cpu.RiscVICore

namespace AegisSoc.StallInsensitive

open Machine RiscVICore

/-! ## What a run shows -/

abbrev step : Reg → In → Reg := next true

/-- the architectural state at an instruction boundary reached in this cycle -/
def retired (r : Reg) (i : In) : List Arch := if retires true r i then [arch (step r i)] else []

/-- the request accepted in this cycle -/
def requests (r : Reg) (i : In) : List WordMemReq := if memReqFire true r i then [memReq r] else []

/-- the response taken in this cycle -/
def responses (r : Reg) (i : In) : List (BitVec 32) := if memRespFire r i then [i.memRespBits] else []

/-- the data returned to each retired instruction; an instruction without a memory access does not read it -/
def data (r : Reg) (i : In) : List (BitVec 32) := if retires true r i then [i.memRespBits] else []

/-- the image is not rewritten before the core halts -/
def Fixed (r : Reg) (i : In) : Prop := r.halted = false → i.progWe = false

instance (r : Reg) (i : In) : Decidable (Fixed r i) := inferInstanceAs (Decidable (_ → _))

/-! ## The machine that executes one instruction per step -/

/-- the architectural state at start -/
def boot : Arch := ⟨0, fun _ => 0⟩

section Isa

variable (img : BitVec 8 → BitVec 32)

/-- the state of the machine after instructions that were returned `ds` -/
def isa (ds : List (BitVec 32)) : Arch := run (exec img) boot ds

/-- its state after each instruction -/
def isaRetired (ds : List (BitVec 32)) : List Arch := collect (exec img) (fun a d => [exec img a d]) boot ds

/-- its requests, one for each load or store -/
def isaRequests (ds : List (BitVec 32)) : List WordMemReq :=
  collect (exec img) (fun a _ => if isMem (fetch img a.pc) then [request (fetch img a.pc) a] else []) boot ds

/-- the data its loads and stores are returned -/
def isaResponses (ds : List (BitVec 32)) : List (BitVec 32) :=
  collect (exec img) (fun a d => if isMem (fetch img a.pc) then [d] else []) boot ds

/-- none of the instructions is the halt sentinel -/
def NoHalt (ds : List (BitVec 32)) : Prop :=
  Always (exec img) (fun a _ => isHalt (fetch img a.pc) = false) boot ds

end Isa

/-- register 0 is never written -/
theorem setReg_zero (rf : BitVec 5 → BitVec 32) (r : BitVec 5) (v : BitVec 32) : setReg rf r v 0 = rf 0 := by
  unfold setReg
  split_ifs with h
  · simp only [bne_iff_ne, ne_eq] at h
    exact Function.update_of_ne (fun h0 => h h0.symm) _ _
  · rfl

theorem exec_zero (img : BitVec 8 → BitVec 32) (a : Arch) (d : BitVec 32) : (exec img a d).rf 0 = a.rf 0 := by
  simp only [exec]
  split_ifs with hl hs hw
  · exact setReg_zero _ _ _
  · rfl
  · simp only [wbEn, Bool.and_eq_true, bne_iff_ne, ne_eq] at hw
    exact Function.update_of_ne (fun h0 => hw.2 h0.symm) _ _
  · rfl

theorem isa_zero (img : BitVec 8 → BitVec 32) (ds : List (BitVec 32)) : (isa img ds).rf 0 = 0 :=
  run_inv (fun a : Arch => a.rf 0 = 0) (fun a d h _ => (exec_zero img a d).trans h) rfl (always_true _ _ ds)

/-! ## The core follows it -/

/-- the core has issued the request of the memory instruction at `a` and waits for its response: the pc is already that
of the next instruction -/
structure Waits (img : BitVec 8 → BitVec 32) (r : Reg) (a : Arch) : Prop where
  isMem : isMem (fetch img a.pc) = true
  pc : r.pc = nextPc (fetch img a.pc) a
  rf : r.rf = a.rf
  memRd : r.memRd = rd (fetch img a.pc)
  memWr : r.memWr = isStore (fetch img a.pc)
  ldByte : r.ldByte = byteOp (fetch img a.pc)
  ldHalf : r.ldHalf = halfOp (fetch img a.pc)
  ldSigned : r.ldSigned = signedOp (fetch img a.pc)

structure Follows (img : BitVec 8 → BitVec 32) (r : Reg) (ds : List (BitVec 32)) : Prop where
  running : r.running = true
  image : r.halted = false → r.imem = img
  noLoad : r.loadWait = false
  noHalt : NoHalt img ds
  boundary : r.memWait = false → arch r = isa img ds
  waiting : r.memWait = true → r.halted = false ∧ Waits img r (isa img ds)
  sentinel : r.halted = true → isHalt (fetch img (isa img ds).pc) = true

section Step

variable {img : BitVec 8 → BitVec 32} {r : Reg} {i : In} {ds : List (BitVec 32)}

/-- the response completes the waiting instruction -/
theorem Waits.exec {a : Arch} (h : Waits img r a) (d : BitVec 32) :
    (⟨r.pc, if !r.memWr then setReg r.rf r.memRd (mres r d) else r.rf⟩ : Arch) = exec img a d := by
  have hmem := h.isMem
  simp only [RiscVICore.isMem, Bool.or_eq_true] at hmem
  cases hl : isLoad (fetch img a.pc) with
  | true =>
    simp [RiscVICore.exec, h.pc, h.rf, h.memRd, h.memWr, mres, h.ldByte, h.ldHalf, h.ldSigned, hl, isStore_of_isLoad hl]
  | false =>
    have hs : isStore (fetch img a.pc) = true := by simpa [hl] using hmem
    simp [RiscVICore.exec, h.pc, h.rf, h.memWr, hl, hs]

theorem Follows.inst (h : Follows img r ds) (hh : r.halted = false) (hm : r.memWait = false) :
    inst r = fetch img (isa img ds).pc := by
  rw [RiscVICore.inst, h.image hh, ← h.boundary hm]
  rfl

theorem isa_snoc (ds : List (BitVec 32)) (d : BitVec 32) : isa img (ds ++ [d]) = exec img (isa img ds) d :=
  run_snoc _ _ _ _

theorem noHalt_snoc (h : NoHalt img ds) (hh : isHalt (fetch img (isa img ds).pc) = false) (d : BitVec 32) :
    NoHalt img (ds ++ [d]) :=
  (always_append _ _ _ _ _).2 ⟨h, hh, trivial⟩

theorem follows_takeResp (h : Follows img r ds) (hm : r.memWait = true) (d : BitVec 32) :
    Follows img (takeResp r d) (ds ++ [d]) := by
  obtain ⟨hh, hw⟩ := h.waiting hm
  refine ⟨h.running, fun _ => h.image hh, h.noLoad, noHalt_snoc h.noHalt (isHalt_of_isMem hw.isMem) d, fun _ => ?_,
    fun hc => absurd hc Bool.false_ne_true, fun hc => absurd (hh.symm.trans hc) Bool.false_ne_true⟩
  rw [isa_snoc, ← hw.exec]
  rfl

theorem follows_issue (h : Follows img r ds) (hh : r.halted = false) (hm : r.memWait = false)
    (hmem : RiscVICore.isMem (RiscVICore.inst r) = true) : Follows img (issue r) ds := by
  have hinst := h.inst hh hm
  have harch := h.boundary hm
  refine ⟨h.running, fun _ => h.image hh, h.noLoad, h.noHalt, fun hc => absurd hc.symm Bool.false_ne_true,
    fun _ => ⟨hh, ?_⟩, fun hc => absurd (hh.symm.trans hc) Bool.false_ne_true⟩
  rw [← harch]
  rw [← harch] at hinst
  exact
    { isMem := hinst ▸ hmem
      pc := congrArg (fun x => nextPc x (arch r)) hinst
      rf := rfl
      memRd := congrArg rd hinst
      memWr := congrArg isStore hinst
      ldByte := congrArg byteOp hinst
      ldHalf := congrArg halfOp hinst
      ldSigned := congrArg signedOp hinst }

theorem follows_compute (h : Follows img r ds) (hh : r.halted = false) (hm : r.memWait = false)
    (hhalt : isHalt (RiscVICore.inst r) = false) (hmem : RiscVICore.isMem (RiscVICore.inst r) = false) (d : BitVec 32) :
    Follows img (compute r) (ds ++ [d]) := by
  have hinst := h.inst hh hm
  have harch := h.boundary hm
  have hls : isLoad (RiscVICore.inst r) = false ∧ isStore (RiscVICore.inst r) = false := by
    simpa [RiscVICore.isMem] using hmem
  refine ⟨h.running, fun _ => h.image hh, h.noLoad, noHalt_snoc h.noHalt (hinst ▸ hhalt) d, fun _ => ?_, fun hc => ?_,
    fun hc => ?_⟩
  · rw [isa_snoc, RiscVICore.exec, ← hinst, ← harch, hls.1, hls.2]
    rfl
  · exact absurd (hm.symm.trans hc) Bool.false_ne_true
  · exact absurd (hh.symm.trans hc) Bool.false_ne_true

theorem follows_halt (h : Follows img r ds) (hh : r.halted = false) (hm : r.memWait = false)
    (hhalt : isHalt (RiscVICore.inst r) = true) : Follows img (halt r) ds :=
  ⟨h.running, fun hc => absurd hc.symm Bool.false_ne_true, h.noLoad, h.noHalt, fun _ => h.boundary hm,
    fun hc => absurd (hm.symm.trans hc) Bool.false_ne_true, fun _ => h.inst hh hm ▸ hhalt⟩

theorem Follows.halted (h : Follows img r ds) (hh : r.halted = true) : r.memWait = false := by
  cases hm : r.memWait with
  | false => rfl
  | true => exact absurd ((h.waiting hm).1.symm.trans hh) Bool.false_ne_true

/-- the four things a cycle can do: wait (or halt, or stay halted), issue a request, take a response, compute -/
theorem cycle_cases (h : Follows img r ds) (hf : Fixed r i) :
    (retires true r i = false ∧ memReqFire true r i = false ∧ memRespFire r i = false ∧ arch (step r i) = arch r ∧
      (step r i).memWait = r.memWait ∧ Follows img (step r i) ds) ∨
    (retires true r i = false ∧ memReqFire true r i = true ∧ memRespFire r i = false ∧ r.halted = false ∧
      r.memWait = false ∧ RiscVICore.isMem (RiscVICore.inst r) = true ∧ step r i = issue r) ∨
    (retires true r i = true ∧ memReqFire true r i = false ∧ memRespFire r i = true ∧ r.memWait = true ∧
      step r i = takeResp r i.memRespBits) ∨
    (retires true r i = true ∧ memReqFire true r i = false ∧ memRespFire r i = false ∧ r.halted = false ∧
      r.memWait = false ∧ isHalt (RiscVICore.inst r) = false ∧ RiscVICore.isMem (RiscVICore.inst r) = false ∧
      step r i = compute r) := by
  cases hh : r.halted with
  | true =>
    have hm := h.halted hh
    obtain ⟨harch, hhalt, hmem, hload, -⟩ := @next_halted true r i hh
    refine .inl ⟨by simp [retires, hh], by simp [memReqFire, memReqValid, hh], by simp [memRespFire, memRespReady, hm],
      harch, hmem, ?_⟩
    refine ⟨by simp [RiscVICore.next, h.running], fun hc => ?_, hload.trans h.noLoad, h.noHalt,
      fun _ => harch.trans (h.boundary hm), fun hc => ?_, fun _ => h.sentinel hh⟩
    · exact absurd (hc.symm.trans hhalt) Bool.false_ne_true
    · exact absurd (hm.symm.trans (hmem.symm.trans hc)) Bool.false_ne_true
  | false =>
    rw [show step r i = execute true r i from next_running h.running hh (hf hh)]
    cases hm : r.memWait with
    | true =>
      cases hv : i.memRespValid with
      | true =>
        refine .inr (.inr (.inl ⟨?_, ?_, ?_, rfl, execute_takeResp h.noLoad hm hv⟩)) <;>
          simp [retires, memReqFire, memReqValid, memRespFire, memRespReady, h.running, hh, h.noLoad, hm, hv]
      | false =>
        have hexec : execute true r i = r := execute_hold h.noLoad hm hv
        refine .inl ⟨?_, ?_, ?_, ?_, ?_, ?_⟩
        · simp [retires, memRespFire, h.noLoad, hm, hv]
        · simp [memReqFire, memReqValid, hm]
        · simp [memRespFire, hv]
        · rw [hexec]
        · rw [hexec, hm]
        · rw [hexec]; exact h
    | false =>
      cases hhalt : isHalt (RiscVICore.inst r) with
      | true =>
        have hmem : RiscVICore.isMem (RiscVICore.inst r) = false := by
          cases hmem : RiscVICore.isMem (RiscVICore.inst r) with
          | false => rfl
          | true => exact absurd ((isHalt_of_isMem hmem).symm.trans hhalt) Bool.false_ne_true
        have hexec : execute true r i = halt r := execute_halt h.noLoad hm hhalt
        refine .inl ⟨?_, ?_, ?_, ?_, ?_, ?_⟩
        · simp [retires, h.noLoad, hm, hhalt]
        · simp [memReqFire, memReqValid, hmem]
        · simp [memRespFire, memRespReady, hm]
        · rw [hexec]; rfl
        · rw [hexec]; exact hm
        · rw [hexec]; exact follows_halt h hh hm hhalt
      | false =>
        cases hmem : RiscVICore.isMem (RiscVICore.inst r) with
        | true =>
          cases hr : i.memReqReady with
          | true =>
            have hf : memReqFire true r i = true := by
              simp [memReqFire, memReqValid, h.running, hh, h.noLoad, hm, hmem, hr]
            refine .inr (.inl ⟨?_, hf, ?_, rfl, rfl, rfl, execute_issue hf⟩)
            · simp [retires, h.noLoad, hm, hmem]
            · simp [memRespFire, memRespReady, hm]
          | false =>
            have hf : memReqFire true r i = false := by simp [memReqFire, hr]
            have hexec : execute true r i = r := execute_refused h.noLoad hm hmem hf
            refine .inl ⟨?_, hf, ?_, ?_, ?_, ?_⟩
            · simp [retires, h.noLoad, hm, hmem]
            · simp [memRespFire, memRespReady, hm]
            · rw [hexec]
            · rw [hexec, hm]
            · rw [hexec]; exact h
        | false =>
          refine .inr (.inr (.inr ⟨?_, ?_, ?_, rfl, rfl, rfl, rfl, execute_compute h.noLoad hm hhalt hmem⟩)) <;>
            simp [retires, memReqFire, memReqValid, memRespFire, memRespReady, h.running, hh, h.noLoad, hm, hhalt, hmem]

/-- **One cycle.** The core stays between two boundaries of the machine or moves on to the next one. -/
theorem follows_step (h : Follows img r ds) (hf : Fixed r i) : Follows img (step r i) (ds ++ data r i) := by
  rcases cycle_cases h hf with ⟨hret, -, -, -, -, hstep⟩ | ⟨hret, -, -, hh, hm, hmem, hstep⟩ | ⟨hret, -, -, hm, hstep⟩ |
      ⟨hret, -, -, hh, hm, hhalt, hmem, hstep⟩
  · simpa [data, hret] using hstep
  · rw [hstep]
    simpa [data, hret] using follows_issue h hh hm hmem
  · rw [hstep, data, if_pos hret]
    exact follows_takeResp h hm _
  · rw [hstep, data, if_pos hret]
    exact follows_compute h hh hm hhalt hmem _

/-- the request of the instruction that waits for its response -/
def pending (img : BitVec 8 → BitVec 32) (r : Reg) (ds : List (BitVec 32)) : List WordMemReq :=
  if r.memWait then [request (fetch img (isa img ds).pc) (isa img ds)] else []

theorem isaRetired_step (h : Follows img r ds) (hf : Fixed r i) :
    isaRetired img (ds ++ data r i) = isaRetired img ds ++ retired r i := by
  have hnext := follows_step h hf
  cases hret : retires true r i with
  | false => simp [data, retired, hret]
  | true =>
    have hwait : (step r i).memWait = false := by
      rcases cycle_cases h hf with ⟨hc, -⟩ | ⟨hc, -⟩ | ⟨-, -, -, -, hstep⟩ | ⟨-, -, -, -, hm, -, -, hstep⟩
      · exact absurd (hc.symm.trans hret) Bool.false_ne_true
      · exact absurd (hc.symm.trans hret) Bool.false_ne_true
      · rw [hstep]; rfl
      · rw [hstep]; exact hm
    have hb := hnext.boundary hwait
    simp only [data, retired, hret, ite_true] at hb ⊢
    rw [isaRetired, collect_snoc, hb, isa_snoc]
    rfl

theorem isaResponses_step (h : Follows img r ds) (hf : Fixed r i) :
    isaResponses img (ds ++ data r i) = isaResponses img ds ++ responses r i := by
  have hsnoc : ∀ d, isaResponses img (ds ++ [d]) = isaResponses img ds ++
      if RiscVICore.isMem (fetch img (isa img ds).pc) then [d] else [] := fun d => collect_snoc _ _ _ _ _
  rcases cycle_cases h hf with ⟨hret, -, hresp, -⟩ | ⟨hret, -, hresp, -⟩ | ⟨hret, -, hresp, hm, -⟩ |
      ⟨hret, -, hresp, hh, hm, -, hmem, -⟩
  · simp [data, responses, hret, hresp]
  · simp [data, responses, hret, hresp]
  · have hw := (h.waiting hm).2.isMem
    simp [data, responses, hret, hresp, hsnoc, hw]
  · have hw := hmem
    rw [h.inst hh hm] at hw
    simp [data, responses, hret, hresp, hsnoc, hw]

theorem isaRequests_step (h : Follows img r ds) (hf : Fixed r i) :
    isaRequests img (ds ++ data r i) ++ pending img (step r i) (ds ++ data r i) =
      isaRequests img ds ++ pending img r ds ++ requests r i := by
  have hsnoc : ∀ d, isaRequests img (ds ++ [d]) = isaRequests img ds ++
      if RiscVICore.isMem (fetch img (isa img ds).pc) then [request (fetch img (isa img ds).pc) (isa img ds)] else [] :=
    fun d => collect_snoc _ _ _ _ _
  rcases cycle_cases h hf with ⟨hret, hreq, -, -, hwait, -⟩ | ⟨hret, hreq, -, hh, hm, hmem, hstep⟩ |
      ⟨hret, hreq, -, hm, hstep⟩ | ⟨hret, hreq, -, hh, hm, -, hmem, hstep⟩
  · simp [data, requests, pending, hret, hreq, hwait]
  · have hq : memReq r = request (fetch img (isa img ds).pc) (isa img ds) := by
      rw [memReq, h.inst hh hm, h.boundary hm]
    simp [data, requests, pending, hret, hreq, hm, hstep, issue, hq]
  · have hw := (h.waiting hm).2.isMem
    simp [data, requests, pending, hret, hreq, hm, hstep, takeResp, hsnoc, hw]
  · have hw := hmem
    rw [h.inst hh hm] at hw
    simp [data, requests, pending, hret, hreq, hm, hstep, compute, hsnoc, hw]

/-- a request that is not accepted stays, with the same payload -/
theorem request_stable (hf : Fixed r i) (hv : memReqValid true r = true)
    (hr : i.memReqReady = false) : memReqValid true (step r i) = true ∧ memReq (step r i) = memReq r := by
  simp only [memReqValid, Bool.and_eq_true, Bool.not_eq_true', Bool.and_true] at hv
  obtain ⟨⟨⟨⟨hrun, hh⟩, hload⟩, hm⟩, hmem⟩ := hv
  have hstep : step r i = r := by
    rw [show step r i = execute true r i from next_running hrun hh (hf hh)]
    exact execute_refused hload hm hmem (by simp [memReqFire, hr])
  rw [hstep]
  exact ⟨by simp [memReqValid, hrun, hh, hload, hm, hmem], rfl⟩

/-- only the port can hold a running core up -/
theorem progress (h : Follows img r ds) (hf : Fixed r i) (hh : r.halted = false) :
    retires true r i = true ∨ memReqFire true r i = true ∨ (step r i).halted = true ∨
      (memReqValid true r = true ∧ i.memReqReady = false) ∨ (r.memWait = true ∧ i.memRespValid = false) := by
  have hstep : step r i = execute true r i := next_running h.running hh (hf hh)
  cases hm : r.memWait with
  | true =>
    cases hv : i.memRespValid with
    | true => exact .inl (by simp [retires, h.running, hh, h.noLoad, hm, memRespFire, memRespReady, hv])
    | false => exact .inr (.inr (.inr (.inr ⟨rfl, rfl⟩)))
  | false =>
    cases hhalt : isHalt (RiscVICore.inst r) with
    | true =>
      refine .inr (.inr (.inl ?_))
      rw [hstep, execute_halt h.noLoad hm hhalt]
      rfl
    | false =>
      cases hmem : RiscVICore.isMem (RiscVICore.inst r) with
      | true =>
        have hv : memReqValid true r = true := by simp [memReqValid, h.running, hh, h.noLoad, hm, hmem]
        cases hr : i.memReqReady with
        | true => exact .inr (.inl (by simp [memReqFire, hv, hr]))
        | false => exact .inr (.inr (.inr (.inl ⟨hv, rfl⟩)))
      | false => exact .inl (by simp [retires, h.running, hh, h.noLoad, hm, hhalt, hmem])

end Step

/-! ## Whole runs -/

/-- **A halted core is frozen**, whatever its inputs. -/
theorem frozen {r : Reg} (hh : r.halted = true) (more : List In) :
    arch (run step r more) = arch r ∧ (run step r more).halted = true ∧ memReqValid true (run step r more) = false := by
  have hinv : arch (run step r more) = arch r ∧ (run step r more).halted = true :=
    run_inv (fun r' : Reg => arch r' = arch r ∧ r'.halted = true)
      (fun r' i h _ => ⟨(next_halted h.2).1.trans h.1, (next_halted h.2).2.1⟩) ⟨rfl, hh⟩ (always_true _ _ _)
  exact ⟨hinv.1, hinv.2, by simp [memReqValid, hinv.2]⟩

/-- a core that has not been started: only the image has changed since reset -/
def Unstarted (r : Reg) : Prop := r = { reset with imem := r.imem }

theorem unstarted_step {ext : Bool} {r : Reg} {i : In} (h : Unstarted r) (hi : i.start = false) :
    Unstarted (RiscVICore.next ext r i) := by
  have hrun : r.running = false := by rw [h]; rfl
  unfold Unstarted
  simp only [RiscVICore.next, hrun, hi, Bool.false_and, Bool.false_eq_true, ite_false, Bool.or_self]
  rw [h]
  rfl

/-- before `start` only the image changes -/
theorem unstarted_run {ext : Bool} {load : List In} (h : ∀ i ∈ load, i.start = false) {r : Reg} (hr : Unstarted r) :
    Unstarted (run (RiscVICore.next ext) r load) := by
  induction load generalizing r with
  | nil => exact hr
  | cons i load ih =>
    exact ih (fun j hj => h j (List.mem_cons_of_mem _ hj)) (unstarted_step hr (h i List.mem_cons_self))

/-- the start cycle leaves a running core at the first boundary -/
theorem follows_start {r : Reg} {go : In} (h : Unstarted r) (hgo : go.start = true) :
    Follows (step r go).imem (step r go) [] := by
  rw [h]
  constructor <;> simp [RiscVICore.next, reset, hgo, NoHalt, isa, boot, arch]

/-- the lists a run shows, against those of the machine -/
theorem follows_run {img : BitVec 8 → BitVec 32} {r : Reg} {ds : List (BitVec 32)} (h : Follows img r ds)
    {exe : List In} (hf : Always step Fixed r exe) :
    Follows img (run step r exe) (ds ++ collect step data r exe) ∧
    isaRetired img (ds ++ collect step data r exe) = isaRetired img ds ++ collect step retired r exe ∧
    isaResponses img (ds ++ collect step data r exe) = isaResponses img ds ++ collect step responses r exe ∧
    isaRequests img (ds ++ collect step data r exe) ++ pending img (run step r exe) (ds ++ collect step data r exe) =
      isaRequests img ds ++ pending img r ds ++ collect step requests r exe := by
  induction exe generalizing r ds with
  | nil => simpa using h
  | cons i exe ih =>
    obtain ⟨h1, h2, h3, h4⟩ := ih (follows_step h hf.1) hf.2
    simp only [List.append_assoc] at h1 h2 h3 h4
    simp only [collect_cons, run_cons]
    refine ⟨h1, ?_, ?_, ?_⟩
    · rw [h2, isaRetired_step h hf.1, List.append_assoc]
    · rw [h3, isaResponses_step h hf.1, List.append_assoc]
    · rw [h4, ← List.append_assoc, isaRequests_step h hf.1]
      simp only [List.append_assoc]

/-- what the cycles `exe` of a core that starts from `r₁` show, whatever the word port does -/
structure Insensitive (r₁ : Reg) (exe : List In) : Prop where
  /-- the states at instruction boundaries are those of the machine fed with the data returned -/
  retired : collect step retired r₁ exe = isaRetired r₁.imem (collect step data r₁ exe)
  /-- every load and store makes one request, in program order; the last one may wait for its response -/
  requests : collect step requests r₁ exe = isaRequests r₁.imem (collect step data r₁ exe) ++
    pending r₁.imem (run step r₁ exe) (collect step data r₁ exe)
  /-- the responses taken are those the loads and stores were returned, in order -/
  responses : collect step responses r₁ exe = isaResponses r₁.imem (collect step data r₁ exe)
  /-- nothing is executed past the halt sentinel -/
  noHalt : NoHalt r₁.imem (collect step data r₁ exe)
  /-- outside a memory access the core stands at the last boundary -/
  boundary : (run step r₁ exe).memWait = false → arch (run step r₁ exe) = isa r₁.imem (collect step data r₁ exe)
  /-- no register changes between two boundaries -/
  registers : (run step r₁ exe).rf = (isa r₁.imem (collect step data r₁ exe)).rf
  zero : (run step r₁ exe).rf 0 = 0
  /-- a request that is not accepted is made again, unchanged -/
  stable : ∀ i, Fixed (run step r₁ exe) i → memReqValid true (run step r₁ exe) = true → i.memReqReady = false →
    memReqValid true (step (run step r₁ exe) i) = true ∧ memReq (step (run step r₁ exe) i) = memReq (run step r₁ exe)
  /-- only the port can hold the core up -/
  progress : ∀ i, Fixed (run step r₁ exe) i → (run step r₁ exe).halted = false →
    retires true (run step r₁ exe) i = true ∨ memReqFire true (run step r₁ exe) i = true ∨
      (step (run step r₁ exe) i).halted = true ∨ (memReqValid true (run step r₁ exe) = true ∧ i.memReqReady = false) ∨
      ((run step r₁ exe).memWait = true ∧ i.memRespValid = false)
  /-- the core halts at the sentinel, with no request outstanding, and is frozen from then on -/
  halted : (run step r₁ exe).halted = true →
    isHalt (fetch r₁.imem (isa r₁.imem (collect step data r₁ exe)).pc) = true ∧ (run step r₁ exe).memWait = false ∧
      ∀ more, arch (run step r₁ (exe ++ more)) = arch (run step r₁ exe) ∧
        (run step r₁ (exe ++ more)).halted = true ∧ memReqValid true (run step r₁ (exe ++ more)) = false

/-- **The core is stall-insensitive.** For every program image, loaded before `start` and not rewritten before the core
halts, and every behaviour of the word port. -/
theorem stall_insensitive (load : List In) (go : In) (exe : List In) (hload : ∀ i ∈ load, i.start = false)
    (hgo : go.start = true) (hf : Always step Fixed (run step reset (load ++ [go])) exe) :
    Insensitive (run step reset (load ++ [go])) exe := by
  have hboot : Unstarted (run step reset load) := unstarted_run hload rfl
  have hstart := follows_start hboot hgo
  rw [← run_snoc step] at hstart
  obtain ⟨h, hret, hresp, hreq⟩ := follows_run hstart hf
  have hpending : pending (run step reset (load ++ [go])).imem (run step reset (load ++ [go])) [] = [] := by
    rw [run_snoc, hboot]
    simp [pending, RiscVICore.next, reset]
  rw [List.nil_append] at h hret hresp hreq
  have hrf : (run step (run step reset (load ++ [go])) exe).rf =
      (isa (run step reset (load ++ [go])).imem (collect step data (run step reset (load ++ [go])) exe)).rf := by
    cases hm : (run step (run step reset (load ++ [go])) exe).memWait with
    | false => rw [← h.boundary hm]; rfl
    | true => exact (h.waiting hm).2.rf
  exact
    { retired := hret.symm
      requests := by rw [hreq, hpending]; rfl
      responses := hresp.symm
      noHalt := h.noHalt
      boundary := h.boundary
      registers := hrf
      zero := by rw [hrf, isa_zero]
      stable := fun i hfi hv hr => request_stable hfi hv hr
      progress := fun i hfi hh => StallInsensitive.progress h hfi hh
      halted := fun hh => ⟨h.sentinel hh, h.halted hh, fun more => by rw [run_append]; exact frozen hh more⟩ }

/-- `sb x1, 0(x0)`, `lw x2, 0(x0)`, halt -/
def demoLoad : List In :=
  [⟨true, 0, 0x00100023, false, false, false, 0⟩, ⟨true, 1, 0x00002103, false, false, false, 0⟩,
    ⟨true, 2, 0xffffffff, false, false, false, 0⟩]

def demoGo : In := ⟨false, 0, 0, true, false, false, 0⟩

/-- the store is accepted late and answered late, the load at once -/
def demoExe : List In :=
  [⟨false, 0, 0, false, false, true, 1⟩, ⟨false, 0, 0, false, true, true, 2⟩, ⟨false, 0, 0, false, true, false, 3⟩,
    ⟨false, 0, 0, false, false, true, 4⟩, ⟨false, 0, 0, false, true, false, 5⟩, ⟨false, 0, 0, false, false, true, 6⟩,
    ⟨false, 0, 0, false, false, false, 7⟩]

theorem stall_insensitive_demo :
    Insensitive (run step reset (demoLoad ++ [demoGo])) demoExe ∧
      (run step reset (demoLoad ++ [demoGo] ++ demoExe)).halted = true ∧
      (run step reset (demoLoad ++ [demoGo] ++ demoExe)).rf 2 = 6 :=
  ⟨stall_insensitive demoLoad demoGo demoExe (by decide) rfl (by decide +kernel), by decide +kernel, by decide +kernel⟩

end AegisSoc.StallInsensitive
