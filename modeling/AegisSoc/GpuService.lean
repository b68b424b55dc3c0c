/-
The GPU side of the SoC gets on in every mode.

With CPU priority the prioritizer alone does not bound the wait of the GPU port: a CPU that always requests is always accepted.
The CPU of the SoC does not: between two accesses its adapter answers the core, and the stack, which has just been freed, goes
to one of the other ports in that cycle, unless it is the cycle of a refresh.
- `gap`: the cycles before the CPU leaves the stack to the others, at most;
- `gpu_closer`: every cycle brings a request of the GPU port closer, in every mode.
-/
import AegisSoc.Liveness
import AegisSoc.SimtShared

namespace AegisSoc.GpuService

open Machine AegisSoc.Top LockStep Liveness
open PortMemory hiding next
open PortClient (owed owed_eq_some)
open SplitPrioritizer (Port src maxWait wait last)
open HBM3Stack (busy lag slot lag_lt_slot tREF tPRE tACT)

variable {memMode : BitVec 2} {r : Reg} {i : In}

/-! ## The gaps that the CPU leaves -/

/-- the requests of the CPU before it leaves the stack to the others, at most -/
def cpuTurns (r : Reg) : ℕ :=
  match r.cpuAdp.state with
  | .idle => if HBM3Stack.reqReady r.split.hbm then 0 else 2
  | .rdreq => 2
  | .rdresp | .wrreq => 1
  | .wrresp | .rsp => 0

/-- the cycles of a refresh that comes before that, and of the two requests that the CPU may have ready after it -/
def refreshGap (r : Reg) : ℕ := if r.split.hbm.refCnt.toNat ≤ cpuTurns r then tREF + 2 + 2 * slot else 0

/-- the cycles before the CPU leaves the stack to the others, at most -/
def gap (r : Reg) : ℕ :=
  match r.split.hbm.state with
  | .idle => refreshGap r + slot * cpuTurns r
  | .ref => tREF + 1 - r.split.hbm.cnt.toNat + slot * cpuTurns r
  | _ => lag r.split.hbm + 1 + refreshGap r + slot * cpuTurns r

def maxGap : ℕ := tPRE + tACT + 1 + (tREF + 2 + 2 * slot) + 2 * slot

theorem cpuTurns_le (r : Reg) : cpuTurns r ≤ 2 := by
  unfold cpuTurns
  split
  · split_ifs <;> decide
  all_goals decide

theorem gap_le (r : Reg) : gap r ≤ maxGap := by
  have hturns := cpuTurns_le r
  have hlag := HBM3Stack.lag_le r.split.hbm
  have href : refreshGap r ≤ tREF + 2 + 2 * slot := by unfold refreshGap; split_ifs <;> omega
  have hmul : slot * cpuTurns r ≤ 2 * slot := by rw [Nat.mul_comm]; exact Nat.mul_le_mul_right _ hturns
  unfold gap maxGap
  split <;> omega

theorem reqReady_iff {h : HBM3Stack.Reg HBM3Stack.defaultGeometry} :
    HBM3Stack.reqReady h = true ↔ h.state = .idle ∧ h.refCnt ≠ 0 := by
  simp [HBM3Stack.reqReady]

/-- while the stack is not ready the CPU does not come back to the start of an access -/
theorem cpuTurns_next (hr : HBM3Stack.reqReady r.split.hbm = false) (hs : r.cpuAdp.state ≠ .rsp) :
    cpuTurns (next memMode r i) ≤ cpuTurns r := by
  have hle := cpuTurns_le (next memMode r i)
  have hrefused : (portIn memMode r .cpu).reqReady = false := by
    simp [portIn, SplitPrioritizer.reqReady, hr]
  cases hold : r.cpuAdp.state with
  | idle => simpa only [cpuTurns, hold, hr, Bool.false_eq_true, if_false] using hle
  | rdreq => simpa only [cpuTurns, hold] using hle
  | wrreq =>
    have hnew : (next memMode r i).cpuAdp.state = .wrreq := by
      simp [cpuAdp_next, CoreMemToHBM.next, CoreMemToHBM.hbmReqFire, hold, hrefused]
    simp only [cpuTurns, hold, hnew, le_refl]
  | rdresp =>
    have hnew : (next memMode r i).cpuAdp.state = .rdresp ∨ (next memMode r i).cpuAdp.state = .wrreq ∨
        (next memMode r i).cpuAdp.state = .rsp := by
      simp only [cpuAdp_next, CoreMemToHBM.next, hold]
      split_ifs <;> simp [hold]
    rcases hnew with hnew | hnew | hnew <;> simp [cpuTurns, hold, hnew]
  | wrresp =>
    have hnew : (next memMode r i).cpuAdp.state = .wrresp ∨ (next memMode r i).cpuAdp.state = .rsp := by
      simp only [cpuAdp_next, CoreMemToHBM.next, hold]
      split_ifs <;> simp [hold]
    rcases hnew with hnew | hnew <;> simp [cpuTurns, hold, hnew]
  | rsp => exact absurd hold hs

/-- the stack after a cycle -/
theorem stack_next : (next memMode r i).split.hbm =
    HBM3Stack.next r.split.hbm (SplitPrioritizer.hbmIn r.split (splitIn memMode r)) := rfl

theorem refreshGap_next (hcnt : (next memMode r i).split.hbm.refCnt = r.split.hbm.refCnt)
    (ht : cpuTurns (next memMode r i) ≤ cpuTurns r) : refreshGap (next memMode r i) ≤ refreshGap r := by
  rw [refreshGap, refreshGap, hcnt]
  split_ifs <;> omega

theorem gap_of_busy (hb : busy r.split.hbm = true) : gap r = lag r.split.hbm + 1 + refreshGap r + slot * cpuTurns r := by
  cases hs : r.split.hbm.state <;> simp [busy, hs] at hb <;> simp only [gap, hs]

/-- a stack that is not ready gets closer to the gap -/
theorem gap_unready (h : Reached r) (hr : HBM3Stack.reqReady r.split.hbm = false) : gap (next memMode r i) < gap r := by
  obtain ⟨⟨α, hα⟩, hp, -, hfreed⟩ := h
  have hturns : r.split.hbm.state ≠ .idle → cpuTurns (next memMode r i) ≤ cpuTurns r := fun hne =>
    cpuTurns_next hr fun hrsp => hne (hfreed hrsp)
  have hserving : busy r.split.hbm = true → r.split.hbm.state ≠ .cmd → gap (next memMode r i) < gap r := fun hb hc => by
    obtain ⟨hb', hl⟩ := HBM3Stack.lag_next r.split.hbm (SplitPrioritizer.hbmIn r.split (splitIn memMode r)) hp.timed hb hc
    have ht := hturns (by rintro hs; simp [busy, hs] at hb)
    have href := refreshGap_next (i := i) (HBM3Stack.refCnt_of_busy hb) ht
    have hmul := Nat.mul_le_mul_left slot ht
    rw [← stack_next (i := i)] at hb' hl
    rw [gap_of_busy hb, gap_of_busy hb']
    omega
  cases hs : r.split.hbm.state with
  | idle =>
    -- a refresh begins; the CPU may come back to the start of an access in the meantime
    have h0 : r.split.hbm.refCnt = 0 := by simpa [HBM3Stack.reqReady, hs] using hr
    have hmul := Nat.mul_le_mul_left slot (cpuTurns_le (next memMode r i))
    have hold : gap r = tREF + 2 + 2 * slot + slot * cpuTurns r := by simp [gap, refreshGap, hs, h0]
    have hnew : gap (next memMode r i) = tREF + 1 + slot * cpuTurns (next memMode r i) := by
      simp [gap, stack_next, HBM3Stack.next, hs, h0]
    omega
  | prech => exact hserving (by simp [busy, hs]) (by simp [hs])
  | act => exact hserving (by simp [busy, hs]) (by simp [hs])
  | cmd =>
    have hb : busy r.split.hbm = true := by simp [busy, hs]
    have ht := hturns (by simp [hs])
    have href := refreshGap_next (i := i) (HBM3Stack.refCnt_of_busy hb) ht
    have hmul := Nat.mul_le_mul_left slot ht
    have hready := ready_of_cmd memMode hα hs
    have hnew : gap (next memMode r i) = refreshGap (next memMode r i) + slot * cpuTurns (next memMode r i) := by
      simp [gap, stack_next, HBM3Stack.next, hs, hready]
    rw [gap_of_busy hb]
    omega
  | ref =>
    have ht := hturns (by simp [hs])
    have hmul := Nat.mul_le_mul_left slot ht
    have hold : gap r = tREF + 1 - r.split.hbm.cnt.toNat + slot * cpuTurns r := by simp only [gap, hs]
    rcases HBM3Stack.next_ref hp hs (SplitPrioritizer.hbmIn r.split (splitIn memMode r)) with
      ⟨hcnt, hnext⟩ | ⟨hcnt, hnext, hsucc⟩
    · have hnext : (next memMode r i).split.hbm = _ := stack_next.trans hnext
      have href : refreshGap (next memMode r i) = 0 := by
        have hle := cpuTurns_le (next memMode r i)
        rw [refreshGap, hnext, if_neg]
        simp only [tREF, BitVec.toNat_ofNat]
        omega
      have hnew : gap (next memMode r i) = slot * cpuTurns (next memMode r i) := by
        simp only [gap, hnext, href, Nat.zero_add]
      omega
    · have hnext : (next memMode r i).split.hbm = _ := stack_next.trans hnext
      have hnew : gap (next memMode r i) = tREF + 1 - (r.split.hbm.cnt.toNat + 1) + slot * cpuTurns (next memMode r i) := by
        simp only [gap, hnext, hs, hsucc]
      omega

/-- an access of the CPU brings the gap closer -/
theorem gap_cpu (hr : HBM3Stack.reqReady r.split.hbm = true)
    (hf : SplitPrioritizer.reqFire r.split (splitIn memMode r) .cpu = true) : gap (next memMode r i) < gap r := by
  obtain ⟨hs, h0⟩ := reqReady_iff.1 hr
  have hfire := (SplitPrioritizer.reqFire_iff.1 hf).1
  have hv : CoreMemToHBM.hbmReqValid r.cpuAdp = true := ((Bool.and_eq_true _ _).mp hf).1
  have hgrant : (portIn memMode r .cpu).reqReady = true := ((Bool.and_eq_true _ _).mp hf).2
  have hstack : (next memMode r i).split.hbm = HBM3Stack.accept r.split.hbm _ := HBM3Stack.next_of_reqFire hfire
  have hb : busy (next memMode r i).split.hbm = true := by rw [hstack]; exact HBM3Stack.busy_accept _ _
  obtain ⟨-, hcnt⟩ := HBM3Stack.accept_pace r.split.hbm (SplitPrioritizer.hbmIn r.split (splitIn memMode r)).req
  have hpred := HBM3Stack.toNat_pred h0
  rw [← hcnt, ← hstack] at hpred
  have hold : gap r = refreshGap r + slot * cpuTurns r := by simp only [gap, hs]
  have hturns : cpuTurns (next memMode r i) + 1 = cpuTurns r := by
    have hnew : (next memMode r i).cpuAdp = _ := cpuAdp_next
    cases hadp : r.cpuAdp.state <;> simp [CoreMemToHBM.hbmReqValid, hadp] at hv
    · simp [cpuTurns, hnew, CoreMemToHBM.next, CoreMemToHBM.hbmReqFire, CoreMemToHBM.hbmReqValid, hadp, hgrant]
    · simp [cpuTurns, hnew, CoreMemToHBM.next, CoreMemToHBM.hbmReqFire, CoreMemToHBM.hbmReqValid, hadp, hgrant]
  have href : refreshGap (next memMode r i) ≤ refreshGap r := by
    rw [refreshGap, refreshGap]
    split_ifs <;> omega
  have hlag := lag_lt_slot (next memMode r i).split.hbm
  rw [gap_of_busy hb, hold, ← hturns, Nat.mul_succ]
  omega

/-! ## The GPU port -/

/-- the cycles before a request of the GPU port is accepted, at most; in the gaps the rotation may favour the accelerator once -/
def gpuWait (memMode : BitVec 2) (r : Reg) : ℕ :=
  if priority memMode then (if last r.split = 1 then maxGap + 1 else 0) + gap r else wait false r.split .gpu

/-- 95 cycles if the CPU has priority, and 35 if it has not -/
def maxGpuWait (pr : Bool) : ℕ := if pr then (maxGap + 1) + maxGap else maxWait false

theorem gpuWait_le (memMode : BitVec 2) (r : Reg) : gpuWait memMode r ≤ maxGpuWait (priority memMode) := by
  have hgap := gap_le r
  unfold gpuWait maxGpuWait
  split_ifs
  · omega
  · omega
  · exact SplitPrioritizer.wait_le_maxWait false r.split .gpu

/-- **Every cycle brings a request of the GPU port closer**, in every mode. -/
theorem gpu_closer (h : Reached r) (hv : AXIToMemReq.memReqValid r.gpuAdp = true)
    (hn : (portIn memMode r .gpu).reqReady = false) : gpuWait memMode (next memMode r i) < gpuWait memMode r := by
  have hv' : (splitIn memMode r).reqValid .gpu = true := hv
  unfold gpuWait
  cases hpr : priority memMode with
  | false =>
    have hcloser := request_closer (i := i) (p := .gpu) h (by rw [hpr]; decide) hv' hn
    rw [hpr] at hcloser
    exact hcloser
  | true =>
    rw [if_pos rfl, if_pos rfl]
    rcases SplitPrioritizer.grants_cases r.split (splitIn memMode r) with ⟨hf, -, hrr⟩ | ⟨hf, q, hq, -, hg, hrr⟩
    · have hready : HBM3Stack.reqReady r.split.hbm = false := by
        have hany : SplitPrioritizer.any (splitIn memMode r) = true := by simp [SplitPrioritizer.any, hv']
        simpa [HBM3Stack.reqFire, SplitPrioritizer.hbmIn, hany] using hf
      have hlast : last (next memMode r i).split = last r.split := congrArg BitVec.toNat hrr
      rw [hlast]
      exact Nat.add_lt_add_left (gap_unready h hready) _
    · have hready : HBM3Stack.reqReady r.split.hbm = true := ((Bool.and_eq_true _ _).mp hf).2
      have hfire : SplitPrioritizer.reqFire r.split (splitIn memMode r) q = true :=
        SplitPrioritizer.mem_grants.1 (by rw [hg]; exact List.mem_singleton_self q)
      have hlast : last (next memMode r i).split = q.index := SplitPrioritizer.last_next hrr
      cases q with
      | cpu =>
        have hcpu := gap_cpu (i := i) hready hfire
        rw [hlast, if_neg (by decide)]
        omega
      | gpu =>
        have hgrant : (portIn memMode r .gpu).reqReady = true := ((Bool.and_eq_true _ _).mp hfire).2
        exact absurd (hn.symm.trans hgrant) Bool.false_ne_true
      | acc =>
        have hone : last r.split = 1 := SplitPrioritizer.acc_after_gpu hfire hv'
        have hgap := gap_le (next memMode r i)
        rw [hlast, hone, if_neg (by decide), if_pos rfl]
        omega

/-! ## The request in hand -/

/-- what holds of the GPU side as well -/
structure Working (r : Reg) : Prop where
  reached : Reached r
  ready : ∃ α, SimtShared.Ready ⟨toFabric r, α⟩

theorem working_reset (g : Junk) : Working (reset g) := ⟨reached_reset g, _, SimtShared.ready_start g⟩

theorem working_next (h : Working r) : Working (next memMode r i) := by
  obtain ⟨hreached, α, hready⟩ := h
  have hnext := SimtShared.ready_step memMode ⟨toFabric r, α⟩ i hready
  rw [joint_toFabric] at hnext
  exact ⟨reached_next hreached, _, hnext⟩

theorem working_run (h : Working r) (ins : List In) : Working (run (next memMode) r ins) :=
  run_inv Working (fun _ _ h _ => working_next h) h (always_true _ _ ins)

/-- the clusters of the L2 -/
abbrev clusters (r : Reg) (i : In) : ℕ → MemOut := cluster i.gpu r.simt

/-- the external GPU port takes its response when it is offered -/
def Takes (r : Reg) (i : In) : Prop := GPUL2Cache.respValid r.l2 0 = true → i.gpu.respReady = true

instance (r : Reg) (i : In) : Decidable (Takes r i) := inferInstanceAs (Decidable (_ → _))

/-- the request in hand is answered in this cycle -/
def Answered (r : Reg) (i : In) : Prop := GPUL2Cache.respFire r.l2 (clusters r i) r.l2.selR = true

instance (r : Reg) (i : In) : Decidable (Answered r i) := inferInstanceAs (Decidable (_ = _))

/-- the SIMT core is always ready for its response -/
theorem answered_of_offered (h : Working r) (ht : Takes r i) (hs : r.l2.state = .wack ∨ r.l2.state = .resp) :
    Answered r i := by
  obtain ⟨-, α, hready⟩ := h
  have hvalid : GPUL2Cache.respValid r.l2 r.l2.selR = true := by rcases hs with hs | hs <;> simp [GPUL2Cache.respValid, hs]
  have hsel : r.l2.selR < 2 := hready.fit.selR
  rw [Answered, GPUL2Cache.respFire, hvalid, Bool.true_and]
  rcases Nat.lt_succ_iff_lt_or_eq.1 hsel with hlt | hone
  · have hzero : r.l2.selR = 0 := by omega
    rw [hzero] at hvalid ⊢
    exact ht hvalid
  · have hwaits : SimtCore.memRespReady r.simt = ClusterPort.own 1 ⟨r.l2, r.gpuAdp⟩ := hready.linked.waits
    rw [hone]
    refine hwaits.trans ?_
    rcases hs with hs | hs <;> simp [ClusterPort.own, hs, hone]

theorem idle_of_answered (h : Answered r i) : (next memMode r i).l2.state = .idle := by
  have hvalid := ((Bool.and_eq_true _ _).mp h).1
  have hs : r.l2.state = .wack ∨ r.l2.state = .resp := by simpa [GPUL2Cache.respValid] using hvalid
  have hl2 : (next memMode r i).l2 = GPUL2Cache.next 2 r.l2 (clusters r i) _ := rfl
  have h : GPUL2Cache.respFire r.l2 (clusters r i) r.l2.selR = true := h
  rcases hs with hs | hs <;> simp only [hl2, GPUL2Cache.next, hs, h, if_true]

/-- the cycles before the request in hand is answered, at most -/
def txLeft (memMode : BitVec 2) (r : Reg) : ℕ :=
  match r.l2.state, r.gpuAdp.state with
  | .aw, _ => maxGpuWait (priority memMode) + slot + 3
  | .wd, _ | .ar, _ => maxGpuWait (priority memMode) + slot + 2
  | .wack, _ | .resp, _ => 0
  | _, .wreq | _, .areq => gpuWait memMode r + slot + 1
  | _, .wwrsp | _, .aresp => lag r.split.hbm + 2
  | _, _ => 1

def maxTx (pr : Bool) : ℕ := maxGpuWait pr + slot + 3

theorem txLeft_le (memMode : BitVec 2) (r : Reg) : txLeft memMode r ≤ maxTx (priority memMode) := by
  have hwait := gpuWait_le memMode r
  have hlag := lag_lt_slot r.split.hbm
  unfold txLeft maxTx
  split <;> omega

theorem l2_next : (next memMode r i).l2 =
    GPUL2Cache.next 2 r.l2 (clusters r i) (AXIToMemReq.axiIn r.gpuAdp (GPUL2Cache.axiOut r.l2)) := rfl

theorem gpuAdp_next : (next memMode r i).gpuAdp =
    AXIToMemReq.next r.gpuAdp ⟨GPUL2Cache.axiOut r.l2, portIn memMode r .gpu⟩ := rfl

/-- the L2 hands the address over, of a store or of a load, or the data of a store -/
theorem tx_address (hs : r.l2.state = .aw ∧ r.gpuAdp.state = .idle ∨ r.l2.state = .wd ∧ r.gpuAdp.state = .wwait ∨
      r.l2.state = .ar ∧ r.gpuAdp.state = .idle) :
    txLeft memMode (next memMode r i) < txLeft memMode r ∧ (next memMode r i).l2.state ≠ .idle := by
  have hwait := gpuWait_le memMode (next memMode r i)
  rcases hs with ⟨hl, ha⟩ | ⟨hl, ha⟩ | ⟨hl, ha⟩
  · have hl' : (next memMode r i).l2.state = .wd := by
      simp [l2_next, GPUL2Cache.next, AXIToMemReq.axiIn, GPUL2Cache.axiOut, hl, ha]
    simp only [txLeft, hl, hl']
    exact ⟨by omega, by decide⟩
  · have hl' : (next memMode r i).l2.state = .bwait := by
      simp [l2_next, GPUL2Cache.next, AXIToMemReq.axiIn, hl, ha]
    have ha' : (next memMode r i).gpuAdp.state = .wreq := by
      simp [gpuAdp_next, AXIToMemReq.next, GPUL2Cache.axiOut, AXIToMemReq.allOnes, hl, ha]
    simp only [txLeft, hl, hl', ha']
    exact ⟨by omega, by decide⟩
  · have hl' : (next memMode r i).l2.state = .rc := by
      simp [l2_next, GPUL2Cache.next, AXIToMemReq.axiIn, GPUL2Cache.axiOut, hl, ha]
    have ha' : (next memMode r i).gpuAdp.state = .areq := by
      simp [gpuAdp_next, AXIToMemReq.next, GPUL2Cache.axiOut, hl, ha]
    simp only [txLeft, hl, hl', ha']
    exact ⟨by omega, by decide⟩

/-- the L2 waits for the adapter while the adapter waits for the stack -/
theorem l2_waits (memMode : BitVec 2) (i : In) (hl : r.l2.state = .bwait ∨ r.l2.state = .rc)
    (ha : r.gpuAdp.state ∈ [.wreq, .areq, .wwrsp, .aresp]) : (next memMode r i).l2.state = r.l2.state := by
  simp only [List.mem_cons, List.not_mem_nil, or_false] at ha
  rcases hl with hl | hl <;> rcases ha with ha | ha | ha | ha <;>
    simp [l2_next, GPUL2Cache.next, AXIToMemReq.axiIn, hl, ha]

/-- the adapter waits for its request to be accepted -/
theorem tx_request (h : Reached r) (hl : r.l2.state = .bwait ∨ r.l2.state = .rc)
    (ha : r.gpuAdp.state = .wreq ∨ r.gpuAdp.state = .areq) :
    txLeft memMode (next memMode r i) < txLeft memMode r ∧ (next memMode r i).l2.state ≠ .idle := by
  have hlag := lag_lt_slot (next memMode r i).split.hbm
  have hl' := l2_waits memMode i hl (by rcases ha with ha | ha <;> simp [ha])
  have hv : AXIToMemReq.memReqValid r.gpuAdp = true := by rcases ha with ha | ha <;> simp [AXIToMemReq.memReqValid, ha]
  refine ⟨?_, by rw [hl']; rcases hl with hl | hl <;> simp [hl]⟩
  have hleft : txLeft memMode r = gpuWait memMode r + slot + 1 := by
    rcases hl with hl | hl <;> rcases ha with ha | ha <;> simp only [txLeft, hl, ha]
  cases hgrant : (portIn memMode r .gpu).reqReady with
  | true =>
    have hleft' : txLeft memMode (next memMode r i) = lag (next memMode r i).split.hbm + 2 := by
      rcases hl with hl | hl <;> rcases ha with ha | ha <;>
        simp [txLeft, hl', hl, gpuAdp_next, AXIToMemReq.next, AXIToMemReq.memReqFire, hv, hgrant, ha]
    omega
  | false =>
    have hcloser := gpu_closer (i := i) h hv hgrant
    have hleft' : txLeft memMode (next memMode r i) = gpuWait memMode (next memMode r i) + slot + 1 := by
      rcases hl with hl | hl <;> rcases ha with ha | ha <;>
        simp [txLeft, hl', hl, gpuAdp_next, AXIToMemReq.next, AXIToMemReq.memReqFire, hgrant, ha]
    omega

/-- the adapter waits for the response -/
theorem tx_response (h : Reached r) (hl : r.l2.state = .bwait ∨ r.l2.state = .rc)
    (ha : r.gpuAdp.state = .wwrsp ∨ r.gpuAdp.state = .aresp) :
    txLeft memMode (next memMode r i) < txLeft memMode r ∧ (next memMode r i).l2.state ≠ .idle := by
  obtain ⟨⟨α, hα⟩, hp, -, -⟩ := h
  have hl' := l2_waits memMode i hl (by rcases ha with ha | ha <;> simp [ha])
  have hrr : AXIToMemReq.memRespReady r.gpuAdp = true := by rcases ha with ha | ha <;> simp [AXIToMemReq.memRespReady, ha]
  refine ⟨?_, by rw [hl']; rcases hl with hl | hl <;> simp [hl]⟩
  have hleft : txLeft memMode r = lag r.split.hbm + 2 := by
    rcases hl with hl | hl <;> rcases ha with ha | ha <;> simp only [txLeft, hl, ha]
  cases hv : (portIn memMode r .gpu).respValid with
  | true =>
    have hleft' : txLeft memMode (next memMode r i) = 1 := by
      rcases hl with hl | hl <;> rcases ha with ha | ha <;>
        simp [txLeft, hl', hl, gpuAdp_next, AXIToMemReq.next, hv, ha]
    omega
  | false =>
    have hcloser := response_closer (i := i) hα hp (hα.gpu.trans hrr) hv
    have hleft' : txLeft memMode (next memMode r i) = lag (next memMode r i).split.hbm + 2 := by
      rcases hl with hl | hl <;> rcases ha with ha | ha <;>
        simp [txLeft, hl', hl, gpuAdp_next, AXIToMemReq.next, hv, ha]
    omega

/-- the adapter hands the response over to the L2 -/
theorem tx_reply (hs : r.l2.state = .bwait ∧ r.gpuAdp.state = .wrespo ∨ r.l2.state = .rc ∧ r.gpuAdp.state = .rvalid) :
    txLeft memMode (next memMode r i) < txLeft memMode r ∧ (next memMode r i).l2.state ≠ .idle := by
  rcases hs with ⟨hl, ha⟩ | ⟨hl, ha⟩
  · have hl' : (next memMode r i).l2.state = .wack := by
      simp [l2_next, GPUL2Cache.next, AXIToMemReq.axiIn, hl, ha]
    simp only [txLeft, hl, hl', ha]
    exact ⟨by omega, by decide⟩
  · have hl' : (next memMode r i).l2.state = .resp := by
      simp [l2_next, GPUL2Cache.next, AXIToMemReq.axiIn, hl, ha]
    simp only [txLeft, hl, hl', ha]
    exact ⟨by omega, by decide⟩

/-- **Every cycle brings the answer closer.** -/
theorem tx_closer (h : Working r) (hs : r.l2.state ≠ .idle) (ht : Takes r i) (hn : ¬ Answered r i) :
    txLeft memMode (next memMode r i) < txLeft memMode r ∧ (next memMode r i).l2.state ≠ .idle := by
  obtain ⟨hreached, β, hready⟩ := id h
  obtain ⟨p, hphase⟩ := hready.phase
  have hanswered := fun hs => hn (answered_of_offered h ht hs)
  cases hphase with
  | idle hl ha => exact absurd hl hs
  | aw hl ha => exact tx_address (.inl ⟨hl, ha⟩)
  | wd hl ha haddr => exact tx_address (.inr (.inl ⟨hl, ha⟩))
  | wreq hl ha hreq => exact tx_request hreached (.inl hl) (.inl ha)
  | wwrsp hl ha => exact tx_response hreached (.inl hl) (.inl ha)
  | wrespo hl ha d => exact tx_reply (.inl ⟨hl, ha⟩)
  | wack hl ha d => exact absurd (.inl hl) hanswered
  | ar hl ha => exact tx_address (.inr (.inr ⟨hl, ha⟩))
  | areq hl ha hreq => exact tx_request hreached (.inr hl) (.inr ha)
  | aresp hl ha => exact tx_response hreached (.inr hl) (.inr ha)
  | rvalid hl ha => exact tx_reply (.inr ⟨hl, ha⟩)
  | resp hl ha => exact absurd (.inr hl) hanswered

/-! ## The clusters -/

section Clusters

variable {k : ℕ}

/-- the cycles before a request of cluster `k` is accepted, at most: the request in hand, and that of the other cluster if it
comes first in the rotation -/
def clusterWait (memMode : BitVec 2) (r : Reg) (k : ℕ) : ℕ :=
  (maxTx (priority memMode) + 2) * RoundRobin.ahead 2 r.l2.last k +
    if r.l2.state = .idle then 0 else txLeft memMode r + 1

def maxCluster (pr : Bool) : ℕ := (maxTx pr + 2) + (maxTx pr + 1)

theorem clusterWait_le (memMode : BitVec 2) (r : Reg) (hk : k < 2) :
    clusterWait memMode r k ≤ maxCluster (priority memMode) := by
  have htx := txLeft_le memMode r
  have hahead : RoundRobin.ahead 2 r.l2.last k ≤ 1 := Nat.le_of_lt_succ (RoundRobin.ahead_lt hk)
  have hmul := Nat.mul_le_mul_left (maxTx (priority memMode) + 2) hahead
  unfold clusterWait maxCluster
  split_ifs <;> omega

/-- the rotation of the L2 moves only when it accepts -/
theorem last_busy (hs : r.l2.state ≠ .idle) : (next memMode r i).l2.last = r.l2.last :=
  (GPUL2Cache.not_captured (N := 2) (i := ⟨clusters r i, _⟩) fun h => hs h.1).2

/-- **Every cycle brings a request of a cluster closer.** -/
theorem cluster_closer (h : Working r) (hk : k < 2) (ht : Takes r i) (hv : (clusters r i k).reqValid = true)
    (hn : GPUL2Cache.reqFire 2 r.l2 (clusters r i) k = false) :
    clusterWait memMode (next memMode r i) k < clusterWait memMode r k := by
  have htx := txLeft_le memMode (next memMode r i)
  unfold clusterWait
  by_cases hs : r.l2.state = .idle
  · -- the other cluster is accepted
    have hany : GPUL2Cache.any 2 r.l2 (clusters r i) = true := GPUL2Cache.any_iff.2 ⟨k, hk, hv⟩
    have hl2 : (next memMode r i).l2 = _ := (GPUL2Cache.captured (N := 2) (i := ⟨clusters r i, _⟩) hs hany).2.2
    have hlast : (next memMode r i).l2.last = GPUL2Cache.sel 2 r.l2 (clusters r i) := by rw [hl2]
    have hne : k ≠ GPUL2Cache.sel 2 r.l2 (clusters r i) := fun hsel =>
      absurd (hn.symm.trans ((GPUL2Cache.reqFire_iff hk).2 ⟨hs, hany, hsel⟩)) Bool.false_ne_true
    have hselect := RoundRobin.select_first (v := GPUL2Cache.v (clusters r i)) hk hv r.l2.last
    have hsel : GPUL2Cache.sel 2 r.l2 (clusters r i) < 2 := GPUL2Cache.sel_lt (by decide)
    have hbefore : RoundRobin.place 2 r.l2.last (GPUL2Cache.sel 2 r.l2 (clusters r i)) < RoundRobin.place 2 r.l2.last k := by
      rw [GPUL2Cache.sel] at hne hsel ⊢
      simp only [RoundRobin.place] at hselect ⊢
      split_ifs at hselect ⊢ <;> omega
    have hahead := RoundRobin.ahead_served hk hsel hbefore
    have hmul := Nat.mul_le_mul_left (maxTx (priority memMode) + 2) hahead
    rw [Nat.mul_succ] at hmul
    rw [hlast, if_pos hs]
    split_ifs <;> omega
  · rw [last_busy hs, if_neg hs]
    by_cases ha : Answered r i
    · rw [if_pos (idle_of_answered ha)]
      omega
    · obtain ⟨hcloser, hs'⟩ : txLeft memMode (next memMode r i) < txLeft memMode r ∧ _ := tx_closer h hs ht ha
      rw [if_neg hs']
      omega

end Clusters

/-- **The external GPU port is served in every mode.** After any run from reset, whatever the CPU, the SIMT core and the GEMM
engine do, as long as the port takes its responses when they are offered:
- if it keeps requesting, it is accepted after at most 211 cycles in the modes with CPU priority, and 91 in those without;
- once it is accepted, it is offered its response after at most 104 cycles in the former modes, and 44 in the latter. -/
theorem gpu_port_in_time (memMode : BitVec 2) (g : Junk) (before ins : List In)
    (ht : Always (next memMode) Takes (run (next memMode) (reset g) before) ins) :
    (Always (next memMode) (fun _ i => i.gpu.reqValid = true) (run (next memMode) (reset g) before) ins →
      (if priority memMode then 211 else 91) < ins.length →
      ∃ a i b, ins = a ++ i :: b ∧ a.length ≤ (if priority memMode then 211 else 91) ∧
        let r := run (next memMode) (run (next memMode) (reset g) before) a
        GPUL2Cache.reqFire 2 r.l2 (clusters r i) 0 = true) ∧
    (ClusterPort.own 0 ⟨(run (next memMode) (reset g) before).l2, (run (next memMode) (reset g) before).gpuAdp⟩ = true →
      (if priority memMode then 104 else 44) < ins.length →
      ∃ a i b, ins = a ++ i :: b ∧ a.length ≤ (if priority memMode then 104 else 44) ∧
        let r := run (next memMode) (run (next memMode) (reset g) before) a
        GPUL2Cache.respFire r.l2 (clusters r i) 0 = true) := by
  have hmax : (maxCluster (priority memMode) = if priority memMode then 211 else 91) ∧
      maxTx (priority memMode) = if priority memMode then 104 else 44 := by
    cases priority memMode <;> exact ⟨rfl, rfl⟩
  have hw : Working (run (next memMode) (reset g) before) := working_run (working_reset g) before
  rw [← hmax.1, ← hmax.2]
  refine ⟨fun hv hlen => ?_, fun hown hlen => ?_⟩
  · refine reaches (P := fun r i => GPUL2Cache.reqFire 2 r.l2 (clusters r i) 0 = true)
      (fun k r => Working r ∧ clusterWait memMode r 0 ≤ k) ?_ ⟨hw, clusterWait_le memMode _ (by decide)⟩ (always_and ht hv) hlen
    rintro k r i ⟨h, hk⟩ ⟨ht, hv⟩ hn
    have hcloser : clusterWait memMode (next memMode r i) 0 < clusterWait memMode r 0 :=
      cluster_closer h (by decide) ht hv (Bool.eq_false_iff.2 hn)
    exact ⟨_, hcloser.trans_le hk, working_next h, le_rfl⟩
  · refine reaches (P := fun r i => GPUL2Cache.respFire r.l2 (clusters r i) 0 = true)
      (fun k r => Working r ∧ (r.l2.state ≠ .idle ∧ r.l2.selR = 0) ∧ txLeft memMode r ≤ k) ?_
      ⟨hw, by simpa [ClusterPort.own] using hown, txLeft_le memMode _⟩ ht hlen
    rintro k r i ⟨h, ⟨hs, hsel⟩, hk⟩ ht hn
    have hn : ¬ Answered r i := by rw [Answered, hsel]; exact hn
    obtain ⟨hcloser, hs'⟩ : txLeft memMode (next memMode r i) < txLeft memMode r ∧ _ := tx_closer h hs ht hn
    have hkept : (next memMode r i).l2.selR = r.l2.selR :=
      (GpuPath.hand_kept (N := 2) (r := ⟨r.l2, r.gpuAdp⟩) hs ⟨clusters r i, portIn memMode r .gpu⟩).1
    exact ⟨_, hcloser.trans_le hk, working_next h, ⟨hs', hkept.trans hsel⟩, le_rfl⟩

/-- the port keeps storing, and has been accepted in the first cycle -/
theorem gpu_port_in_time_storing :
    (∃ a i b, List.replicate 92 Noninterference.storing = a ++ i :: b ∧ a.length ≤ 91 ∧
      let r := run (next 0) (run (next 0) (reset leftover) [Noninterference.storing]) a
      GPUL2Cache.reqFire 2 r.l2 (clusters r i) 0 = true) ∧
    ∃ a i b, List.replicate 92 Noninterference.storing = a ++ i :: b ∧ a.length ≤ 44 ∧
      let r := run (next 0) (run (next 0) (reset leftover) [Noninterference.storing]) a
      GPUL2Cache.respFire r.l2 (clusters r i) 0 = true := by
  obtain ⟨haccepted, hanswered⟩ := gpu_port_in_time 0 leftover [Noninterference.storing]
    (List.replicate 92 Noninterference.storing) (by decide +kernel)
  exact ⟨haccepted (by decide +kernel) (by decide +kernel), hanswered (by decide +kernel) (by decide +kernel)⟩

end AegisSoc.GpuService
