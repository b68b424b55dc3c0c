/-
The refresh of the stack. It is due when the countdown has run out in the idle state; the countdown stands still while a
request is served, so a port that does not take its response would put the refresh off for ever. In the SoC none does
(`LockStep`).
- `due_next`: every cycle brings the next refresh closer;
- `refresh_run`: a refresh takes 18 cycles, which show no handshake and leave the array and the page table as they are;
- `refresh_in_time`: in the SoC one begins within any 114 cycles, whatever the traffic.
-/
import AegisSoc.GpuService

namespace AegisSoc.HBM3Stack

/-! ## The countdown -/

section Countdown

variable {g : Geometry} {r : Reg g} {i : In}

/-- a refresh begins in this cycle -/
def Begins (r : Reg g) : Prop := r.state = .idle ∧ r.refCnt = 0

instance (r : Reg g) : Decidable (Begins r) := inferInstanceAs (Decidable (_ ∧ _))

/-- the cycles before the next refresh begins, at most -/
def due (r : Reg g) : ℕ :=
  match r.state with
  | .idle => slot * r.refCnt.toNat
  | .ref => tREF + 1 - r.cnt.toNat + slot * tREF
  | _ => lag r + 1 + slot * r.refCnt.toNat

/-- 113 cycles, after the cycle in which a refresh has begun -/
def maxDue : ℕ := tREF + 1 + slot * tREF

theorem due_le (h : Paced r) : due r ≤ maxDue := by
  have hlag := lag_le r
  have hmul := Nat.mul_le_mul_left slot h.refCnt
  have hconst : tPRE + tACT ≤ tREF := by decide
  unfold due maxDue
  split <;> omega

theorem due_of_busy (hb : busy r = true) : due r = lag r + 1 + slot * r.refCnt.toNat := by
  cases hs : r.state <;> simp [busy, hs] at hb <;> simp only [due, hs]

/-- **Every cycle brings the next refresh closer**, if responses are taken at once. -/
theorem due_next (h : Paced r) (hresp : r.state = .cmd → i.respReady = true) (hn : ¬ Begins r) :
    due (next r i) < due r := by
  have hserving : busy r = true → r.state ≠ .cmd → due (next r i) < due r := fun hb hc => by
    obtain ⟨hb', hl⟩ := lag_next r i h.timed hb hc
    rw [due_of_busy hb, due_of_busy hb', refCnt_of_busy hb]
    omega
  cases hs : r.state with
  | idle =>
    have h0 : r.refCnt ≠ 0 := fun h0 => hn ⟨hs, h0⟩
    have hpred := toNat_pred h0
    have hold : due r = slot * (r.refCnt - 1).toNat + slot := by
      simp only [due, hs]
      rw [← hpred, Nat.mul_succ]
    by_cases hf : reqFire r i = true
    · obtain ⟨hlag, hcnt⟩ := accept_pace r i.req
      rw [next_of_reqFire hf, due_of_busy (busy_accept r i.req), hcnt, hold]
      simp only [slot]
      omega
    · have hnew : due (next r i) = slot * (r.refCnt - 1).toNat := by
        simp only [due, next, hs, if_neg h0, if_neg hf]
      have hslot : 0 < slot := by decide
      omega
  | prech => exact hserving (by simp [busy, hs]) (by simp [hs])
  | act => exact hserving (by simp [busy, hs]) (by simp [hs])
  | cmd =>
    simp only [next, hs, hresp hs, if_true, due]
    omega
  | ref =>
    rcases next_ref h hs i with ⟨hcnt, hnext⟩ | ⟨hcnt, hnext, hsucc⟩
    · have hfull : (BitVec.ofNat 5 tREF).toNat = tREF := rfl
      rw [hnext]
      simp only [due, hs, hcnt, hfull]
      omega
    · rw [hnext]
      simp only [due, hs, hsucc]
      omega

end Countdown

end AegisSoc.HBM3Stack

namespace AegisSoc.Refresh

open Machine AegisSoc.Top LockStep Liveness GpuService
open HBM3Stack (Begins due tREF)

variable {memMode : BitVec 2} {r : Reg} {i : In}

/-! ## During a refresh -/

/-- a stack that is neither ready nor answering shows no handshake -/
theorem handshakes_nil (hr : HBM3Stack.reqReady r.split.hbm = false) (hv : HBM3Stack.respValid r.split.hbm = false) :
    handshakes memMode r = [] := by
  have hreq : ∀ p, SplitPrioritizer.reqFire r.split (splitIn memMode r) p = false := fun p => by
    simp [SplitPrioritizer.reqFire, SplitPrioritizer.reqReady, hr]
  have hresp : ∀ p, SplitPrioritizer.respFire r.split (splitIn memMode r) p = false := fun p => by
    cases p <;> simp [SplitPrioritizer.respFire, SplitPrioritizer.respValid, hv]
  simp [handshakes, SplitPrioritizer.ev, hreq, hresp]

/-- the rest of a refresh -/
theorem ref_run {k : ℕ} (h : Reached r) (hs : r.split.hbm.state = .ref) (hk : r.split.hbm.cnt.toNat + k = tREF) {ins : List In}
    (hlen : ins.length = k + 1) :
    collect (next memMode) (fun r _ => handshakes memMode r) r ins = [] ∧
      (run (next memMode) r ins).split.hbm =
        { r.split.hbm with cnt := 0, refCnt := BitVec.ofNat 5 tREF, state := .idle } := by
  induction k generalizing r ins with
  | zero =>
    obtain ⟨i, rfl⟩ := List.length_eq_one_iff.1 hlen
    have hnil : handshakes memMode r = [] :=
      handshakes_nil (by simp [HBM3Stack.reqReady, hs]) (by simp [HBM3Stack.respValid, hs])
    rcases HBM3Stack.next_ref h.paced hs (SplitPrioritizer.hbmIn r.split (splitIn memMode r)) with ⟨-, hnext⟩ | ⟨hlt, -⟩
    · exact ⟨by simp [hnil], hnext⟩
    · omega
  | succ k ih =>
    obtain ⟨i, rest, rfl⟩ := List.exists_cons_of_length_eq_add_one hlen
    have hnil : handshakes memMode r = [] :=
      handshakes_nil (by simp [HBM3Stack.reqReady, hs]) (by simp [HBM3Stack.respValid, hs])
    rcases HBM3Stack.next_ref h.paced hs (SplitPrioritizer.hbmIn r.split (splitIn memMode r)) with
      ⟨heq, -⟩ | ⟨-, hnext, hsucc⟩
    · omega
    · have hnext : (next memMode r i).split.hbm = { r.split.hbm with cnt := r.split.hbm.cnt + 1 } := hnext
      have hrest : rest.length = k + 1 := by simpa using hlen
      obtain ⟨hsilent, hend⟩ := ih (r := next memMode r i) (reached_next h) (by rw [hnext]; exact hs)
        (by rw [hnext]; simp only [hsucc]; omega) hrest
      rw [hnext] at hend
      exact ⟨by rw [collect_cons, hnil, hsilent, List.append_nil], hend⟩

/-- **A refresh takes 18 cycles.** No port is accepted or answered, and the array and the page table stay as they are. -/
theorem refresh_run (h : Reached r) (hb : Begins r.split.hbm) {ins : List In} (hlen : ins.length = tREF + 2) :
    collect (next memMode) (fun r _ => handshakes memMode r) r ins = [] ∧
      (run (next memMode) r ins).split.hbm = { r.split.hbm with cnt := 0, refCnt := BitVec.ofNat 5 tREF } := by
  obtain ⟨hs, h0⟩ := hb
  obtain ⟨i, rest, rfl⟩ := List.exists_cons_of_length_eq_add_one hlen
  have hnil : handshakes memMode r = [] :=
    handshakes_nil (by simp [HBM3Stack.reqReady, hs, h0]) (by simp [HBM3Stack.respValid, hs])
  have hnext : (next memMode r i).split.hbm = { r.split.hbm with state := .ref, cnt := 0 } := by
    rw [stack_next]
    simp only [HBM3Stack.next, hs, h0, if_true]
  have hrest : rest.length = tREF + 1 := by simpa using hlen
  obtain ⟨hsilent, hend⟩ := ref_run (r := next memMode r i) (reached_next h) (by rw [hnext]) (by rw [hnext]; rfl) hrest
  rw [hnext] at hend
  refine ⟨by rw [collect_cons, hnil, hsilent, List.append_nil], hend.trans ?_⟩
  rw [← hs]

/-- **The stack is refreshed in time, whatever the traffic.** After any run from reset, in any mode, a refresh begins within
the next 114 cycles. It takes 18 cycles, in which no port is accepted or answered, and leaves the stack as it was but for the
countdown, which starts again. -/
theorem refresh_in_time (memMode : BitVec 2) (g : Junk) (before ins : List In) (hlen : 114 ≤ ins.length) :
    ∃ a b, ins = a ++ b ∧ a.length < 114 ∧
      let r := run (next memMode) (run (next memMode) (reset g) before) a
      Begins r.split.hbm ∧ ∀ more : List In, more.length = 18 →
        collect (next memMode) (fun r _ => handshakes memMode r) r more = [] ∧
        (run (next memMode) r more).split.hbm = { r.split.hbm with cnt := 0, refCnt := 16 } := by
  have hreached : Reached (run (next memMode) (reset g) before) := reached_run g before
  have hstep : ∀ k r i, Reached r ∧ due r.split.hbm ≤ k → True → ¬ Begins r.split.hbm →
      ∃ k' < k, Reached (next memMode r i) ∧ due (next memMode r i).split.hbm ≤ k' := by
    rintro k r i ⟨h, hk⟩ - hn
    obtain ⟨⟨α, hα⟩, hp, -, -⟩ := id h
    have hcloser := HBM3Stack.due_next hp (ready_of_cmd memMode hα) hn
    exact ⟨_, hcloser.trans_le hk, reached_next h, le_rfl⟩
  obtain ⟨a, i, b, rfl, hle, hbegins⟩ := reaches (P := fun r _ => Begins r.split.hbm)
    (fun k r => Reached r ∧ due r.split.hbm ≤ k) hstep ⟨hreached, HBM3Stack.due_le hreached.paced⟩ (always_true _ _ ins) hlen
  refine ⟨a, i :: b, rfl, Nat.lt_succ_of_le hle, hbegins, fun more hmore => ?_⟩
  have hr : Reached (run (next memMode) (run (next memMode) (reset g) before) a) := by
    rw [← run_append]
    exact reached_run g _
  exact refresh_run hr hbegins hmore

/-- the external GPU port keeps storing -/
theorem refresh_in_time_storing : ∃ a b, List.replicate 114 Noninterference.storing = a ++ b ∧ a.length < 114 ∧
    Begins (run (next 0) (run (next 0) (reset leftover) [Noninterference.storing]) a).split.hbm := by
  obtain ⟨a, b, hins, hlen, hbegins, -⟩ := refresh_in_time 0 leftover [Noninterference.storing]
    (List.replicate 114 Noninterference.storing) (by simp)
  exact ⟨a, b, hins, hlen, hbegins⟩

end AegisSoc.Refresh
