/-
How long a port of `SplitPrioritizer` waits, when every port takes its responses as soon as they are offered.

The time of the shared stack goes to three things: the request it serves, which takes at most `slot` cycles, the requests of
ports that come first in the rotation, and the refresh, which comes when the countdown has run out and takes `tREF + 2`
cycles. `wait t` adds them up for a request that has `t` others before it; a refresh in between is counted if the countdown
is so low that it comes before the last of them.

- `wait_ready`, `wait_accept`: every cycle brings the request closer, whichever other request is accepted;
- `lag_closer`: after that every cycle brings the response closer;
- `served_in_time`: a port that keeps requesting is accepted after at most `tPRE + tACT + 1 + (tREF + 2) + 2 * slot` cycles,
  in the modes without CPU priority, and the CPU port after at most `tPRE + tACT + 1 + (tREF + 2)` in those with it.
-/
import AegisSoc.Memory.Fairness

namespace AegisSoc.HBM3Stack

/-! ## The pace of the stack -/

section Pace

variable {g : Geometry} {r : Reg g} {i : In} {t : ℕ}

/-- the counters stay in the ranges that their phases give them -/
structure Paced (r : Reg g) : Prop where
  timed : Timed r
  ref : r.state = .ref → r.cnt.toNat ≤ tREF
  refCnt : r.refCnt.toNat ≤ tREF

/-- the cycles a request takes, with a precharge and an activation, and its response taken at once -/
def slot : ℕ := tPRE + tACT + 2

/-- the cycles of a refresh that comes before `t + 1` requests have been accepted -/
def refresh (t : ℕ) (r : Reg g) : ℕ := if r.refCnt.toNat ≤ t then tREF + 2 else 0

/-- the cycles before the stack is ready for a request with `t` others before it, if these take as long as they can -/
def wait (t : ℕ) (r : Reg g) : ℕ :=
  match r.state with
  | .idle => refresh t r + slot * t
  | .ref => tREF + 1 - r.cnt.toNat + slot * t
  | _ => lag r + 1 + refresh t r + slot * t

theorem wait_le (t : ℕ) (r : Reg g) : wait t r ≤ tPRE + tACT + 1 + (tREF + 2) + slot * t := by
  have hlag := lag_le r
  have href : refresh t r ≤ tREF + 2 := by unfold refresh; split_ifs <;> omega
  unfold wait
  split <;> omega

theorem lag_lt_slot (r : Reg g) : lag r + 1 < slot :=
  Nat.add_lt_add_right (Nat.lt_succ_of_le (lag_le r)) 1

theorem paced_reset (g : Geometry) (a : BitVec 64) (d : BitVec 512) (w : Bool) : Paced (reset g a d w) :=
  ⟨timed_reset g a d w, fun h => absurd h (by simp [reset]), by simp [reset, tREF]⟩

theorem toNat_pred {c : BitVec 5} (h : c ≠ 0) : (c - 1).toNat + 1 = c.toNat := by
  have hpos : c.toNat ≠ 0 := fun h0 => h (BitVec.eq_of_toNat_eq h0)
  rw [BitVec.toNat_sub]
  have := c.isLt
  simp
  omega

theorem accept_pace (r : Reg g) (q : MemReq) :
    lag (accept r q) ≤ tPRE + tACT ∧ (accept r q).refCnt = r.refCnt - 1 := by
  refine ⟨lag_le _, ?_⟩
  unfold accept
  dsimp only
  split_ifs <;> rfl

theorem paced_next (r : Reg g) (i : In) (h : Paced r) : Paced (next r i) := by
  refine ⟨timed_next r i h.timed, fun hs' => ?_, ?_⟩
  · cases hs : r.state with
    | idle =>
      have hacc : (accept r i.req).state ≠ .ref := fun hc => by
        have hb := busy_accept r i.req
        simp [busy, hc] at hb
      simp only [next, hs] at hs' ⊢
      split_ifs at hs' ⊢
      · exact Nat.zero_le _
      · exact absurd hs' hacc
    | prech =>
      simp only [next, hs] at hs'
      split_ifs at hs'
    | act =>
      simp only [next, hs] at hs'
      split_ifs at hs'
    | cmd =>
      simp only [next, hs] at hs'
      split_ifs at hs'
    | ref =>
      have hcnt := h.ref hs
      simp only [next, hs] at hs' ⊢
      split_ifs at hs' ⊢ with hc
      have hne : r.cnt.toNat ≠ tREF := fun he => hc (BitVec.eq_of_toNat_eq he)
      simp only [BitVec.toNat_add, tREF] at hcnt hne ⊢
      simp
      omega
  · have hle := h.refCnt
    cases hs : r.state with
    | idle =>
      simp only [next, hs]
      split_ifs with h0 hf
      · exact hle
      · rw [(accept_pace r i.req).2]
        have := toNat_pred h0
        omega
      · have := toNat_pred h0
        simp only
        omega
    | prech => simp only [next, hs]; split_ifs <;> exact hle
    | act => simp only [next, hs]; split_ifs <;> exact hle
    | cmd => simpa only [next, hs] using hle
    | ref =>
      simp only [next, hs]
      split_ifs
      · simp [tREF]
      · exact hle

theorem wait_of_busy (hb : busy r = true) : wait t r = lag r + 1 + refresh t r + slot * t := by
  cases hs : r.state <;> simp [busy, hs] at hb <;> simp only [wait, hs]

/-- the countdown stands still while a request is served -/
theorem refCnt_of_busy (hb : busy r = true) : (next r i).refCnt = r.refCnt := by
  cases hs : r.state <;> simp [busy, hs] at hb <;> simp only [next, hs] <;> split_ifs <;> rfl

theorem wait_serving (h : Paced r) (hb : busy r = true) (hc : r.state ≠ .cmd) : wait t (next r i) < wait t r := by
  obtain ⟨hb', hl⟩ := lag_next r i h.timed hb hc
  rw [wait_of_busy hb, wait_of_busy hb', refresh, refresh, refCnt_of_busy hb]
  omega

/-- a cycle of a refresh: its last one starts the countdown again -/
theorem next_ref (h : Paced r) (hs : r.state = .ref) (i : In) :
    (r.cnt.toNat = tREF ∧ next r i = { r with cnt := 0, refCnt := BitVec.ofNat 5 tREF, state := .idle }) ∨
    (r.cnt.toNat < tREF ∧ next r i = { r with cnt := r.cnt + 1 } ∧ (r.cnt + 1).toNat = r.cnt.toNat + 1) := by
  have hcnt := h.ref hs
  simp only [next, hs]
  split_ifs with hc
  · exact .inl ⟨by rw [hc]; rfl, rfl⟩
  · have hne : r.cnt.toNat ≠ tREF := fun he => hc (BitVec.eq_of_toNat_eq he)
    refine .inr ⟨by omega, by simp only, ?_⟩
    simp only [tREF] at hcnt
    rw [BitVec.toNat_add]
    simp
    omega

/-- a stack that is not ready gets closer to it -/
theorem wait_ready (h : Paced r) (hr : reqReady r = false) (hresp : r.state = .cmd → i.respReady = true) (ht : t < tREF) :
    wait t (next r i) < wait t r := by
  cases hs : r.state with
  | idle =>
    have h0 : r.refCnt = 0 := by simpa [reqReady, hs] using hr
    simp only [next, hs, h0, if_true, wait, refresh]
    simp
  | prech => exact wait_serving h (by simp [busy, hs]) (by simp [hs])
  | act => exact wait_serving h (by simp [busy, hs]) (by simp [hs])
  | cmd =>
    simp only [next, hs, hresp hs, if_true, wait, refresh]
    omega
  | ref =>
    rcases next_ref h hs i with ⟨hcnt, hnext⟩ | ⟨hcnt, hnext, hsucc⟩
    · -- the countdown starts again, at more than the requests that are waited for
      have href : ¬ (BitVec.ofNat 5 tREF).toNat ≤ t := by simpa [tREF] using ht
      rw [hnext]
      simp only [wait, refresh, if_neg href, hs, hcnt]
      omega
    · rw [hnext]
      simp only [wait, hs, hsucc]
      omega

/-- a stack that accepts one of the requests that are waited for -/
theorem wait_accept {t' : ℕ} (hf : reqFire r i = true) (ht : t' < t) : wait t' (next r i) < wait t r := by
  have hready := hf
  simp only [reqFire, reqReady, Bool.and_eq_true, beq_iff_eq, bne_iff_ne] at hready
  obtain ⟨-, hs, h0⟩ := hready
  obtain ⟨hlag, hcnt⟩ := accept_pace r i.req
  have hpred := toNat_pred h0
  have href : refresh t' (accept r i.req) ≤ refresh t r := by
    rw [refresh, refresh, hcnt]
    split_ifs <;> omega
  have hmul : slot * t' + slot ≤ slot * t := Nat.mul_le_mul_left slot ht
  rw [next_of_reqFire hf, wait_of_busy (busy_accept r i.req)]
  simp only [wait, hs]
  simp only [slot] at hmul ⊢
  omega

end Pace

end AegisSoc.HBM3Stack

namespace AegisSoc.SplitPrioritizer

open Machine
open PortMemory (St)
open PortClient (owed owed_eq_some)

/-! ## The ports -/

variable {pr : Bool} {r : Reg} {i : In} {p : Port}

/-- the requests that are accepted before that of port `p`, at most; `pr` says that the CPU has priority -/
def turns (pr : Bool) (r : Reg) (p : Port) : ℕ := if pr then 0 else RoundRobin.ahead 3 (last r) p.index

/-- the ports whose turn comes: all of them, or the CPU if it has priority -/
def Fair (pr : Bool) (p : Port) : Prop := pr = true → p = .cpu

instance (pr : Bool) (p : Port) : Decidable (Fair pr p) := inferInstanceAs (Decidable (_ → _))

/-- the cycles before the request of port `p` is accepted, at most -/
def wait (pr : Bool) (r : Reg) (p : Port) : ℕ := HBM3Stack.wait (turns pr r p) r.hbm

/-- 23 cycles for the CPU if it has priority, and 35 for every port if it has not -/
def maxWait (pr : Bool) : ℕ :=
  HBM3Stack.tPRE + HBM3Stack.tACT + 1 + (HBM3Stack.tREF + 2) + HBM3Stack.slot * if pr then 0 else 2

theorem turns_le (pr : Bool) (r : Reg) (p : Port) : turns pr r p ≤ if pr then 0 else 2 := by
  have hlt : RoundRobin.ahead 3 (last r) p.index < 3 := RoundRobin.ahead_lt (by cases p <;> decide)
  cases pr with
  | true => exact le_rfl
  | false => exact Nat.le_of_lt_succ hlt

theorem wait_le_maxWait (pr : Bool) (r : Reg) (p : Port) : wait pr r p ≤ maxWait pr :=
  (HBM3Stack.wait_le _ _).trans (Nat.add_le_add_left (Nat.mul_le_mul_left _ (turns_le pr r p)) _)

/-- a requesting CPU that has priority is accepted by a ready stack -/
theorem cpu_first (hr : HBM3Stack.reqReady r.hbm = true) (hc : cpuPriority i = true) (hv : i.reqValid .cpu = true) :
    reqFire r i .cpu = true := by
  have ha : any i = true := by simp [any, hv]
  have hs : sel r i = 0 := by rw [sel, hc, hv]; rfl
  simp [reqFire, reqReady, hv, hr, serve, ha, hs, Port.index]

/-- **Every cycle brings the request closer**, whichever other request is accepted in it. -/
theorem wait_next (hp : HBM3Stack.Paced r.hbm) (hfair : Fair pr p) (hmode : cpuPriority i = pr) (hv : i.reqValid p = true)
    (hn : reqFire r i p = false) (hresp : r.hbm.state = .cmd → (hbmIn r i).respReady = true) :
    wait pr (next r i) p < wait pr r p := by
  have hlt : turns pr r p < HBM3Stack.tREF := (turns_le pr r p).trans_lt (by split_ifs <;> decide)
  rcases grants_cases r i with ⟨hf, -, hrr⟩ | ⟨hf, q, hq, hsel, hg, hrr⟩
  · have hready : HBM3Stack.reqReady r.hbm = false := by
      rw [Bool.eq_false_iff]
      intro hready
      have ha : any i = true := by cases p <;> simp [any, hv]
      simp [HBM3Stack.reqFire, hbmIn, ha, hready] at hf
    have hturns : turns pr (next r i) p = turns pr r p := by rw [turns, turns, last, hrr, last]
    rw [wait, hturns]
    exact HBM3Stack.wait_ready hp hready hresp hlt
  · have hready : HBM3Stack.reqReady r.hbm = true := ((Bool.and_eq_true _ _).mp hf).2
    cases hpr : pr with
    | true =>
      obtain rfl := hfair hpr
      exact absurd (hn.symm.trans (cpu_first hready (hmode.trans hpr) hv)) Bool.false_ne_true
    | false =>
      have hc : (cpuPriority i && i.reqValid .cpu) = false := by rw [hmode, hpr]; rfl
      have hserved : served r i = [RoundRobin.select 3 (last r) (requests r i)] := by
        rw [served, hg, ← index_eq_select hsel hc]
        rfl
      have hwaits : RoundRobin.Waits requests served p.index r i := by
        refine ⟨by rw [requests, ofIndex_index]; exact hv, fun hmem => ?_⟩
        obtain ⟨p', hp', hpp⟩ := List.mem_map.1 hmem
        rw [index_injective hpp, mem_grants, hn] at hp'
        exact absurd hp' Bool.false_ne_true
      have hbefore := RoundRobin.served_before (by cases p <;> decide) hwaits hserved
      rw [← index_eq_select hsel hc] at hbefore
      have hahead := RoundRobin.ahead_served (by cases p <;> decide) (by cases q <;> decide) hbefore
      rw [← last_next hrr] at hahead
      exact HBM3Stack.wait_accept hf hahead

/-- a response that is owed and not offered gets closer -/
theorem lag_closer {α : St Port (BitVec 8) (BitVec 512)} (h : Rel r α) (hp : HBM3Stack.Paced r.hbm)
    (ho : (owed p α).isSome = true) (hv : respValid r p = false) : HBM3Stack.lag (next r i).hbm < HBM3Stack.lag r.hbm := by
  obtain ⟨d, hd⟩ := Option.isSome_iff_exists.1 ho
  have hpend : α.pending = some (p, d) := owed_eq_some.1 hd
  have hsrc : p = src r := h.owner p d hpend
  have hb : HBM3Stack.busy r.hbm = true := h.busy_iff.2 ⟨d, by rw [← hsrc, hpend]⟩
  have hs : r.hbm.state ≠ .cmd := fun hs =>
    absurd (hv.symm.trans ((respValid_iff h.tags p).2 ⟨beq_iff_eq.2 hs, hsrc⟩)) Bool.false_ne_true
  exact Nat.lt_of_succ_le (HBM3Stack.lag_next r.hbm (hbmIn r i) hp.timed hb hs).2.le

/-- every response is taken in the cycle in which it is offered -/
def Prompt (r : Reg) (i : In) : Prop := ∀ p, respValid r p = true → i.respReady p = true

instance (r : Reg) (i : In) : Decidable (Prompt r i) := inferInstanceAs (Decidable (∀ _ : Port, _))

theorem Prompt.respReady (h : Prompt r i) (ht : (r.srcCpu && r.srcGpu) = false) (hs : r.hbm.state = .cmd) :
    (hbmIn r i).respReady = true := by
  rw [hbmIn_respReady]
  exact h _ ((respValid_iff ht _).2 ⟨by simp [HBM3Stack.respValid, hs], rfl⟩)

/-- **Bounded service.** After any run from reset, a port that keeps requesting while every response is taken at once is
accepted after at most 35 cycles in the modes without CPU priority, whatever the other ports ask for; the CPU is accepted
after at most 23 cycles in the modes with it. -/
theorem served_in_time (a : BitVec 64) (d : BitVec 512) (w : Bool) (before ins : List In) (pr : Bool) (p : Port)
    (hfair : Fair pr p)
    (hins : Always next (fun r i => cpuPriority i = pr ∧ i.reqValid p = true ∧ Prompt r i) (run next (reset a d w) before) ins)
    (hlen : maxWait pr < ins.length) :
    ∃ x i y, ins = x ++ i :: y ∧ x.length ≤ maxWait pr ∧ reqFire (run next (run next (reset a d w) before) x) i p = true := by
  have hinv : ∀ ins, (∃ α, Rel (run next (reset a d w) ins) α) ∧ HBM3Stack.Paced (run next (reset a d w) ins).hbm := fun ins =>
    run_inv (fun r => (∃ α, Rel r α) ∧ HBM3Stack.Paced r.hbm)
      (fun r i h _ => ⟨h.1.elim fun α hα => ⟨_, (sim_step r α i hα).2⟩, HBM3Stack.paced_next _ _ h.2⟩)
      ⟨⟨_, rel_reset a d w⟩, HBM3Stack.paced_reset _ a d w⟩ (always_true _ _ ins)
  refine reaches (P := fun r i => reqFire r i p = true) (fun k r => (∃ α, Rel r α) ∧ HBM3Stack.Paced r.hbm ∧ wait pr r p ≤ k) ?_
    ⟨(hinv before).1, (hinv before).2, wait_le_maxWait pr _ p⟩ hins hlen
  rintro k r i ⟨⟨α, hα⟩, hp, hk⟩ ⟨hmode, hv, hprompt⟩ hn
  have hlt := wait_next hp hfair hmode hv (Bool.eq_false_iff.2 hn) (hprompt.respReady hα.tags)
  exact ⟨_, hlt.trans_le hk, ⟨_, (sim_step r α i hα).2⟩, HBM3Stack.paced_next _ _ hp, le_rfl⟩

/-- with three ports that always request, the CPU has its turn -/
theorem served_in_time_cpu :
    ∃ x i y, List.replicate 36 (asking 0 [.cpu, .gpu, .acc]) = x ++ i :: y ∧ x.length ≤ 35 ∧
      reqFire (run next (reset 0 0 false) x) i .cpu = true :=
  served_in_time 0 0 false [] (List.replicate 36 (asking 0 [.cpu, .gpu, .acc])) false .cpu (by decide) (by decide +kernel)
    (by decide)

end AegisSoc.SplitPrioritizer
