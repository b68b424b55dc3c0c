/-
The arbitration front-end of the shared stack (`memory/SplitPrioritizer.scala`): three ports, one `HBM3Stack`, a
rotating-priority selector with a CPU-priority override, and source tags that route the response back.

Results, over every run from reset, whatever the requests, the ready patterns and the mode (which may change):
- `sim_step`: one cycle refines a three-port atomic memory of 256 lines indexed by `addr[13:6]` (`line`);
- `refines_atomic`: the events of a whole run, read back as accepted requests and responses;
- `offered`: an accepted request is offered its response after at most `tPRE + tACT` cycles, and from then on until
  the port takes it.
-/
import AegisSoc.Memory.HBM3Stack
import AegisSoc.Lib.RoundRobin

namespace AegisSoc.SplitPrioritizer

open Machine PortMemory

/-! ## Model -/

inductive Port where
  | cpu
  | gpu
  | acc
deriving DecidableEq, Repr

instance : Fintype Port := ⟨{.cpu, .gpu, .acc}, fun p => by cases p <;> decide⟩

/-- the position of a port in the selector -/
def Port.index : Port → ℕ
  | .cpu => 0
  | .gpu => 1
  | .acc => 2

/-- the ports by position -/
def Port.ofIndex : ℕ → Port
  | 0 => .cpu
  | 1 => .gpu
  | _ => .acc

def modeGaming : BitVec 2 := 1
def modeAi : BitVec 2 := 2

structure Reg where
  hbm : HBM3Stack.Reg HBM3Stack.defaultGeometry
  rr : BitVec 2
  srcCpu : Bool
  srcGpu : Bool

structure In where
  reqValid : Port → Bool
  req : Port → MemReq
  respReady : Port → Bool
  mode : BitVec 2

def cpuPriority (i : In) : Bool := i.mode == modeGaming || i.mode == modeAi

def any (i : In) : Bool := i.reqValid .cpu || i.reqValid .gpu || i.reqValid .acc

/-- rotating priority: `rr` is the port served last -/
def fairSel (r : Reg) (i : In) : BitVec 2 :=
  BitVec.ofNat 2 (RoundRobin.select 3 r.rr.toNat fun k => i.reqValid (Port.ofIndex k))

def sel (r : Reg) (i : In) : BitVec 2 := if cpuPriority i && i.reqValid .cpu then 0 else fairSel r i

def serve (r : Reg) (i : In) (p : Port) : Bool := any i && sel r i == BitVec.ofNat 2 p.index

/-- the request forwarded to the stack -/
def hbmReq (r : Reg) (i : In) : MemReq :=
  if serve r i .cpu then i.req .cpu
  else if serve r i .gpu then i.req .gpu
  else if serve r i .acc then i.req .acc
  else ⟨0, 0, false⟩

def hbmIn (r : Reg) (i : In) : HBM3Stack.In where
  reqValid := any i
  req := hbmReq r i
  respReady := if r.srcCpu then i.respReady .cpu else if r.srcGpu then i.respReady .gpu else i.respReady .acc
  openPage := i.mode == modeAi

def reqReady (r : Reg) (i : In) (p : Port) : Bool := HBM3Stack.reqReady r.hbm && serve r i p

def respValid (r : Reg) : Port → Bool
  | .cpu => HBM3Stack.respValid r.hbm && r.srcCpu
  | .gpu => HBM3Stack.respValid r.hbm && r.srcGpu
  | .acc => HBM3Stack.respValid r.hbm && !r.srcCpu && !r.srcGpu

/-- the response bits, the same on all three ports -/
def respBits (r : Reg) : BitVec 512 := HBM3Stack.respBits r.hbm

def reset (rAddr : BitVec 64) (rData : BitVec 512) (rW : Bool) : Reg where
  hbm := HBM3Stack.reset _ rAddr rData rW
  rr := 0
  srcCpu := true
  srcGpu := false

def next (r : Reg) (i : In) : Reg where
  hbm := HBM3Stack.next r.hbm (hbmIn r i)
  rr := if HBM3Stack.reqFire r.hbm (hbmIn r i) then sel r i else r.rr
  srcCpu := if HBM3Stack.reqFire r.hbm (hbmIn r i) then serve r i .cpu else r.srcCpu
  srcGpu := if HBM3Stack.reqFire r.hbm (hbmIn r i) then serve r i .gpu else r.srcGpu

/-- port `p`'s request is accepted in this cycle -/
def reqFire (r : Reg) (i : In) (p : Port) : Bool := i.reqValid p && reqReady r i p

/-- port `p` takes its response in this cycle -/
def respFire (r : Reg) (i : In) (p : Port) : Bool := respValid r p && i.respReady p

/-- the handshakes of one cycle -/
def ev (r : Reg) (i : In) : List (Ev Port MemReq (BitVec 512)) :=
  [Port.cpu, .gpu, .acc].flatMap fun p =>
    (if reqFire r i p then [.accept p (i.req p)] else []) ++ (if respFire r i p then [.respond p (respBits r)] else [])

/-! ## Grants -/

/-- in a cycle with a request some port is served, and the served port does request -/
theorem exists_serve {i : In} (r : Reg) (h : any i = true) : ∃ p, serve r i p = true ∧ i.reqValid p = true := by
  cases hc : cpuPriority i && i.reqValid .cpu
  · obtain ⟨q, hq⟩ : ∃ k < 3, i.reqValid (Port.ofIndex k) = true := by
      simp only [any, Bool.or_eq_true] at h
      rcases h with (h | h) | h
      exacts [⟨0, by omega, h⟩, ⟨1, by omega, h⟩, ⟨2, by omega, h⟩]
    have hv := RoundRobin.select_valid (v := fun k => i.reqValid (Port.ofIndex k)) ⟨q, hq⟩ r.rr.toNat
    have hlt := RoundRobin.select_lt (by omega : 0 < 3) r.rr.toNat fun k => i.reqValid (Port.ofIndex k)
    refine ⟨_, ?_, hv⟩
    simp only [serve, h, sel, hc, fairSel, Bool.false_eq_true, ite_false, Bool.true_and, beq_iff_eq]
    generalize RoundRobin.select 3 r.rr.toNat (fun k => i.reqValid (Port.ofIndex k)) = k at hlt
    interval_cases k <;> rfl
  · exact ⟨.cpu, by simp only [serve, h, sel, hc, ite_true]; rfl, ((Bool.and_eq_true _ _).mp hc).2⟩

theorem serve_unique {r : Reg} {i : In} {p q : Port} (hp : serve r i p = true) (hq : serve r i q = true) : p = q := by
  simp only [serve, Bool.and_eq_true, beq_iff_eq] at hp hq
  have h := hp.2.symm.trans hq.2
  cases p <;> cases q <;> first | rfl | exact absurd h (by decide)

theorem hbmReq_of_serve {r : Reg} {i : In} {p : Port} (h : serve r i p = true) : hbmReq r i = i.req p := by
  have hne : ∀ q, q ≠ p → serve r i q = false := fun q hq => by
    cases hs : serve r i q
    · rfl
    · exact absurd (serve_unique hs h) hq
  cases p with
  | cpu => simp [hbmReq, h]
  | gpu => simp [hbmReq, h, hne .cpu (by decide)]
  | acc => simp [hbmReq, h, hne .cpu (by decide), hne .gpu (by decide)]

/-- a port is accepted exactly when the stack fires and the port is served -/
theorem reqFire_iff {r : Reg} {i : In} {p : Port} :
    reqFire r i p = true ↔ HBM3Stack.reqFire r.hbm (hbmIn r i) = true ∧ serve r i p = true := by
  simp only [reqFire, reqReady, HBM3Stack.reqFire, hbmIn, Bool.and_eq_true]
  constructor
  · rintro ⟨-, hr, hs⟩
    have ha : any i = true := ((Bool.and_eq_true _ _).mp hs).1
    exact ⟨⟨ha, hr⟩, hs⟩
  · rintro ⟨⟨ha, hr⟩, hs⟩
    obtain ⟨q, hq, hv⟩ := exists_serve r ha
    exact ⟨serve_unique hq hs ▸ hv, hr, hs⟩

/-- **At most one port is accepted in a cycle.** -/
theorem reqFire_unique {r : Reg} {i : In} {p q : Port} (hp : reqFire r i p = true) (hq : reqFire r i q = true) :
    p = q :=
  serve_unique (reqFire_iff.1 hp).2 (reqFire_iff.1 hq).2

theorem accept_mem_ev {r : Reg} {i : In} {p : Port} {q : MemReq} :
    .accept p q ∈ ev r i ↔ reqFire r i p = true ∧ q = i.req p := by
  cases p <;> simp [ev]

theorem respond_mem_ev {r : Reg} {i : In} {p : Port} {d : BitVec 512} :
    .respond p d ∈ ev r i ↔ respFire r i p = true ∧ d = respBits r := by
  cases p <;> simp [ev]

/-! ## Refinement of a three-port atomic memory -/

/-- the port the response goes to -/
def src (r : Reg) : Port := if r.srcCpu then .cpu else if r.srcGpu then .gpu else .acc

/-- the line of an address: only `addr[13:6]` is decoded -/
def line (a : BitVec 64) : BitVec 8 := a.extractLsb' 6 8

/-- what a request does to the shared memory -/
def access (q : MemReq) : Access (BitVec 8) (BitVec 512) := q.access line

/-- the line held at an array index: row, bank and column put back in address order -/
def lineOf (k : HBM3Stack.Idx HBM3Stack.defaultGeometry) : BitVec 8 :=
  k.extractLsb' 3 3 ++ k.extractLsb' 6 2 ++ k.extractLsb' 0 3

theorem lineOf_idx (a : BitVec 64) : lineOf (HBM3Stack.idx HBM3Stack.defaultGeometry a) = line a := by
  apply BitVec.eq_of_getLsbD_eq
  intro i hi
  simp only [lineOf, HBM3Stack.idx, HBM3Stack.bank, HBM3Stack.row, HBM3Stack.col, line, HBM3Stack.lineAddr,
    BitVec.getLsbD_append, BitVec.getLsbD_extractLsb']
  interval_cases i <;> simp

theorem lineOf_injective : Function.Injective lineOf := by
  have hinv : ∀ k : BitVec 8,
      (lineOf k).extractLsb' 3 2 ++ (lineOf k).extractLsb' 5 3 ++ (lineOf k).extractLsb' 0 3 = k := by
    decide
  intro k k' h
  rw [← hinv k, h]
  exact hinv k'

/-- the three-port memory as the one-port memory of the stack -/
def flat (α : St Port (BitVec 8) (BitVec 512)) : St Unit (HBM3Stack.Idx HBM3Stack.defaultGeometry) (BitVec 512) :=
  ⟨fun k => α.mem (lineOf k), α.pending.map fun x => ((), x.2)⟩

theorem flat_accept (α : St Port (BitVec 8) (BitVec 512)) (p : Port) (q : MemReq) :
    flat (PortMemory.next access α (.accept p q)) =
      PortMemory.next (HBM3Stack.access _) (flat α) (.accept () q) := by
  cases hw : q.isWrite
  · simp [flat, PortMemory.next, apply, answer, access, HBM3Stack.access, MemReq.access, hw, lineOf_idx]
  · have hmem := Function.update_comp_eq_of_injective α.mem lineOf_injective (HBM3Stack.idx _ q.addr) q.data
    rw [lineOf_idx] at hmem
    simp only [flat, PortMemory.next, apply, answer, access, HBM3Stack.access, MemReq.access, hw, ite_true, Option.map_some]
    exact congrArg (fun m => (⟨m, some ((), 0)⟩ : St Unit _ _)) hmem

structure Rel (r : Reg) (α : St Port (BitVec 8) (BitVec 512)) : Prop where
  stack : HBM3Stack.Rel r.hbm (flat α)
  tags : (r.srcCpu && r.srcGpu) = false
  owner : ∀ p d, α.pending = some (p, d) → p = src r

theorem rel_reset (a : BitVec 64) (d : BitVec 512) (w : Bool) : Rel (reset a d w) ⟨fun _ => 0, none⟩ :=
  ⟨HBM3Stack.rel_reset _ a d w, rfl, fun _ _ h => by simp at h⟩

theorem respValid_iff {r : Reg} (h : (r.srcCpu && r.srcGpu) = false) (p : Port) :
    respValid r p = true ↔ HBM3Stack.respValid r.hbm = true ∧ p = src r := by
  cases p <;> cases hc : r.srcCpu <;> cases hg : r.srcGpu <;> simp_all [respValid, src]

theorem hbmIn_respReady (r : Reg) (i : In) : (hbmIn r i).respReady = i.respReady (src r) := by
  simp only [hbmIn, src]
  split_ifs <;> rfl

/-- the three things a cycle can show: one accepted request, one response, or nothing -/
theorem ev_cases {r : Reg} (h : (r.srcCpu && r.srcGpu) = false) (i : In) :
    (HBM3Stack.reqFire r.hbm (hbmIn r i) = true ∧ HBM3Stack.respFire r.hbm (hbmIn r i) = false ∧
      ∃ p, serve r i p = true ∧ ev r i = [.accept p (i.req p)]) ∨
    (HBM3Stack.reqFire r.hbm (hbmIn r i) = false ∧ HBM3Stack.respFire r.hbm (hbmIn r i) = true ∧
      ev r i = [.respond (src r) (respBits r)]) ∨
    (HBM3Stack.reqFire r.hbm (hbmIn r i) = false ∧ HBM3Stack.respFire r.hbm (hbmIn r i) = false ∧ ev r i = []) := by
  have hresp : ∀ p, respFire r i p = (HBM3Stack.respFire r.hbm (hbmIn r i) && decide (p = src r)) := fun p => by
    rw [Bool.eq_iff_iff]
    simp only [respFire, HBM3Stack.respFire, Bool.and_eq_true, respValid_iff h, hbmIn_respReady, decide_eq_true_eq]
    constructor
    · rintro ⟨⟨hv, rfl⟩, hr⟩; exact ⟨⟨hv, hr⟩, rfl⟩
    · rintro ⟨⟨hv, hr⟩, rfl⟩; exact ⟨⟨hv, rfl⟩, hr⟩
  cases hf : HBM3Stack.reqFire r.hbm (hbmIn r i)
  · have hreq : ∀ p, reqFire r i p = false := fun p => by
      cases hp : reqFire r i p
      · rfl
      · rw [(reqFire_iff.1 hp).1] at hf; simp at hf
    right
    cases hv : HBM3Stack.respFire r.hbm (hbmIn r i)
    · exact Or.inr ⟨rfl, rfl, by simp [ev, hreq, hresp, hv]⟩
    · refine Or.inl ⟨rfl, rfl, ?_⟩
      cases hs : src r <;> simp [ev, hreq, hresp, hv, hs]
  · left
    have hv : HBM3Stack.respFire r.hbm (hbmIn r i) = false := by
      simp only [HBM3Stack.reqFire, HBM3Stack.reqReady, Bool.and_eq_true, beq_iff_eq] at hf
      simp [HBM3Stack.respFire, HBM3Stack.respValid, hf.2.1]
    obtain ⟨p, hp, -⟩ := exists_serve r (i := i) (by
      simp only [HBM3Stack.reqFire, Bool.and_eq_true] at hf; exact hf.1)
    have hreq : ∀ q, reqFire r i q = decide (q = p) := fun q => by
      rw [Bool.eq_iff_iff, reqFire_iff, decide_eq_true_eq]
      exact ⟨fun hq => serve_unique hq.2 hp, fun hq => ⟨hf, hq ▸ hp⟩⟩
    refine ⟨rfl, hv, p, hp, ?_⟩
    cases p <;> simp [ev, hreq, hresp, hv]

/-- the tags name the port whose request was accepted -/
theorem src_next {r : Reg} {i : In} {p : Port} (hf : HBM3Stack.reqFire r.hbm (hbmIn r i) = true)
    (hp : serve r i p = true) : src (next r i) = p := by
  have hne : ∀ q, q ≠ p → serve r i q = false := fun q hq => by
    cases hs : serve r i q
    · rfl
    · exact absurd (serve_unique hs hp) hq
  cases p with
  | cpu => simp [src, next, hf, hp]
  | gpu => simp [src, next, hf, hp, hne .cpu (by decide)]
  | acc => simp [src, next, hf, hne .cpu (by decide), hne .gpu (by decide)]

/-- **One cycle refines the atomic memory.** -/
theorem sim_step (r : Reg) (α : St Port (BitVec 8) (BitVec 512)) (i : In) (h : Rel r α) :
    Trace access α (ev r i) ∧ Rel (next r i) (after access α (ev r i)) := by
  obtain ⟨ht, hr⟩ := HBM3Stack.sim_step r.hbm (flat α) (hbmIn r i) h.stack
  rcases ev_cases h.tags i with ⟨hf, hv, p, hp, he⟩ | ⟨hf, hv, he⟩ | ⟨hf, hv, he⟩
  · have hreq : (hbmIn r i).req = i.req p := hbmReq_of_serve hp
    simp only [HBM3Stack.ev, hf, hv, hreq, Bool.false_eq_true, ite_true, ite_false, List.append_nil] at ht hr
    rw [he]
    refine ⟨⟨?_, trivial⟩, ?_⟩
    · have hn : (flat α).pending = none := ht.1
      exact Option.map_eq_none_iff.1 hn
    have hsrc := src_next hf hp
    refine ⟨?_, ?_, ?_⟩
    · rw [after_cons, after_nil, flat_accept]; exact hr
    · simp only [next, hf, ite_true]
      cases hc : serve r i .cpu
      · rfl
      · cases hg : serve r i .gpu
        · rfl
        · exact absurd (serve_unique hc hg) (by decide)
    · intro p' d' hp'
      rw [hsrc]
      simp only [after_cons, after_nil, PortMemory.next, Option.some.injEq, Prod.mk.injEq] at hp'
      exact hp'.1.symm
  · simp only [HBM3Stack.ev, hf, hv, Bool.false_eq_true, ite_true, ite_false, List.nil_append] at ht hr
    rw [he]
    have hp : (flat α).pending = some ((), respBits r) := ht.1
    obtain ⟨x, hx, hd⟩ := Option.map_eq_some_iff.1 hp
    have howner := h.owner x.1 x.2 hx
    have hd : x.2 = respBits r := by simpa using hd
    refine ⟨⟨?_, trivial⟩, ?_, ?_, ?_⟩
    · show α.pending = some (src r, respBits r)
      rw [hx, ← hd, ← howner]
    · exact hr
    · simp only [next, hf, Bool.false_eq_true, ite_false]; exact h.tags
    · intro p' d' hp'
      simp [PortMemory.next] at hp'
  · simp only [HBM3Stack.ev, hf, hv, Bool.false_eq_true, ite_false, List.append_nil] at ht hr
    rw [he]
    refine ⟨trivial, hr, ?_, ?_⟩
    · simp only [next, hf, Bool.false_eq_true, ite_false]; exact h.tags
    · intro p' d' hp'
      have := h.owner p' d' hp'
      simpa only [src, next, hf, Bool.false_eq_true, ite_false] using this

/-! ## The request in the stack -/

/-- the request accepted in a cycle, as the stack sees it -/
theorem accepted_ev {r : Reg} (h : (r.srcCpu && r.srcGpu) = false) (i : In) :
    (accepted (ev r i)).map Prod.snd = if HBM3Stack.reqFire r.hbm (hbmIn r i) then [(hbmIn r i).req] else [] := by
  rcases ev_cases h i with ⟨hf, -, p, hp, he⟩ | ⟨hf, -, he⟩ | ⟨hf, -, he⟩
  · rw [hf, he, if_pos rfl, show (hbmIn r i).req = i.req p from hbmReq_of_serve hp]
    rfl
  · rw [hf, he]
    rfl
  · rw [hf, he]
    rfl

/-- the request in the stack is the last one accepted, from the port the tags name -/
def Last (r : Reg) (es : List (Ev Port MemReq (BitVec 512))) : Prop :=
  HBM3Stack.busy r.hbm = true → ∃ before, accepted es = before ++ [(src r, HBM3Stack.captured r.hbm)]

theorem last_step {r : Reg} {es : List (Ev Port MemReq (BitVec 512))} (ht : (r.srcCpu && r.srcGpu) = false)
    (h : Last r es) (i : In) : Last (next r i) (es ++ ev r i) := by
  intro hb
  rw [accepted_append]
  cases hf : HBM3Stack.reqFire r.hbm (hbmIn r i) with
  | true =>
    rcases ev_cases ht i with ⟨-, -, p, hp, he⟩ | ⟨hf', -⟩ | ⟨hf', -⟩
    · have hcap : HBM3Stack.captured (next r i).hbm = i.req p := by
        rw [← hbmReq_of_serve hp]
        exact (congrArg _ (HBM3Stack.next_of_reqFire hf)).trans (HBM3Stack.captured_accept _ _)
      exact ⟨accepted es, by rw [he, src_next hf hp, hcap]; rfl⟩
    · exact absurd (hf'.symm.trans hf) Bool.false_ne_true
    · exact absurd (hf'.symm.trans hf) Bool.false_ne_true
  | false =>
    obtain ⟨hcap, hbusy⟩ := HBM3Stack.captured_next hf
    obtain ⟨before, hlast⟩ := h (hbusy hb)
    have hnone : accepted (ev r i) = [] := by simpa [hf] using accepted_ev ht i
    have hsrc : src (next r i) = src r := by simp [src, next, hf]
    exact ⟨before, by rw [hnone, List.append_nil, hlast, hsrc, show HBM3Stack.captured (next r i).hbm = _ from hcap]⟩

/-! ## Whole runs -/

/-- the shared memory after the requests accepted so far -/
def memory (es : List (Ev Port MemReq (BitVec 512))) : BitVec 8 → BitVec 512 :=
  memAfter access (fun _ => 0) ((accepted es).map Prod.snd)

theorem run_trace (a : BitVec 64) (d : BitVec 512) (w : Bool) (ins : List In) :
    Trace access ⟨fun _ => 0, none⟩ (collect next ev (reset a d w) ins) ∧
      Rel (run next (reset a d w) ins) (after access ⟨fun _ => 0, none⟩ (collect next ev (reset a d w) ins)) :=
  trace_run Rel sim_step (rel_reset a d w) ins

theorem run_timed (a : BitVec 64) (d : BitVec 512) (w : Bool) (ins : List In) :
    HBM3Stack.Timed (run next (reset a d w) ins).hbm :=
  run_inv (fun r : Reg => HBM3Stack.Timed r.hbm) (fun _ _ h _ => HBM3Stack.timed_next _ _ h)
    (HBM3Stack.timed_reset _ a d w) (always_true _ _ _)

theorem Rel.busy_iff {r : Reg} {α : St Port (BitVec 8) (BitVec 512)} (h : Rel r α) :
    HBM3Stack.busy r.hbm = true ↔ ∃ d, α.pending = some (src r, d) := by
  constructor
  · intro hb
    obtain ⟨⟨p, d⟩, hx, -⟩ := Option.map_eq_some_iff.1 (h.stack.owed hb)
    exact ⟨d, by rw [hx, h.owner p d hx]⟩
  · rintro ⟨d, hd⟩
    cases hb : HBM3Stack.busy r.hbm
    · have := h.stack.free hb
      simp [flat, hd] at this
    · rfl

/-- a response valid on a port is the answer the atomic memory owes to it -/
theorem Rel.respValid {r : Reg} {α : St Port (BitVec 8) (BitVec 512)} (h : Rel r α) {p : Port}
    (hv : respValid r p = true) : α.pending = some (p, respBits r) := by
  obtain ⟨hc, rfl⟩ := (respValid_iff h.tags p).1 hv
  have hb : HBM3Stack.busy r.hbm = true := by
    simp only [HBM3Stack.respValid, beq_iff_eq] at hc; simp [HBM3Stack.busy, hc]
  obtain ⟨d, hd⟩ := h.busy_iff.1 hb
  have hbits : (flat α).pending = some ((), respBits r) := HBM3Stack.respBits_owed h.stack hb
  have hd' : d = respBits r := by simpa [flat, hd] using hbits
  rw [hd, hd']

/-- an outstanding request is answered, or its response is offered, once its lag has passed -/
theorem offered (more : List In) (r : Reg) (α : St Port (BitVec 8) (BitVec 512)) (h : Rel r α)
    (ht : HBM3Stack.Timed r.hbm) (hb : HBM3Stack.busy r.hbm = true) (hl : HBM3Stack.lag r.hbm ≤ more.length) :
    responses (collect next ev r more) ≠ [] ∨ respValid (run next r more) (src r) = true := by
  induction more generalizing r α with
  | nil =>
    right
    have hs := HBM3Stack.cmd_of_lag_zero ht hb (by simpa using hl)
    exact (respValid_iff h.tags _).2 ⟨by simp [HBM3Stack.respValid, hs], rfl⟩
  | cons i more ih =>
    obtain ⟨-, hrel⟩ := sim_step r α i h
    have ht' := HBM3Stack.timed_next r.hbm (hbmIn r i) ht
    have hq : HBM3Stack.reqFire r.hbm (hbmIn r i) = false := by
      cases hs : r.hbm.state <;> simp [HBM3Stack.busy, HBM3Stack.reqFire, HBM3Stack.reqReady, hs] at hb ⊢
    have hsrc : src (next r i) = src r := by simp [src, next, hq]
    rcases ev_cases h.tags i with ⟨hf, -⟩ | ⟨-, -, he⟩ | ⟨-, hv, he⟩
    · simp [hq] at hf
    · left
      simp [he, responses]
    · rw [he] at hrel
      rw [collect_cons, he, List.nil_append, run_cons, ← hsrc]
      by_cases hs : r.hbm.state = .cmd
      · have hstall : (hbmIn r i).respReady = false := by
          simpa [HBM3Stack.respFire, HBM3Stack.respValid, hs] using hv
        have hs' : (next r i).hbm.state = .cmd := by simp [next, HBM3Stack.next, hs, hstall]
        exact ih _ _ hrel ht' (by simp [HBM3Stack.busy, hs']) (by simp [HBM3Stack.lag, hs'])
      · obtain ⟨hb', hl'⟩ := HBM3Stack.lag_next r.hbm (hbmIn r i) ht hb hs
        refine ih _ _ hrel ht' hb' ?_
        have : HBM3Stack.lag (next r i).hbm + 1 ≤ more.length + 1 := hl'.trans_le hl
        omega

/-- **The stack behind the prioritizer is one atomic memory.** After any run from reset, with the handshakes `es` it
showed:
- the next cycle accepts at most one request, and only when every accepted request has been answered;
- the responses are, in order, the answers (port and value) of the accepted requests applied one by one to 256 zero
  lines, and at most the last accepted request is still unanswered;
- a response handed over in the next cycle goes to the port of the last accepted request, which is the one
  outstanding; its value is the line after all the earlier accepted writes for a read, and zero for a write;
- an outstanding request is answered within `tPRE + tACT` further cycles, or from then on offered its response. -/
theorem refines_atomic (a : BitVec 64) (d : BitVec 512) (w : Bool) (ins : List In) :
    let r := run next (reset a d w) ins
    let es := collect next ev (reset a d w) ins
    (∀ i p q, reqFire r i p = true → reqFire r i q = true → p = q) ∧
    (∀ i p, reqFire r i p = true → (accepted es).length = (responses es).length) ∧
    responses es <+: answers access (fun _ => 0) (accepted es) ∧
    (accepted es).length ≤ (responses es).length + 1 ∧
    (∀ i p, respFire r i p = true → ∃ before q, accepted es = before ++ [(p, q)] ∧
      (responses es).length = before.length ∧
      respBits r = if q.isWrite then 0 else memAfter access (fun _ => 0) (before.map Prod.snd) (line q.addr)) ∧
    (∀ before p q, accepted es = before ++ [(p, q)] → (responses es).length = before.length →
      ∀ more, HBM3Stack.tPRE + HBM3Stack.tACT ≤ more.length →
        responses (collect next ev r more) ≠ [] ∨ respValid (run next r more) p = true) := by
  intro r es
  obtain ⟨ht, hrel⟩ := run_trace a d w ins
  have heq : answers access (fun _ => 0) (accepted es) =
      responses es ++ (after access ⟨fun _ => 0, none⟩ es).pending.toList := ht.answers_eq
  have hlen := congrArg List.length heq
  refine ⟨fun i p q => reqFire_unique, fun i p hp => ?_, ⟨_, heq.symm⟩, ?_, fun i p hp => ?_, ?_⟩
  · have htr := (sim_step _ _ i hrel).1
    rcases ev_cases hrel.tags i with ⟨-, -, q, -, he⟩ | ⟨hf, -⟩ | ⟨hf, -⟩
    · rw [he] at htr
      exact ht.pending_none_iff.1 htr.1
    · rw [(reqFire_iff.1 hp).1] at hf; simp at hf
    · rw [(reqFire_iff.1 hp).1] at hf; simp at hf
  · have hle : (after access ⟨fun _ => 0, none⟩ es).pending.toList.length ≤ 1 := by
      cases (after access ⟨fun _ => 0, none⟩ es).pending <;> simp
    simp only [answers_length, List.length_append] at hlen
    omega
  · have hv : respValid r p = true := ((Bool.and_eq_true _ _).mp hp).1
    obtain ⟨before, q, h1, h2, h3⟩ := ht.pending_last (hrel.respValid hv)
    exact ⟨before, q, h1, h2, h3⟩
  · intro before p q hacc hresp more hmore
    have hne : (after access ⟨fun _ => 0, none⟩ es).pending ≠ none := by
      rw [Ne, ht.pending_none_iff]
      simp [es] at hacc hresp ⊢
      simp [hacc, hresp]
    obtain ⟨⟨p', d'⟩, hp'⟩ := Option.ne_none_iff_exists'.1 hne
    obtain ⟨before', q', h1, -, -⟩ := ht.pending_last hp'
    have hpp : p = p' := by
      have := (List.append_inj' (hacc.symm.trans h1) rfl).2
      simp at this; exact this.1
    have hsrc := hrel.owner p' d' hp'
    rw [hpp, hsrc]
    exact offered more r _ hrel (run_timed a d w ins) (hrel.busy_iff.2 ⟨d', by rw [hp', hsrc]⟩)
      ((HBM3Stack.lag_le _).trans hmore)

end AegisSoc.SplitPrioritizer
