/-
The GPU path: `GPUL2Cache` wired to `AXIToMemReq` as in `Top.scala`, for any number `N` of clusters. The clusters and the
memory port are free: in every cycle they drive what they like. A response on the memory port counts only while the
adapter waits for one.

A cluster request is one transaction of four handshakes: it is accepted from its cluster, issued on the memory port,
answered by the memory, and answered to the cluster.
- `phase_step`: the two machines stand in lock-step, and their states say how far the one request in hand has come;
- `exactly_once`: the handshakes of every run are whole transactions, one after another, and the beginning of at most
  one more, which the path finishes in six cycles in which neither the memory nor the cluster stalls it.
-/
import AegisSoc.Gpu.GPUL2Cache
import AegisSoc.Bridge.AXIToMemReq
import AegisSoc.Lib.Transactions

namespace AegisSoc.GpuPath

open Machine

/-! ## Model -/

structure Reg where
  l2 : GPUL2Cache.Reg
  adp : AXIToMemReq.Reg
deriving DecidableEq, Repr

structure In where
  cluster : ℕ → MemOut
  mem : MemIn

variable (N : ℕ)

/-- what the adapter sees -/
def adpIn (r : Reg) (i : In) : AXIToMemReq.In := ⟨GPUL2Cache.axiOut r.l2, i.mem⟩

def next (r : Reg) (i : In) : Reg where
  l2 := GPUL2Cache.next N r.l2 i.cluster (AXIToMemReq.axiIn r.adp (GPUL2Cache.axiOut r.l2))
  adp := AXIToMemReq.next r.adp (adpIn r i)

/-- `g` is what the adapter's registers without a reset value hold -/
def reset (g : AXIToMemReq.Reg) : Reg := ⟨GPUL2Cache.reset, AXIToMemReq.reset g⟩

/-! ## Handshakes -/

inductive Ev where
  /-- a request of cluster `k` is accepted -/
  | accept (k : ℕ) (q : MemReq)
  /-- a request is accepted by the memory port -/
  | issue (q : MemReq)
  /-- the response of the memory port is taken -/
  | ack (d : BitVec 512)
  /-- cluster `k` takes its response -/
  | answer (k : ℕ) (d : BitVec 512)
deriving DecidableEq, Repr

def accepts (r : Reg) (i : In) : List Ev :=
  (List.range N).flatMap fun k => if GPUL2Cache.reqFire N r.l2 i.cluster k then [.accept k (i.cluster k).req] else []

def issues (r : Reg) (i : In) : List Ev :=
  if AXIToMemReq.memReqFire r.adp (adpIn r i) then [.issue (AXIToMemReq.memReq r.adp)] else []

def acks (r : Reg) (i : In) : List Ev :=
  if i.mem.respValid && AXIToMemReq.memRespReady r.adp then [.ack i.mem.respBits] else []

def answers (r : Reg) (i : In) : List Ev :=
  (List.range N).flatMap fun k =>
    if GPUL2Cache.respFire r.l2 i.cluster k then [.answer k (GPUL2Cache.respBits r.l2)] else []

/-- the handshakes of one cycle -/
def ev (r : Reg) (i : In) : List Ev := accepts N r i ++ issues r i ++ acks r i ++ answers N r i

/-! ## Transactions -/

/-- what the memory is asked for a cluster request -/
def lineReq (q : MemReq) : MemReq := ⟨q.addr, if q.isWrite then q.data else 0, q.isWrite⟩

/-- the request `req` of a cluster, the memory's response `data`, and the response `bits` to the cluster -/
structure Tx where
  cluster : ℕ
  req : MemReq
  data : BitVec 512
  bits : BitVec 512
deriving DecidableEq, Repr

def Tx.events (t : Tx) : List Ev :=
  [.accept t.cluster t.req, .issue (lineReq t.req), .ack t.data, .answer t.cluster t.bits]

/-- a load is answered with what the memory returned -/
structure Tx.Ok (N : ℕ) (t : Tx) : Prop where
  cluster : t.cluster < N
  load : t.req.isWrite = false → t.bits = t.data

/-! ## Lock-step -/

/-- the request in hand -/
def inHand (r : Reg) (w : Bool) : MemReq := ⟨r.l2.addrR, r.l2.wdataR, w⟩

def begun (r : Reg) (w : Bool) : List Ev := [.accept r.l2.selR (inHand r w)]
def issued (r : Reg) (w : Bool) : List Ev := begun r w ++ [.issue (lineReq (inHand r w))]
def acked (r : Reg) (w : Bool) (d : BitVec 512) : List Ev := issued r w ++ [.ack d]

/-- the states of the two machines, and the handshakes so far of the transaction they are in -/
inductive Phase (r : Reg) : List Ev → Prop where
  | idle (hl : r.l2.state = .idle) (ha : r.adp.state = .idle) : Phase r []
  | aw (hl : r.l2.state = .aw) (ha : r.adp.state = .idle) : Phase r (begun r true)
  | wd (hl : r.l2.state = .wd) (ha : r.adp.state = .wwait) (haddr : r.adp.addr = r.l2.addrR) : Phase r (begun r true)
  | wreq (hl : r.l2.state = .bwait) (ha : r.adp.state = .wreq)
      (hreq : AXIToMemReq.memReq r.adp = lineReq (inHand r true)) : Phase r (begun r true)
  | wwrsp (hl : r.l2.state = .bwait) (ha : r.adp.state = .wwrsp) : Phase r (issued r true)
  | wrespo (hl : r.l2.state = .bwait) (ha : r.adp.state = .wrespo) (d : BitVec 512) : Phase r (acked r true d)
  | wack (hl : r.l2.state = .wack) (ha : r.adp.state = .idle) (d : BitVec 512) : Phase r (acked r true d)
  | ar (hl : r.l2.state = .ar) (ha : r.adp.state = .idle) : Phase r (begun r false)
  | areq (hl : r.l2.state = .rc) (ha : r.adp.state = .areq)
      (hreq : AXIToMemReq.memReq r.adp = lineReq (inHand r false)) : Phase r (begun r false)
  | aresp (hl : r.l2.state = .rc) (ha : r.adp.state = .aresp) : Phase r (issued r false)
  | rvalid (hl : r.l2.state = .rc) (ha : r.adp.state = .rvalid) : Phase r (acked r false r.adp.rdata)
  | resp (hl : r.l2.state = .resp) (ha : r.adp.state = .idle) : Phase r (acked r false r.l2.rdataR)

/-- the registers the source never changes or only takes from the selector -/
structure Fit (r : Reg) : Prop where
  selR : r.l2.selR < N
  isWR : r.l2.isWR = false

variable {N} {r : Reg} {i : In}

theorem fit_step (hN : 1 ≤ N) (h : Fit N r) (i : In) : Fit N (next N r i) := by
  obtain ⟨hs, hw⟩ := h
  cases hl : r.l2.state <;> simp only [next, GPUL2Cache.next, hl] <;> split_ifs <;>
    first | exact ⟨hs, hw⟩ | exact ⟨GPUL2Cache.sel_lt hN, hw⟩

/-! ## One cycle -/

theorem accepts_idle (hN : 1 ≤ N) (hl : r.l2.state = .idle) : accepts N r i =
    if GPUL2Cache.any N r.l2 i.cluster then
      [.accept (GPUL2Cache.sel N r.l2 i.cluster) (i.cluster (GPUL2Cache.sel N r.l2 i.cluster)).req]
    else [] := by
  have hsel := GPUL2Cache.sel_lt (r := r.l2) (c := i.cluster) hN
  have hfire : ∀ k < N, GPUL2Cache.reqFire N r.l2 i.cluster k = true ↔
      GPUL2Cache.any N r.l2 i.cluster = true ∧ k = GPUL2Cache.sel N r.l2 i.cluster := fun k hk => by
    rw [GPUL2Cache.reqFire_iff hk]
    simp [hl]
  rw [accepts, RoundRobin.flatMap_onehot hsel]
  · simp only [hfire _ hsel, and_true]
  · intro k hk hne
    rw [if_neg]
    rw [hfire k hk]
    exact fun h => hne h.2

theorem accepts_nil (hl : r.l2.state ≠ .idle) : accepts N r i = [] := by
  simp [accepts, GPUL2Cache.reqFire, GPUL2Cache.reqReady, hl]

theorem answers_eq (hf : Fit N r) (hl : r.l2.state = .wack ∨ r.l2.state = .resp) : answers N r i =
    if (i.cluster r.l2.selR).respReady then [.answer r.l2.selR r.l2.rdataR] else [] := by
  have hv : ∀ k, GPUL2Cache.respValid r.l2 k = (k == r.l2.selR) := fun k => by
    rcases hl with hl | hl <;> simp [GPUL2Cache.respValid, hl]
  rw [answers, RoundRobin.flatMap_onehot hf.selR]
  · simp [GPUL2Cache.respFire, hv, GPUL2Cache.respBits, hf.isWR]
  · intro k _ hne
    simp [GPUL2Cache.respFire, hv, hne]

theorem answers_nil (h1 : r.l2.state ≠ .wack) (h2 : r.l2.state ≠ .resp) : answers N r i = [] := by
  simp [answers, GPUL2Cache.respFire, GPUL2Cache.respValid, h1, h2]

/-- the request in hand stays while it is in hand -/
theorem hand_kept (hl : r.l2.state ≠ .idle) (i : In) :
    (next N r i).l2.selR = r.l2.selR ∧ (next N r i).l2.addrR = r.l2.addrR ∧ (next N r i).l2.wdataR = r.l2.wdataR := by
  cases hs : r.l2.state with
  | idle => exact absurd hs hl
  | _ =>
    simp only [next, GPUL2Cache.next, hs]
    split_ifs <;> exact ⟨rfl, rfl, rfl⟩

theorem hand_step (hl : r.l2.state ≠ .idle) (w : Bool) :
    begun (next N r i) w = begun r w ∧ issued (next N r i) w = issued r w ∧
      ∀ d, acked (next N r i) w d = acked r w d := by
  obtain ⟨hsel, haddr, hdata⟩ := hand_kept (N := N) hl i
  simp only [begun, issued, acked, inHand, hsel, haddr, hdata, and_self, implies_true]

/-- no cluster has a handshake while a request is in hand and not yet answered by the memory -/
theorem cluster_silent (hl : r.l2.state ∉ [.idle, .wack, .resp]) : accepts N r i = [] ∧ answers N r i = [] := by
  simp only [List.mem_cons, List.not_mem_nil, or_false, not_or] at hl
  exact ⟨accepts_nil hl.1, answers_nil hl.2.1 hl.2.2⟩

/-- a cycle in which only the two machines move -/
theorem ev_nil (hl : r.l2.state ∉ [.idle, .wack, .resp]) (ha : r.adp.state ∈ [.idle, .wwait, .wrespo, .rvalid]) :
    ev N r i = [] := by
  simp only [List.mem_cons, List.not_mem_nil, or_false] at ha
  rcases ha with ha | ha | ha | ha <;>
    simp [ev, cluster_silent hl, issues, acks, AXIToMemReq.memReqFire, AXIToMemReq.memReqValid,
      AXIToMemReq.memRespReady, ha]

/-- a cycle in which the adapter requests -/
theorem ev_request (hl : r.l2.state ∉ [.idle, .wack, .resp]) (ha : r.adp.state ∈ [.wreq, .areq]) :
    ev N r i = if i.mem.reqReady then [.issue (AXIToMemReq.memReq r.adp)] else [] := by
  simp only [List.mem_cons, List.not_mem_nil, or_false] at ha
  rcases ha with ha | ha <;>
    simp [ev, cluster_silent hl, issues, acks, AXIToMemReq.memReqFire, AXIToMemReq.memReqValid,
      AXIToMemReq.memRespReady, ha, adpIn]

/-- a cycle in which the adapter waits for a response -/
theorem ev_response (hl : r.l2.state ∉ [.idle, .wack, .resp]) (ha : r.adp.state ∈ [.wwrsp, .aresp]) :
    ev N r i = if i.mem.respValid then [.ack i.mem.respBits] else [] := by
  simp only [List.mem_cons, List.not_mem_nil, or_false] at ha
  rcases ha with ha | ha <;>
    simp [ev, cluster_silent hl, issues, acks, AXIToMemReq.memReqFire, AXIToMemReq.memReqValid,
      AXIToMemReq.memRespReady, ha]

/-- a cycle in which the cluster is offered its response -/
theorem ev_answer (hf : Fit N r) (hl : r.l2.state = .wack ∨ r.l2.state = .resp) (ha : r.adp.state = .idle) : ev N r i =
    if (i.cluster r.l2.selR).respReady then [.answer r.l2.selR r.l2.rdataR] else [] := by
  have h0 : r.l2.state ≠ .idle := by rcases hl with hl | hl <;> simp [hl]
  simp [ev, accepts_nil h0, answers_eq hf hl, issues, acks, AXIToMemReq.memReqFire, AXIToMemReq.memReqValid,
    AXIToMemReq.memRespReady, ha]

theorem ev_idle (hN : 1 ≤ N) (hl : r.l2.state = .idle) (ha : r.adp.state = .idle) : ev N r i =
    if GPUL2Cache.any N r.l2 i.cluster then
      [.accept (GPUL2Cache.sel N r.l2 i.cluster) (i.cluster (GPUL2Cache.sel N r.l2 i.cluster)).req]
    else [] := by
  simp [ev, accepts_idle hN hl, answers_nil (N := N) (r := r) (i := i) (by simp [hl]) (by simp [hl]), issues, acks,
    AXIToMemReq.memReqFire, AXIToMemReq.memReqValid, AXIToMemReq.memRespReady, ha]

theorem phase_idle (hN : 1 ≤ N) (hl : r.l2.state = .idle) (ha : r.adp.state = .idle) :
    Phase (next N r i) (ev N r i) := by
  have hadp : (next N r i).adp = r.adp := by simp [next, AXIToMemReq.next, adpIn, GPUL2Cache.axiOut, hl, ha]
  rw [ev_idle hN hl ha]
  cases hany : GPUL2Cache.any N r.l2 i.cluster with
  | false =>
    have hl2 : (next N r i).l2 = r.l2 := by simp [next, GPUL2Cache.next, hl, hany]
    exact .idle (by rw [hl2, hl]) (by rw [hadp, ha])
  | true =>
    set k := GPUL2Cache.sel N r.l2 i.cluster with hk
    have hl2 : (next N r i).l2 =
        { r.l2 with
          selR := k
          addrR := (i.cluster k).req.addr
          wdataR := (i.cluster k).req.data
          last := k
          state := if (i.cluster k).req.isWrite then .aw else .ar } := by
      simp only [next, GPUL2Cache.next, hl, hany, ite_true, hk]
    have hbegun : ∀ w, (i.cluster k).req.isWrite = w → [.accept k (i.cluster k).req] = begun (next N r i) w := by
      rintro w rfl
      rw [begun, inHand, hl2]
    rw [if_pos rfl]
    cases hw : (i.cluster k).req.isWrite with
    | true =>
      rw [hbegun true hw]
      exact .aw (by rw [hl2]; simp [hw]) (by rw [hadp, ha])
    | false =>
      rw [hbegun false hw]
      exact .ar (by rw [hl2]; simp [hw]) (by rw [hadp, ha])

/-- the adapter requests: the L2 waits, and the adapter moves when the port is ready -/
theorem step_request (hl : r.l2.state = .bwait ∨ r.l2.state = .rc) (ha : r.adp.state ∈ [.wreq, .areq]) :
    (next N r i).l2 = r.l2 ∧ (next N r i).adp =
      if i.mem.reqReady then { r.adp with state := if r.adp.state = .wreq then .wwrsp else .aresp } else r.adp := by
  simp only [List.mem_cons, List.not_mem_nil, or_false] at ha
  rcases hl with hl | hl <;> rcases ha with ha | ha <;>
    simp [next, GPUL2Cache.next, AXIToMemReq.next, AXIToMemReq.axiIn, AXIToMemReq.memReqFire, AXIToMemReq.memReqValid,
      adpIn, hl, ha]

/-- the adapter waits: so does the L2, and the adapter moves with the response -/
theorem step_response (hl : r.l2.state = .bwait ∨ r.l2.state = .rc) (ha : r.adp.state ∈ [.wwrsp, .aresp]) :
    (next N r i).l2 = r.l2 ∧ ((next N r i).adp =
      if i.mem.respValid then
        if r.adp.state = .wwrsp then { r.adp with state := .wrespo }
        else { r.adp with rdata := i.mem.respBits, state := .rvalid }
      else r.adp) := by
  simp only [List.mem_cons, List.not_mem_nil, or_false] at ha
  rcases hl with hl | hl <;> rcases ha with ha | ha <;> cases hv : i.mem.respValid <;>
    simp [next, GPUL2Cache.next, AXIToMemReq.next, AXIToMemReq.axiIn, adpIn, hl, ha, hv]

theorem same_of (hl2 : (next N r i).l2 = r.l2) (hadp : (next N r i).adp = r.adp) : next N r i = r := by
  rw [show next N r i = ⟨(next N r i).l2, (next N r i).adp⟩ from rfl, hl2, hadp]

/-- a request in hand is issued when the port is ready -/
theorem phase_request {w : Bool} (hl : r.l2.state = .bwait ∨ r.l2.state = .rc) (ha : r.adp.state ∈ [.wreq, .areq])
    (hreq : AXIToMemReq.memReq r.adp = lineReq (inHand r w)) (hstay : Phase r (begun r w))
    (hgo : ∀ r' : Reg, r'.l2 = r.l2 → r'.adp.state = (if r.adp.state = .wreq then .wwrsp else .aresp) →
      Phase r' (issued r' w)) : Phase (next N r i) (begun r w ++ ev N r i) := by
  have hidle : r.l2.state ≠ .idle := by rcases hl with hl | hl <;> simp [hl]
  have hsilent : r.l2.state ∉ [.idle, .wack, .resp] := by rcases hl with hl | hl <;> simp [hl]
  obtain ⟨hl2, hadp⟩ := step_request (N := N) (i := i) hl ha
  rw [ev_request hsilent ha, hreq]
  cases hr : i.mem.reqReady with
  | true =>
    rw [hr, if_pos rfl] at hadp
    rw [if_pos rfl, ← issued, ← (hand_step (N := N) (i := i) hidle w).2.1]
    exact hgo _ hl2 (by rw [hadp])
  | false =>
    rw [hr, if_neg Bool.false_ne_true] at hadp
    rw [if_neg Bool.false_ne_true, List.append_nil, same_of hl2 hadp]
    exact hstay

/-- an issued request is answered when the port has a response -/
theorem phase_response {w : Bool} (hl : r.l2.state = .bwait ∨ r.l2.state = .rc) (ha : r.adp.state ∈ [.wwrsp, .aresp])
    (hstay : Phase r (issued r w))
    (hgo : ∀ r' : Reg, r'.l2 = r.l2 → (r'.adp = if r.adp.state = .wwrsp then { r.adp with state := .wrespo }
      else { r.adp with rdata := i.mem.respBits, state := .rvalid }) → Phase r' (acked r' w i.mem.respBits)) :
    Phase (next N r i) (issued r w ++ ev N r i) := by
  have hidle : r.l2.state ≠ .idle := by rcases hl with hl | hl <;> simp [hl]
  have hsilent : r.l2.state ∉ [.idle, .wack, .resp] := by rcases hl with hl | hl <;> simp [hl]
  obtain ⟨hl2, hadp⟩ := step_response (N := N) (i := i) hl ha
  rw [ev_response hsilent ha]
  cases hv : i.mem.respValid with
  | true =>
    rw [hv, if_pos rfl] at hadp
    rw [if_pos rfl, ← acked, ← (hand_step (N := N) (i := i) hidle w).2.2]
    exact hgo _ hl2 hadp
  | false =>
    rw [hv, if_neg Bool.false_ne_true] at hadp
    rw [if_neg Bool.false_ne_true, List.append_nil, same_of hl2 hadp]
    exact hstay

/-- the response to the cluster ends the transaction -/
theorem phase_answer (hf : Fit N r) {w : Bool} {d : BitVec 512} (hl : r.l2.state = .wack ∨ r.l2.state = .resp)
    (ha : r.adp.state = .idle) (hd : w = false → d = r.l2.rdataR) (hstay : Phase r (acked r w d)) :
    Phase (next N r i) (acked r w d ++ ev N r i) ∨
      ∃ t : Tx, t.Ok N ∧ t.events = acked r w d ++ ev N r i ∧ Phase (next N r i) [] := by
  have hadp : (next N r i).adp = r.adp := by
    rcases hl with hl | hl <;> simp [next, AXIToMemReq.next, adpIn, GPUL2Cache.axiOut, hl, ha]
  have hfire : GPUL2Cache.respFire r.l2 i.cluster r.l2.selR = (i.cluster r.l2.selR).respReady := by
    rcases hl with hl' | hl' <;> simp [GPUL2Cache.respFire, GPUL2Cache.respValid, hl']
  have hl2 : (next N r i).l2 = if (i.cluster r.l2.selR).respReady then { r.l2 with state := .idle } else r.l2 := by
    rcases hl with hl' | hl' <;> simp [next, GPUL2Cache.next, hl', hfire]
  rw [ev_answer hf hl ha]
  cases hr : (i.cluster r.l2.selR).respReady with
  | true =>
    rw [hr, if_pos rfl] at hl2
    exact .inr ⟨⟨r.l2.selR, inHand r w, d, r.l2.rdataR⟩, ⟨hf.selR, fun hw => (hd hw).symm⟩, rfl,
      .idle (by rw [hl2]) (by rw [hadp, ha])⟩
  | false =>
    rw [hr, if_neg Bool.false_ne_true] at hl2
    rw [if_neg Bool.false_ne_true, List.append_nil, same_of hl2 hadp]
    exact .inl hstay

/-- **The two machines stay in lock-step**, and every cycle adds its handshake to the transaction in progress or ends
it. -/
theorem phase_step (hN : 1 ≤ N) (hf : Fit N r) {p : List Ev} (h : Phase r p) (i : In) :
    Phase (next N r i) (p ++ ev N r i) ∨
      ∃ t : Tx, t.Ok N ∧ t.events = p ++ ev N r i ∧ Phase (next N r i) [] := by
  cases h with
  | idle hl ha => exact .inl (phase_idle hN hl ha)
  | wack hl ha d => exact phase_answer hf (.inl hl) ha (fun hw => absurd hw.symm Bool.false_ne_true) (.wack hl ha d)
  | resp hl ha => exact phase_answer hf (.inr hl) ha (fun _ => rfl) (.resp hl ha)
  | aw hl ha =>
    rw [ev_nil (by simp [hl]) (by simp [ha]), List.append_nil, ← (hand_step (N := N) (i := i) (by simp [hl]) true).1]
    refine .inl (.wd ?_ ?_ ?_)
    · simp [next, GPUL2Cache.next, hl, AXIToMemReq.axiIn, ha, GPUL2Cache.axiOut]
    · simp [next, AXIToMemReq.next, ha, adpIn, GPUL2Cache.axiOut, hl]
    · simp [next, AXIToMemReq.next, ha, adpIn, GPUL2Cache.axiOut, hl, GPUL2Cache.next, AXIToMemReq.axiIn]
  | wd hl ha haddr =>
    rw [ev_nil (by simp [hl]) (by simp [ha]), List.append_nil, ← (hand_step (N := N) (i := i) (by simp [hl]) true).1]
    refine .inl (.wreq ?_ ?_ ?_)
    · simp [next, GPUL2Cache.next, hl, AXIToMemReq.axiIn, ha]
    · simp [next, AXIToMemReq.next, ha, adpIn, GPUL2Cache.axiOut, hl, AXIToMemReq.allOnes]
    · -- all strobes are set, so the data goes through unmerged
      simp [next, AXIToMemReq.next, ha, adpIn, GPUL2Cache.axiOut, hl, AXIToMemReq.allOnes, AXIToMemReq.memReq, lineReq,
        inHand, GPUL2Cache.next, AXIToMemReq.axiIn, haddr]
  | ar hl ha =>
    rw [ev_nil (by simp [hl]) (by simp [ha]), List.append_nil, ← (hand_step (N := N) (i := i) (by simp [hl]) false).1]
    refine .inl (.areq ?_ ?_ ?_)
    · simp [next, GPUL2Cache.next, hl, AXIToMemReq.axiIn, ha, GPUL2Cache.axiOut]
    · simp [next, AXIToMemReq.next, ha, adpIn, GPUL2Cache.axiOut, hl]
    · simp [next, AXIToMemReq.next, ha, adpIn, GPUL2Cache.axiOut, hl, AXIToMemReq.memReq, lineReq, inHand,
        GPUL2Cache.next, AXIToMemReq.axiIn]
  | wreq hl ha hreq =>
    refine .inl (phase_request (.inl hl) (by simp [ha]) hreq (.wreq hl ha hreq) fun r' hl2 hadp => ?_)
    exact .wwrsp (by rw [hl2, hl]) (by rw [hadp, if_pos ha])
  | areq hl ha hreq =>
    refine .inl (phase_request (.inr hl) (by simp [ha]) hreq (.areq hl ha hreq) fun r' hl2 hadp => ?_)
    exact .aresp (by rw [hl2, hl]) (by rw [hadp, if_neg (by simp [ha])])
  | wwrsp hl ha =>
    refine .inl (phase_response (.inl hl) (by simp [ha]) (.wwrsp hl ha) fun r' hl2 hadp => ?_)
    rw [if_pos ha] at hadp
    exact .wrespo (by rw [hl2, hl]) (by rw [hadp]) _
  | aresp hl ha =>
    refine .inl (phase_response (.inr hl) (by simp [ha]) (.aresp hl ha) fun r' hl2 hadp => ?_)
    rw [if_neg (by simp [ha])] at hadp
    rw [show i.mem.respBits = r'.adp.rdata by rw [hadp]]
    exact .rvalid (by rw [hl2, hl]) (by rw [hadp])
  | wrespo hl ha d =>
    rw [ev_nil (by simp [hl]) (by simp [ha]), List.append_nil, ← (hand_step (N := N) (i := i) (by simp [hl]) true).2.2]
    refine .inl (.wack ?_ ?_ d)
    · simp [next, GPUL2Cache.next, hl, AXIToMemReq.axiIn, ha]
    · simp [next, AXIToMemReq.next, ha, adpIn, GPUL2Cache.axiOut, hl]
  | rvalid hl ha =>
    have hdata : r.adp.rdata = (next N r i).l2.rdataR := by
      simp [next, GPUL2Cache.next, hl, AXIToMemReq.axiIn, ha]
    rw [ev_nil (by simp [hl]) (by simp [ha]), List.append_nil, ← (hand_step (N := N) (i := i) (by simp [hl]) false).2.2,
      hdata]
    refine .inl (.resp ?_ ?_)
    · simp [next, GPUL2Cache.next, hl, AXIToMemReq.axiIn, ha]
    · simp [next, AXIToMemReq.next, ha, adpIn, GPUL2Cache.axiOut, hl]

/-- what is known of the path in every cycle -/
def InPhase (N : ℕ) (r : Reg) (p : List Ev) : Prop := Fit N r ∧ Phase r p

/-- every cycle goes on with the transaction in progress or ends it -/
theorem steps (hN : 1 ≤ N) :
    Transactions.Steps (next N) (ev N) (fun t : { t : Tx // t.Ok N } => t.1.events) (InPhase N) := by
  rintro r p i ⟨hf, hp⟩
  have hf' := fit_step hN hf i
  rcases phase_step hN hf hp i with hp' | ⟨t, ht, hev, hp'⟩
  · exact .inl ⟨hf', hp'⟩
  · exact .inr ⟨⟨t, ht⟩, hev, hf', hp'⟩

/-- the two machines stay in lock-step -/
theorem phase_next (hN : 1 ≤ N) (hf : Fit N r) (h : ∃ p, Phase r p) (i : In) : ∃ p, Phase (next N r i) p := by
  obtain ⟨p, hp⟩ := h
  rcases phase_step hN hf hp i with hp' | ⟨-, -, -, hp'⟩
  · exact ⟨_, hp'⟩
  · exact ⟨_, hp'⟩

/-! ## Progress -/

/-- the memory or the cluster holds the path up -/
def stalled (r : Reg) (i : In) : Bool :=
  (AXIToMemReq.memReqValid r.adp && !i.mem.reqReady) || (AXIToMemReq.memRespReady r.adp && !i.mem.respValid) ||
    (GPUL2Cache.respValid r.l2 r.l2.selR && !(i.cluster r.l2.selR).respReady)

/-- one item for every cycle in which nothing holds the path up -/
def unstalled (r : Reg) (i : In) : List Unit := if stalled r i then [] else [()]

/-- the unstalled cycles left to the end of the transaction -/
def left (r : Reg) : ℕ :=
  match r.l2.state with
  | .idle => 0
  | .wack | .resp => 1
  | .bwait | .rc =>
    match r.adp.state with
    | .wrespo | .rvalid => 2
    | .wwrsp | .aresp => 3
    | _ => 4
  | .wd | .ar => 5
  | .aw => 6

theorem left_le (r : Reg) : left r ≤ 6 := by
  unfold left
  split
  case h_4 | h_5 => split <;> omega
  all_goals omega

theorem left_step {p : List Ev} (h : Phase r p) (hp : p ≠ []) (i : In) :
    left (next N r i) + (unstalled r i).length = left r := by
  -- the states after the cycle, for a request, a response and an answer that may have to wait
  have hrequest : (r.l2.state = .bwait ∨ r.l2.state = .rc) → r.adp.state ∈ [.wreq, .areq] →
      left (next N r i) + (unstalled r i).length = left r := fun hl ha => by
    obtain ⟨hl2, hadp⟩ := step_request (N := N) (i := i) hl ha
    simp only [List.mem_cons, List.not_mem_nil, or_false] at ha
    rcases hl with hl | hl <;> rcases ha with ha | ha <;> cases hr : i.mem.reqReady <;>
      simp [left, hl2, hadp, hl, ha, hr, unstalled, stalled, AXIToMemReq.memReqValid, AXIToMemReq.memRespReady,
        GPUL2Cache.respValid]
  have hresponse : (r.l2.state = .bwait ∨ r.l2.state = .rc) → r.adp.state ∈ [.wwrsp, .aresp] →
      left (next N r i) + (unstalled r i).length = left r := fun hl ha => by
    obtain ⟨hl2, hadp⟩ := step_response (N := N) (i := i) hl ha
    simp only [List.mem_cons, List.not_mem_nil, or_false] at ha
    rcases hl with hl | hl <;> rcases ha with ha | ha <;> cases hv : i.mem.respValid <;>
      simp [left, hl2, hadp, hl, ha, hv, unstalled, stalled, AXIToMemReq.memReqValid, AXIToMemReq.memRespReady,
        GPUL2Cache.respValid]
  have hanswer : (r.l2.state = .wack ∨ r.l2.state = .resp) → r.adp.state = .idle →
      left (next N r i) + (unstalled r i).length = left r := fun hl ha => by
    rcases hl with hl | hl <;> cases hr : (i.cluster r.l2.selR).respReady <;>
      simp [left, next, GPUL2Cache.next, GPUL2Cache.respFire, hl, ha, hr, unstalled, stalled, AXIToMemReq.memReqValid,
        AXIToMemReq.memRespReady, GPUL2Cache.respValid]
  cases h with
  | idle => exact absurd rfl hp
  | wreq hl ha => exact hrequest (.inl hl) (by simp [ha])
  | areq hl ha => exact hrequest (.inr hl) (by simp [ha])
  | wwrsp hl ha => exact hresponse (.inl hl) (by simp [ha])
  | aresp hl ha => exact hresponse (.inr hl) (by simp [ha])
  | wack hl ha => exact hanswer (.inl hl) ha
  | resp hl ha => exact hanswer (.inr hl) ha
  | _ hl ha =>
    simp [left, next, GPUL2Cache.next, AXIToMemReq.next, AXIToMemReq.axiIn, adpIn, GPUL2Cache.axiOut, hl, ha, unstalled,
      stalled, AXIToMemReq.memReqValid, AXIToMemReq.memRespReady, GPUL2Cache.respValid, AXIToMemReq.allOnes]

/-! ## Whole runs -/

/-- the handshakes `es` so far are whole transactions and those of the transaction in progress -/
structure Logged (N : ℕ) (r : Reg) (es : List Ev) : Prop where
  fit : Fit N r
  log : ∃ (txs : List Tx) (p : List Ev), es = txs.flatMap Tx.events ++ p ∧ (∀ t ∈ txs, t.Ok N) ∧ Phase r p

theorem logged_run (hN : 1 ≤ N) (g : AXIToMemReq.Reg) (ins : List In) :
    Logged N (run (next N) (reset g) ins) (collect (next N) (ev N) (reset g) ins) := by
  have hreset : InPhase N (reset g) [] := ⟨⟨hN, rfl⟩, .idle rfl rfl⟩
  obtain ⟨txs, p, hes, hf, hp⟩ := Transactions.log_run (steps hN) hreset ins
  refine ⟨hf, txs.map Subtype.val, p, ?_, fun t ht => ?_, hp⟩
  · rw [List.flatMap_map]
    exact hes
  · obtain ⟨t, -, rfl⟩ := List.mem_map.1 ht
    exact t.2

/-- the handshakes of a transaction in progress are the first of a whole one -/
theorem Phase.initial (hf : Fit N r) {p : List Ev} (h : Phase r p) (hp : p ≠ []) :
    ∃ t : Tx, t.Ok N ∧ p <+: t.events ∧ p ≠ t.events := by
  have hbegun : ∀ w, ∃ t : Tx, t.Ok N ∧ begun r w <+: t.events ∧ begun r w ≠ t.events := fun w =>
    ⟨⟨r.l2.selR, inHand r w, 0, 0⟩, ⟨hf.selR, fun _ => rfl⟩, ⟨_, rfl⟩, by simp [begun, Tx.events]⟩
  have hissued : ∀ w, ∃ t : Tx, t.Ok N ∧ issued r w <+: t.events ∧ issued r w ≠ t.events := fun w =>
    ⟨⟨r.l2.selR, inHand r w, 0, 0⟩, ⟨hf.selR, fun _ => rfl⟩, ⟨_, rfl⟩, by simp [issued, begun, Tx.events]⟩
  have hacked : ∀ w d, ∃ t : Tx, t.Ok N ∧ acked r w d <+: t.events ∧ acked r w d ≠ t.events := fun w d =>
    ⟨⟨r.l2.selR, inHand r w, d, d⟩, ⟨hf.selR, fun _ => rfl⟩, ⟨_, rfl⟩, by simp [acked, issued, begun, Tx.events]⟩
  cases h with
  | idle => exact absurd rfl hp
  | aw | wd | wreq | ar | areq => exact hbegun _
  | wwrsp | aresp => exact hissued _
  | wrespo | wack | rvalid | resp => exact hacked _ _

/-- a transaction in progress is finished once the path has had `left` unstalled cycles -/
theorem finishes (hN : 1 ≤ N) (hf : Fit N r) {p : List Ev} (h : Phase r p) (hp : p ≠ []) {more : List In}
    (hmore : left r ≤ (collect (next N) unstalled r more).length) :
    ∃ t : Tx, t.Ok N ∧ t.events <+: p ++ collect (next N) (ev N) r more := by
  have hpos : ∀ r p, InPhase N r p → p ≠ [] → 0 < left r := fun r p h hp => by
    cases h.2 with
    | idle => exact absurd rfl hp
    | _ hl ha => simp [left, hl, ha]
  obtain ⟨t, -, ht⟩ :=
    Transactions.finishes (steps hN) hpos (fun r p i h hp => (left_step h.2 hp i).le) ⟨hf, h⟩ hp hmore
  exact ⟨t.1, t.2, ht⟩

/-- **Every cluster request is served exactly once.** After any run from reset, against any memory port and any clusters:
- the handshakes of the run are whole transactions, one after another, and at most the beginning `p` of one more. So
  the requests issued on the memory port are the accepted cluster requests in acceptance order, each once, with the
  same address and direction and, for a store, the same data; each is answered to its cluster, once, after the memory
  has answered, and a load with the data the memory returned;
- the transaction in progress is finished by every continuation in which the path is not stalled for six cycles. -/
theorem exactly_once (N : ℕ) (hN : 1 ≤ N) (g : AXIToMemReq.Reg) (ins : List In) :
    ∃ (txs : List Tx) (p : List Ev), collect (next N) (ev N) (reset g) ins = txs.flatMap Tx.events ++ p ∧
      (∀ t ∈ txs, t.Ok N) ∧
      (p ≠ [] → (∃ t : Tx, t.Ok N ∧ p <+: t.events ∧ p ≠ t.events) ∧
        ∀ more, 6 ≤ (collect (next N) unstalled (run (next N) (reset g) ins) more).length →
          ∃ t : Tx, t.Ok N ∧ t.events <+: p ++ collect (next N) (ev N) (run (next N) (reset g) ins) more) := by
  obtain ⟨hf, txs, p, hes, hok, hphase⟩ := logged_run hN g ins
  refine ⟨txs, p, hes, hok, fun hp => ⟨hphase.initial hf hp, fun more hmore => ?_⟩⟩
  exact finishes hN hf hphase hp ((left_le _).trans hmore)

/-- cluster 1 stores while cluster 0 loads, both held up now and then -/
def demo : List In :=
  let store : MemOut := ⟨true, ⟨64, 7, true⟩, true⟩
  let load : MemOut := ⟨true, ⟨128, 0, false⟩, true⟩
  let none : MemOut := ⟨false, ⟨0, 0, false⟩, true⟩
  let both (m : MemIn) : In := ⟨fun k => if k = 1 then store else load, m⟩
  let first (m : MemIn) : In := ⟨fun k => if k = 1 then none else load, m⟩
  [both ⟨false, false, 0⟩, first ⟨false, true, 1⟩, first ⟨true, false, 2⟩, first ⟨false, false, 3⟩, first ⟨true, true, 4⟩,
    first ⟨true, true, 5⟩, first ⟨true, false, 6⟩, first ⟨true, false, 7⟩, first ⟨true, true, 8⟩, first ⟨true, true, 9⟩,
    first ⟨true, true, 10⟩, first ⟨true, true, 11⟩, first ⟨true, true, 12⟩, first ⟨true, true, 13⟩]

theorem exactly_once_two :
    (∃ (txs : List Tx) (p : List Ev), collect (next 2) (ev 2) (reset AXIToMemReq.zeros) demo = txs.flatMap Tx.events ++ p ∧
      (∀ t ∈ txs, t.Ok 2) ∧
      (p ≠ [] → (∃ t : Tx, t.Ok 2 ∧ p <+: t.events ∧ p ≠ t.events) ∧
        ∀ more, 6 ≤ (collect (next 2) unstalled (run (next 2) (reset AXIToMemReq.zeros) demo) more).length →
          ∃ t : Tx, t.Ok 2 ∧ t.events <+: p ++ collect (next 2) (ev 2) (run (next 2) (reset AXIToMemReq.zeros) demo) more)) ∧
    collect (next 2) (ev 2) (reset AXIToMemReq.zeros) demo =
      (⟨1, ⟨64, 7, true⟩, 5, 0⟩ : Tx).events ++ (⟨0, ⟨128, 0, false⟩, 11, 11⟩ : Tx).events :=
  ⟨exactly_once 2 (by decide) AXIToMemReq.zeros demo, by decide +kernel⟩

end AegisSoc.GpuPath
