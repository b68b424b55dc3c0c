/-
`AXIToMemReq` as a single-beat AXI slave: the handshakes of every run, on the five AXI channels and on the memory port, for
any master and any memory.

A transaction is a store or a load, from its address beat to its response. A store with all strobes set is one line write;
any other store reads the line first and writes it with the strobed bytes replaced.
- `phase_step`: the state of the adapter says how far the one transaction in progress has come;
- `single_beat`: the handshakes of a run are whole transactions, one after another, and the beginning of at most one more,
  which every continuation with six unstalled cycles finishes; what is offered stays until it is taken; and a load address
  that is refused waits for the next idle cycle without a store address;
- `masked_store`: what each store reads and writes, byte by byte, and that it is finished.
-/
import AegisSoc.Bridge.AXIToMemReq
import AegisSoc.Lib.Transactions

namespace AegisSoc.AxiSlave

open Machine AXIToMemReq Lanes

/-! ## Handshakes -/

inductive Ev where
  /-- a store address -/
  | aw (addr : BitVec 64) (id : BitVec 8)
  /-- a data beat -/
  | w (data : BitVec 512) (strb : BitVec 64)
  /-- a load address -/
  | ar (addr : BitVec 64) (id : BitVec 8)
  /-- a request accepted by the memory -/
  | req (q : MemReq)
  /-- a response taken from the memory -/
  | resp (d : BitVec 512)
  /-- the response to a store -/
  | b (id : BitVec 8)
  /-- the response to a load -/
  | r (id : BitVec 8) (data : BitVec 512) (last : Bool)
deriving DecidableEq, Repr

/-- the handshake `e`, if it happens -/
def beat (fire : Bool) (e : Ev) : List Ev := if fire then [e] else []

/-- the handshakes of one cycle -/
def ev (r : Reg) (i : In) : List Ev :=
  let s := axiIn r i.axi
  beat (i.axi.awvalid && s.awready) (.aw i.axi.awaddr i.axi.awid) ++
    beat (i.axi.wvalid && s.wready) (.w i.axi.wdata i.axi.wstrb) ++
    beat (i.axi.arvalid && s.arready) (.ar i.axi.araddr i.axi.arid) ++
    beat (memReqFire r i) (.req (memReq r)) ++
    beat (i.mem.respValid && memRespReady r) (.resp i.mem.respBits) ++
    beat (s.bvalid && i.axi.bready) (.b s.bid) ++
    beat (s.rvalid && i.axi.rready) (.r s.rid s.rdata s.rlast)

/-! ## Transactions -/

/-- a store: `line` is what the memory returned for the read of the line, if there was one, and `ack` its response to the
write -/
structure Store where
  addr : BitVec 64
  id : BitVec 8
  data : BitVec 512
  strb : BitVec 64
  line : BitVec 512
  ack : BitVec 512
deriving DecidableEq, Repr

namespace Store

variable (t : Store)

def taken : List Ev := [.aw t.addr t.id, .w t.data t.strb]

def fetched : List Ev := t.taken ++ if t.strb = allOnes then [] else [.req ⟨t.addr, 0, false⟩, .resp t.line]

def written : List Ev := t.fetched ++ [.req ⟨t.addr, strobe t.data t.strb t.line, true⟩]

def acked : List Ev := t.written ++ [.resp t.ack]

def events : List Ev := t.acked ++ [.b t.id]

end Store

structure Load where
  addr : BitVec 64
  id : BitVec 8
  data : BitVec 512
deriving DecidableEq, Repr

namespace Load

variable (t : Load)

def asked : List Ev := [.ar t.addr t.id, .req ⟨t.addr, 0, false⟩]

def got : List Ev := t.asked ++ [.resp t.data]

def events : List Ev := t.got ++ [.r t.id t.data true]

end Load

inductive Tx where
  | store (t : Store)
  | load (t : Load)
deriving DecidableEq, Repr

def Tx.events : Tx → List Ev
  | .store t => t.events
  | .load t => t.events

/-! ## The transaction in progress -/

/-- the store and the load that the registers hold -/
def storeOf (r : Reg) (ack : BitVec 512) : Store := ⟨r.addr, r.awid, r.wdata, r.wmask, r.rdata, ack⟩
def loadOf (r : Reg) : Load := ⟨r.addr, r.arid, r.rdata⟩

/-- the handshakes so far of the transaction in progress -/
inductive Phase (r : Reg) : List Ev → Prop where
  | idle (hs : r.state = .idle) : Phase r []
  | wwait (hs : r.state = .wwait) : Phase r [.aw r.addr r.awid]
  | wrmw (hs : r.state = .wrmw) (hm : r.wmask ≠ allOnes) : Phase r (storeOf r 0).taken
  | wldrsp (hs : r.state = .wldrsp) (hm : r.wmask ≠ allOnes) :
      Phase r ((storeOf r 0).taken ++ [.req ⟨r.addr, 0, false⟩])
  | wreq (hs : r.state = .wreq) : Phase r (storeOf r 0).fetched
  | wwrsp (hs : r.state = .wwrsp) : Phase r (storeOf r 0).written
  | wrespo (hs : r.state = .wrespo) (d : BitVec 512) : Phase r (storeOf r d).acked
  | areq (hs : r.state = .areq) : Phase r [.ar r.addr r.arid]
  | aresp (hs : r.state = .aresp) : Phase r (loadOf r).asked
  | rvalid (hs : r.state = .rvalid) : Phase r (loadOf r).got

variable {r : Reg} {i : In}

/-- the one handshake that a cycle can show, by state -/
theorem ev_eq (r : Reg) (i : In) : ev r i =
    match r.state with
    | .idle =>
      if i.axi.awvalid then [.aw i.axi.awaddr i.axi.awid]
      else if i.axi.arvalid then [.ar i.axi.araddr i.axi.arid]
      else []
    | .wwait => if i.axi.wvalid then [.w i.axi.wdata i.axi.wstrb] else []
    | .wreq | .areq | .wrmw => if i.mem.reqReady then [.req (memReq r)] else []
    | .wwrsp | .aresp | .wldrsp => if i.mem.respValid then [.resp i.mem.respBits] else []
    | .wrespo => if i.axi.bready then [.b r.awid] else []
    | .rvalid => if i.axi.rready then [.r r.arid r.rdata true] else [] := by
  cases hs : r.state with
  | idle =>
    cases hw : i.axi.awvalid <;> cases hv : i.axi.arvalid <;>
      simp [ev, beat, axiIn, memReqFire, memReqValid, memRespReady, hs, hw, hv]
  | _ => simp [ev, beat, axiIn, memReqFire, memReqValid, memRespReady, hs]

/-- a cycle that waits for one handshake: without it nothing changes -/
theorem moves {fire : Bool} {e : Ev} {r' : Reg} {p : List Ev} (h : Phase r p) (hev : ev r i = beat fire e)
    (hnext : next r i = if fire then r' else r) (hgo : Phase r' (p ++ [e])) : Phase (next r i) (p ++ ev r i) := by
  rw [hev, hnext]
  cases fire with
  | true => exact hgo
  | false =>
    rw [show beat false e = [] from rfl, List.append_nil]
    exact h

/-- a cycle that waits for the last handshake -/
theorem ends {fire : Bool} {e : Ev} {p : List Ev} {t : Tx} (h : Phase r p) (hev : ev r i = beat fire e)
    (hnext : next r i = if fire then { r with state := .idle } else r) (ht : t.events = p ++ [e]) :
    Phase (next r i) (p ++ ev r i) ∨ ∃ t : Tx, t.events = p ++ ev r i ∧ Phase (next r i) [] := by
  cases fire with
  | true => exact .inr ⟨t, by rw [hev, ht]; rfl, by rw [hnext]; exact .idle rfl⟩
  | false =>
    rw [hev, hnext, show beat false e = [] from rfl, List.append_nil]
    exact .inl h

/-- between transactions a store address is preferred to a load address -/
theorem phase_idle (hs : r.state = .idle) : Phase (next r i) (ev r i) := by
  cases hw : i.axi.awvalid with
  | true =>
    have hev : ev r i = [.aw i.axi.awaddr i.axi.awid] := by simp [ev_eq, hs, hw]
    have hnext : next r i = { r with addr := i.axi.awaddr, awid := i.axi.awid, state := .wwait } := by
      simp [next, hs, hw]
    rw [hev, hnext]
    exact .wwait rfl
  | false =>
    have hev : ev r i = beat i.axi.arvalid (.ar i.axi.araddr i.axi.arid) := by simp [ev_eq, hs, hw, beat]
    have hnext : next r i =
        if i.axi.arvalid then { r with addr := i.axi.araddr, arid := i.axi.arid, state := .areq } else r := by
      simp [next, hs, hw]
    exact moves (.idle hs) hev hnext (.areq rfl)

/-- the data beat decides whether the line is read first -/
theorem phase_wwait (hs : r.state = .wwait) : Phase (next r i) ([.aw r.addr r.awid] ++ ev r i) := by
  have hev : ev r i = beat i.axi.wvalid (.w i.axi.wdata i.axi.wstrb) := by simp [ev_eq, hs, beat]
  have hnext : next r i = if i.axi.wvalid then
      { r with
        wdata := i.axi.wdata
        wmask := i.axi.wstrb
        state := if i.axi.wstrb = allOnes then .wreq else .wrmw }
      else r := by
    simp [next, hs]
  refine moves (.wwait hs) hev hnext ?_
  by_cases hm : i.axi.wstrb = allOnes
  · rw [if_pos hm]
    have hfetched : ∀ r' : Reg, r'.wmask = allOnes →
        [.aw r'.addr r'.awid] ++ [.w r'.wdata r'.wmask] = (storeOf r' 0).fetched := fun r' hm => by
      rw [Store.fetched, storeOf, if_pos hm]
      rfl
    rw [hfetched { r with wdata := i.axi.wdata, wmask := i.axi.wstrb, state := .wreq } hm]
    exact .wreq rfl
  · rw [if_neg hm]
    exact .wrmw rfl hm

/-- **One cycle** adds its handshake to the transaction in progress, or completes it -/
theorem phase_step : Transactions.Steps next ev Tx.events Phase := by
  intro r p i h
  cases h with
  | idle hs => exact .inl (phase_idle hs)
  | wwait hs => exact .inl (phase_wwait hs)
  | wrmw hs hm =>
    have hreq : memReq r = ⟨r.addr, 0, false⟩ := by simp [memReq, hs]
    have hev : ev r i = beat i.mem.reqReady (.req ⟨r.addr, 0, false⟩) := by rw [ev_eq, hs, ← hreq]; rfl
    have hnext : next r i = if i.mem.reqReady then { r with state := .wldrsp } else r := by
      simp [next, hs, memReqFire, memReqValid]
    exact .inl (moves (.wrmw hs hm) hev hnext (.wldrsp rfl hm))
  | wldrsp hs hm =>
    have hev : ev r i = beat i.mem.respValid (.resp i.mem.respBits) := by rw [ev_eq, hs]; rfl
    have hnext : next r i =
        if i.mem.respValid then { r with rdata := i.mem.respBits, state := .wreq } else r := by simp [next, hs]
    refine .inl (moves (.wldrsp hs hm) hev hnext ?_)
    have hfetched : ∀ r' : Reg, r'.wmask ≠ allOnes →
        (storeOf r' 0).taken ++ [.req ⟨r'.addr, 0, false⟩] ++ [.resp r'.rdata] = (storeOf r' 0).fetched :=
      fun r' hm => by
        rw [Store.fetched, storeOf, if_neg hm]
        rfl
    exact hfetched { r with rdata := i.mem.respBits, state := .wreq } hm ▸ .wreq rfl
  | wreq hs =>
    have hreq : memReq r = ⟨r.addr, strobe r.wdata r.wmask r.rdata, true⟩ := written_eq hs fun _ => rfl
    have hev : ev r i = beat i.mem.reqReady (.req ⟨r.addr, strobe r.wdata r.wmask r.rdata, true⟩) := by
      rw [ev_eq, hs, ← hreq]
      rfl
    have hnext : next r i = if i.mem.reqReady then { r with state := .wwrsp } else r := by
      simp [next, hs, memReqFire, memReqValid]
    exact .inl (moves (.wreq hs) hev hnext (.wwrsp rfl))
  | wwrsp hs =>
    have hev : ev r i = beat i.mem.respValid (.resp i.mem.respBits) := by rw [ev_eq, hs]; rfl
    have hnext : next r i = if i.mem.respValid then { r with state := .wrespo } else r := by simp [next, hs]
    exact .inl (moves (.wwrsp hs) hev hnext (.wrespo rfl i.mem.respBits))
  | wrespo hs d =>
    have hev : ev r i = beat i.axi.bready (.b r.awid) := by rw [ev_eq, hs]; rfl
    have hnext : next r i = if i.axi.bready then { r with state := .idle } else r := by simp [next, hs]
    exact ends (t := .store (storeOf r d)) (.wrespo hs d) hev hnext rfl
  | areq hs =>
    have hreq : memReq r = ⟨r.addr, 0, false⟩ := by simp [memReq, hs]
    have hev : ev r i = beat i.mem.reqReady (.req ⟨r.addr, 0, false⟩) := by rw [ev_eq, hs, ← hreq]; rfl
    have hnext : next r i = if i.mem.reqReady then { r with state := .aresp } else r := by
      simp [next, hs, memReqFire, memReqValid]
    exact .inl (moves (.areq hs) hev hnext (.aresp rfl))
  | aresp hs =>
    have hev : ev r i = beat i.mem.respValid (.resp i.mem.respBits) := by rw [ev_eq, hs]; rfl
    have hnext : next r i =
        if i.mem.respValid then { r with rdata := i.mem.respBits, state := .rvalid } else r := by simp [next, hs]
    exact .inl (moves (.aresp hs) hev hnext (.rvalid rfl))
  | rvalid hs =>
    have hev : ev r i = beat i.axi.rready (.r r.arid r.rdata true) := by rw [ev_eq, hs]; rfl
    have hnext : next r i = if i.axi.rready then { r with state := .idle } else r := by simp [next, hs]
    exact ends (t := .load (loadOf r)) (.rvalid hs) hev hnext rfl

/-- what comes before the last handshake of a transaction is the beginning of it, and not all of it -/
theorem initial_of {t : Tx} {p q : List Ev} {e : Ev} (ht : t.events = q ++ [e]) (h : p <+: q) :
    ∃ t : Tx, p <+: t.events ∧ p ≠ t.events := by
  refine ⟨t, ht ▸ h.trans (List.prefix_append _ _), fun heq => ?_⟩
  have hle := h.length_le
  rw [heq, ht, List.length_append, List.length_singleton] at hle
  exact absurd hle (Nat.not_succ_le_self _)

/-- the handshakes of a transaction in progress are the first of a whole one -/
theorem Phase.initial {p : List Ev} (h : Phase r p) : ∃ t : Tx, p <+: t.events ∧ p ≠ t.events := by
  have hacked : (storeOf r 0).written <+: (storeOf r 0).acked := List.prefix_append _ _
  have hwritten : (storeOf r 0).fetched <+: (storeOf r 0).acked := (List.prefix_append _ _).trans hacked
  have htaken : (storeOf r 0).taken <+: (storeOf r 0).acked := (List.prefix_append _ _).trans hwritten
  have hstore : ∀ d, (Tx.store (storeOf r d)).events = (storeOf r d).acked ++ [.b r.awid] := fun _ => rfl
  have hload : (Tx.load (loadOf r)).events = (loadOf r).got ++ [.r r.arid r.rdata true] := rfl
  cases h with
  | idle hs => exact initial_of hload List.nil_prefix
  | wwait hs => exact initial_of (hstore 0) (List.IsPrefix.trans ⟨[.w r.wdata r.wmask], rfl⟩ htaken)
  | wrmw hs hm => exact initial_of (hstore 0) htaken
  | wldrsp hs hm =>
    refine initial_of (hstore 0) (List.IsPrefix.trans ⟨[.resp r.rdata], ?_⟩ hwritten)
    rw [Store.fetched, storeOf, if_neg hm, List.append_assoc]
    rfl
  | wreq hs => exact initial_of (hstore 0) hwritten
  | wwrsp hs => exact initial_of (hstore 0) hacked
  | wrespo hs d => exact initial_of (hstore d) (List.prefix_refl _)
  | areq hs => exact initial_of hload ⟨[.req ⟨r.addr, 0, false⟩, .resp r.rdata], rfl⟩
  | aresp hs => exact initial_of hload (List.prefix_append _ _)
  | rvalid hs => exact initial_of hload (List.prefix_refl _)

/-! ## Progress -/

/-- the master or the memory holds the transaction up -/
def stalled (r : Reg) (i : In) : Bool :=
  match r.state with
  | .idle => false
  | .wwait => !i.axi.wvalid
  | .wreq | .areq | .wrmw => !i.mem.reqReady
  | .wwrsp | .aresp | .wldrsp => !i.mem.respValid
  | .wrespo => !i.axi.bready
  | .rvalid => !i.axi.rready

/-- one item for every cycle in which nothing holds the adapter up -/
def unstalled (r : Reg) (i : In) : List Unit := if stalled r i then [] else [()]

/-- the unstalled cycles left to the end of the transaction; a store with all strobes set takes a shorter way -/
def left (r : Reg) : ℕ :=
  match r.state with
  | .idle => 0
  | .wwait => 6
  | .wrmw => 5
  | .wldrsp => 4
  | .wreq | .areq => 3
  | .wwrsp | .aresp => 2
  | .wrespo | .rvalid => 1

theorem left_le (r : Reg) : left r ≤ 6 := by
  unfold left
  split <;> omega

theorem left_step (hs : r.state ≠ .idle) (i : In) : left (next r i) + (unstalled r i).length ≤ left r := by
  cases hst : r.state with
  | idle => exact absurd hst hs
  | wwait =>
    cases hv : i.axi.wvalid with
    | false => simp [left, next, unstalled, stalled, hst, hv]
    | true => by_cases hm : i.axi.wstrb = allOnes <;> simp [left, next, unstalled, stalled, hst, hv, hm]
  | wreq | areq | wrmw =>
    cases hr : i.mem.reqReady <;> simp [left, next, unstalled, stalled, memReqFire, memReqValid, hst, hr]
  | wwrsp | aresp | wldrsp => cases hv : i.mem.respValid <;> simp [left, next, unstalled, stalled, hst, hv]
  | wrespo => cases hb : i.axi.bready <;> simp [left, next, unstalled, stalled, hst, hb]
  | rvalid => cases hr : i.axi.rready <;> simp [left, next, unstalled, stalled, hst, hr]

theorem Phase.rests {p : List Ev} (h : Phase r p) (hp : p = []) : r.state = .idle := by
  cases h with
  | idle hs => exact hs
  | _ => exact absurd hp (List.cons_ne_nil _ _)

theorem Phase.busy {p : List Ev} (h : Phase r p) (hp : p ≠ []) : r.state ≠ .idle := by
  cases h with
  | idle => exact absurd rfl hp
  | _ hs => simp [hs]

theorem finishes {p : List Ev} (h : Phase r p) (hp : p ≠ []) {more : List In}
    (hmore : 6 ≤ (collect next unstalled r more).length) :
    ∃ t : Tx, p <+: t.events ∧ t.events <+: p ++ collect next ev r more := by
  have hpos : ∀ r p, Phase r p → p ≠ [] → 0 < left r := fun r p h hp => by
    cases h with
    | idle => exact absurd rfl hp
    | _ hs => simp [left, hs]
  exact Transactions.finishes phase_step hpos (fun r p i h hp => left_step (h.busy hp) i) h hp ((left_le r).trans hmore)

/-! ## What is offered stays -/

/-- a response or a memory request that is not taken is offered again, unchanged, whatever the master drives then -/
structure Stable (r : Reg) (i : In) : Prop where
  onB : ∀ x, (axiIn r i.axi).bvalid = true → i.axi.bready = false →
    (axiIn (next r i) x).bvalid = true ∧ (axiIn (next r i) x).bid = (axiIn r i.axi).bid
  onR : ∀ x, (axiIn r i.axi).rvalid = true → i.axi.rready = false →
    (axiIn (next r i) x).rvalid = true ∧ (axiIn (next r i) x).rid = (axiIn r i.axi).rid ∧
      (axiIn (next r i) x).rdata = (axiIn r i.axi).rdata ∧ (axiIn (next r i) x).rlast = (axiIn r i.axi).rlast
  onMem : memReqValid r = true → i.mem.reqReady = false →
    memReqValid (next r i) = true ∧ memReq (next r i) = memReq r

theorem stable (r : Reg) (i : In) : Stable r i := by
  refine ⟨fun x hv hr => ?_, fun x hv hr => ?_, fun hv hr => ?_⟩
  · have hs : r.state = .wrespo := beq_iff_eq.1 hv
    have hstay : next r i = r := by simp [next, hs, hr]
    rw [hstay]
    exact ⟨hv, rfl⟩
  · have hs : r.state = .rvalid := beq_iff_eq.1 hv
    have hstay : next r i = r := by simp [next, hs, hr]
    rw [hstay]
    exact ⟨hv, rfl, rfl, rfl⟩
  · have hstay : next r i = r := by
      cases hs : r.state with
      | wreq | areq | wrmw => simp [next, hs, memReqFire, hr]
      | _ => simp [memReqValid, hs] at hv
    rw [hstay]
    exact ⟨hv, rfl⟩

/-! ## A load address waits -/

/-- the master keeps this load address on its channel -/
def KeepsAr (a : BitVec 64) (id : BitVec 8) (i : In) : Prop :=
  i.axi.arvalid = true ∧ i.axi.araddr = a ∧ i.axi.arid = id

/-- a load address that loses against a store address leaves no trace in the adapter -/
theorem ar_refused (hs : r.state = .idle) (hw : i.axi.awvalid = true) :
    (axiIn r i.axi).arready = false ∧ next r i = next r { i with axi := { i.axi with arvalid := false } } := by
  simp [axiIn, next, hs, hw]

/-- it is accepted in the first idle cycle without a store address -/
theorem ar_accepted {a : BitVec 64} {id : BitVec 8} {more : List In} (hk : ∀ j ∈ more, KeepsAr a id j)
    (h : ¬ Always next (fun r j => r.state = .idle → j.axi.awvalid = true) r more) : .ar a id ∈ collect next ev r more := by
  induction more generalizing r with
  | nil => exact absurd trivial h
  | cons j more ih =>
    rw [collect_cons]
    by_cases hj : r.state = .idle ∧ j.axi.awvalid = false
    · obtain ⟨hs, hw⟩ := hj
      obtain ⟨hv, rfl, rfl⟩ := hk j List.mem_cons_self
      rw [ev_eq, hs]
      simp [hw, hv]
    · have hbusy : r.state = .idle → j.axi.awvalid = true := fun hs => by
        rw [← Bool.not_eq_false]
        exact fun hw => hj ⟨hs, hw⟩
      exact List.mem_append_right _ (ih (fun j' hj' => hk j' (List.mem_cons_of_mem _ hj')) fun hmore => h ⟨hbusy, hmore⟩)

/-! ## Whole runs -/

/-- **A single-beat AXI slave.** After any run from reset, for any master and any memory:
- the handshakes of the run are whole transactions, one after another, and the beginning `p` of at most one more. So every
  store address is followed by its data beat and gets one `B` with its ID, every load address gets one `R` with its ID,
  `RLAST` and the data that the memory returned for its address, and there are no other responses. Every continuation
  in which nothing is held up for six cycles finishes the transaction in progress;
- a response or a memory request that is not taken is offered again, unchanged;
- a load address that loses against a store address leaves no trace, and kept by the master it is accepted as soon as the
  adapter is idle and there is no store address. -/
theorem single_beat (g : Reg) (ins : List In) :
    let final := run next (reset g) ins
    (∃ (txs : List Tx) (p : List Ev), collect next ev (reset g) ins = txs.flatMap Tx.events ++ p ∧
      (∃ t : Tx, p <+: t.events ∧ p ≠ t.events) ∧
      (p ≠ [] → ∀ more, 6 ≤ (collect next unstalled final more).length →
        ∃ t : Tx, t.events <+: p ++ collect next ev final more)) ∧
    (∀ i, Stable final i) ∧
    (∀ i, final.state = .idle → i.axi.awvalid = true → (axiIn final i.axi).arready = false ∧
      next final i = next final { i with axi := { i.axi with arvalid := false } }) ∧
    (∀ a id more, (∀ j ∈ more, KeepsAr a id j) →
      ¬ Always next (fun r j => r.state = .idle → j.axi.awvalid = true) final more →
      .ar a id ∈ collect next ev final more) := by
  intro final
  have hreset : Phase (reset g) [] := .idle rfl
  obtain ⟨txs, p, hes, hphase⟩ := Transactions.log_run phase_step hreset ins
  refine ⟨⟨txs, p, hes, hphase.initial, fun hp more hmore => ?_⟩, stable final, ?_, ?_⟩
  · obtain ⟨t, -, ht⟩ := finishes hphase hp hmore
    exact ⟨t, ht⟩
  · intro i hs hw
    exact ar_refused hs hw
  · intro a id more hk h
    exact ar_accepted hk h

/-- the handshakes of a whole transaction. A store with all strobes set writes its data and reads nothing. Any other store
reads its line after both beats, and each byte that it writes is that of its data where the strobe is set, and elsewhere that
of the line returned. -/
inductive Whole : List Ev → Prop where
  | full (addr : BitVec 64) (id : BitVec 8) (data ack : BitVec 512) :
      Whole [.aw addr id, .w data allOnes, .req ⟨addr, data, true⟩, .resp ack, .b id]
  | part (addr : BitVec 64) (id : BitVec 8) (data : BitVec 512) (strb : BitVec 64) (line merged ack : BitVec 512)
      (hstrb : strb ≠ allOnes)
      (hbytes : ∀ n < 64, lane 8 merged n = if strb.getLsbD n then lane 8 data n else lane 8 line n) :
      Whole [.aw addr id, .w data strb, .req ⟨addr, 0, false⟩, .resp line, .req ⟨addr, merged, true⟩, .resp ack, .b id]
  | load (addr : BitVec 64) (id : BitVec 8) (data : BitVec 512) :
      Whole [.ar addr id, .req ⟨addr, 0, false⟩, .resp data, .r id data true]

theorem whole_store (t : Store) : Whole t.events := by
  by_cases hm : t.strb = allOnes
  · have hes : t.events = [.aw t.addr t.id, .w t.data allOnes, .req ⟨t.addr, t.data, true⟩, .resp t.ack, .b t.id] := by
      simp [Store.events, Store.acked, Store.written, Store.fetched, Store.taken, hm, strobe_allOnes]
    rw [hes]
    exact .full _ _ _ _
  · have hes : t.events = [.aw t.addr t.id, .w t.data t.strb, .req ⟨t.addr, 0, false⟩, .resp t.line,
        .req ⟨t.addr, strobe t.data t.strb t.line, true⟩, .resp t.ack, .b t.id] := by
      simp [Store.events, Store.acked, Store.written, Store.fetched, Store.taken, hm]
    rw [hes]
    refine .part _ _ _ _ _ _ _ hm fun n hn => ?_
    rw [strobe, lane_patch _ _ (by omega)]
    cases t.strb.getLsbD n <;> rfl

theorem whole_events : ∀ t : Tx, Whole t.events
  | .store t => whole_store t
  | .load t => .load t.addr t.id t.data

/-- **Masked stores.** After any run from reset, for any master and any memory, the handshakes of the run are those of whole
transactions, one after another, and the beginning `p` of one more.
- So every store has one line write, to its own address and with its own bytes (`Whole`), and is answered after the write has
  been: while `BVALID` is high, the response is all that is missing.
- Between transactions a store address is accepted at once. Every continuation in which nothing is held up for six cycles
  completes what `p` has begun. -/
theorem masked_store (g : Reg) (ins : List In) :
    let final := run next (reset g) ins
    ∃ (shown : List (List Ev)) (p : List Ev), collect next ev (reset g) ins = shown.flatten ++ p ∧
      (∀ es ∈ shown, Whole es) ∧ (∃ es, Whole es ∧ p <+: es ∧ p ≠ es) ∧
      (∀ x, (axiIn final x).bvalid = true → ∃ id, Whole (p ++ [.b id])) ∧
      (p = [] → ∀ i, i.axi.awvalid = true → ev final i = [.aw i.axi.awaddr i.axi.awid]) ∧
      (p ≠ [] → ∀ more, 6 ≤ (collect next unstalled final more).length →
        ∃ es, Whole es ∧ p <+: es ∧ es <+: p ++ collect next ev final more) := by
  intro final
  have hreset : Phase (reset g) [] := .idle rfl
  obtain ⟨txs, p, hes, hphase⟩ := Transactions.log_run phase_step hreset ins
  refine ⟨txs.map Tx.events, p, hes, fun es hmem => ?_, ?_, fun x hb => ?_, fun hp i hw => ?_, fun hp more hmore => ?_⟩
  · obtain ⟨t, -, rfl⟩ := List.mem_map.1 hmem
    exact whole_events t
  · obtain ⟨t, hprefix, hne⟩ := hphase.initial
    exact ⟨t.events, whole_events t, hprefix, hne⟩
  · have hs : final.state = .wrespo := beq_iff_eq.1 hb
    cases hphase with
    | wrespo _ d => exact ⟨_, whole_store (storeOf final d)⟩
    | _ hs' => exact absurd (hs.symm.trans hs') (by decide)
  · have hs : final.state = .idle := hphase.rests hp
    simp [ev_eq, hs, hw]
  · obtain ⟨t, hbegin, hend⟩ := finishes hphase hp hmore
    exact ⟨t.events, whole_events t, hbegin, hend⟩

end AegisSoc.AxiSlave
