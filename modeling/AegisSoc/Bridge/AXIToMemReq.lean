/-
The AXI4 slave adapter in front of the line fabric (`bridge/AXIToMemReq.scala`). A read and a full-line write are one
line request; a write whose strobes do not cover the line fetches the line first, merges the strobed bytes over it and
writes the result.

- `written_eq`: the line written for a store is the line in hand with exactly the strobed bytes replaced;
- `held_step`: attached to any line memory, when no other agent writes the line between the fetch and the write-back
  of a partial store (`Quiet`), the line in hand at the write-back is the line in the memory.
-/
import AegisSoc.Types
import AegisSoc.Lib.Lanes

namespace AegisSoc.AXIToMemReq

open Machine PortMemory PortClient Lanes

/-! ## Model -/

inductive State where
  | idle
  | wwait
  | wreq
  | wwrsp
  | wrespo
  | areq
  | aresp
  | rvalid
  | wrmw
  | wldrsp
deriving DecidableEq, Repr

structure Reg where
  state : State
  addr : BitVec 64
  wdata : BitVec 512
  wmask : BitVec 64
  rdata : BitVec 512
  awid : BitVec 8
  arid : BitVec 8
deriving DecidableEq, Repr

structure In where
  axi : AxiOut
  mem : MemIn
deriving DecidableEq, Repr

def allOnes : BitVec 64 := BitVec.allOnes 64

/-- `FillInterleaved(8, wmask)`: the byte mask as a bit mask -/
def maskUp (wmask : BitVec 64) : BitVec 512 := ofLanes 512 fun k => if wmask.getLsbD k then (0xff : BitVec 8) else 0

/-- the strobed bytes over the fetched line -/
def mergedW (r : Reg) : BitVec 512 := (r.rdata &&& ~~~maskUp r.wmask) ||| (r.wdata &&& maskUp r.wmask)

/-- the AXI side; the address channels answer in the cycle of the request, writes first -/
def axiIn (r : Reg) (x : AxiOut) : AxiIn where
  awready := r.state == .idle && x.awvalid
  wready := r.state == .wwait
  bvalid := r.state == .wrespo
  bid := r.awid
  arready := r.state == .idle && !x.awvalid && x.arvalid
  rvalid := r.state == .rvalid
  rdata := if r.state = .rvalid then r.rdata else 0
  rlast := r.state == .rvalid
  rid := r.arid

def memReqValid (r : Reg) : Bool := r.state == .wreq || r.state == .areq || r.state == .wrmw

def memReq (r : Reg) : MemReq where
  addr := r.addr
  data :=
    match r.state with
    | .wreq => if r.wmask = allOnes then r.wdata else mergedW r
    | .areq | .wrmw => 0
    | _ => r.wdata
  isWrite := r.state == .wreq

def memRespReady (r : Reg) : Bool := r.state == .wwrsp || r.state == .aresp || r.state == .wldrsp

def memReqFire (r : Reg) (i : In) : Bool := memReqValid r && i.mem.reqReady

/-- only the state has a reset value; `g` is what the other registers hold -/
def reset (g : Reg) : Reg := { g with state := .idle }

/-- clear registers -/
def zeros : Reg := ⟨.idle, 0, 0, 0, 0, 0, 0⟩

def next (r : Reg) (i : In) : Reg :=
  match r.state with
  | .idle =>
    if i.axi.awvalid then { r with addr := i.axi.awaddr, awid := i.axi.awid, state := .wwait }
    else if i.axi.arvalid then { r with addr := i.axi.araddr, arid := i.axi.arid, state := .areq }
    else r
  | .wwait =>
    if i.axi.wvalid then
      { r with
        wdata := i.axi.wdata
        wmask := i.axi.wstrb
        state := if i.axi.wstrb = allOnes then .wreq else .wrmw }
    else r
  | .wreq => if memReqFire r i then { r with state := .wwrsp } else r
  | .wwrsp => if i.mem.respValid then { r with state := .wrespo } else r
  | .wrespo => if i.axi.bready then { r with state := .idle } else r
  | .areq => if memReqFire r i then { r with state := .aresp } else r
  | .aresp => if i.mem.respValid then { r with rdata := i.mem.respBits, state := .rvalid } else r
  | .rvalid => if i.axi.rready then { r with state := .idle } else r
  | .wrmw => if memReqFire r i then { r with state := .wldrsp } else r
  | .wldrsp => if i.mem.respValid then { r with rdata := i.mem.respBits, state := .wreq } else r

/-- the adapter as a client of the line fabric -/
def client : LineClient Reg AxiOut where
  reqValid r _ := memReqValid r
  req r _ := memReq r
  respReady r _ := memRespReady r
  next r x m := next r ⟨x, m⟩

/-- the adapter waits for the memory exactly while it has a request outstanding -/
theorem waiting : Waiting client memRespReady where
  ready _ _ := rfl
  accepted r x m hv hr := by
    have hv : memReqValid r = true := hv
    cases hs : r.state <;> simp [client, next, memReqFire, memReqValid, memRespReady, hs, hr] at hv ⊢
  taken r x m hw hv := by
    cases hs : r.state <;> simp [client, next, memRespReady, hs, hv] at hw ⊢
  held r x m hq hp := by
    have hq : (memReqValid r && m.reqReady) = false := hq
    cases hs : r.state with
    | idle =>
      simp only [client, next, hs, memRespReady]
      split_ifs
      · rfl
      · rfl
      · rw [hs]
    | wwait =>
      simp only [client, next, hs, memRespReady]
      split_ifs
      · rfl
      · rfl
      · rw [hs]
    | wreq | areq | wrmw =>
      have hr : m.reqReady = false := by simpa [memReqValid, hs] using hq
      simp [client, next, memReqFire, hr, memRespReady, hs]
    | wwrsp | aresp | wldrsp =>
      have hv : m.respValid = false := by simpa [memRespReady, hs] using hp
      simp [client, next, hv, memRespReady, hs]
    | wrespo | rvalid =>
      simp only [client, next, hs, memRespReady]
      split_ifs
      · rfl
      · rw [hs]

/-! ## The line a store writes -/

/-- the store's own effect: the strobed bytes and nothing else -/
def strobe (wdata : BitVec 512) (wmask : BitVec 64) (l : BitVec 512) : BitVec 512 :=
  patch l fun k => if wmask.getLsbD k then some (lane 8 wdata k) else none

theorem maskUp_getLsbD (wmask : BitVec 64) {b : ℕ} (hb : b < 512) : (maskUp wmask).getLsbD b = wmask.getLsbD (b / 8) := by
  have hff : ∀ k < 8, (0xff : BitVec 8).getLsbD k = true := by decide
  rw [maskUp, getLsbD_ofLanes _ hb]
  cases wmask.getLsbD (b / 8)
  · simp
  · simpa using hff (b % 8) (Nat.mod_lt _ (by decide))

theorem strobe_getLsbD (wdata : BitVec 512) (wmask : BitVec 64) (l : BitVec 512) {b : ℕ} (hb : b < 512) :
    (strobe wdata wmask l).getLsbD b = if wmask.getLsbD (b / 8) then wdata.getLsbD b else l.getLsbD b := by
  rw [strobe, getLsbD_patch _ _ hb (by decide)]
  cases wmask.getLsbD (b / 8)
  · simp
  · simp only [ite_true, getLsbD_lane, Nat.mod_lt b (show 0 < 8 by decide), Nat.div_add_mod, decide_true, Bool.true_and]

theorem mergedW_eq (r : Reg) : mergedW r = strobe r.wdata r.wmask r.rdata := by
  apply BitVec.eq_of_getLsbD_eq
  intro b hb
  rw [strobe_getLsbD _ _ _ hb]
  simp only [mergedW, BitVec.getLsbD_or, BitVec.getLsbD_and, BitVec.getLsbD_not, maskUp_getLsbD _ hb, hb, decide_true,
    Bool.true_and]
  cases r.wmask.getLsbD (b / 8) <;> simp

/-- with all strobes set nothing of the old line is left -/
theorem strobe_allOnes (wdata l : BitVec 512) : strobe wdata allOnes l = wdata := by
  apply BitVec.eq_of_getLsbD_eq
  intro b hb
  rw [strobe_getLsbD _ _ _ hb, if_pos]
  simp only [allOnes, BitVec.getLsbD_allOnes, decide_eq_true_eq]
  omega

/-- **The written line.** A store writes the line in hand with exactly its strobed bytes replaced; a full-line store
writes its data, whatever line is in hand. -/
theorem written_eq {r : Reg} (hs : r.state = .wreq) {l : BitVec 512} (hl : r.wmask ≠ allOnes → r.rdata = l) :
    memReq r = ⟨r.addr, strobe r.wdata r.wmask l, true⟩ := by
  by_cases hm : r.wmask = allOnes
  · simp [memReq, hs, hm, strobe_allOnes]
  · simp [memReq, hs, hm, mergedW_eq, hl hm]

/-! ## Stores, from the AXI side to the line port -/

/-- one strobed store -/
structure AxiStore where
  addr : BitVec 64
  wdata : BitVec 512
  wmask : BitVec 64
deriving DecidableEq, Repr

/-- the store in progress -/
def captured (r : Reg) : AxiStore := ⟨r.addr, r.wdata, r.wmask⟩

/-- the store whose data beat is taken in this cycle -/
def issued (r : Reg) (i : In) : List AxiStore :=
  if i.axi.wvalid && (axiIn r i.axi).wready then [⟨r.addr, i.axi.wdata, i.axi.wstrb⟩] else []

/-- the store whose line write is accepted in this cycle -/
def committed (r : Reg) (i : In) : List AxiStore :=
  if memReqFire r i && (memReq r).isWrite then [captured r] else []

/-- the store taken and not yet written -/
def inFlight (r : Reg) : List AxiStore :=
  match r.state with
  | .wrmw | .wldrsp | .wreq => [captured r]
  | _ => []

/-- stores are written once each, in the order they were taken -/
theorem inFlight_next (r : Reg) (i : In) : inFlight r ++ issued r i = committed r i ++ inFlight (next r i) := by
  cases hs : r.state with
  | idle =>
    simp only [inFlight, issued, committed, next, hs, memReqFire, memReqValid, axiIn]
    cases hv : i.axi.awvalid <;> cases hv' : i.axi.arvalid <;> simp [hs]
  | wwait =>
    simp only [inFlight, issued, committed, next, hs, memReqFire, memReqValid, axiIn]
    cases hv : i.axi.wvalid
    · simp [hs]
    · by_cases hm : i.axi.wstrb = allOnes <;> simp [hm, captured]
  | wreq =>
    simp only [inFlight, issued, committed, next, hs, axiIn, memReq]
    cases hf : memReqFire r i <;> simp [hs]
  | wwrsp =>
    simp only [inFlight, issued, committed, next, hs, memReqFire, memReqValid, axiIn]
    cases hv : i.mem.respValid <;> simp [hs]
  | wrespo =>
    simp only [inFlight, issued, committed, next, hs, memReqFire, memReqValid, axiIn]
    cases hv : i.axi.bready <;> simp [hs]
  | areq =>
    simp only [inFlight, issued, committed, next, hs, axiIn, memReq]
    cases hf : memReqFire r i <;> simp [hs]
  | aresp =>
    simp only [inFlight, issued, committed, next, hs, memReqFire, memReqValid, axiIn]
    cases hv : i.mem.respValid <;> simp [hs]
  | rvalid =>
    simp only [inFlight, issued, committed, next, hs, memReqFire, memReqValid, axiIn]
    cases hv : i.axi.rready <;> simp [hs]
  | wrmw =>
    simp only [inFlight, issued, committed, next, hs, axiIn, memReq]
    cases hf : memReqFire r i <;> simp [hs, captured]
  | wldrsp =>
    simp only [inFlight, issued, committed, next, hs, memReqFire, memReqValid, axiIn]
    cases hv : i.mem.respValid <;> simp [hs, captured]

/-! ## The adapter on a line memory -/

section Attached

variable {L : Type*} [DecidableEq L] (idx : BitVec 64 → L)

abbrev Sys (L : Type*) := PortClient.Reg Reg L (BitVec 512)
abbrev SysIn (L : Type*) := PortClient.In AxiOut L (BitVec 512)

def step : Sys L → SysIn L → Sys L := PortClient.step client (MemReq.access idx)

/-- no other agent writes the line of a partial store between its fetch and its write-back -/
def Quiet (s : Sys L) (i : SysIn L) : Prop :=
  (s.own.state = .wldrsp ∨ s.own.state = .wreq) → s.own.wmask ≠ allOnes → Spares (idx s.own.addr) i

/-- what the adapter holds and is owed, by state -/
def Held (s : Sys L) : Prop :=
  match s.own.state with
  | .idle | .wwait | .wrespo | .areq | .rvalid => s.owed = none
  | .wrmw => s.own.wmask ≠ allOnes ∧ s.owed = none
  | .wldrsp => s.own.wmask ≠ allOnes ∧ s.owed = some (s.mem (idx s.own.addr))
  | .wreq => (s.own.wmask ≠ allOnes → s.own.rdata = s.mem (idx s.own.addr)) ∧ s.owed = none
  | .wwrsp => s.owed = some 0
  | .aresp => s.owed.isSome

variable {idx} {s : Sys L} {i : SysIn L}

/-- outside the request and response states the memory port is silent -/
theorem step_silent (hr : memReqValid s.own = false) (hp : memRespReady s.own = false) :
    step idx s i = ⟨next s.own ⟨i.ext, portIn s i⟩, writes s.mem i.others, s.owed⟩ := by
  simp [step, PortClient.step, accepts, takes, client, hr, hp]

theorem step_request (hr : memReqValid s.own = true) (hp : memRespReady s.own = false) : step idx s i =
    if (portIn s i).reqReady then
      ⟨next s.own ⟨i.ext, portIn s i⟩, apply (writes s.mem i.others) ((memReq s.own).access idx),
        some (answer (writes s.mem i.others) ((memReq s.own).access idx))⟩
    else ⟨next s.own ⟨i.ext, portIn s i⟩, writes s.mem i.others, s.owed⟩ := by
  cases h : (portIn s i).reqReady <;> simp [step, PortClient.step, accepts, takes, client, hr, hp, h, reqOf]

theorem step_response (hr : memReqValid s.own = false) (hp : memRespReady s.own = true) : step idx s i =
    if (portIn s i).respValid then ⟨next s.own ⟨i.ext, portIn s i⟩, writes s.mem i.others, none⟩
    else ⟨next s.own ⟨i.ext, portIn s i⟩, writes s.mem i.others, s.owed⟩ := by
  cases h : (portIn s i).respValid <;> simp [step, PortClient.step, accepts, takes, client, hr, hp, h]

theorem held_step (h : Held idx s) (hq : Quiet idx s i) : Held idx (step idx s i) := by
  have hquiet : (s.own.state = .wldrsp ∨ s.own.state = .wreq) → s.own.wmask ≠ allOnes →
      writes s.mem i.others (idx s.own.addr) = s.mem (idx s.own.addr) := fun hs hm => writes_of_ne _ _ _ (hq hs hm)
  cases hs : s.own.state with
  | idle =>
    simp only [Held, hs] at h
    rw [step_silent (by simp [memReqValid, hs]) (by simp [memRespReady, hs])]
    simp only [next, hs]
    split_ifs <;> simp [Held, hs, h]
  | wwait =>
    simp only [Held, hs] at h
    rw [step_silent (by simp [memReqValid, hs]) (by simp [memRespReady, hs])]
    simp only [next, hs]
    split_ifs with hv hm
    · simp [Held, h, hm]
    · simp [Held, h, hm]
    · simp [Held, hs, h]
  | wrespo =>
    simp only [Held, hs] at h
    rw [step_silent (by simp [memReqValid, hs]) (by simp [memRespReady, hs])]
    simp only [next, hs]
    split_ifs <;> simp [Held, hs, h]
  | rvalid =>
    simp only [Held, hs] at h
    rw [step_silent (by simp [memReqValid, hs]) (by simp [memRespReady, hs])]
    simp only [next, hs]
    split_ifs <;> simp [Held, hs, h]
  | areq =>
    simp only [Held, hs] at h
    rw [step_request (by simp [memReqValid, hs]) (by simp [memRespReady, hs])]
    simp only [next, hs, memReqFire, memReqValid]
    split_ifs <;> simp_all [Held]
  | wrmw =>
    simp only [Held, hs] at h
    rw [step_request (by simp [memReqValid, hs]) (by simp [memRespReady, hs])]
    simp only [next, hs, memReqFire, memReqValid]
    split_ifs <;> simp_all [Held, memReq, MemReq.access, apply, answer]
  | wreq =>
    simp only [Held, hs] at h
    rw [step_request (by simp [memReqValid, hs]) (by simp [memRespReady, hs])]
    simp only [next, hs, memReqFire, memReqValid]
    split_ifs <;> simp_all [Held, memReq, MemReq.access, answer]
  | aresp =>
    simp only [Held, hs] at h
    rw [step_response (by simp [memReqValid, hs]) (by simp [memRespReady, hs])]
    simp only [next, hs]
    split_ifs <;> simp_all [Held]
  | wwrsp =>
    simp only [Held, hs] at h
    rw [step_response (by simp [memReqValid, hs]) (by simp [memRespReady, hs])]
    simp only [next, hs]
    split_ifs <;> simp_all [Held]
  | wldrsp =>
    simp only [Held, hs] at h
    rw [step_response (by simp [memReqValid, hs]) (by simp [memRespReady, hs])]
    have hbits : (portIn s i).respValid = true → (portIn s i).respBits = s.mem (idx s.own.addr) := fun hv => by
      simpa [h.2] using (owed_of_respValid hv).symm
    simp only [next, hs]
    split_ifs with hv <;> simp_all [Held]

end Attached

end AegisSoc.AXIToMemReq
