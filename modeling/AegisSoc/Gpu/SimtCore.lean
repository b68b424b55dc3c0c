/-
The SIMT core (`gpu/SimtCore.scala`): a kernel adds two arrays of 32-lane lines, `Y = X + Z`, line by line, through one
memory interface. The launch parameters are latched in the idle state; `start` clears `done` in every state.
-/
import AegisSoc.Types
import AegisSoc.Lib.Lanes

namespace AegisSoc.SimtCore

open Lanes

inductive State where
  | idle
  | rdX
  | rdXr
  | rdZ
  | rdZr
  | calc
  | wrY
  | wrYr
deriving DecidableEq, Repr

structure Reg where
  state : State
  xBase : BitVec 64
  zBase : BitVec 64
  yBase : BitVec 64
  nReg : BitVec 16
  line : BitVec 16
  xLine : BitVec 512
  zLine : BitVec 512
  doneReg : Bool
deriving DecidableEq, Repr

/-- the launch port -/
structure Launch where
  start : Bool
  baseX : BitVec 64
  baseZ : BitVec 64
  baseY : BitVec 64
  nLines : BitVec 16
deriving DecidableEq, Repr

/-- the sum of the two operand lines, lane by lane, without carries between the lanes -/
def yLine (r : Reg) : BitVec 512 := ofLanes 512 fun l => lane 16 r.xLine l + lane 16 r.zLine l

def memReqValid (r : Reg) : Bool := r.state == .rdX || r.state == .rdZ || r.state == .wrY

def memReq (r : Reg) : MemReq where
  addr :=
    match r.state with
    | .rdX => r.xBase + (r.line.setWidth 64 <<< 6)
    | .rdZ => r.zBase + (r.line.setWidth 64 <<< 6)
    | .wrY => r.yBase + (r.line.setWidth 64 <<< 6)
    | _ => 0
  data := yLine r
  isWrite := r.state == .wrY

def memRespReady (r : Reg) : Bool := r.state == .rdXr || r.state == .rdZr || r.state == .wrYr

def done (r : Reg) : Bool := r.doneReg

def memReqFire (r : Reg) (m : MemIn) : Bool := memReqValid r && m.reqReady
def memRespFire (r : Reg) (m : MemIn) : Bool := m.respValid && memRespReady r

def reset : Reg where
  state := .idle
  xBase := 0
  zBase := 0
  yBase := 0
  nReg := 0
  line := 0
  xLine := 0
  zLine := 0
  doneReg := false

def next (r : Reg) (x : Launch) (m : MemIn) : Reg :=
  let r' := { r with doneReg := if x.start then false else r.doneReg }
  match r.state with
  | .idle =>
    if x.start then
      { r' with xBase := x.baseX, zBase := x.baseZ, yBase := x.baseY, nReg := x.nLines, line := 0, state := .rdX }
    else r'
  | .rdX => if memReqFire r m then { r' with state := .rdXr } else r'
  | .rdXr => if memRespFire r m then { r' with xLine := m.respBits, state := .rdZ } else r'
  | .rdZ => if memReqFire r m then { r' with state := .rdZr } else r'
  | .rdZr => if memRespFire r m then { r' with zLine := m.respBits, state := .calc } else r'
  | .calc => { r' with state := .wrY }
  | .wrY => if memReqFire r m then { r' with state := .wrYr } else r'
  | .wrYr =>
    if memRespFire r m then
      -- a launch with `nLines = 0` wraps here and runs over 2 ^ 16 lines
      if r.line = r.nReg - 1 then { r' with line := r.line + 1, nReg := 0, doneReg := true, state := .idle }
      else { r' with line := r.line + 1, state := .rdX }
    else r'

/-- what the core drives on its memory interface -/
def memOut (r : Reg) : MemOut := ⟨memReqValid r, memReq r, memRespReady r⟩

/-! ## Requests and responses -/

variable {r : Reg} {x : Launch} {m : MemIn}

/-- the core waits for the response to each request it has issued -/
theorem memRespReady_next : memRespReady (next r x m) = if memRespReady r then !memRespFire r m else memReqFire r m := by
  cases hs : r.state with
  | wrYr =>
    cases hv : m.respValid with
    | false => simp [next, memRespReady, memRespFire, hs, hv]
    | true =>
      by_cases hlast : r.line = r.nReg - 1
      · simp only [next, memRespReady, memRespFire, hs, hv, if_pos hlast]
        rfl
      · simp only [next, memRespReady, memRespFire, hs, hv, if_neg hlast]
        rfl
  | idle => cases hx : x.start <;> simp [next, memRespReady, memReqFire, memReqValid, hs, hx] <;> rfl
  | _ =>
    cases hq : m.reqReady <;> cases hv : m.respValid <;>
      simp [next, memRespReady, memReqFire, memReqValid, memRespFire, hs, hq, hv] <;> decide

/-- the response to a store is awaited in a state of its own -/
theorem storing_next (hf : memReqFire r m = true) : ((next r x m).state == .wrYr) = (memReq r).isWrite := by
  cases hs : r.state <;> simp [memReqFire, memReqValid, hs] at hf <;>
    simp [next, memReqFire, memReqValid, memReq, hs, hf]

theorem waiting_next (hr : memRespReady r = true) (hf : memRespFire r m = false) : (next r x m).state = r.state := by
  cases hs : r.state <;> simp [memRespReady, hs] at hr <;> simp [next, hs, hf]

end AegisSoc.SimtCore
