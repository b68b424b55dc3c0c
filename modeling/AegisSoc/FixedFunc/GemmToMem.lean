/-
The fixed-function GEMM engine (`fixedfunc/GemmToMem.scala`), for any tile size `T`. One command fetches the A and the B
tile, runs the `i`/`k`/`j` loop nest with one multiply-accumulate per cycle, and stores the C tile.

While a fetch state lasts, the slice of the tile selected by the line counter is overwritten in every cycle with whatever
is on the response bus; it is right only because the counter moves in the cycle of the response. The request stays
asserted while its response is outstanding. The C tile is cleared by reset only.

The tiles are functions of the element index. An index past the tile is not reached from reset (`Running` in
`GemmRun`), so the hardware's index truncation is left out.
-/
import AegisSoc.Types
import AegisSoc.Lib.Lanes

namespace AegisSoc.GemmToMem

open Lanes

/-! ## Model -/

inductive State where
  | idle
  | fetchA
  | fetchB
  | calc
  | store
deriving DecidableEq, Repr

structure Reg where
  state : State
  baseAddr : BitVec 64
  aTile : ℕ → BitVec 16
  bTile : ℕ → BitVec 16
  cTile : ℕ → BitVec 32
  lineCnt : BitVec 8
  i : BitVec 8
  k : BitVec 8
  j : BitVec 8

/-- the command channel; the opcode is not read -/
structure Cmd where
  valid : Bool
  data : BitVec 64
deriving DecidableEq, Repr

variable (T : ℕ)

def linesOperand : ℕ := T * T / 32
def linesC : ℕ := T * T / 16

def cmdReady (r : Reg) : Bool := r.state == .idle
def busy (r : Reg) : Bool := r.state != .idle
def cmdFire (r : Reg) (c : Cmd) : Bool := c.valid && cmdReady r

def aAddr (r : Reg) : BitVec 64 := r.baseAddr + (r.lineCnt.setWidth 64 <<< 6)
def bAddr (r : Reg) : BitVec 64 := r.baseAddr + BitVec.ofNat 64 (linesOperand T <<< 6) + (r.lineCnt.setWidth 64 <<< 6)
def cAddr (r : Reg) : BitVec 64 :=
  r.baseAddr + BitVec.ofNat 64 ((2 * linesOperand T) <<< 6) + (r.lineCnt.setWidth 64 <<< 6)

/-- the fetch slice: 32 elements of the tile, starting at `baseIdx`, from the response bus -/
def fetchSlice (r : Reg) (tile : ℕ → BitVec 16) (bits : BitVec 512) : ℕ → BitVec 16 := fun n =>
  let baseIdx := r.lineCnt.toNat * 32
  if baseIdx ≤ n ∧ n < baseIdx + 32 then lane 16 bits (n - baseIdx) else tile n

/-- the store slice: 16 results -/
def storeData (r : Reg) : BitVec 512 := ofLanes 512 fun e => r.cTile (r.lineCnt.toNat * 16 + e)

def onPort (r : Reg) : Bool := r.state == .fetchA || r.state == .fetchB || r.state == .store

def memReq (r : Reg) : MemReq where
  addr :=
    match r.state with
    | .fetchA => aAddr r
    | .fetchB => bAddr T r
    | .store => cAddr T r
    | _ => 0
  data := storeData r
  isWrite := r.state == .store

def elemIdx (r : Reg) : ℕ := r.i.toNat * T + r.j.toNat

def acc (r : Reg) : BitVec 32 :=
  r.cTile (elemIdx T r) +
    (r.aTile (r.i.toNat * T + r.k.toNat)).setWidth 32 * (r.bTile (r.k.toNat * T + r.j.toNat)).setWidth 32

def memRespFire (r : Reg) (m : MemIn) : Bool := m.respValid && onPort r

/-- the counters of the loop nest after one multiply-accumulate, and the state -/
def advance (r : Reg) : Reg :=
  if r.j.toNat = T - 1 then
    if r.k.toNat = T - 1 then
      if r.i.toNat = T - 1 then { r with j := 0, k := 0, lineCnt := 0, state := .store }
      else { r with j := 0, k := 0, i := r.i + 1 }
    else { r with j := 0, k := r.k + 1 }
  else { r with j := r.j + 1 }

def next (r : Reg) (c : Cmd) (m : MemIn) : Reg :=
  match r.state with
  | .idle => if cmdFire r c then { r with baseAddr := c.data, lineCnt := 0, state := .fetchA } else r
  | .fetchA =>
    let r' := { r with aTile := fetchSlice r r.aTile m.respBits }
    if memRespFire r m then
      if r.lineCnt.toNat = linesOperand T - 1 then { r' with lineCnt := 0, state := .fetchB }
      else { r' with lineCnt := r.lineCnt + 1 }
    else r'
  | .fetchB =>
    let r' := { r with bTile := fetchSlice r r.bTile m.respBits }
    if memRespFire r m then
      if r.lineCnt.toNat = linesOperand T - 1 then { r' with lineCnt := 0, i := 0, k := 0, j := 0, state := .calc }
      else { r' with lineCnt := r.lineCnt + 1 }
    else r'
  | .calc => advance T { r with cTile := Function.update r.cTile (elemIdx T r) (acc T r) }
  | .store =>
    if memRespFire r m then
      { r with lineCnt := r.lineCnt + 1, state := if r.lineCnt.toNat = linesC T - 1 then .idle else .store }
    else r

def reset : Reg where
  state := .idle
  baseAddr := 0
  aTile _ := 0
  bTile _ := 0
  cTile _ := 0
  lineCnt := 0
  i := 0
  k := 0
  j := 0

/-- the engine as a client of the line fabric -/
def client : LineClient Reg Cmd where
  reqValid r _ := onPort r
  req r _ := memReq T r
  respReady r _ := onPort r
  next := next T

end AegisSoc.GemmToMem
