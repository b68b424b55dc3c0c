/-
The bundles shared by the blocks of the SoC (`types.scala`). A `Decoupled` channel is a valid bit and a payload from the
producer and a ready bit from the consumer; a transfer happens in the cycles in which both are high. The `size` field
of `MemReq` is driven but read by no block, and is left out; so are the burst fields (`LEN`, `SIZE`, `BURST`, `WLAST`)
and the constant response codes of `AXIBundle`.
-/
import Mathlib.Data.BitVec
import AegisSoc.Lib.PortClient

namespace AegisSoc

open PortMemory PortClient

/-- 512-bit line request on the shared-memory fabric -/
structure MemReq where
  addr : BitVec 64
  data : BitVec 512
  isWrite : Bool
deriving DecidableEq, Repr

/-- 32-bit request of the CPU core's data port; `size` is 0 for a word, 1 for a half, 2 for a byte -/
structure WordMemReq where
  addr : BitVec 64
  data : BitVec 32
  isWrite : Bool
  size : BitVec 2
deriving DecidableEq, Repr

/-- what the master of a `MemInterface` sees of it in one cycle -/
abbrev MemIn := PortIn (BitVec 512)

/-- what the slave of a `MemInterface` sees of it in one cycle -/
structure MemOut where
  reqValid : Bool
  req : MemReq
  respReady : Bool
deriving DecidableEq, Repr

/-- what the slave of a `WordMemPort` sees of it in one cycle -/
structure WordOut where
  reqValid : Bool
  req : WordMemReq
  respReady : Bool
deriving DecidableEq, Repr

/-- what the master of a 512-bit AXI bundle drives in one cycle -/
structure AxiOut where
  awvalid : Bool
  awaddr : BitVec 64
  awid : BitVec 8
  wvalid : Bool
  wdata : BitVec 512
  wstrb : BitVec 64
  bready : Bool
  arvalid : Bool
  araddr : BitVec 64
  arid : BitVec 8
  rready : Bool
deriving DecidableEq, Repr

/-- what the slave of a 512-bit AXI bundle drives in one cycle -/
structure AxiIn where
  awready : Bool
  wready : Bool
  bvalid : Bool
  bid : BitVec 8
  arready : Bool
  rvalid : Bool
  rdata : BitVec 512
  rlast : Bool
  rid : BitVec 8
deriving DecidableEq, Repr

/-- a client of the line fabric -/
abbrev LineClient (R X : Type*) := Client R X MemReq (BitVec 512)

/-- what a line request does to a memory whose lines are found by `idx` -/
def MemReq.access {L : Type*} (idx : BitVec 64 → L) (q : MemReq) : Access L (BitVec 512) :=
  ⟨idx q.addr, q.data, q.isWrite⟩

/-- line `k` of an array at `base` -/
def lineAt (base : BitVec 64) (k : ℕ) : BitVec 64 := base + BitVec.ofNat 64 (64 * k)

/-- the offset of a line, as the engines compute it from a line counter -/
theorem line_shift {n : ℕ} (l : BitVec n) : l.setWidth 64 <<< 6 = BitVec.ofNat 64 (64 * l.toNat) := by
  apply BitVec.eq_of_toNat_eq
  simp only [BitVec.toNat_shiftLeft, BitVec.toNat_setWidth, BitVec.toNat_ofNat, Nat.shiftLeft_eq]
  omega

/-- a port driven freely from outside -/
def freePort : LineClient Unit MemOut where
  reqValid _ x := x.reqValid
  req _ x := x.req
  respReady _ x := x.respReady
  next _ _ _ := ()

end AegisSoc
