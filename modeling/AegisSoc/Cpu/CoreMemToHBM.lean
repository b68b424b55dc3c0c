/-
The CPU's memory adapter (`cpu/CoreMemToHBM.scala`): a 32-bit word port on one side, the 512-bit line fabric on the
other. A load fetches the line and extracts the field; a store fetches the line, merges the word into it and writes
the line back.

The merge is bit-exact: `maskAt` clears the stored field of the line, `dataAt` is the whole 32-bit data register moved
to the field's place. Only the mask is cut to the size of the access, so for a byte or a half the upper bits of the
data register are or-ed into the bytes that follow (`storeLine_getLsbD`). `storeLine_eq_iff` says exactly when this
does no harm.
-/
import AegisSoc.Types
import AegisSoc.Lib.Lanes

namespace AegisSoc.CoreMemToHBM

open Lanes

/-! ## Model -/

inductive State where
  | idle
  | rdreq
  | rdresp
  | wrreq
  | wrresp
  | rsp
deriving DecidableEq, Repr

structure Reg where
  state : State
  addrReg : BitVec 64
  dataReg : BitVec 32
  isWrReg : Bool
  sizeReg : BitVec 2
  lineReg : BitVec 512
  offReg : BitVec 6
deriving DecidableEq, Repr

structure In where
  word : WordOut
  hbm : MemIn
deriving DecidableEq, Repr

/-- bit offset within the line: `offReg << 3`, nine bits wide -/
def pos (offReg : BitVec 6) : BitVec 9 := offReg.setWidth 9 <<< 3

/-! The load field, right-aligned. -/
def shiftedLine (lineReg : BitVec 512) (offReg : BitVec 6) : BitVec 512 := lineReg >>> (pos offReg).toNat

def field (lineReg : BitVec 512) (sizeReg : BitVec 2) (offReg : BitVec 6) : BitVec 32 :=
  if sizeReg = 0 then (shiftedLine lineReg offReg).extractLsb' 0 32
  else if sizeReg = 1 then ((shiftedLine lineReg offReg).extractLsb' 0 16).setWidth 32
  else ((shiftedLine lineReg offReg).extractLsb' 0 8).setWidth 32

/-! The store merge. A 512-bit value shifted left by a nine-bit amount is 1023 bits wide. -/
def fMask32 (sizeReg : BitVec 2) : BitVec 32 :=
  if sizeReg = 0 then 0xffffffff else if sizeReg = 1 then 0xffff else 0xff

def maskAt (sizeReg : BitVec 2) (offReg : BitVec 6) : BitVec 1023 :=
  (fMask32 sizeReg).setWidth 1023 <<< (pos offReg).toNat

def dataAt (dataReg : BitVec 32) (offReg : BitVec 6) : BitVec 1023 := dataReg.setWidth 1023 <<< (pos offReg).toNat

def merged (lineReg : BitVec 512) (dataReg : BitVec 32) (sizeReg : BitVec 2) (offReg : BitVec 6) : BitVec 1023 :=
  (lineReg.setWidth 1023 &&& ~~~maskAt sizeReg offReg) ||| dataAt dataReg offReg

/-- `Cat(addr(63, 6), 0.U(6.W))` -/
def lineBase (addr : BitVec 64) : BitVec 64 := addr.extractLsb' 6 58 ++ 0#6

def wordReqReady (r : Reg) : Bool := r.state == .idle
def hbmReqValid (r : Reg) : Bool := r.state == .rdreq || r.state == .wrreq

/-- the line request; its 512-bit data field truncates the merged value -/
def hbmReq (r : Reg) : MemReq where
  addr := lineBase r.addrReg
  data := if r.state = .wrreq then (merged r.lineReg r.dataReg r.sizeReg r.offReg).setWidth 512 else 0
  isWrite := r.state == .wrreq

def hbmRespReady (r : Reg) : Bool := r.state == .rdresp || r.state == .wrresp
def wordRespValid (r : Reg) : Bool := r.state == .rsp
def wordRespBits (r : Reg) : BitVec 32 := if r.isWrReg then 0 else field r.lineReg r.sizeReg r.offReg

def wordReqFire (r : Reg) (i : In) : Bool := i.word.reqValid && wordReqReady r
def hbmReqFire (r : Reg) (i : In) : Bool := hbmReqValid r && i.hbm.reqReady
def hbmRespFire (r : Reg) (i : In) : Bool := i.hbm.respValid && hbmRespReady r
def wordRespFire (r : Reg) (i : In) : Bool := wordRespValid r && i.word.respReady

def reset : Reg := ⟨.idle, 0, 0, false, 0, 0, 0⟩

/-- the idle state on an accepted word request -/
def capture (r : Reg) (q : WordMemReq) : Reg :=
  { r with
    addrReg := q.addr
    dataReg := q.data
    isWrReg := q.isWrite
    sizeReg := q.size
    offReg := q.addr.extractLsb' 0 6
    state := .rdreq }

def next (r : Reg) (i : In) : Reg :=
  match r.state with
  | .idle => if wordReqFire r i then capture r i.word.req else r
  | .rdreq => if hbmReqFire r i then { r with state := .rdresp } else r
  | .rdresp =>
    if hbmRespFire r i then { r with lineReg := i.hbm.respBits, state := if r.isWrReg then .wrreq else .rsp } else r
  | .wrreq => if hbmReqFire r i then { r with state := .wrresp } else r
  | .wrresp => if hbmRespFire r i then { r with state := .rsp } else r
  | .rsp => if wordRespFire r i then { r with state := .idle } else r

/-- the adapter as a client of the line fabric -/
def client : LineClient Reg WordOut where
  reqValid r _ := hbmReqValid r
  req r _ := hbmReq r
  respReady r _ := hbmRespReady r
  next r w m := next r ⟨w, m⟩

/-- the adapter waits for a line exactly while it has a line request outstanding -/
theorem waiting : PortClient.Waiting client hbmRespReady where
  ready _ _ := rfl
  accepted r w m hv hr := by
    have hv : hbmReqValid r = true := hv
    cases hs : r.state <;> simp [client, next, hbmReqFire, hbmReqValid, hbmRespReady, hs, hr] at hv ⊢
  taken r w m hw hv := by
    cases hs : r.state <;> simp [client, next, hbmRespFire, hbmRespReady, hs, hv] at hw ⊢
    split_ifs <;> simp
  held r w m hq hp := by
    have hq : (hbmReqValid r && m.reqReady) = false := hq
    cases hs : r.state <;> simp [client, next, hbmReqFire, hbmReqValid, hbmRespFire, hbmRespReady, hs] at hq hp ⊢
    · split_ifs
      · rfl
      · rw [hs]
    · simp [hq, hs]
    · simp [hp, hs]
    · simp [hq, hs]
    · simp [hp, hs]
    · split_ifs
      · rfl
      · rw [hs]

/-! ## The line a store writes and the field a load returns -/

/-- the byte offset of an address within its line -/
def offset (a : BitVec 64) : ℕ := a.toNat % 64

/-- the number of bytes of a size code -/
def bytes (size : BitVec 2) : ℕ := if size = 0 then 4 else if size = 1 then 2 else 1

/-- the line written back for the store `q` over the fetched line `l` -/
def storeLine (q : WordMemReq) (l : BitVec 512) : BitVec 512 :=
  (merged l q.data q.size (q.addr.extractLsb' 0 6)).setWidth 512

/-- the field returned for the load `q` from the fetched line `l` -/
def loadField (q : WordMemReq) (l : BitVec 512) : BitVec 32 := field l q.size (q.addr.extractLsb' 0 6)

theorem pos_toNat (a : BitVec 64) : (pos (a.extractLsb' 0 6)).toNat = 8 * offset a := by
  have h : a.toNat % 64 < 64 := Nat.mod_lt _ (by decide)
  simp only [pos, offset, BitVec.toNat_shiftLeft, BitVec.toNat_setWidth, BitVec.extractLsb'_toNat,
    Nat.shiftRight_zero, Nat.shiftLeft_eq]
  omega

theorem fMask32_getLsbD (size : BitVec 2) (k : ℕ) : (fMask32 size).getLsbD k = decide (k < 8 * bytes size) := by
  by_cases hk : k < 32
  · have key : ∀ (size : BitVec 2) (k : Fin 32), (fMask32 size).getLsbD k = decide (k.val < 8 * bytes size) := by
      decide
    exact key size ⟨k, hk⟩
  · rw [BitVec.getLsbD_of_ge _ _ (by omega)]
    simp only [bytes]
    split_ifs <;> simp <;> omega

/-- **The written line, bit by bit.** Below the offset the old line; in the field the data; above the field the old
line or-ed with the unused upper bits of the data. -/
theorem storeLine_getLsbD (q : WordMemReq) (l : BitVec 512) {b : ℕ} (hb : b < 512) :
    (storeLine q l).getLsbD b =
      if b < 8 * offset q.addr then l.getLsbD b
      else if b < 8 * offset q.addr + 8 * bytes q.size then q.data.getLsbD (b - 8 * offset q.addr)
      else (l.getLsbD b || q.data.getLsbD (b - 8 * offset q.addr)) := by
  simp only [storeLine, merged, maskAt, dataAt, BitVec.getLsbD_setWidth, BitVec.getLsbD_or, BitVec.getLsbD_and,
    BitVec.getLsbD_not, BitVec.getLsbD_shiftLeft, pos_toNat, fMask32_getLsbD, hb, show b < 1023 by omega,
    show b - 8 * offset q.addr < 1023 by omega, decide_true, Bool.true_and]
  split_ifs with h1 h2
  · simp [h1]
  · simp [h1, show b - 8 * offset q.addr < 8 * bytes q.size by omega]
  · simp [h1, show ¬ b - 8 * offset q.addr < 8 * bytes q.size by omega]

/-- the store's own effect: its bytes, little-endian, and nothing else -/
def storeBytes (q : WordMemReq) (l : BitVec 512) : BitVec 512 :=
  patch l fun k =>
    if offset q.addr ≤ k ∧ k < offset q.addr + bytes q.size then some (lane 8 q.data (k - offset q.addr)) else none

/-- no unused upper bit of the data falls, inside the line, on a bit that is 0 -/
def NoSpill (q : WordMemReq) (l : BitVec 512) : Prop :=
  ∀ k < 32, 8 * bytes q.size ≤ k → 8 * offset q.addr + k < 512 → q.data.getLsbD k = true →
    l.getLsbD (8 * offset q.addr + k) = true

instance (q : WordMemReq) (l : BitVec 512) : Decidable (NoSpill q l) := by
  unfold NoSpill; infer_instance

theorem storeBytes_getLsbD (q : WordMemReq) (l : BitVec 512) {b : ℕ} (hb : b < 512) :
    (storeBytes q l).getLsbD b =
      if 8 * offset q.addr ≤ b ∧ b < 8 * offset q.addr + 8 * bytes q.size then q.data.getLsbD (b - 8 * offset q.addr)
      else l.getLsbD b := by
  rw [storeBytes, getLsbD_patch _ _ hb (by decide)]
  by_cases h : offset q.addr ≤ b / 8 ∧ b / 8 < offset q.addr + bytes q.size
  · rw [if_pos h, if_pos (by omega)]
    simp only [getLsbD_lane, show b % 8 < 8 by omega, decide_true, Bool.true_and]
    congr 1
    omega
  · rw [if_neg h, if_neg (by omega)]

/-- **A store writes exactly its own bytes if and only if nothing spills.** -/
theorem storeLine_eq_iff (q : WordMemReq) (l : BitVec 512) : storeLine q l = storeBytes q l ↔ NoSpill q l := by
  constructor
  · intro h k hk hk' hin hd
    have hbit := congrArg (fun x => x.getLsbD (8 * offset q.addr + k)) h
    simp only [storeLine_getLsbD q l hin, storeBytes_getLsbD q l hin,
      show ¬ 8 * offset q.addr + k < 8 * offset q.addr by omega,
      show ¬ 8 * offset q.addr + k < 8 * offset q.addr + 8 * bytes q.size by omega, and_false, if_false,
      Nat.add_sub_cancel_left, hd, Bool.or_true] at hbit
    exact hbit.symm
  · intro h
    apply BitVec.eq_of_getLsbD_eq
    intro b hb
    rw [storeLine_getLsbD q l hb, storeBytes_getLsbD q l hb]
    by_cases h1 : b < 8 * offset q.addr
    · rw [if_pos h1, if_neg (by omega)]
    · by_cases h2 : b < 8 * offset q.addr + 8 * bytes q.size
      · rw [if_neg h1, if_pos h2, if_pos (by omega)]
      · rw [if_neg h1, if_neg h2, if_neg (by omega)]
        cases hd : q.data.getLsbD (b - 8 * offset q.addr)
        · simp
        · have hk : b - 8 * offset q.addr < 32 := BitVec.lt_of_getLsbD hd
          have := h _ hk (by omega) (by omega) hd
          rw [show 8 * offset q.addr + (b - 8 * offset q.addr) = b by omega] at this
          simp [this]

/-- a load field, bit by bit -/
theorem loadField_getLsbD {q : WordMemReq} (l : BitVec 512) {x : ℕ} (hx : x < 8 * bytes q.size) :
    (loadField q l).getLsbD x = l.getLsbD (8 * offset q.addr + x) := by
  simp only [loadField, field, shiftedLine, pos_toNat]
  by_cases h0 : q.size = 0
  · have hb : bytes q.size = 4 := by simp [bytes, h0]
    rw [if_pos h0]
    simp [show x < 32 by omega]
  · by_cases h1 : q.size = 1
    · have hb : bytes q.size = 2 := by simp [bytes, h1]
      rw [if_neg h0, if_pos h1]
      simp [show x < 16 by omega, show x < 32 by omega]
    · have hb : bytes q.size = 1 := by rw [bytes, if_neg h0, if_neg h1]
      rw [if_neg h0, if_neg h1]
      simp [show x < 8 by omega, show x < 32 by omega]

/-- a word store never spills -/
theorem noSpill_word {q : WordMemReq} (h : q.size = 0) (l : BitVec 512) : NoSpill q l := by
  intro k hk hk'
  simp [bytes, h] at hk'
  omega

/-! ## One word access -/

/-- the word request in progress -/
def captured (r : Reg) : WordMemReq := ⟨r.addrReg, r.dataReg, r.isWrReg, r.sizeReg⟩

/-- the offset register belongs to the address register -/
def OffOk (r : Reg) : Prop := r.offReg = r.addrReg.extractLsb' 0 6

/-- the line read every access starts with -/
def readReq (q : WordMemReq) : MemReq := ⟨lineBase q.addr, 0, false⟩

/-- the write-back of a store over the fetched line `l` -/
def writeReq (q : WordMemReq) (l : BitVec 512) : MemReq := ⟨lineBase q.addr, storeLine q l, true⟩

theorem offOk_next (r : Reg) (i : In) (h : OffOk r) : OffOk (next r i) := by
  cases hs : r.state <;> simp only [next, hs] <;> split_ifs <;> first | exact h | rfl

theorem hbmReq_rdreq {r : Reg} (hs : r.state = .rdreq) : hbmReq r = readReq (captured r) := by
  simp [hbmReq, readReq, captured, hs]

theorem hbmReq_wrreq {r : Reg} (h : OffOk r) (hs : r.state = .wrreq) :
    hbmReq r = writeReq (captured r) r.lineReg := by
  have ho : r.offReg = r.addrReg.extractLsb' 0 6 := h
  simp [hbmReq, writeReq, storeLine, captured, hs, ho]

theorem wordRespBits_eq {r : Reg} (h : OffOk r) :
    wordRespBits r = if r.isWrReg then 0 else loadField (captured r) r.lineReg := by
  have ho : r.offReg = r.addrReg.extractLsb' 0 6 := h
  simp [wordRespBits, loadField, captured, ho]

/-! ## Stores, from the word port to the line port -/

/-- the store taken on the word port in this cycle -/
def issued (r : Reg) (i : In) : List WordMemReq :=
  if wordReqFire r i && i.word.req.isWrite then [i.word.req] else []

/-- the store whose write-back is accepted in this cycle -/
def committed (r : Reg) (i : In) : List WordMemReq :=
  if hbmReqFire r i && (hbmReq r).isWrite then [captured r] else []

/-- the store taken and not yet written back -/
def inFlight (r : Reg) : List WordMemReq :=
  match r.state with
  | .rdreq | .rdresp | .wrreq => if r.isWrReg then [captured r] else []
  | _ => []

/-- stores are written back once each, in the order they were taken -/
theorem inFlight_next (r : Reg) (i : In) (hw : r.state = .wrreq → r.isWrReg = true) :
    inFlight r ++ issued r i = committed r i ++ inFlight (next r i) := by
  cases hs : r.state with
  | idle =>
    simp only [inFlight, issued, committed, next, hs, hbmReqFire, hbmReqValid]
    cases hf : wordReqFire r i <;> simp [hs, capture, captured]
  | rdreq =>
    simp only [inFlight, issued, committed, next, hs, wordReqFire, wordReqReady, hbmReq]
    cases hf : hbmReqFire r i <;> simp [hs, captured]
  | rdresp =>
    simp only [inFlight, issued, committed, next, hs, wordReqFire, wordReqReady, hbmReqFire, hbmReqValid]
    cases hf : hbmRespFire r i <;> cases hwr : r.isWrReg <;> simp [hs, hwr, captured]
  | wrreq =>
    simp only [inFlight, issued, committed, next, hs, wordReqFire, wordReqReady, hbmReq]
    cases hf : hbmReqFire r i <;> simp [hs, hw hs, captured]
  | wrresp =>
    simp only [inFlight, issued, committed, next, hs, wordReqFire, wordReqReady, hbmReqFire, hbmReqValid]
    cases hf : hbmRespFire r i <;> simp [hs]
  | rsp =>
    simp only [inFlight, issued, committed, next, hs, wordReqFire, wordReqReady, hbmReqFire, hbmReqValid]
    cases hf : wordRespFire r i <;> simp [hs]

end AegisSoc.CoreMemToHBM
