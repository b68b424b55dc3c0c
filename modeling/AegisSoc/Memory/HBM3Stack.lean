/-
The HBM3 memory stack (`memory/HBM3Stack.scala`): a banked array of 512-bit words behind a controller with an open-row
table, activate and precharge timing, and a refresh counter.

`next` is one clock cycle. The captured-request registers have no reset value, so `reset` takes them as arguments.
The AXI mirror is `awvalid`, `wvalid`, `arvalid` over the captured request.

Results, for every geometry:
- `sim_step`: one cycle refines a one-port atomic memory (`PortMemory`) indexed by the array index of the address. The
  page table, the counters and the refresh state do not enter the relation `Rel`: they are timing only.
- `lag_next`: an accepted request gets one cycle closer to the command state in every cycle, and `lag_le` bounds the
  way by `tPRE + tACT`.
-/
import AegisSoc.Types
import AegisSoc.Lib.PortMemory

namespace AegisSoc.HBM3Stack

open PortMemory

/-! ## Model -/

/-- the widths of the bank, column and row fields of a line address -/
structure Geometry where
  bankBits : ℕ
  colBits : ℕ
  rowBits : ℕ

/-- 4 banks × 8 rows × 8 columns, the geometry the SoC instantiates -/
abbrev defaultGeometry : Geometry := ⟨2, 3, 3⟩

def tACT : ℕ := 2
def tPRE : ℕ := 2
def tREF : ℕ := 16

inductive State where
  | idle
  | prech
  | act
  | cmd
  | ref
deriving DecidableEq, Repr

/-- linear array index: bank, row, column -/
abbrev Idx (g : Geometry) : Type := BitVec (g.bankBits + g.rowBits + g.colBits)

structure Reg (g : Geometry) where
  cells : Idx g → BitVec 512
  pageOpen : BitVec g.bankBits → Bool
  pageRow : BitVec g.bankBits → BitVec g.rowBits
  rAddr : BitVec 64
  rData : BitVec 512
  rW : Bool
  state : State
  cnt : BitVec 5
  refCnt : BitVec 5

structure In where
  reqValid : Bool
  req : MemReq
  respReady : Bool
  openPage : Bool

variable {g : Geometry}

/-- the line address: `addr >> offBits`, a 58-bit value -/
def lineAddr (a : BitVec 64) : BitVec 58 := a.extractLsb' 6 58

def col (g : Geometry) (a : BitVec 64) : BitVec g.colBits := (lineAddr a).extractLsb' 0 g.colBits
def bank (g : Geometry) (a : BitVec 64) : BitVec g.bankBits := (lineAddr a).extractLsb' g.colBits g.bankBits
def row (g : Geometry) (a : BitVec 64) : BitVec g.rowBits :=
  (lineAddr a).extractLsb' (g.colBits + g.bankBits) g.rowBits

/-- `Cat(bank, row, col)` -/
def idx (g : Geometry) (a : BitVec 64) : Idx g := bank g a ++ row g a ++ col g a

def rIdx (r : Reg g) : Idx g := idx g r.rAddr
def rBank (r : Reg g) : BitVec g.bankBits := bank g r.rAddr
def rRow (r : Reg g) : BitVec g.rowBits := row g r.rAddr

/-- the live request addresses the open row of its bank -/
def qHit (r : Reg g) (q : MemReq) : Bool := r.pageOpen (bank g q.addr) && r.pageRow (bank g q.addr) == row g q.addr

def reqReady (r : Reg g) : Bool := r.state == .idle && r.refCnt != 0
def reqFire (r : Reg g) (i : In) : Bool := i.reqValid && reqReady r
def respValid (r : Reg g) : Bool := r.state == .cmd
def respBits (r : Reg g) : BitVec 512 := if r.rW then 0 else r.cells (rIdx r)
def respFire (r : Reg g) (i : In) : Bool := respValid r && i.respReady

/-! The PHY mirror; `AWADDR` and `ARADDR` are `rAddr`, `WDATA` is `rData`. -/
def awvalid (r : Reg g) : Bool := r.state == .cmd && r.rW
def wvalid (r : Reg g) : Bool := r.state == .cmd && r.rW
def arvalid (r : Reg g) : Bool := r.state == .cmd && !r.rW

def reset (g : Geometry) (rAddr : BitVec 64) (rData : BitVec 512) (rW : Bool) : Reg g where
  cells := fun _ => 0
  pageOpen := fun _ => false
  pageRow := fun _ => 0
  rAddr := rAddr
  rData := rData
  rW := rW
  state := .idle
  cnt := 0
  refCnt := BitVec.ofNat 5 tREF

/-- the idle state on an accepted request: capture it and open its row if need be -/
def accept (r : Reg g) (q : MemReq) : Reg g :=
  let c := { r with refCnt := r.refCnt - 1, rAddr := q.addr, rData := q.data, rW := q.isWrite }
  if qHit r q then { c with state := .cmd }
  else if r.pageOpen (bank g q.addr) then { c with state := .prech, cnt := 0 }
  else { c with state := .act, cnt := 0 }

def next (r : Reg g) (i : In) : Reg g :=
  match r.state with
  | .idle =>
    if r.refCnt = 0 then { r with state := .ref, cnt := 0 }
    else if reqFire r i then accept r i.req
    else { r with refCnt := r.refCnt - 1 }
  | .prech =>
    if r.cnt = BitVec.ofNat 5 (tPRE - 1) then
      { r with pageOpen := Function.update r.pageOpen (rBank r) false, cnt := 0, state := .act }
    else { r with cnt := r.cnt + 1 }
  | .act =>
    if r.cnt = BitVec.ofNat 5 (tACT - 1) then
      { r with
        pageOpen := Function.update r.pageOpen (rBank r) true
        pageRow := Function.update r.pageRow (rBank r) (rRow r)
        cnt := 0
        state := .cmd }
    else { r with cnt := r.cnt + 1 }
  | .cmd =>
    -- the array is written in every cycle of a stalled command, always with the captured word
    { r with
      cells := if r.rW then Function.update r.cells (rIdx r) r.rData else r.cells
      pageOpen := if i.openPage then r.pageOpen else Function.update r.pageOpen (rBank r) false
      state := if i.respReady then .idle else .cmd }
  | .ref =>
    if r.cnt = BitVec.ofNat 5 tREF then { r with cnt := 0, refCnt := BitVec.ofNat 5 tREF, state := .idle }
    else { r with cnt := r.cnt + 1 }

/-! ## Refinement of a one-port atomic memory -/

/-- a request has been accepted and not answered -/
def busy (r : Reg g) : Bool := r.state == .prech || r.state == .act || r.state == .cmd

/-- what a request does to the array -/
def access (g : Geometry) (q : MemReq) : Access (Idx g) (BitVec 512) := q.access (idx g)

/-- the handshakes of one cycle -/
def ev (r : Reg g) (i : In) : List (Ev Unit MemReq (BitVec 512)) :=
  (if reqFire r i then [.accept () i.req] else []) ++ (if respFire r i then [.respond () (respBits r)] else [])

/-- The array holds the atomic memory, except that the line of an unanswered write may still hold its old value. -/
structure Rel (r : Reg g) (α : St Unit (Idx g) (BitVec 512)) : Prop where
  free : busy r = false → α.pending = none
  owed : busy r = true → α.pending = some ((), if r.rW then 0 else α.mem (rIdx r))
  written : busy r = true → r.rW = true → α.mem (rIdx r) = r.rData
  cells : ∀ k, (busy r = true → r.rW = true → k ≠ rIdx r) → r.cells k = α.mem k

theorem rel_reset (g : Geometry) (a : BitVec 64) (d : BitVec 512) (w : Bool) :
    Rel (reset g a d w) ⟨fun _ => 0, none⟩ := by
  constructor <;> simp [reset, busy]

theorem respBits_owed {r : Reg g} {α : St Unit (Idx g) (BitVec 512)} (h : Rel r α) (hb : busy r = true) :
    α.pending = some ((), respBits r) := by
  rw [h.owed hb, respBits]
  cases hw : r.rW
  · simp [h.cells (rIdx r) (fun _ hc => by simp [hw] at hc)]
  · simp

theorem busy_accept (r : Reg g) (q : MemReq) : busy (accept r q) = true := by
  unfold accept
  dsimp only
  split_ifs <;> rfl

theorem accept_captures (r : Reg g) (q : MemReq) :
    (accept r q).rAddr = q.addr ∧ (accept r q).rData = q.data ∧ (accept r q).rW = q.isWrite ∧
      (accept r q).cells = r.cells := by
  unfold accept
  dsimp only
  split_ifs <;> exact ⟨rfl, rfl, rfl, rfl⟩

theorem next_of_reqFire {r : Reg g} {i : In} (hf : reqFire r i = true) : next r i = accept r i.req := by
  have hready := hf
  simp only [reqFire, reqReady, Bool.and_eq_true, beq_iff_eq, bne_iff_ne] at hready
  simp only [next, hready.2.1, hready.2.2, hf, ite_true, ite_false]

/-- a cycle that changes neither the array nor the captured request, nor whether there is one -/
theorem Rel.frame {r r' : Reg g} {α : St Unit (Idx g) (BitVec 512)} (h : Rel r α) (hb : busy r' = busy r)
    (hc : r'.cells = r.cells) (ha : r'.rAddr = r.rAddr) (hd : r'.rData = r.rData) (hw : r'.rW = r.rW) : Rel r' α := by
  have hi : rIdx r' = rIdx r := by simp only [rIdx, ha]
  constructor
  · rw [hb]; exact h.free
  · rw [hb, hw, hi]; exact h.owed
  · rw [hb, hw, hi, hd]; exact h.written
  · rw [hb, hw, hi, hc]; exact h.cells

theorem Rel.accept {r : Reg g} {α : St Unit (Idx g) (BitVec 512)} (h : Rel r α) (hb : busy r = false) (q : MemReq) :
    Rel (accept r q) (PortMemory.next (access g) α (.accept () q)) := by
  obtain ⟨ha, hd, hw, hc⟩ := accept_captures r q
  have hi : rIdx (HBM3Stack.accept r q) = idx g q.addr := by simp only [rIdx, ha]
  have hmem : ∀ k, r.cells k = α.mem k := fun k => h.cells k (fun hc => by simp [hb] at hc)
  constructor
  · intro hb'; rw [busy_accept] at hb'; simp at hb'
  · intro _
    rw [hw, hi]
    cases hq : q.isWrite <;> simp [PortMemory.next, answer, apply, access, MemReq.access, hq]
  · intro _ hw'
    rw [hw] at hw'
    rw [hi, hd]
    simp [PortMemory.next, apply, access, MemReq.access, hw']
  · intro k hk
    rw [hc, hmem]
    cases hq : q.isWrite
    · simp [PortMemory.next, apply, access, MemReq.access, hq]
    · have hne : k ≠ idx g q.addr := hi ▸ hk (busy_accept r q) (hw.trans hq)
      simp [PortMemory.next, apply, access, MemReq.access, hq, Function.update_of_ne hne]

/-- the array after a command cycle is the atomic memory everywhere -/
theorem cells_cmd {r : Reg g} {α : St Unit (Idx g) (BitVec 512)} (h : Rel r α) (hb : busy r = true) (k : Idx g) :
    (if r.rW then Function.update r.cells (rIdx r) r.rData else r.cells) k = α.mem k := by
  cases hw : r.rW
  · simpa using h.cells k (fun _ hc => by simp [hw] at hc)
  · by_cases hk : k = rIdx r
    · subst hk; simp [h.written hb hw]
    · simpa [Function.update_of_ne hk] using h.cells k (fun _ _ => hk)

/-- a cycle without a handshake that leaves the array and the captured request alone -/
theorem Rel.quiet {r : Reg g} {α : St Unit (Idx g) (BitVec 512)} {i : In} (h : Rel r α) (he : ev r i = [])
    (hn : busy (next r i) = busy r ∧ (next r i).cells = r.cells ∧ (next r i).rAddr = r.rAddr ∧
      (next r i).rData = r.rData ∧ (next r i).rW = r.rW) :
    Trace (access g) α (ev r i) ∧ Rel (next r i) (after (access g) α (ev r i)) := by
  obtain ⟨hb, hc, ha, hd, hw⟩ := hn
  rw [he]
  exact ⟨trivial, h.frame hb hc ha hd hw⟩

/-- **One cycle refines the atomic memory.** -/
theorem sim_step (r : Reg g) (α : St Unit (Idx g) (BitVec 512)) (i : In) (h : Rel r α) :
    Trace (access g) α (ev r i) ∧ Rel (next r i) (after (access g) α (ev r i)) := by
  cases hs : r.state with
  | idle =>
    have hb : busy r = false := by simp [busy, hs]
    have hv : respFire r i = false := by simp [respFire, respValid, hs]
    cases hf : reqFire r i
    · refine h.quiet (by simp [ev, hf, hv]) ?_
      rw [hb]
      simp only [next, hs, hf, Bool.false_eq_true, ite_false]
      split_ifs
      · exact ⟨rfl, rfl, rfl, rfl, rfl⟩
      · exact ⟨by simp [busy], rfl, rfl, rfl, rfl⟩
    · simp only [ev, hf, hv, Bool.false_eq_true, ite_true, ite_false, List.append_nil, after_cons, after_nil]
      refine ⟨⟨h.free hb, trivial⟩, ?_⟩
      rw [next_of_reqFire hf]
      exact h.accept hb i.req
  | prech =>
    refine h.quiet (by simp [ev, reqFire, reqReady, respFire, respValid, hs]) ?_
    simp only [next, hs]
    split_ifs
    · exact ⟨by simp [busy, hs], rfl, rfl, rfl, rfl⟩
    · exact ⟨by simp [busy, hs], rfl, rfl, rfl, rfl⟩
  | act =>
    refine h.quiet (by simp [ev, reqFire, reqReady, respFire, respValid, hs]) ?_
    simp only [next, hs]
    split_ifs
    · exact ⟨by simp [busy, hs], rfl, rfl, rfl, rfl⟩
    · exact ⟨by simp [busy, hs], rfl, rfl, rfl, rfl⟩
  | cmd =>
    have hb : busy r = true := by simp [busy, hs]
    have hmem := cells_cmd h hb
    have hq : reqFire r i = false := by simp [reqFire, reqReady, hs]
    cases hr : i.respReady
    · -- stalled: the write has reached the array, the response is still owed
      have he : ev r i = [] := by simp [ev, hq, respFire, hr]
      rw [he]
      refine ⟨trivial, ?_⟩
      simp only [next, hs, hr, after_nil, Bool.false_eq_true, ite_false]
      exact ⟨fun hb' => by simp [busy] at hb', fun _ => h.owed hb, fun _ => h.written hb, fun k _ => hmem k⟩
    · have he : ev r i = [.respond () (respBits r)] := by simp [ev, hq, respFire, respValid, hs, hr]
      rw [he]
      refine ⟨⟨respBits_owed h hb, trivial⟩, ?_⟩
      simp only [next, hs, hr, after_cons, after_nil, PortMemory.next, ite_true]
      exact ⟨fun _ => rfl, fun hb' => by simp [busy] at hb', fun hb' => by simp [busy] at hb', fun k _ => hmem k⟩
  | ref =>
    have hb : busy r = false := by simp [busy, hs]
    refine h.quiet (by simp [ev, reqFire, reqReady, respFire, respValid, hs]) ?_
    rw [hb]
    simp only [next, hs]
    split_ifs
    · exact ⟨rfl, rfl, rfl, rfl, rfl⟩
    · exact ⟨by simp [busy], rfl, rfl, rfl, rfl⟩

/-! ## The mirror -/

/-- one beat of the mirror: AW and W together, or AR -/
inductive Beat where
  | write (addr : BitVec 64) (data : BitVec 512)
  | read (addr : BitVec 64)
deriving DecidableEq, Repr

/-- the beat of a request -/
def Beat.of (q : MemReq) : Beat := if q.isWrite then .write q.addr q.data else .read q.addr

/-- what the mirror shows in this cycle -/
def beats (r : Reg g) : List Beat :=
  (if awvalid r && wvalid r then [.write r.rAddr r.rData] else []) ++ (if arvalid r then [.read r.rAddr] else [])

/-- the captured request -/
def captured (r : Reg g) : MemReq := ⟨r.rAddr, r.rData, r.rW⟩

theorem captured_accept (r : Reg g) (q : MemReq) : captured (accept r q) = q := by
  obtain ⟨ha, hd, hw, -⟩ := accept_captures r q
  rw [captured, ha, hd, hw]

/-- without a request the captured one stays, and a busy stack was busy before -/
theorem captured_next {r : Reg g} {i : In} (hf : reqFire r i = false) :
    captured (next r i) = captured r ∧ (busy (next r i) = true → busy r = true) := by
  cases hs : r.state with
  | idle =>
    simp only [next, hs, hf, Bool.false_eq_true, ite_false]
    split_ifs <;> simp [captured, busy]
  | prech =>
    simp only [next, hs]
    split_ifs <;> simp [captured, busy, hs]
  | act =>
    simp only [next, hs]
    split_ifs <;> simp [captured, busy, hs]
  | cmd => simp [next, hs, captured, busy]
  | ref =>
    simp only [next, hs]
    split_ifs <;> simp [captured, busy]

/-- the request accepted and not answered -/
def inFlight (r : Reg g) : List MemReq := if busy r then [captured r] else []

theorem beats_cmd {r : Reg g} (hs : r.state = .cmd) : beats r = [Beat.of (captured r)] := by
  cases hw : r.rW <;> simp [beats, awvalid, wvalid, arvalid, hs, hw, Beat.of, captured]

theorem beats_nil {r : Reg g} (hs : r.state ≠ .cmd) : beats r = [] := by
  simp [beats, awvalid, wvalid, arvalid, hs]

/-- a busy cycle that is not the command state keeps the captured request -/
theorem inFlight_wait {r : Reg g} (i : In) (hs : r.state = .prech ∨ r.state = .act) :
    reqFire r i = false ∧ beats r = [] ∧ inFlight (next r i) = inFlight r := by
  have hbeats : beats r = [] := beats_nil (by rcases hs with hs | hs <;> simp [hs])
  refine ⟨by rcases hs with hs | hs <;> simp [reqFire, reqReady, hs], hbeats, ?_⟩
  rcases hs with hs | hs <;> simp only [inFlight, busy, captured, next, hs] <;> split_ifs <;> simp_all

/-- **Every accepted request is shown once**, if no response is held up: the request in flight and the one accepted in
this cycle are the one shown in this cycle and the one in flight after it. -/
theorem inFlight_next (r : Reg g) (i : In) (hr : r.state = .cmd → i.respReady = true) :
    (inFlight r ++ if reqFire r i then [i.req] else []).map Beat.of = beats r ++ (inFlight (next r i)).map Beat.of := by
  cases hs : r.state with
  | idle =>
    have hb : inFlight r = [] := by simp [inFlight, busy, hs]
    rw [hb, beats_nil (by simp [hs])]
    cases hf : reqFire r i with
    | true =>
      rw [next_of_reqFire hf, inFlight, busy_accept, captured_accept]
      rfl
    | false =>
      have hidle : inFlight (next r i) = [] := by
        simp only [next, hs, hf, Bool.false_eq_true, ite_false]
        split_ifs <;> simp [inFlight, busy]
      rw [hidle]
      rfl
  | prech =>
    obtain ⟨hf, hbeats, hkeep⟩ := inFlight_wait i (.inl hs)
    rw [hf, hbeats, hkeep]
    simp
  | act =>
    obtain ⟨hf, hbeats, hkeep⟩ := inFlight_wait i (.inr hs)
    rw [hf, hbeats, hkeep]
    simp
  | cmd =>
    have hf : reqFire r i = false := by simp [reqFire, reqReady, hs]
    rw [hf, beats_cmd hs]
    simp [inFlight, busy, hs, next, hr hs]
  | ref =>
    have hf : reqFire r i = false := by simp [reqFire, reqReady, hs]
    have hidle : inFlight (next r i) = [] := by
      simp only [next, hs]
      split_ifs <;> simp [inFlight, busy]
    rw [hf, hidle, beats_nil (by simp [hs])]
    simp [inFlight, busy, hs]

/-! ## Response time -/

/-- the phase counter stays below the length of its phase -/
structure Timed (r : Reg g) : Prop where
  prech : r.state = .prech → r.cnt.toNat < tPRE
  act : r.state = .act → r.cnt.toNat < tACT

/-- the cycles left before an accepted request reaches the command state -/
def lag (r : Reg g) : ℕ :=
  match r.state with
  | .prech => tPRE - r.cnt.toNat + tACT
  | .act => tACT - r.cnt.toNat
  | _ => 0

theorem timed_reset (g : Geometry) (a : BitVec 64) (d : BitVec 512) (w : Bool) : Timed (reset g a d w) := by
  constructor <;> simp [reset]

theorem lag_le (r : Reg g) : lag r ≤ tPRE + tACT := by
  unfold lag
  split <;> omega

theorem cmd_of_lag_zero {r : Reg g} (h : Timed r) (hb : busy r = true) (hl : lag r = 0) : r.state = .cmd := by
  cases hs : r.state with
  | idle => simp [busy, hs] at hb
  | prech => simp [lag, hs, tACT] at hl
  | act => have := h.act hs; simp only [lag, hs] at hl; omega
  | cmd => rfl
  | ref => simp [busy, hs] at hb

/-- one cycle of the precharge or activate phase, counted -/
theorem cnt_succ {c : BitVec 5} (h : c.toNat < 2) (hc : c ≠ 1) : c.toNat = 0 ∧ (c + 1).toNat = 1 := by
  have h1 : c.toNat ≠ 1 := fun h1 => hc (BitVec.eq_of_toNat_eq h1)
  have h0 : c = 0 := BitVec.eq_of_toNat_eq (by simp; omega)
  subst h0
  exact ⟨rfl, rfl⟩

theorem timed_next (r : Reg g) (i : In) (h : Timed r) : Timed (next r i) := by
  cases hs : r.state with
  | idle =>
    simp only [next, hs]
    split_ifs
    · constructor <;> simp
    · unfold accept
      dsimp only
      split_ifs
      · constructor <;> simp
      · constructor <;> simp [tPRE]
      · constructor <;> simp [tACT]
    · constructor <;> simp
  | prech =>
    simp only [next, hs]
    split_ifs with hc
    · constructor <;> simp [tACT]
    · have := (cnt_succ (h.prech hs) hc).2
      exact ⟨fun _ => by simp only [this]; decide, fun hs' => by simp at hs'⟩
  | act =>
    simp only [next, hs]
    split_ifs with hc
    · constructor <;> simp
    · have := (cnt_succ (h.act hs) hc).2
      exact ⟨fun hs' => by simp at hs', fun _ => by simp only [this]; decide⟩
  | cmd =>
    simp only [next, hs]
    cases i.respReady <;> constructor <;> simp
  | ref =>
    simp only [next, hs]
    split_ifs
    · constructor <;> simp
    · constructor <;> simp

/-- **Progress of one cycle**: an accepted request that is not yet in the command state gets one cycle closer to it -/
theorem lag_next (r : Reg g) (i : In) (h : Timed r) (hb : busy r = true) (hc : r.state ≠ .cmd) :
    busy (next r i) = true ∧ lag (next r i) + 1 = lag r := by
  cases hs : r.state with
  | idle => simp [busy, hs] at hb
  | prech =>
    simp only [next, hs, lag]
    split_ifs with hcnt
    · exact ⟨rfl, by simp [hcnt, tPRE, tACT]⟩
    · obtain ⟨h0, h1⟩ := cnt_succ (h.prech hs) hcnt
      refine ⟨by simp [busy], ?_⟩
      simp only [h0, h1, tPRE, tACT]
  | act =>
    simp only [next, hs, lag]
    split_ifs with hcnt
    · exact ⟨rfl, by simp [hcnt, tACT]⟩
    · obtain ⟨h0, h1⟩ := cnt_succ (h.act hs) hcnt
      refine ⟨by simp [busy], ?_⟩
      simp only [h0, h1, tACT]
  | cmd => exact absurd hs hc
  | ref => simp [busy, hs] at hb

end AegisSoc.HBM3Stack
