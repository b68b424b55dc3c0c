/-
One command of the GEMM engine, attached to any memory.

The ghost `Prog` records what the port shows since the command was accepted: the accepted requests (`ops`), the lines
read (`reads`) and the number of responses (`acks`). `Running` ties it to the registers in every state of the engine;
its loop part says how many products of each element have been accumulated (`macs`).

Results, for every tile size that is a multiple of 8 from 8 to 64 (`TileOk`):
- `running_step`: every cycle of a busy engine keeps `Running`, whatever the memory and the bus do;
- `running_done`: when the engine is idle again, it has read `T * T / 16` consecutive lines from the base, written
  `T * T / 16` lines after them, each answered, and every written element is the old content of the C tile plus the
  inner product of the tiles read, modulo `2 ^ 32`.
-/
import AegisSoc.FixedFunc.GemmToMem

namespace AegisSoc.GemmRun

open Machine PortMemory PortClient GemmToMem Lanes

/-! ## Tiles -/

structure TileOk (T : ℕ) : Prop where
  dvd : 8 ∣ T
  ge : 8 ≤ T
  le : T ≤ 64

instance (T : ℕ) : Decidable (TileOk T) :=
  decidable_of_iff (8 ∣ T ∧ 8 ≤ T ∧ T ≤ 64) ⟨fun h => ⟨h.1, h.2.1, h.2.2⟩, fun h => ⟨h.dvd, h.ge, h.le⟩⟩

theorem TileOk.lines {T : ℕ} (h : TileOk T) :
    32 * linesOperand T = T * T ∧ linesC T = 2 * linesOperand T ∧ 2 ≤ linesOperand T ∧ linesOperand T ≤ 128 := by
  obtain ⟨⟨t, rfl⟩, hge, hle⟩ := h
  have hsq : 8 * t * (8 * t) = 64 * (t * t) := by ring
  have hlo : 1 * 1 ≤ t * t := Nat.mul_le_mul (by omega) (by omega)
  have hhi : t * t ≤ 8 * 8 := Nat.mul_le_mul (by omega) (by omega)
  simp only [linesOperand, linesC, hsq]
  omega

/-- the lines of a command -/
def allLines (T : ℕ) : ℕ := 2 * linesOperand T + linesC T

/-- element `n` of a sequence of lines of 32 elements -/
def elem (ls : List (BitVec 512)) (n : ℕ) : BitVec 16 := lane 16 (ls.getD (n / 32) 0) (n % 32)

/-- the first `m` products of element `n` of A·B, where the lines `ls` hold A and then B -/
def dot (T : ℕ) (ls : List (BitVec 512)) (n m : ℕ) : ℕ :=
  ∑ l ∈ Finset.range m, (elem ls (n / T * T + l)).toNat * (elem ls (T * T + (l * T + n % T))).toNat

/-- element `n` of A·B -/
def product (T : ℕ) (ls : List (BitVec 512)) (n : ℕ) : ℕ := dot T ls n T

/-- element `n` of the C tile that a command leaves, from the content `c0` of the tile and the lines read -/
def result (T : ℕ) (c0 : ℕ → BitVec 32) (ls : List (BitVec 512)) (n : ℕ) : BitVec 32 :=
  BitVec.ofNat 32 ((c0 n).toNat + product T ls n)

/-- line `l` of a C tile -/
def cLine (c : ℕ → BitVec 32) (l : ℕ) : BitVec 512 := ofLanes 512 fun e => c (l * 16 + e)

theorem elem_append {ls : List (BitVec 512)} {n : ℕ} (h : n < 32 * ls.length) (d : BitVec 512) :
    elem (ls ++ [d]) n = elem ls n := by
  have hlt : n / 32 < ls.length := by omega
  simp only [elem, List.getD_eq_getElem?_getD, List.getElem?_append_left hlt]

theorem elem_last {ls : List (BitVec 512)} {n : ℕ} (hlo : 32 * ls.length ≤ n) (hhi : n < 32 * ls.length + 32)
    (d : BitVec 512) : elem (ls ++ [d]) n = lane 16 d (n - 32 * ls.length) := by
  have hdiv : n / 32 = ls.length := by omega
  have hmod : n % 32 = n - 32 * ls.length := by omega
  simp [elem, List.getD_eq_getElem?_getD, hdiv, hmod]

theorem cLine_congr {c c' : ℕ → BitVec 32} {l : ℕ} (h : ∀ e < 16, c (l * 16 + e) = c' (l * 16 + e)) :
    cLine c l = cLine c' l := by
  apply BitVec.eq_of_getLsbD_eq
  intro x hx
  rw [cLine, cLine, getLsbD_ofLanes _ hx, getLsbD_ofLanes _ hx, h (x / 32) (by omega)]

/-! ## What the port shows -/

variable {L : Type*} [DecidableEq L] (T : ℕ) (idx : BitVec 64 → L)

abbrev Sys (L : Type*) := PortClient.Reg GemmToMem.Reg L (BitVec 512)
abbrev SysIn (L : Type*) := PortClient.In Cmd L (BitVec 512)

def step : Sys L → SysIn L → Sys L := PortClient.step (client T) (MemReq.access idx)

/-- an access: its address, and the data of a write -/
abbrev Op := BitVec 64 × Option (BitVec 512)

def opOf (q : MemReq) : Op := (q.addr, if q.isWrite then some q.data else none)

inductive Ev where
  | access (o : Op)
  | line (d : BitVec 512)
  | ack

/-- the handshakes of one cycle: an accepted request, a line read, or an acknowledged write -/
def ev (s : Sys L) (i : SysIn L) : List Ev :=
  (if accepts (client T) s i then [.access (opOf (memReq T s.own))] else []) ++
  (if takes (client T) s i then [if s.own.state = .store then .ack else .line (portIn s i).respBits] else [])

structure Prog where
  ops : List Op
  reads : List (BitVec 512)
  acks : ℕ

def Prog.add (g : Prog) : Ev → Prog
  | .access o => { g with ops := g.ops ++ [o] }
  | .line d => { g with reads := g.reads ++ [d], acks := g.acks + 1 }
  | .ack => { g with acks := g.acks + 1 }

def Prog.empty : Prog := ⟨[], [], 0⟩

/-- access `n` of a command at base `b` that leaves the C tile `c`: the operand lines, then the result lines -/
def opAt (b : BitVec 64) (c : ℕ → BitVec 32) (n : ℕ) : Op :=
  (b + BitVec.ofNat 64 (64 * n), if n < 2 * linesOperand T then none else some (cLine c (n - 2 * linesOperand T)))

/-! ## The invariant -/

/-- the number of products accumulated in element `n` -/
def macs (r : GemmToMem.Reg) (n : ℕ) : ℕ :=
  if n / T < r.i.toNat then T
  else if n / T = r.i.toNat then if n % T < r.j.toNat then r.k.toNat + 1 else r.k.toNat
  else 0

/-- what the registers hold, by state -/
def Phase (c0 : ℕ → BitVec 32) (r : GemmToMem.Reg) (g : Prog) : Prop :=
  match r.state with
  | .fetchA =>
    g.acks < linesOperand T ∧ r.lineCnt.toNat = g.acks ∧ g.reads.length = g.acks ∧
      (∀ n < 32 * g.acks, r.aTile n = elem g.reads n) ∧ r.cTile = c0
  | .fetchB =>
    linesOperand T ≤ g.acks ∧ g.acks < 2 * linesOperand T ∧ r.lineCnt.toNat = g.acks - linesOperand T ∧
      g.reads.length = g.acks ∧ (∀ n < T * T, r.aTile n = elem g.reads n) ∧
      (∀ n, T * T + n < 32 * g.acks → r.bTile n = elem g.reads (T * T + n)) ∧ r.cTile = c0
  | .calc =>
    g.acks = 2 * linesOperand T ∧ g.reads.length = 2 * linesOperand T ∧ (∀ n < T * T, r.aTile n = elem g.reads n) ∧
      (∀ n < T * T, r.bTile n = elem g.reads (T * T + n)) ∧ (r.i.toNat < T ∧ r.k.toNat < T ∧ r.j.toNat < T) ∧
      ∀ n < T * T, r.cTile n = BitVec.ofNat 32 ((c0 n).toNat + dot T g.reads n (macs T r n))
  | .store =>
    2 * linesOperand T ≤ g.acks ∧ g.acks < 2 * linesOperand T + linesC T ∧
      r.lineCnt.toNat = g.acks - 2 * linesOperand T ∧ g.reads.length = 2 * linesOperand T ∧
      ∀ n < T * T, r.cTile n = result T c0 g.reads n
  | .idle =>
    g.acks = 2 * linesOperand T + linesC T ∧ g.reads.length = 2 * linesOperand T ∧
      ∀ n < T * T, r.cTile n = result T c0 g.reads n

/-- a command at base `b`, accepted with the C tile holding `c0`, has come as far as `g` says -/
structure Running (b : BitVec 64) (c0 : ℕ → BitVec 32) (s : Sys L) (g : Prog) : Prop where
  base : s.own.baseAddr = b
  phase : Phase T c0 s.own g
  ops : g.ops = (List.range (g.acks + s.owed.toList.length)).map (opAt T b (result T c0 g.reads))
  owed : onPort s.own = false → s.owed = none

omit [DecidableEq L] in
variable {T} in
theorem ops_length {b : BitVec 64} {c0 : ℕ → BitVec 32} {s : Sys L} {g : Prog} (h : Running T b c0 s g) :
    g.ops.length = g.acks + s.owed.toList.length := by
  rw [h.ops, List.length_map, List.length_range]

omit [DecidableEq L] in
variable {T} in
theorem owed_of_empty {b : BitVec 64} {c0 : ℕ → BitVec 32} {s : Sys L} (h : Running T b c0 s .empty) : s.owed = none := by
  have hlen := ops_length h
  cases ho : s.owed with
  | none => rfl
  | some d => simp [ho, Prog.empty] at hlen

/-! ## The loop nest -/

section Loop

variable {T} {r : GemmToMem.Reg}

theorem elemIdx_iff (hT : 0 < T) (hj : r.j.toNat < T) {n : ℕ} :
    n = elemIdx T r ↔ n / T = r.i.toNat ∧ n % T = r.j.toNat := by
  constructor
  · rintro rfl
    rw [elemIdx, Nat.mul_comm, Nat.mul_add_div hT, Nat.mul_add_mod, Nat.div_eq_of_lt hj, Nat.mod_eq_of_lt hj]
    exact ⟨by omega, rfl⟩
  · rintro ⟨hdiv, hmod⟩
    rw [elemIdx, ← hdiv, ← hmod]
    exact (Nat.div_add_mod' n T).symm

theorem toNat_succ {x : BitVec 8} {m : ℕ} (h : x.toNat < m) (hm : m ≤ 255) : (x + 1).toNat = x.toNat + 1 := by
  rw [BitVec.toNat_add]
  simp
  omega

/-- one multiply-accumulate adds one product to one element; after the last one every element has all `T` -/
theorem macs_advance (hT : TileOk T) (hs : r.state = .calc) (hi : r.i.toNat < T) (hk : r.k.toNat < T)
    (hj : r.j.toNat < T) {n : ℕ} (hn : n < T * T) :
    (if (advance T r).state = .store then T else macs T (advance T r) n) =
      if n = elemIdx T r then macs T r n + 1 else macs T r n := by
  have hge := hT.ge
  have hle := hT.le
  have hrow : n / T < T := Nat.div_lt_of_lt_mul hn
  have hcol : n % T < T := Nat.mod_lt _ (by omega)
  have hiff : n = elemIdx T r ↔ n / T = r.i.toNat ∧ n % T = r.j.toNat := elemIdx_iff (by omega) hj
  have hi' : (r.i + 1).toNat = r.i.toNat + 1 := toNat_succ hi (by omega)
  have hk' : (r.k + 1).toNat = r.k.toNat + 1 := toNat_succ hk (by omega)
  have hj' : (r.j + 1).toNat = r.j.toNat + 1 := toNat_succ hj (by omega)
  have h0 : (0 : BitVec 8).toNat = 0 := rfl
  have hne : State.calc ≠ State.store := by decide
  simp only [hiff, advance]
  by_cases h1 : r.j.toNat = T - 1
  · by_cases h2 : r.k.toNat = T - 1
    · by_cases h3 : r.i.toNat = T - 1
      · simp only [h1, h2, h3, ite_true, macs]
        split_ifs <;> omega
      · simp only [h1, h2, h3, ite_true, ite_false, hs, hne, macs, hi', h0]
        split_ifs <;> omega
    · simp only [h1, h2, ite_true, ite_false, hs, hne, macs, hk', h0]
      split_ifs <;> omega
  · simp only [h1, ite_false, hs, hne, macs, hj']
    split_ifs <;> omega

theorem macs_elemIdx (hT : TileOk T) (hj : r.j.toNat < T) : macs T r (elemIdx T r) = r.k.toNat := by
  have hge := hT.ge
  obtain ⟨hdiv, hmod⟩ := (elemIdx_iff (by omega) hj).1 (rfl : elemIdx T r = elemIdx T r)
  simp [macs, hdiv, hmod]

theorem ofNat_mac (x : ℕ) (a b : BitVec 16) :
    BitVec.ofNat 32 x + a.setWidth 32 * b.setWidth 32 = BitVec.ofNat 32 (x + a.toNat * b.toNat) := by
  apply BitVec.eq_of_toNat_eq
  have ha : a.toNat % 2 ^ 32 = a.toNat := Nat.mod_eq_of_lt (by omega)
  have hb : b.toNat % 2 ^ 32 = b.toNat := Nat.mod_eq_of_lt (by omega)
  simp only [BitVec.toNat_add, BitVec.toNat_mul, BitVec.toNat_setWidth, BitVec.toNat_ofNat, ha, hb]
  omega

theorem elemIdx_lt (hi : r.i.toNat < T) (hj : r.j.toNat < T) : elemIdx T r < T * T := by
  have hmul : (r.i.toNat + 1) * T ≤ T * T := Nat.mul_le_mul_right T hi
  rw [elemIdx]
  rw [Nat.add_mul] at hmul
  omega

/-- the loop counters stay in range; only the last multiply-accumulate leaves the loop -/
theorem advance_cases (hT : TileOk T) (hs : r.state = .calc) (hi : r.i.toNat < T) (hk : r.k.toNat < T)
    (hj : r.j.toNat < T) :
    (advance T r).aTile = r.aTile ∧ (advance T r).bTile = r.bTile ∧ (advance T r).cTile = r.cTile ∧
    (advance T r).baseAddr = r.baseAddr ∧
    (((advance T r).state = .store ∧ (advance T r).lineCnt = 0) ∨
      ((advance T r).state = .calc ∧ (advance T r).i.toNat < T ∧ (advance T r).k.toNat < T ∧
        (advance T r).j.toNat < T)) := by
  have hge := hT.ge
  have hle := hT.le
  have hi' : (r.i + 1).toNat = r.i.toNat + 1 := toNat_succ hi (by omega)
  have hk' : (r.k + 1).toNat = r.k.toNat + 1 := toNat_succ hk (by omega)
  have hj' : (r.j + 1).toNat = r.j.toNat + 1 := toNat_succ hj (by omega)
  have h0 : (0 : BitVec 8).toNat = 0 := rfl
  unfold advance
  split_ifs with h1 h2 h3
  · exact ⟨rfl, rfl, rfl, rfl, .inl ⟨rfl, rfl⟩⟩
  · exact ⟨rfl, rfl, rfl, rfl, .inr ⟨hs, by simp only [hi']; omega, by simp only [h0]; omega, by simp only [h0]; omega⟩⟩
  · exact ⟨rfl, rfl, rfl, rfl, .inr ⟨hs, hi, by simp only [hk']; omega, by simp only [h0]; omega⟩⟩
  · exact ⟨rfl, rfl, rfl, rfl, .inr ⟨hs, hi, hk, by simp only [hj']; omega⟩⟩

/-- the accumulator after one cycle, element by element -/
theorem cTile_calc (hT : TileOk T) {c0 : ℕ → BitVec 32} {ls : List (BitVec 512)}
    (ha : ∀ n < T * T, r.aTile n = elem ls n) (hb : ∀ n < T * T, r.bTile n = elem ls (T * T + n)) (hi : r.i.toNat < T)
    (hk : r.k.toNat < T) (hj : r.j.toNat < T)
    (hc : ∀ n < T * T, r.cTile n = BitVec.ofNat 32 ((c0 n).toNat + dot T ls n (macs T r n))) {n : ℕ} (hn : n < T * T) :
    Function.update r.cTile (elemIdx T r) (acc T r) n =
      BitVec.ofNat 32 ((c0 n).toNat + dot T ls n (if n = elemIdx T r then macs T r n + 1 else macs T r n)) := by
  by_cases he : n = elemIdx T r
  · subst he
    have hge := hT.ge
    obtain ⟨hdiv, hmod⟩ := (elemIdx_iff (by omega) hj).1 (rfl : elemIdx T r = elemIdx T r)
    have hak : r.i.toNat * T + r.k.toNat < T * T := elemIdx_lt (r := { r with j := r.k }) hi hk
    have hbk : r.k.toNat * T + r.j.toNat < T * T := elemIdx_lt (r := { r with i := r.k }) hk hj
    rw [Function.update_self, if_pos rfl, acc, hc _ hn, macs_elemIdx hT hj, ha _ hak, hb _ hbk, ofNat_mac, dot, dot,
      Finset.sum_range_succ, hdiv, hmod, Nat.add_assoc]
  · rw [Function.update_of_ne he, if_neg he, hc n hn]

/-- the registers with the accumulator written back -/
def accumulated (T : ℕ) (r : GemmToMem.Reg) : GemmToMem.Reg :=
  { r with cTile := Function.update r.cTile (elemIdx T r) (acc T r) }

theorem next_calc (hs : r.state = .calc) (c : Cmd) (m : MemIn) :
    GemmToMem.next T r c m = advance T (accumulated T r) := by
  simp only [GemmToMem.next, hs, accumulated]

/-- **One cycle of the loop nest.** -/
theorem phase_calc (hT : TileOk T) {c0 : ℕ → BitVec 32} {g : Prog} (hs : r.state = .calc) (h : Phase T c0 r g) :
    Phase T c0 (advance T (accumulated T r)) g := by
  simp only [Phase, hs] at h
  obtain ⟨hacks, hreads, ha, hb, ⟨hi, hk, hj⟩, hc⟩ := h
  obtain ⟨hlines, hlc, hlo, -⟩ := hT.lines
  set r' := accumulated T r
  obtain ⟨ha', hb', hc', -, hst⟩ := advance_cases (r := r') hT hs hi hk hj
  have hsum : ∀ n < T * T, (advance T r').cTile n = BitVec.ofNat 32 ((c0 n).toNat + dot T g.reads n
      (if (advance T r').state = .store then T else macs T (advance T r') n)) := fun n hn => by
    rw [macs_advance (r := r') hT hs hi hk hj hn, hc']
    exact cTile_calc hT ha hb hi hk hj hc hn
  rcases hst with ⟨hst, hcnt⟩ | ⟨hst, hbound⟩
  · simp only [Phase, hst, hcnt]
    refine ⟨by omega, by omega, ?_, hreads, fun n hn => ?_⟩
    · show 0 = g.acks - 2 * linesOperand T
      omega
    · rw [hsum n hn, if_pos hst]
      rfl
  · simp only [Phase, hst]
    refine ⟨hacks, hreads, by rwa [ha'], by rwa [hb'], hbound, fun n hn => ?_⟩
    rw [hsum n hn, if_neg (by rw [hst]; decide)]

end Loop

/-! ## Addresses and slices -/

section Slice

variable {T} {r : GemmToMem.Reg} {b : BitVec 64}

/-- line `l` of a tile that starts `k` lines after `b` -/
theorem line_after (b : BitVec 64) (k : ℕ) (l : BitVec 8) :
    b + BitVec.ofNat 64 (k <<< 6) + l.setWidth 64 <<< 6 = b + BitVec.ofNat 64 (64 * (k + l.toNat)) := by
  rw [line_shift, BitVec.add_assoc, ← BitVec.ofNat_add, Nat.shiftLeft_eq]
  congr 2
  omega

theorem opOf_fetchA (hb : r.baseAddr = b) (hs : r.state = .fetchA) (c : ℕ → BitVec 32)
    (hlt : r.lineCnt.toNat < linesOperand T) : opOf (memReq T r) = opAt T b c r.lineCnt.toNat := by
  simp [opOf, memReq, opAt, hs, aAddr, hb, line_shift, show r.lineCnt.toNat < 2 * linesOperand T by omega]

theorem opOf_fetchB (hb : r.baseAddr = b) (hs : r.state = .fetchB) (c : ℕ → BitVec 32)
    (hlt : r.lineCnt.toNat < linesOperand T) :
    opOf (memReq T r) = opAt T b c (linesOperand T + r.lineCnt.toNat) := by
  have haddr : bAddr T r = b + BitVec.ofNat 64 (64 * (linesOperand T + r.lineCnt.toNat)) := by
    rw [bAddr, hb, line_after]
  simp [opOf, memReq, opAt, hs, haddr, show linesOperand T + r.lineCnt.toNat < 2 * linesOperand T by omega]

theorem opOf_store (hb : r.baseAddr = b) (hs : r.state = .store) {c : ℕ → BitVec 32}
    (hc : ∀ e < 16, r.cTile (r.lineCnt.toNat * 16 + e) = c (r.lineCnt.toNat * 16 + e)) :
    opOf (memReq T r) = opAt T b c (2 * linesOperand T + r.lineCnt.toNat) := by
  have haddr : cAddr T r = b + BitVec.ofNat 64 (64 * (2 * linesOperand T + r.lineCnt.toNat)) := by
    rw [cAddr, hb, line_after]
  have hdata : storeData r = cLine c r.lineCnt.toNat := cLine_congr hc
  simp [opOf, memReq, opAt, hs, haddr, hdata]

theorem opAt_read {n : ℕ} (h : n < 2 * linesOperand T) (c c' : ℕ → BitVec 32) : opAt T b c n = opAt T b c' n := by
  simp [opAt, h]

/-- the operand accesses do not depend on the results -/
theorem ops_read {m : ℕ} (h : m ≤ 2 * linesOperand T) (c c' : ℕ → BitVec 32) :
    (List.range m).map (opAt T b c) = (List.range m).map (opAt T b c') :=
  List.map_congr_left fun n hn => opAt_read (by have := List.mem_range.1 hn; omega) c c'

/-- below the slice the tile is untouched -/
theorem fetchSlice_lt {tile : ℕ → BitVec 16} {bits : BitVec 512} {n : ℕ} (h : n < 32 * r.lineCnt.toNat) :
    fetchSlice r tile bits n = tile n := by
  simp only [fetchSlice]
  rw [if_neg (by omega)]

/-- the slice after the response `d` holds the line just read -/
theorem fetchSlice_read {tile : ℕ → BitVec 16} {d : BitVec 512} {ls : List (BitVec 512)} {n base : ℕ}
    (hbase : 32 * ls.length = base + 32 * r.lineCnt.toNat)
    (h : ∀ m, base + m < 32 * ls.length → tile m = elem ls (base + m)) (hn : base + n < 32 * ls.length + 32) :
    fetchSlice r tile d n = elem (ls ++ [d]) (base + n) := by
  by_cases hlt : base + n < 32 * ls.length
  · rw [fetchSlice_lt (by omega), h n hlt, elem_append hlt]
  · simp only [fetchSlice]
    rw [if_pos (by omega), elem_last (by omega) hn]
    congr 1
    omega

end Slice

/-! ## Every cycle -/

section Step

variable {T idx} {b : BitVec 64} {c0 : ℕ → BitVec 32} {s : Sys L} {g : Prog} {i : SysIn L}

theorem step_own : (step T idx s i).own = GemmToMem.next T s.own i.ext (portIn s i) := rfl

/-- the three things the port can show in a cycle -/
theorem port_step (T : ℕ) (idx : BitVec 64 → L) (s : Sys L) (i : SysIn L) :
    (ev T s i = [.access (opOf (memReq T s.own))] ∧ memRespFire s.own (portIn s i) = false ∧ s.owed = none ∧
      (step T idx s i).owed.toList.length = 1) ∨
    (ev T s i = [if s.own.state = .store then .ack else .line (portIn s i).respBits] ∧
      memRespFire s.own (portIn s i) = true ∧ s.owed.toList.length = 1 ∧ (step T idx s i).owed = none) ∨
    (ev T s i = [] ∧ memRespFire s.own (portIn s i) = false ∧ (step T idx s i).owed = s.owed) := by
  rcases port_cases (client T) (MemReq.access idx) s i with ⟨ha, ht, ho, ho'⟩ | ⟨ha, ht, ho, ho'⟩ | ⟨ha, ht, ho'⟩
  · exact .inl ⟨by simp [ev, ha, ht], ht, ho, by rw [step, ho']; rfl⟩
  · exact .inr (.inl ⟨by simp [ev, ha, ht], ht, by rw [ho]; rfl, ho'⟩)
  · exact .inr (.inr ⟨by simp [ev, ha, ht], ht, ho'⟩)

theorem state_of_not_fire {r : GemmToMem.Reg} {c : Cmd} {m : MemIn} (hon : onPort r = true)
    (hf : memRespFire r m = false) : (GemmToMem.next T r c m).state = r.state := by
  cases hs : r.state with
  | idle => simp [onPort, hs] at hon
  | fetchA => simp [GemmToMem.next, hs, hf]
  | fetchB => simp [GemmToMem.next, hs, hf]
  | «calc» => simp [onPort, hs] at hon
  | store => simp [GemmToMem.next, hs, hf]

theorem base_kept {r : GemmToMem.Reg} {c : Cmd} {m : MemIn} (hon : onPort r = true) :
    (GemmToMem.next T r c m).baseAddr = r.baseAddr := by
  cases hs : r.state with
  | idle | «calc» => simp [onPort, hs] at hon
  | fetchA | fetchB | store =>
    simp only [GemmToMem.next, hs]
    split_ifs <;> rfl

/-- the engine is on the port whenever it is owed an answer -/
theorem off_step (h : onPort s.own = false → s.owed = none) :
    onPort (step T idx s i).own = false → (step T idx s i).owed = none := by
  intro hoff
  have hkeep : onPort s.own = true → memRespFire s.own (portIn s i) = false → False := fun hon hf => by
    have hst := state_of_not_fire (T := T) (c := i.ext) hon hf
    rw [step_own, onPort, hst] at hoff
    exact absurd (hon.symm.trans hoff) (by decide)
  rcases port_cases (client T) (MemReq.access idx) s i with ⟨ha, ht, -⟩ | ⟨-, -, -, ho'⟩ | ⟨-, ht, ho'⟩
  · exact (hkeep ((Bool.and_eq_true _ _).mp ha).1 ht).elim
  · exact ho'
  · cases hon : onPort s.own with
    | true => exact (hkeep hon ht).elim
    | false => exact ho'.trans (h hon)

/-- a cycle of a state on the port: only its request and its phase depend on which state it is -/
theorem running_port (h : Running T b c0 s g) (hop : opOf (memReq T s.own) = opAt T b (result T c0 g.reads) g.acks)
    (hread : s.own.state ≠ .store → g.acks < 2 * linesOperand T)
    (hon : onPort s.own = true)
    (hstay : memRespFire s.own (portIn s i) = false → Phase T c0 (step T idx s i).own g)
    (htake : memRespFire s.own (portIn s i) = true → Phase T c0 (step T idx s i).own
      (g.add (if s.own.state = .store then .ack else .line (portIn s i).respBits))) :
    Running T b c0 (step T idx s i) ((ev T s i).foldl Prog.add g) := by
  have hb : (step T idx s i).own.baseAddr = b := (base_kept hon).trans h.base
  have hops := h.ops
  rcases port_step T idx s i with ⟨he, hf, ho, ho'⟩ | ⟨he, hf, ho, ho'⟩ | ⟨he, hf, ho'⟩
  · rw [he]
    refine ⟨hb, hstay hf, ?_, off_step h.owed⟩
    simp only [List.foldl_cons, List.foldl_nil, Prog.add, ho', hops, ho, Option.toList_none, List.length_nil,
      Nat.add_zero, List.range_succ, List.map_append, List.map_cons, List.map_nil, hop]
  · rw [he]
    refine ⟨hb, htake hf, ?_, off_step h.owed⟩
    rw [ho] at hops
    by_cases hs : s.own.state = .store
    · simp only [List.foldl_cons, List.foldl_nil, hs, ite_true, Prog.add, ho', Option.toList_none, List.length_nil]
      exact hops
    · simp only [List.foldl_cons, List.foldl_nil, hs, ite_false, Prog.add, ho', Option.toList_none, List.length_nil]
      rw [hops]
      exact ops_read (hread hs) _ _
  · rw [he]
    refine ⟨hb, hstay hf, ?_, off_step h.owed⟩
    simp only [List.foldl_nil, ho']
    exact hops

theorem running_fetchA (hT : TileOk T) (h : Running T b c0 s g) (hs : s.own.state = .fetchA) :
    Running T b c0 (step T idx s i) ((ev T s i).foldl Prog.add g) := by
  obtain ⟨hlines, -, hlo, hhi⟩ := hT.lines
  have hph := h.phase
  simp only [Phase, hs] at hph
  obtain ⟨hlt, hcnt, hlen, ha, hc⟩ := hph
  have hnext : ∀ n < 32 * g.acks + 32, ∀ d, fetchSlice s.own s.own.aTile d n = elem (g.reads ++ [d]) n := by
    intro n hn d
    have hread : fetchSlice s.own s.own.aTile d n = elem (g.reads ++ [d]) (0 + n) :=
      fetchSlice_read (by omega) (fun m hm => by rw [Nat.zero_add] at hm ⊢; exact ha m (by omega)) (by omega)
    rwa [Nat.zero_add] at hread
  refine running_port h ?_ (fun _ => by omega) (by simp [onPort, hs]) (fun hf => ?_) (fun hf => ?_)
  · rw [opOf_fetchA h.base hs (result T c0 g.reads) (by omega), hcnt]
  · rw [step_own]
    simp only [GemmToMem.next, hs, hf, Bool.false_eq_true, ite_false, Phase]
    exact ⟨hlt, hcnt, hlen, fun n hn => by rw [fetchSlice_lt (by omega)]; exact ha n hn, hc⟩
  · rw [step_own]
    simp only [GemmToMem.next, hs, hf, ite_true, reduceCtorEq, ite_false, Prog.add]
    split_ifs with hlast
    · simp only [Phase]
      refine ⟨by omega, by omega, ?_, by simp [hlen], fun n hn => hnext n (by omega) _, fun n hn => by omega, hc⟩
      show 0 = g.acks + 1 - linesOperand T
      omega
    · have hsucc : (s.own.lineCnt + 1).toNat = s.own.lineCnt.toNat + 1 :=
        toNat_succ (m := linesOperand T) (by omega) (by omega)
      simp only [Phase]
      exact ⟨by omega, by omega, by simp [hlen], fun n hn => hnext n (by omega) _, hc⟩

theorem running_fetchB (hT : TileOk T) (h : Running T b c0 s g) (hs : s.own.state = .fetchB) :
    Running T b c0 (step T idx s i) ((ev T s i).foldl Prog.add g) := by
  obtain ⟨hlines, -, hlo, hhi⟩ := hT.lines
  have hph := h.phase
  simp only [Phase, hs] at hph
  obtain ⟨hge, hlt, hcnt, hlen, ha, hb, hc⟩ := hph
  have ha' : ∀ d, ∀ n < T * T, s.own.aTile n = elem (g.reads ++ [d]) n := fun d n hn => by
    rw [ha n hn, elem_append (by omega)]
  have hnext : ∀ n, T * T + n < 32 * g.acks + 32 → ∀ d,
      fetchSlice s.own s.own.bTile d n = elem (g.reads ++ [d]) (T * T + n) := fun n hn d =>
    fetchSlice_read (by omega) (fun m hm => hb m (by omega)) (by omega)
  refine running_port h ?_ (fun _ => by omega) (by simp [onPort, hs]) (fun hf => ?_) (fun hf => ?_)
  · rw [opOf_fetchB h.base hs (result T c0 g.reads) (by omega), hcnt]
    congr 1
    omega
  · rw [step_own]
    simp only [GemmToMem.next, hs, hf, Bool.false_eq_true, ite_false, Phase]
    exact ⟨hge, hlt, hcnt, hlen, ha, fun n hn => by rw [fetchSlice_lt (by omega)]; exact hb n hn, hc⟩
  · rw [step_own]
    simp only [GemmToMem.next, hs, hf, ite_true, reduceCtorEq, ite_false, Prog.add]
    split_ifs with hlast
    · simp only [Phase]
      refine ⟨by omega, by simp only [List.length_append, List.length_singleton]; omega, ha' _,
        fun n hn => hnext n (by omega) _, ⟨?_, ?_, ?_⟩, fun n hn => ?_⟩
      iterate 3 exact hT.ge.trans_lt' (by decide)
      simp [hc, macs, dot]
    · have hsucc : (s.own.lineCnt + 1).toNat = s.own.lineCnt.toNat + 1 :=
        toNat_succ (m := linesOperand T) (by omega) (by omega)
      simp only [Phase]
      exact ⟨by omega, by omega, by omega, by simp [hlen], ha' _, fun n hn => hnext n (by omega) _, hc⟩

theorem running_calc (hT : TileOk T) (h : Running T b c0 s g) (hs : s.own.state = .calc) :
    Running T b c0 (step T idx s i) ((ev T s i).foldl Prog.add g) := by
  have hown : (step T idx s i).own = advance T (accumulated T s.own) := next_calc hs _ _
  have hoff : onPort s.own = false := by simp [onPort, hs]
  have ho := h.owed hoff
  have he : ev T s i = [] := by simp [ev, accepts, takes, client, hoff]
  have ho' : (step T idx s i).owed = none := by
    simp [step, PortClient.step, accepts, takes, client, hoff, ho]
  have hph := h.phase
  simp only [Phase, hs] at hph
  obtain ⟨-, -, -, -, ⟨hi, hk, hj⟩, -⟩ := hph
  rw [he]
  refine ⟨?_, ?_, ?_, fun _ => ho'⟩
  · rw [hown]
    exact (advance_cases (r := accumulated T s.own) hT hs hi hk hj).2.2.2.1.trans h.base
  · rw [hown]
    exact phase_calc hT hs h.phase
  · rw [List.foldl_nil, ho', h.ops, ho]

theorem running_store (hT : TileOk T) (h : Running T b c0 s g) (hs : s.own.state = .store) :
    Running T b c0 (step T idx s i) ((ev T s i).foldl Prog.add g) := by
  obtain ⟨hlines, hlc, hlo, hhi⟩ := hT.lines
  have hph := h.phase
  simp only [Phase, hs] at hph
  obtain ⟨hge, hlt, hcnt, hlen, hc⟩ := hph
  refine running_port h ?_ (fun hne => absurd hs hne) (by simp [onPort, hs]) (fun hf => ?_) (fun hf => ?_)
  · rw [opOf_store h.base hs fun e he => hc _ (by omega), hcnt]
    congr 1
    omega
  · rw [step_own]
    simp only [GemmToMem.next, hs, hf, Bool.false_eq_true, ite_false, Phase]
    exact ⟨hge, hlt, hcnt, hlen, hc⟩
  · rw [step_own]
    simp only [GemmToMem.next, hs, hf, ite_true, Prog.add]
    by_cases hlast : s.own.lineCnt.toNat = linesC T - 1
    · simp only [hlast, ite_true, Phase]
      exact ⟨by omega, hlen, hc⟩
    · have hsucc : (s.own.lineCnt + 1).toNat = s.own.lineCnt.toNat + 1 :=
        toNat_succ (m := linesC T - 1) (by omega) (by omega)
      simp only [hlast, ite_false, Phase]
      exact ⟨by omega, by omega, by omega, hlen, hc⟩

/-- **Every cycle of a busy engine.** -/
theorem running_step (idx : BitVec 64 → L) (i : SysIn L) (hT : TileOk T) (h : Running T b c0 s g) (hb : busy s.own = true) :
    Running T b c0 (step T idx s i) ((ev T s i).foldl Prog.add g) := by
  cases hs : s.own.state with
  | idle => simp [busy, hs] at hb
  | fetchA => exact running_fetchA hT h hs
  | fetchB => exact running_fetchB hT h hs
  | «calc» => exact running_calc hT h hs
  | store => exact running_store hT h hs

/-- the cycle that accepts a command -/
theorem running_start (idx : BitVec 64 → L) (hT : TileOk T) (hs : cmdFire s.own i.ext = true) (ho : s.owed = none) :
    Running T i.ext.data s.own.cTile (step T idx s i) .empty := by
  have hidle : s.own.state = .idle := by simpa [cmdFire, cmdReady] using ((Bool.and_eq_true _ _).mp hs).2
  have hoff : onPort s.own = false := by simp [onPort, hidle]
  have ho' : (step T idx s i).owed = none := by simp [step, PortClient.step, accepts, takes, client, hoff, ho]
  obtain ⟨-, -, hlo, -⟩ := hT.lines
  have hown : (step T idx s i).own = { s.own with baseAddr := i.ext.data, lineCnt := 0, state := .fetchA } := by
    rw [step_own]
    simp only [GemmToMem.next, hidle, hs, ite_true]
  refine ⟨by rw [hown], ?_, by rw [ho']; rfl, fun _ => ho'⟩
  rw [hown]
  simp only [Phase, Prog.empty]
  exact ⟨by omega, rfl, rfl, fun n hn => absurd hn (by omega), trivial⟩

omit [DecidableEq L] in
/-- **One whole command.** The accesses of a command that has run to its end, all of them answered. -/
theorem running_done (h : Running T b c0 s g) (hs : busy s.own = false) :
    g.ops = (List.range (2 * linesOperand T + linesC T)).map (opAt T b (result T c0 g.reads)) ∧
      g.acks = 2 * linesOperand T + linesC T ∧ g.reads.length = 2 * linesOperand T ∧
      ∀ n < T * T, s.own.cTile n = result T c0 g.reads n := by
  have hidle : s.own.state = .idle := by simpa [busy] using hs
  have hph := h.phase
  simp only [Phase, hidle] at hph
  obtain ⟨hacks, hreads, hc⟩ := hph
  refine ⟨?_, hacks, hreads, hc⟩
  rw [h.ops, h.owed (by simp [onPort, hidle]), hacks]
  rfl

end Step

/-! ## Progress -/

/-- the multiply-accumulates done -/
def loops (r : GemmToMem.Reg) : ℕ :=
  match r.state with
  | .fetchA | .fetchB => 0
  | .calc => (r.i.toNat * T + r.k.toNat) * T + r.j.toNat
  | .store | .idle => T * T * T

/-- the handshakes and multiply-accumulates left of a command -/
def left (r : GemmToMem.Reg) (g : Prog) : ℕ :=
  2 * (2 * linesOperand T + linesC T) + T * T * T - (g.ops.length + g.acks + loops T r)

section Progress

variable {T idx} {b : BitVec 64} {c0 : ℕ → BitVec 32} {s : Sys L} {g : Prog} {i : SysIn L}

theorem loops_calc {r : GemmToMem.Reg} (hi : r.i.toNat < T) (hk : r.k.toNat < T) (hj : r.j.toNat < T) :
    (r.i.toNat * T + r.k.toNat) * T + r.j.toNat < T * T * T := by
  have hrow : r.i.toNat * T + r.k.toNat < T * T := elemIdx_lt (r := { r with j := r.k }) hi hk
  have hmul : (r.i.toNat * T + r.k.toNat + 1) * T ≤ T * T * T := Nat.mul_le_mul_right T hrow
  rw [Nat.add_mul _ 1] at hmul
  omega

theorem loops_advance (hT : TileOk T) {r : GemmToMem.Reg} (hs : r.state = .calc) (hi : r.i.toNat < T)
    (hk : r.k.toNat < T) (hj : r.j.toNat < T) : loops T (advance T r) = loops T r + 1 := by
  have hge := hT.ge
  have hle := hT.le
  have hi' : (r.i + 1).toNat = r.i.toNat + 1 := toNat_succ hi (by omega)
  have hk' : (r.k + 1).toNat = r.k.toNat + 1 := toNat_succ hk (by omega)
  have hj' : (r.j + 1).toNat = r.j.toNat + 1 := toNat_succ hj (by omega)
  have h0 : (0 : BitVec 8).toNat = 0 := rfl
  obtain ⟨t, rfl⟩ : ∃ t, T = t + 1 := ⟨T - 1, by omega⟩
  unfold advance
  split_ifs with h1 h2 h3
  · simp only [loops, hs, h1, h2, h3, Nat.add_sub_cancel]
    ring
  · simp only [loops, hs, h1, h2, hi', h0, Nat.add_sub_cancel]
    ring
  · simp only [loops, hs, h1, hk', h0, Nat.add_sub_cancel]
    ring
  · simp only [loops, hs, hj']
    ring

theorem loops_step (idx : BitVec 64 → L) (i : SysIn L) (hT : TileOk T) (h : Running T b c0 s g) (hb : busy s.own = true) :
    loops T (step T idx s i).own = loops T s.own + if s.own.state = .calc then 1 else 0 := by
  rw [step_own]
  have hph := h.phase
  cases hs : s.own.state with
  | idle => simp [busy, hs] at hb
  | fetchA =>
    simp only [GemmToMem.next, hs, reduceCtorEq, ite_false]
    split_ifs <;> simp [loops, hs]
  | fetchB =>
    simp only [GemmToMem.next, hs, reduceCtorEq, ite_false]
    split_ifs <;> simp [loops, hs]
  | «calc» =>
    simp only [Phase, hs] at hph
    obtain ⟨-, -, -, -, ⟨hi, hk, hj⟩, -⟩ := hph
    rw [next_calc hs, if_pos rfl]
    exact loops_advance (r := accumulated T s.own) hT hs hi hk hj
  | store =>
    simp only [GemmToMem.next, hs, reduceCtorEq, ite_false]
    split_ifs <;> simp [loops, hs]

omit [DecidableEq L] in
/-- a command never does more than it has to; a busy engine has something left -/
theorem done_le (hT : TileOk T) (h : Running T b c0 s g) :
    g.ops.length + g.acks + loops T s.own ≤ 2 * (2 * linesOperand T + linesC T) + T * T * T ∧
      (busy s.own = true → 0 < left T s.own g) := by
  obtain ⟨-, hlc, hlo, -⟩ := hT.lines
  have hlen := ops_length h
  have howed : s.owed.toList.length ≤ 1 := by cases s.owed <;> simp
  have hph := h.phase
  have hoff := h.owed
  unfold left
  cases hs : s.own.state with
  | idle =>
    simp only [Phase, hs] at hph
    rw [hoff (by simp [onPort, hs])] at hlen
    simp only [loops, hs, busy, Option.toList_none, List.length_nil] at hlen ⊢
    exact ⟨by omega, fun hb => by simp at hb⟩
  | fetchA =>
    simp only [Phase, hs] at hph
    simp only [loops, hs]
    exact ⟨by omega, fun _ => by omega⟩
  | fetchB =>
    simp only [Phase, hs] at hph
    simp only [loops, hs]
    exact ⟨by omega, fun _ => by omega⟩
  | «calc» =>
    simp only [Phase, hs] at hph
    obtain ⟨hacks, -, -, -, ⟨hi, hk, hj⟩, -⟩ := hph
    have hlt := loops_calc hi hk hj
    rw [hoff (by simp [onPort, hs])] at hlen
    simp only [loops, hs, Option.toList_none, List.length_nil] at hlen ⊢
    exact ⟨by omega, fun _ => by omega⟩
  | store =>
    simp only [Phase, hs] at hph
    simp only [loops, hs]
    exact ⟨by omega, fun _ => by omega⟩

theorem count_add (g : Prog) (e : Ev) : (g.add e).ops.length + (g.add e).acks = g.ops.length + g.acks + 1 := by
  cases e <;> simp [Prog.add] <;> omega

theorem count_fold (es : List Ev) (g : Prog) :
    (es.foldl Prog.add g).ops.length + (es.foldl Prog.add g).acks = g.ops.length + g.acks + es.length := by
  induction es generalizing g with
  | nil => rfl
  | cons e es ih =>
    rw [List.foldl_cons, ih, count_add, List.length_cons]
    omega

/-- **Progress of one cycle**: every handshake and every multiply-accumulate brings the command closer to its end -/
theorem left_step (idx : BitVec 64 → L) (i : SysIn L) (hT : TileOk T) (h : Running T b c0 s g) (hb : busy s.own = true) :
    left T (step T idx s i).own ((ev T s i).foldl Prog.add g) + (ev T s i).length +
      (if s.own.state = .calc then 1 else 0) = left T s.own g := by
  have hle := (done_le hT (running_step idx i hT h hb)).1
  have hcount := count_fold (ev T s i) g
  have hloops := loops_step idx i hT h hb
  unfold left
  omega

end Progress

end AegisSoc.GemmRun
