/-
What the clusters are delivered by `GPUL2Cache`, for any number of clusters and on any AXI slave.

`Book` reads off the accepted requests and the data that the memory returns which request is in hand, what the memory has
returned for it, and what the memory has returned last at all. The read-data register outlives a transaction, and
`isW_r`, which would hide it from the response to a store, is never set:
- `delivered_bits`: a load is delivered what the memory returned for it; a store is delivered what the memory returned
  last, for whichever cluster that was;
- `isolated_iff`: so the delivery is right (zero for a store, its own data for a load) exactly if it is that of a load, or
  no load has returned data yet, or the last one returned zero;
- `store_shows_load`: a store of one cluster is delivered the data that another one has read.
-/
import AegisSoc.Gpu.GPUL2Cache

namespace AegisSoc.ClusterData

open Machine GPUL2Cache

/-! ## The book of a run -/

inductive Ev where
  /-- a request of cluster `k` is accepted -/
  | accept (k : ℕ) (q : MemReq)
  /-- the memory returns the data of a load -/
  | returned (d : BitVec 512)
deriving DecidableEq, Repr

def rFire (r : Reg) (i : In) : Bool := (axiOut r).rready && i.mem.rvalid

def ev (N : ℕ) (r : Reg) (i : In) : List Ev :=
  (grants N r i).map (fun k => .accept k (i.cluster k).req) ++ if rFire r i then [.returned i.mem.rdata] else []

structure Book where
  /-- the request accepted last -/
  inHand : Option (ℕ × MemReq)
  /-- what the memory has returned for it -/
  own : Option (BitVec 512)
  /-- what the memory has returned last for any request, and zero before -/
  latest : BitVec 512
deriving DecidableEq, Repr

def Book.note (b : Book) : Ev → Book
  | .accept k q => { b with inHand := some (k, q), own := none }
  | .returned d => { b with own := some d, latest := d }

def blank : Book := ⟨none, none, 0⟩

/-- the book after the cycles `ins` from reset -/
def book (N : ℕ) (ins : List In) : Book := (collect (step N) (ev N) reset ins).foldl Book.note blank

/-! ## The registers keep the book -/

/-- the states in which a store is in hand -/
def storing : State → Bool
  | .aw | .wd | .bwait | .wack => true
  | _ => false

structure Keeps (r : Reg) (b : Book) : Prop where
  unset : r.isWR = false
  latest : r.rdataR = b.latest
  inHand : r.state ≠ .idle → ∃ q, b.inHand = some (r.selR, q) ∧ q.isWrite = storing r.state
  own : r.state ≠ .idle → b.own = if r.state = .resp then some r.rdataR else none

theorem keeps_reset : Keeps reset blank :=
  ⟨rfl, rfl, fun h => absurd rfl h, fun h => absurd rfl h⟩

variable {N : ℕ} {r : Reg} {b : Book} {i : In}

/-- a cycle in which the request in hand moves on, or waits -/
theorem ev_busy (hs : r.state ≠ .idle) : ev N r i = if rFire r i then [.returned i.mem.rdata] else [] := by
  rw [ev, (not_captured fun h => hs h.1).1]
  rfl

/-- in such a cycle, unless data comes, only the state changes: it stays on the side of the loads or of the stores, and the
state after the data is neither entered nor left for another one than the idle state -/
theorem step_busy (hs : r.state ≠ .idle) (hr : rFire r i = false) :
    ∃ s, step N r i = { r with state := s } ∧
      (s ≠ .idle → storing s = storing r.state ∧ (s = .resp ↔ r.state = .resp)) := by
  cases hst : r.state with
  | idle => exact absurd hst hs
  | rc =>
    have hv : i.mem.rvalid = false := by simpa [rFire, axiOut, hst] using hr
    have hstay : step N r i = r := by simp [step, next, hst, hv]
    exact ⟨r.state, hstay, by simp [hst]⟩
  | _ =>
    simp only [step, next, hst]
    split_ifs
    · exact ⟨_, rfl, by decide⟩
    · exact ⟨r.state, rfl, by simp [hst]⟩

/-- **One cycle.** -/
theorem keeps_step (h : Keeps r b) (i : In) : Keeps (step N r i) ((ev N r i).foldl Book.note b) := by
  by_cases hs : r.state = .idle
  · have hr : rFire r i = false := by simp [rFire, axiOut, hs]
    by_cases ha : any N r i.cluster = true
    · obtain ⟨hg, -, hstep⟩ := captured hs ha
      rw [ev, hg, hr, hstep]
      cases hw : (i.cluster (sel N r i.cluster)).req.isWrite <;>
        exact ⟨h.unset, h.latest, fun _ => ⟨_, rfl, hw⟩, fun _ => rfl⟩
    · have hstep : step N r i = r := by simp [step, next, hs, ha]
      rw [ev, (not_captured fun hc => ha hc.2).1, hr, hstep]
      exact h
  · obtain ⟨q, hq, hw⟩ := h.inHand hs
    rw [ev_busy hs]
    cases hr : rFire r i with
    | true =>
      simp only [rFire, axiOut, Bool.and_eq_true, beq_iff_eq] at hr
      have hstep : step N r i = { r with rdataR := i.mem.rdata, state := .resp } := by simp [step, next, hr.1, hr.2]
      rw [hr.1] at hw
      rw [hstep]
      exact ⟨h.unset, rfl, fun _ => ⟨q, hq, hw⟩, fun _ => rfl⟩
    | false =>
      obtain ⟨s, hstep, hside⟩ := step_busy (N := N) hs hr
      rw [hstep]
      refine ⟨h.unset, h.latest, fun hn => ⟨q, hq, hw.trans (hside hn).1.symm⟩, fun hn => (h.own hs).trans ?_⟩
      simp only [(hside hn).2]

/-- **Whole runs.** -/
theorem keeps_run (N : ℕ) (ins : List In) : Keeps (run (step N) reset ins) (book N ins) :=
  run_ghost Keeps (fun _ _ i h _ => keeps_step h i) keeps_reset (always_true _ _ _)

/-! ## Deliveries -/

/-- **What a cluster is delivered.** -/
theorem delivered_bits {k : ℕ} (h : Keeps r b) (hf : respFire r i.cluster k = true) :
    ∃ q, b.inHand = some (k, q) ∧ (q.isWrite = false → b.own = some (respBits r)) ∧
      (q.isWrite = true → b.own = none ∧ respBits r = b.latest) := by
  simp only [respFire, respValid, Bool.and_eq_true, Bool.or_eq_true, beq_iff_eq] at hf
  obtain ⟨⟨hs, rfl⟩, -⟩ := hf
  have hbits : respBits r = r.rdataR := by simp [respBits, h.unset]
  have hbusy : r.state ≠ .idle := by rcases hs with hs | hs <;> simp [hs]
  obtain ⟨q, hq, hw⟩ := h.inHand hbusy
  have hown := h.own hbusy
  refine ⟨q, hq, fun hload => ?_, fun hstore => ?_⟩
  · rcases hs with hs | hs
    · rw [hs, hload] at hw
      exact absurd hw Bool.false_ne_true
    · rw [hown, if_pos hs, hbits]
  · rcases hs with hs | hs
    · rw [hown, hbits]
      exact ⟨by simp [hs], h.latest⟩
    · rw [hs, hstore] at hw
      exact absurd hw.symm Bool.false_ne_true

/-- zero is delivered for a store, and what the memory returned for it for a load -/
def Isolated (b : Book) (k : ℕ) (d : BitVec 512) : Prop :=
  ∃ q, b.inHand = some (k, q) ∧ if q.isWrite then d = 0 else b.own = some d

/-- **When a delivery is isolated.** After any run from reset, if the next cycle delivers a response to cluster `k`: it is
for the request of `k` accepted last; the delivery is isolated if and only if that request is a load or the data the memory
has returned last is zero; and a load is always delivered the data returned for it. -/
theorem isolated_iff (N : ℕ) (ins : List In) (i : In) (k : ℕ)
    (hf : respFire (run (step N) reset ins) i.cluster k = true) :
    ∃ q, (book N ins).inHand = some (k, q) ∧
      (Isolated (book N ins) k (respBits (run (step N) reset ins)) ↔ q.isWrite = false ∨ (book N ins).latest = 0) ∧
      (q.isWrite = false → (book N ins).own = some (respBits (run (step N) reset ins))) := by
  obtain ⟨q, hq, hload, hstore⟩ := delivered_bits (keeps_run N ins) hf
  refine ⟨q, hq, ?_, hload⟩
  constructor
  · rintro ⟨q', hq', hright⟩
    obtain rfl : q' = q := congrArg Prod.snd (Option.some.inj (hq'.symm.trans hq))
    cases hw : q'.isWrite with
    | false => exact .inl rfl
    | true =>
      rw [hw, if_pos rfl] at hright
      exact .inr ((hstore hw).2.symm.trans hright)
  · intro hwhen
    refine ⟨q, hq, ?_⟩
    cases hw : q.isWrite with
    | false => exact hload hw
    | true =>
      rcases hwhen with hload' | hzero
      · exact absurd (hload'.symm.trans hw) Bool.false_ne_true
      · exact (hstore hw).2.trans hzero

/-- all clusters silent -/
def quiet : ℕ → MemOut := fun _ => ⟨false, ⟨0, 0, false⟩, true⟩

/-- an AXI slave that accepts at once and returns 5 -/
def slave : AxiIn := ⟨true, true, true, 0, true, true, 5, true, 0⟩

/-- cluster `k` asks `q` -/
def asking (k : ℕ) (q : MemReq) : In := ⟨Function.update quiet k ⟨true, q, true⟩, slave⟩

/-- cluster 0 loads a line; then cluster 1 stores to another one, up to its response -/
def loadThenStore : List In :=
  [asking 0 ⟨0, 0, false⟩] ++ List.replicate 3 ⟨quiet, slave⟩ ++ [asking 1 ⟨0x40, 9, true⟩] ++
    List.replicate 3 ⟨quiet, slave⟩

theorem isolated_iff_load : ∃ q, (book 2 (loadThenStore.take 3)).inHand = some (0, q) ∧
    (Isolated (book 2 (loadThenStore.take 3)) 0 (respBits (run (step 2) reset (loadThenStore.take 3))) ↔
      q.isWrite = false ∨ (book 2 (loadThenStore.take 3)).latest = 0) ∧
    (q.isWrite = false → (book 2 (loadThenStore.take 3)).own =
      some (respBits (run (step 2) reset (loadThenStore.take 3)))) :=
  isolated_iff 2 (loadThenStore.take 3) ⟨quiet, slave⟩ 0 (by decide +kernel)

/-- **A store shows another cluster's load.** Cluster 1, which has never read, is delivered the line that cluster 0 has
read. -/
theorem store_shows_load :
    respFire (run (step 2) reset loadThenStore) quiet 1 = true ∧
      (book 2 loadThenStore).inHand = some (1, ⟨0x40, 9, true⟩) ∧ (book 2 loadThenStore).latest = 5 ∧
      respBits (run (step 2) reset loadThenStore) = 5 := by
  decide +kernel

end AegisSoc.ClusterData
