/-
The GPU L2 front-end (`gpu/GPUL2Cache.scala`): a rotating-priority selector over `N` clusters in front of a single-beat
AXI master. One request is in hand at a time: captured in the idle state, driven on AW and W or on AR, and answered to
its cluster. Nothing is cached.

The clusters are numbered from 0. The registers `last` and `selR` only take values of the selector, which are below `N`
(`RoundRobin.select_lt`), so their width is left out. The source declares `isW_r` and never assigns it.

- `serves`: every cycle accepts nobody, or the cluster selected by the rotation;
- `bounded_bypass`: while a cluster waits, every other one is accepted at most once, for every `N`.
-/
import AegisSoc.Types
import AegisSoc.Lib.RoundRobin

namespace AegisSoc.GPUL2Cache

open Machine

/-! ## Model -/

inductive State where
  | idle
  | aw
  | wd
  | bwait
  | wack
  | ar
  | rc
  | resp
deriving DecidableEq, Repr

structure Reg where
  last : ℕ
  state : State
  selR : ℕ
  addrR : BitVec 64
  wdataR : BitVec 512
  rdataR : BitVec 512
  isWR : Bool
deriving DecidableEq, Repr

variable (N : ℕ)

/-- the request valids of the clusters -/
def v (c : ℕ → MemOut) (k : ℕ) : Bool := (c k).reqValid

def any (r : Reg) (c : ℕ → MemOut) : Bool :=
  (RoundRobin.above N r.last (v c)).any id || (RoundRobin.upto N r.last (v c)).any id

def sel (r : Reg) (c : ℕ → MemOut) : ℕ := RoundRobin.select N r.last (v c)

def reqReady (r : Reg) (c : ℕ → MemOut) (k : ℕ) : Bool := r.state == .idle && k == sel N r c
def respValid (r : Reg) (k : ℕ) : Bool := (r.state == .wack || r.state == .resp) && k == r.selR
def respBits (r : Reg) : BitVec 512 := if r.isWR then 0 else r.rdataR

def reqFire (r : Reg) (c : ℕ → MemOut) (k : ℕ) : Bool := (c k).reqValid && reqReady N r c k
def respFire (r : Reg) (c : ℕ → MemOut) (k : ℕ) : Bool := respValid r k && (c k).respReady

/-- what cluster `k` sees -/
def clusterIn (r : Reg) (c : ℕ → MemOut) (k : ℕ) : MemIn := ⟨reqReady N r c k, respValid r k, respBits r⟩

def axiOut (r : Reg) : AxiOut where
  awvalid := r.state == .aw
  awaddr := r.addrR
  awid := 0
  wvalid := r.state == .wd
  wdata := r.wdataR
  wstrb := BitVec.allOnes 64
  bready := r.state == .bwait
  arvalid := r.state == .ar
  araddr := r.addrR
  arid := 0
  rready := r.state == .rc

def reset : Reg where
  last := 0
  state := .idle
  selR := 0
  addrR := 0
  wdataR := 0
  rdataR := 0
  isWR := false

def next (r : Reg) (c : ℕ → MemOut) (m : AxiIn) : Reg :=
  match r.state with
  | .idle =>
    if any N r c then
      -- exactly one bit of the one-hot selection is set, that of `sel`
      let q := (c (sel N r c)).req
      { r with
        selR := sel N r c
        addrR := q.addr
        wdataR := q.data
        last := sel N r c
        state := if q.isWrite then .aw else .ar }
    else r
  | .aw => if m.awready then { r with state := .wd } else r
  | .wd => if m.wready then { r with state := .bwait } else r
  | .bwait => if m.bvalid then { r with state := .wack } else r
  | .wack => if respFire r c r.selR then { r with state := .idle } else r
  | .ar => if m.arready then { r with state := .rc } else r
  | .rc => if m.rvalid then { r with rdataR := m.rdata, state := .resp } else r
  | .resp => if respFire r c r.selR then { r with state := .idle } else r

/-! ## Selection -/

variable {N} {r : Reg} {c : ℕ → MemOut} {k : ℕ}

theorem any_iff : any N r c = true ↔ ∃ k < N, (c k).reqValid = true := by
  simp only [any, RoundRobin.above, RoundRobin.upto, Bool.or_eq_true, List.any_map, List.any_eq_true, List.mem_range,
    Function.comp_apply, id, Bool.and_eq_true, decide_eq_true_eq, v]
  constructor
  · rintro (⟨k, hk, -, hv⟩ | ⟨k, hk, -, hv⟩)
    · exact ⟨k, hk, hv⟩
    · exact ⟨k, hk, hv⟩
  · rintro ⟨k, hk, hv⟩
    rcases lt_or_ge r.last k with hlt | hge
    · exact .inl ⟨k, hk, hlt, hv⟩
    · exact .inr ⟨k, hk, hge, hv⟩

/-- **The cluster that is ready is the one captured**: in the idle state with a request, exactly `sel` fires -/
theorem reqFire_iff (hk : k < N) : reqFire N r c k = true ↔ r.state = .idle ∧ any N r c = true ∧ k = sel N r c := by
  simp only [reqFire, reqReady, Bool.and_eq_true, beq_iff_eq]
  constructor
  · rintro ⟨hv, hs, hsel⟩
    exact ⟨hs, any_iff.2 ⟨k, hk, hv⟩, hsel⟩
  · rintro ⟨hs, ha, rfl⟩
    exact ⟨RoundRobin.select_valid (any_iff.1 ha) r.last, hs, rfl⟩

theorem sel_lt (hN : 1 ≤ N) : sel N r c < N := RoundRobin.select_lt hN _ _

/-- a request that is accepted is the selected one -/
theorem selected (hN : 1 ≤ N) (hf : reqFire N r c k = true) : any N r c = true ∧ sel N r c = k := by
  have hready : r.state = .idle ∧ k = sel N r c := by
    simpa [reqReady] using ((Bool.and_eq_true _ _).mp hf).2
  exact ⟨((reqFire_iff (hready.2 ▸ sel_lt hN)).1 hf).2.1, hready.2.symm⟩

/-! ## Runs -/

/-- what the clusters and the AXI slave drive -/
structure In where
  cluster : ℕ → MemOut
  mem : AxiIn

def step (N : ℕ) (r : Reg) (i : In) : Reg := next N r i.cluster i.mem

/-- the clusters accepted in this cycle -/
def grants (N : ℕ) (r : Reg) (i : In) : List ℕ :=
  (List.range N).flatMap fun k => if reqFire N r i.cluster k then [k] else []

variable {i : In}

theorem mem_grants : k ∈ grants N r i ↔ k < N ∧ reqFire N r i.cluster k = true := by
  simp [grants]

/-- in an idle cycle with a request exactly the selected cluster is accepted, and its request is captured -/
theorem captured (hs : r.state = .idle) (ha : any N r i.cluster = true) :
    grants N r i = [sel N r i.cluster] ∧ (i.cluster (sel N r i.cluster)).reqValid = true ∧
      step N r i = { r with
        selR := sel N r i.cluster
        addrR := (i.cluster (sel N r i.cluster)).req.addr
        wdataR := (i.cluster (sel N r i.cluster)).req.data
        last := sel N r i.cluster
        state := if (i.cluster (sel N r i.cluster)).req.isWrite then .aw else .ar } := by
  have hN : 1 ≤ N := by
    obtain ⟨k, hk, -⟩ := any_iff.1 ha
    omega
  have hfire : reqFire N r i.cluster (sel N r i.cluster) = true := (reqFire_iff (sel_lt hN)).2 ⟨hs, ha, rfl⟩
  refine ⟨?_, RoundRobin.select_valid (any_iff.1 ha) r.last, by simp [step, next, hs, ha]⟩
  rw [grants, RoundRobin.flatMap_onehot (sel_lt hN), hfire, if_pos rfl]
  intro j hj hne
  rw [if_neg fun hf => hne ((reqFire_iff hj).1 hf).2.2]

/-- in every other cycle nobody is accepted, and the rotation stays where it is -/
theorem not_captured (h : ¬ (r.state = .idle ∧ any N r i.cluster = true)) :
    grants N r i = [] ∧ (step N r i).last = r.last := by
  refine ⟨List.flatMap_eq_nil_iff.2 fun k hk => ?_, ?_⟩
  · rw [if_neg fun hf => ?_]
    obtain ⟨hs, ha, -⟩ := (reqFire_iff (List.mem_range.1 hk)).1 hf
    exact h ⟨hs, ha⟩
  · cases hs : r.state with
    | idle =>
      have ha : any N r i.cluster = false := by simpa [hs] using h
      simp [step, next, hs, ha]
    | _ =>
      simp only [step, next, hs]
      split_ifs <;> rfl

/-! ## Bounded bypass -/

theorem serves (N : ℕ) (r : Reg) (i : In) :
    RoundRobin.Serves N (step N) Reg.last (fun _ i => v i.cluster) (grants N) r i := by
  by_cases h : r.state = .idle ∧ any N r i.cluster = true
  · obtain ⟨hg, -, hstep⟩ := captured h.1 h.2
    exact .inr ⟨hg, by rw [hstep]; rfl⟩
  · exact .inl (not_captured h)

/-- cluster `k` requests and is not accepted -/
def Waits (N k : ℕ) (r : Reg) (i : In) : Prop := (i.cluster k).reqValid = true ∧ reqFire N r i.cluster k = false

instance (N k : ℕ) (r : Reg) (i : In) : Decidable (Waits N k r i) := inferInstanceAs (Decidable (_ ∧ _))

/-- **Bounded bypass for every number of clusters.** After any run from reset:
- in any stretch of cycles in which a cluster waits, every other one is accepted at most once, so `N - 1` requests at
  most are accepted in all;
- an idle cycle in which some cluster requests accepts exactly one cluster, which does request, and captures its address,
  data and direction. -/
theorem bounded_bypass (N : ℕ) (before stretch : List In) :
    let r := run (step N) reset before
    (∀ k < N, Always (step N) (Waits N k) r stretch →
      (∀ j, j ≠ k → (collect (step N) (grants N) r stretch).count j ≤ 1) ∧
        (collect (step N) (grants N) r stretch).length ≤ N - 1) ∧
    (∀ i : In, r.state = .idle → (∃ k < N, (i.cluster k).reqValid = true) →
      ∃ k < N, (i.cluster k).reqValid = true ∧ (∀ j < N, reqFire N r i.cluster j = true ↔ j = k) ∧
        (step N r i).selR = k ∧ (step N r i).addrR = (i.cluster k).req.addr ∧
        (step N r i).wdataR = (i.cluster k).req.data ∧
        (step N r i).state = if (i.cluster k).req.isWrite then .aw else .ar) := by
  intro r
  refine ⟨fun k hk hwait => ?_, fun i hs hreq => ?_⟩
  · have hserve : Always (step N) (fun r i =>
        RoundRobin.Serves N (step N) Reg.last (fun _ i => v i.cluster) (grants N) r i ∧
          RoundRobin.Waits (fun _ i => v i.cluster) (grants N) k r i) r stretch := by
      refine always_imp (fun i _ r hw => ⟨serves N r i, hw.1, fun hmem => ?_⟩) hwait
      exact absurd (hw.2.symm.trans (mem_grants.1 hmem).2) Bool.false_ne_true
    exact ⟨fun j hj => RoundRobin.bypass hk hj hserve, RoundRobin.bypass_total hk hserve⟩
  · have ha : any N r i.cluster = true := any_iff.2 hreq
    obtain ⟨-, hvalid, hstep⟩ := captured hs ha
    refine ⟨sel N r i.cluster, sel_lt (by obtain ⟨k, hk, -⟩ := hreq; omega), hvalid, fun j hj => ?_, ?_⟩
    · rw [reqFire_iff hj]
      exact ⟨fun h => h.2.2, fun h => ⟨hs, ha, h⟩⟩
    · rw [hstep]
      exact ⟨rfl, rfl, rfl, rfl⟩

/-- all clusters load, and the AXI slave accepts and answers at once -/
def crowded : In := ⟨fun _ => ⟨true, ⟨0x40, 0, false⟩, true⟩, ⟨true, true, true, 0, true, true, 5, true, 0⟩⟩

/-- cluster 0 of three waits while each of the others has its turn -/
theorem bounded_bypass_three :
    let stretch := List.replicate 8 crowded
    (Always (step 3) (Waits 3 0) reset stretch ∧ collect (step 3) (grants 3) reset stretch = [1, 2]) ∧
      (∀ j, j ≠ 0 → (collect (step 3) (grants 3) reset stretch).count j ≤ 1) ∧
      (collect (step 3) (grants 3) reset stretch).length ≤ 2 := by
  intro stretch
  have hwait : Always (step 3) (Waits 3 0) reset stretch := by decide +kernel
  exact ⟨⟨hwait, by decide +kernel⟩, (bounded_bypass 3 [] stretch).1 0 (by decide) hwait⟩

end AegisSoc.GPUL2Cache
