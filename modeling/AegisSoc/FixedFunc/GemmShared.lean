/-
The GEMM engine on the accelerator port of the shared stack, with any traffic on the CPU and the GPU port.

- `fetched_step`: while nobody writes the operand lines, every line the engine reads is the line as it was when the
  command started; the engine's own writes come after its last read;
- `command_exact`: the requests accepted from the engine during one command are the operand reads and the result writes,
  each once and in order, with the inner products of the operands in shared memory added to the old C tile;
- `command_ends`: in the modes without CPU priority a command runs to its end, whatever the other ports ask for.
-/
import AegisSoc.FixedFunc.GemmPace
import AegisSoc.Memory.Fabric
import AegisSoc.Memory.Service

namespace AegisSoc.GemmShared

open Machine PortMemory GemmToMem GemmRun Lanes
open PortClient hiding step
open SplitPrioritizer (Port line access reqFire respFire maxWait wait)
open HBM3Stack (lag slot)

/-! ## Operands that nobody writes -/

section Operands

variable {L : Type*} [DecidableEq L] {T : ℕ} {idx : BitVec 64 → L} {b : BitVec 64} {c0 : ℕ → BitVec 32}
  {m : L → BitVec 512} {s : Sys L} {g : Prog} {i : SysIn L}

def fetching (r : GemmToMem.Reg) : Bool := r.state == .fetchA || r.state == .fetchB

/-- the lines read so far, and those still to be read, are those of the memory `m` -/
structure Fetched (T : ℕ) (idx : BitVec 64 → L) (b : BitVec 64) (m : L → BitVec 512) (s : Sys L) (g : Prog) : Prop where
  reads : ∀ n d, g.reads[n]? = some d → d = m (idx (lineAt b n))
  kept : fetching s.own = true → ∀ n < 2 * linesOperand T, s.mem (idx (lineAt b n)) = m (idx (lineAt b n))
  owed : fetching s.own = true → ∀ d, s.owed = some d → d = m (idx (lineAt b g.acks))

omit [DecidableEq L] in
/-- nothing has been read at the start of a command -/
theorem fetched_start (h : s.owed = none) : Fetched T idx b s.mem s .empty :=
  ⟨fun n d hd => by simp [Prog.empty] at hd, fun _ _ _ => rfl, fun _ d hd => by simp [h] at hd⟩

/-- no other agent writes an operand line in this cycle -/
def SparesOps (T : ℕ) (idx : BitVec 64 → L) (b : BitVec 64) (i : SysIn L) : Prop :=
  ∀ n < 2 * linesOperand T, Spares (idx (lineAt b n)) i

omit [DecidableEq L] in
/-- the request of a fetching engine -/
theorem fetching_req (h : Running T b c0 s g) (hf : fetching s.own = true) :
    (memReq T s.own).addr = lineAt b g.acks ∧ (memReq T s.own).isWrite = false ∧ g.acks < 2 * linesOperand T ∧
      g.reads.length = g.acks := by
  have hph := h.phase
  have hcases : s.own.state = .fetchA ∨ s.own.state = .fetchB := by simpa [fetching] using hf
  rcases hcases with hs | hs
  · simp only [Phase, hs] at hph
    obtain ⟨hlt, hcnt, hlen, -⟩ := hph
    have hop := opOf_fetchA (T := T) h.base hs (fun _ => 0) (by omega)
    refine ⟨?_, by simp [memReq, hs], by omega, hlen⟩
    rw [hcnt] at hop
    exact congrArg Prod.fst hop
  · simp only [Phase, hs] at hph
    obtain ⟨hge, hlt, hcnt, hlen, -⟩ := hph
    have hop := opOf_fetchB (T := T) h.base hs (fun _ => 0) (by omega)
    refine ⟨?_, by simp [memReq, hs], hlt, hlen⟩
    rw [hcnt, show linesOperand T + (g.acks - linesOperand T) = g.acks by omega] at hop
    exact congrArg Prod.fst hop

/-- a busy engine does not go back to fetching -/
theorem fetching_of_step (hb : busy s.own = true) (hf : fetching (step T idx s i).own = true) :
    fetching s.own = true := by
  rw [step_own] at hf
  cases hs : s.own.state with
  | idle => simp [busy, hs] at hb
  | fetchA => simp [fetching, hs]
  | fetchB => simp [fetching, hs]
  | «calc» =>
    rw [next_calc hs] at hf
    unfold advance at hf
    split_ifs at hf <;> simp [fetching, accumulated, hs] at hf
  | store =>
    simp only [GemmToMem.next, hs] at hf
    split_ifs at hf <;> simp [fetching, hs] at hf

omit [DecidableEq L] in
/-- outside the fetch states nothing is read -/
theorem reads_of_not_fetching (hf : fetching s.own = false) : ((ev T s i).foldl Prog.add g).reads = g.reads := by
  have hnotake : s.own.state ≠ .store → takes (client T) s i = false := fun hne => by
    have hon : onPort s.own = false := by
      simp only [fetching, Bool.or_eq_false_iff, beq_eq_false_iff_ne] at hf
      simp [onPort, hf, hne]
    simp [takes, client, hon]
  by_cases hs : s.own.state = .store
  · unfold ev
    split_ifs <;> rfl
  · simp only [ev, hnotake hs, Bool.false_eq_true, ite_false, List.append_nil]
    split_ifs <;> rfl

/-- **The operands of a command**: every cycle in which nobody writes them keeps `Fetched` -/
theorem fetched_step (h : Running T b c0 s g) (hb : busy s.own = true) (hF : Fetched T idx b m s g)
    (hq : SparesOps T idx b i) : Fetched T idx b m (step T idx s i) ((ev T s i).foldl Prog.add g) := by
  cases hf : fetching s.own with
  | false =>
    have hf' : fetching (step T idx s i).own = true → False := fun hf' => by
      rw [fetching_of_step hb hf'] at hf; exact absurd hf (by decide)
    exact ⟨by rw [reads_of_not_fetching hf]; exact hF.reads, fun h => (hf' h).elim, fun h => (hf' h).elim⟩
  | true =>
    obtain ⟨haddr, hread, hlt, hlen⟩ := fetching_req h hf
    have hkept : ∀ n < 2 * linesOperand T,
        writes s.mem i.others (idx (lineAt b n)) = m (idx (lineAt b n)) := fun n hn => by
      rw [writes_of_ne _ _ _ (hq n hn)]
      exact hF.kept hf n hn
    have hreq : reqOf (client T) (MemReq.access idx) s i = ⟨idx (lineAt b g.acks), (memReq T s.own).data, false⟩ := by
      simp only [reqOf, client, MemReq.access, haddr, hread]
    have hmem : (step T idx s i).mem = writes s.mem i.others := by
      simp [GemmRun.step, PortClient.step, hreq, apply]
    have hst : s.own.state ≠ .store := fun hs => by simp [fetching, hs] at hf
    rcases port_cases (client T) (MemReq.access idx) s i with ⟨ha, ht, -, ho'⟩ | ⟨ha, ht, ho, ho'⟩ | ⟨ha, ht, ho'⟩
    · have he : ev T s i = [.access (opOf (memReq T s.own))] := by simp [ev, ha, ht]
      rw [he]
      refine ⟨hF.reads, fun _ => by rw [hmem]; exact hkept, fun _ d hd => ?_⟩
      rw [GemmRun.step, ho', hreq, Option.some.injEq] at hd
      rw [← hd]
      exact hkept g.acks hlt
    · have he : ev T s i = [.line (portIn s i).respBits] := by simp [ev, ha, ht, hst]
      rw [he]
      refine ⟨fun n d hn => ?_, fun _ => by rw [hmem]; exact hkept, fun _ d hd => ?_⟩
      · simp only [List.foldl_cons, List.foldl_nil, Prog.add] at hn
        rcases Nat.lt_or_ge n g.reads.length with hn' | hn'
        · rw [List.getElem?_append_left hn'] at hn
          exact hF.reads n d hn
        · rw [List.getElem?_append_right hn', List.getElem?_singleton] at hn
          have hn0 : n - g.reads.length = 0 := by
            by_contra hne
            rw [if_neg hne] at hn
            exact absurd hn (by simp)
          rw [if_pos hn0, Option.some.injEq] at hn
          rw [← hn, show n = g.acks by omega]
          exact hF.owed hf _ ho
      · rw [GemmRun.step, ho'] at hd
        exact absurd hd (by simp)
    · have he : ev T s i = [] := by simp [ev, ha, ht]
      rw [he]
      refine ⟨hF.reads, fun _ => by rw [hmem]; exact hkept, fun _ d hd => ?_⟩
      rw [GemmRun.step, ho'] at hd
      exact hF.owed hf d hd

end Operands

/-! ## On the fabric -/

abbrev R : Port → Type
  | .cpu => Unit
  | .gpu => Unit
  | .acc => GemmToMem.Reg

abbrev X : Port → Type
  | .cpu => MemOut
  | .gpu => MemOut
  | .acc => Cmd

/-- the engine on the accelerator port; the CPU and the GPU port are driven freely -/
def agents (T : ℕ) : ∀ p, LineClient (R p) (X p)
  | .cpu => freePort
  | .gpu => freePort
  | .acc => client T

abbrev Reg := Fabric.Reg R
abbrev In := Fabric.In X

def gemm (s : Reg) : GemmToMem.Reg := s.own .acc
def cmd (i : In) : Cmd := i.ext .acc

def reset (a : BitVec 64) (d : BitVec 512) (w : Bool) : Reg where
  split := SplitPrioritizer.reset a d w
  own
    | .cpu => ()
    | .gpu => ()
    | .acc => GemmToMem.reset

section Shared

variable (T : ℕ)

abbrev next : Reg → In → Reg := Fabric.next (agents T)

/-- the engine's request accepted in this cycle -/
def request (s : Reg) (i : In) : List Op :=
  if reqFire s.split (Fabric.splitIn (agents T) s i) .acc then [opOf (memReq T (gemm s))] else []

/-- the response taken by the engine in this cycle -/
def response (s : Reg) (i : In) : List (BitVec 512) :=
  if respFire s.split (Fabric.splitIn (agents T) s i) .acc then [SplitPrioritizer.respBits s.split] else []

/-- the shared memory after the cycles `ins` -/
def memoryAfter (s : Reg) (ins : List In) : BitVec 8 → BitVec 512 :=
  SplitPrioritizer.memory (collect (next T) (Fabric.evs (agents T)) s ins)

/-- no write of the CPU or the GPU port to one of the A and B lines of a command at base `b` is accepted in this cycle -/
def Spared (b : BitVec 64) (s : Reg) (i : In) : Prop :=
  ∀ p ≠ Port.acc, reqFire s.split (Fabric.splitIn (agents T) s i) p = true →
    ((Fabric.splitIn (agents T) s i).req p).isWrite = true →
    ∀ l < T * T / 16, line ((Fabric.splitIn (agents T) s i).req p).addr ≠ line (b + BitVec.ofNat 64 (64 * l))

/-- element `n` of a tile of 16-bit elements at base `b` of the memory `m` -/
def operand (m : BitVec 8 → BitVec 512) (b : BitVec 64) (n : ℕ) : BitVec 16 :=
  lane 16 (m (line (b + BitVec.ofNat 64 (64 * (n / 32))))) (n % 32)

/-- element `n` (row `n / T`, column `n % T`) of `c0 + A·B`, with A and B in the memory `m` -/
def cElem (m : BitVec 8 → BitVec 512) (b : BitVec 64) (c0 : ℕ → BitVec 32) (n : ℕ) : BitVec 32 :=
  BitVec.ofNat 32 ((c0 n).toNat + ∑ k ∈ Finset.range T,
    (operand m b (n / T * T + k)).toNat * (operand m (b + BitVec.ofNat 64 (2 * T * T)) (k * T + n % T)).toNat)

/-- the accesses of one command: the A lines, the B lines, and the lines of the C tile `c` -/
def accesses (b : BitVec 64) (c : ℕ → BitVec 32) : List Op :=
  (List.range (T * T / 32)).map (fun l => (b + BitVec.ofNat 64 (64 * l), none)) ++
  (List.range (T * T / 32)).map (fun l => (b + BitVec.ofNat 64 (2 * T * T + 64 * l), none)) ++
  (List.range (T * T / 16)).map (fun l => (b + BitVec.ofNat 64 (4 * T * T + 64 * l), some (cLine c l)))

end Shared

/-! ## The accesses of a command -/

section Accesses

variable {T : ℕ} {b : BitVec 64} {c0 : ℕ → BitVec 32} {m : BitVec 8 → BitVec 512} {s : Sys (BitVec 8)} {g : Prog}

theorem accesses_eq (hT : TileOk T) (c : ℕ → BitVec 32) :
    accesses T b c = (List.range (2 * linesOperand T + linesC T)).map (opAt T b c) := by
  obtain ⟨hlines, hlc, -, -⟩ := hT.lines
  have hA : T * T / 32 = linesOperand T := rfl
  have hC : T * T / 16 = linesC T := rfl
  rw [show 2 * linesOperand T + linesC T = linesOperand T + (linesOperand T + linesC T) by omega, List.range_add,
    List.range_add, accesses, hA, hC]
  simp only [List.map_append, List.map_map, List.append_assoc]
  congr 1
  · refine List.map_congr_left fun l hl => ?_
    have hl := List.mem_range.1 hl
    simp [opAt, show l < 2 * linesOperand T by omega]
  congr 1
  · refine List.map_congr_left fun l hl => ?_
    have hl := List.mem_range.1 hl
    simp [opAt, show linesOperand T + l < 2 * linesOperand T by omega,
      show 64 * (linesOperand T + l) = 2 * T * T + 64 * l by rw [Nat.mul_assoc 2 T T]; omega]
  · refine List.map_congr_left fun l _ => ?_
    show _ = opAt T b c (linesOperand T + (linesOperand T + l))
    rw [show linesOperand T + (linesOperand T + l) = 2 * linesOperand T + l by omega]
    simp [opAt, show 64 * (2 * linesOperand T + l) = 4 * T * T + 64 * l by rw [Nat.mul_assoc 4 T T]; omega]

/-- the elements of the lines read, as elements of the memory -/
theorem elem_reads (h : Fetched T line b m s g) {n : ℕ} (hn : n < 32 * g.reads.length) :
    elem g.reads n = operand m b n := by
  have hlt : n / 32 < g.reads.length := by omega
  have hd := h.reads (n / 32) g.reads[n / 32] (List.getElem?_eq_getElem hlt)
  rw [elem, operand, List.getD_eq_getElem?_getD, List.getElem?_eq_getElem hlt, Option.getD_some, hd]
  rfl

theorem result_eq (hT : TileOk T) (h : Fetched T line b m s g) (hlen : g.reads.length = 2 * linesOperand T) {n : ℕ}
    (hn : n < T * T) : result T c0 g.reads n = cElem T m b c0 n := by
  obtain ⟨hlines, -, -, -⟩ := hT.lines
  have hge := hT.ge
  have hrow : n / T < T := Nat.div_lt_of_lt_mul hn
  have hcol : n % T < T := Nat.mod_lt _ (by omega)
  rw [result, product, dot, cElem]
  congr 2
  refine Finset.sum_congr rfl fun k hk => ?_
  have hk := Finset.mem_range.1 hk
  have hA : n / T * T + k < T * T := by
    have hmul : (n / T + 1) * T ≤ T * T := Nat.mul_le_mul_right T hrow
    rw [Nat.add_mul] at hmul
    omega
  have hB : k * T + n % T < T * T := by
    have hmul : (k + 1) * T ≤ T * T := Nat.mul_le_mul_right T hk
    rw [Nat.add_mul] at hmul
    omega
  have hshift : ∀ e, operand m b (T * T + e) = operand m (b + BitVec.ofNat 64 (2 * T * T)) e := fun e => by
    have hdiv : (T * T + e) / 32 = T * T / 32 + e / 32 := by omega
    have hmod : (T * T + e) % 32 = e % 32 := by omega
    have hbase : 64 * (T * T / 32 + e / 32) = 2 * T * T + 64 * (e / 32) := by rw [Nat.mul_assoc 2 T T]; omega
    rw [operand, operand, hdiv, hmod, hbase, BitVec.ofNat_add, BitVec.add_assoc]
  rw [elem_reads h (by omega), elem_reads h (by omega), hshift]

/-- what the engine has been granted so far is the beginning of the accesses of its command -/
theorem ops_initial (hT : TileOk T) (h : Running T b c0 s g) (hF : Fetched T line b m s g) :
    g.ops <+: accesses T b (cElem T m b c0) := by
  obtain ⟨hlines, hlc, hlo, -⟩ := hT.lines
  have hle : g.acks + s.owed.toList.length ≤ 2 * linesOperand T + linesC T := by
    have hph := h.phase
    have hoff := h.owed
    have howed : s.owed.toList.length ≤ 1 := by cases s.owed <;> simp
    cases hs : s.own.state with
    | idle =>
      simp only [Phase, hs] at hph
      rw [hoff (by simp [onPort, hs])]
      exact hph.1.le
    | fetchA => simp only [Phase, hs] at hph; omega
    | fetchB => simp only [Phase, hs] at hph; omega
    | «calc» => simp only [Phase, hs] at hph; omega
    | store => simp only [Phase, hs] at hph; omega
  have hop : ∀ n < g.acks + s.owed.toList.length, opAt T b (result T c0 g.reads) n = opAt T b (cElem T m b c0) n := by
    intro n hn
    by_cases hread : n < 2 * linesOperand T
    · exact opAt_read hread _ _
    have hreads : g.reads.length = 2 * linesOperand T := by
      have hph := h.phase
      have howed : s.owed.toList.length ≤ 1 := by cases s.owed <;> simp
      cases hs : s.own.state <;> simp only [Phase, hs] at hph <;> omega
    rw [opAt, opAt, if_neg hread, if_neg hread, cLine_congr fun e he => result_eq hT hF hreads (by omega)]
  have hrange : List.range (g.acks + s.owed.toList.length) <+: List.range (2 * linesOperand T + linesC T) :=
    ⟨_, by rw [← List.range_add, Nat.add_sub_cancel' hle]⟩
  rw [h.ops, List.map_congr_left fun n hn => hop n (List.mem_range.1 hn), accesses_eq hT]
  exact hrange.map _

end Accesses

/-! ## One command in a run of the system -/

section Command

variable {T : ℕ}

abbrev Joint := Fabric.Joint R

/-- reset, with the memory it refines -/
def start (a : BitVec 64) (d : BitVec 512) (w : Bool) : Joint := ⟨reset a d w, ⟨fun _ => 0, none⟩⟩

theorem sound_start (a : BitVec 64) (d : BitVec 512) (w : Bool) : Fabric.Sound (start a d w) :=
  SplitPrioritizer.rel_reset a d w

/-- the engine and the memory as its port sees it -/
def engine (j : Joint) : Sys (BitVec 8) := Fabric.view .acc j

def engineIn (T : ℕ) (j : Joint) (i : In) : SysIn (BitVec 8) := Fabric.viewIn (agents T) .acc j i

theorem engine_step {j : Joint} (h : Fabric.Sound j) (i : In) :
    engine (Fabric.jnext (agents T) j i) = GemmRun.step T line (engine j) (engineIn T j i) :=
  Fabric.view_step (agents T) .acc j i h

theorem sparesOps_of_spared {b : BitVec 64} {j : Joint} {i : In} (hT : TileOk T) (h : Spared T b j.reg i) :
    SparesOps T line b (engineIn T j i) := by
  obtain ⟨-, hlc, -, -⟩ := hT.lines
  exact fun n hn => (Fabric.spares_iff (agents T)).2 fun p hp hf hw => h p hp hf hw n (hn.trans_eq hlc.symm)

/-- what a cycle of the system shows of the engine -/
theorem ev_engine {j : Joint} (h : Fabric.Sound j) (i : In) (g : Prog) :
    ((ev T (engine j) (engineIn T j i)).foldl Prog.add g).ops = g.ops ++ request T j.reg i ∧
    ((ev T (engine j) (engineIn T j i)).foldl Prog.add g).acks = g.acks + (response T j.reg i).length := by
  have ha : accepts (client T) (engine j) (engineIn T j i) = _ := Fabric.accepts_view (agents T) h i .acc
  have ht : takes (client T) (engine j) (engineIn T j i) = _ := Fabric.takes_view (agents T) h i .acc
  have hown : (engine j).own = gemm j.reg := rfl
  rw [ev, ha, ht, hown, request, response]
  cases reqFire j.reg.split (Fabric.splitIn (agents T) j.reg i) .acc <;>
    cases respFire j.reg.split (Fabric.splitIn (agents T) j.reg i) .acc <;>
    by_cases hs : (gemm j.reg).state = .store <;> simp [Prog.add, hs]

/-- a run of the system during which the engine is busy with one command -/
theorem command_run (hT : TileOk T) {b : BitVec 64} {c0 : ℕ → BitVec 32} {m : BitVec 8 → BitVec 512} {j : Joint}
    {g : Prog} {ins : List In} (hsound : Fabric.Sound j) (h : Running T b c0 (engine j) g)
    (hF : Fetched T line b m (engine j) g) (hbusy : Always (next T) (fun s _ => busy (gemm s) = true) j.reg ins)
    (hq : Always (next T) (Spared T b) j.reg ins) :
    ∃ g', Running T b c0 (engine (run (Fabric.jnext (agents T)) j ins)) g' ∧
      Fetched T line b m (engine (run (Fabric.jnext (agents T)) j ins)) g' ∧
      g'.ops = g.ops ++ collect (next T) (request T) j.reg ins ∧
      g'.acks = g.acks + (collect (next T) (response T) j.reg ins).length := by
  induction ins generalizing j g with
  | nil => exact ⟨g, h, hF, by simp, rfl⟩
  | cons i ins ih =>
    obtain ⟨hops, hacks⟩ := ev_engine (T := T) hsound i g
    have hstep := engine_step (T := T) hsound i
    have hR := running_step line (engineIn T j i) hT h hbusy.1
    have hF' := fetched_step h hbusy.1 hF (sparesOps_of_spared hT hq.1)
    rw [← hstep] at hR hF'
    obtain ⟨g', hR', hF'', hops', hacks'⟩ := ih (Fabric.sound_step (agents T) j i hsound) hR hF' hbusy.2 hq.2
    refine ⟨g', hR', hF'', ?_, ?_⟩
    · rw [hops', hops, List.append_assoc]
      rfl
    · rw [hacks', hacks, Nat.add_assoc, collect_cons, List.length_append]
      rfl

/-- what holds in every state: the pace of the stack, and that an engine off the port is owed nothing -/
structure Reached (j : Joint) : Prop where
  sound : Fabric.Sound j
  paced : HBM3Stack.Paced j.reg.split.hbm
  off : onPort (gemm j.reg) = false → (engine j).owed = none

theorem reached_step {j : Joint} (h : Reached j) (i : In) : Reached (Fabric.jnext (agents T) j i) where
  sound := Fabric.sound_step (agents T) j i h.sound
  paced := HBM3Stack.paced_next _ _ h.paced
  off := by
    have hoff : onPort (GemmRun.step T line (engine j) (engineIn T j i)).own = false → _ := off_step h.off
    rwa [← engine_step h.sound] at hoff

theorem reached_run (T : ℕ) (a : BitVec 64) (d : BitVec 512) (w : Bool) (ins : List In) :
    Reached (run (Fabric.jnext (agents T)) (start a d w) ins) :=
  run_inv Reached (fun _ i h _ => reached_step h i) ⟨sound_start a d w, HBM3Stack.paced_reset _ a d w, fun _ => rfl⟩
    (always_true _ _ ins)

/-- a command that has just been accepted -/
theorem command_start (hT : TileOk T) {j : Joint} {i : In} (h : Reached j) (hcmd : cmdFire (gemm j.reg) (cmd i) = true) :
    Running T (cmd i).data (gemm j.reg).cTile (engine (Fabric.jnext (agents T) j i)) .empty ∧
      busy (gemm (Fabric.jnext (agents T) j i).reg) = true := by
  have hidle : (gemm j.reg).state = .idle := by simpa [cmdFire, cmdReady] using ((Bool.and_eq_true _ _).mp hcmd).2
  have hoff := h.off (by simp [onPort, hidle])
  have hstart := running_start line (s := engine j) (i := engineIn T j i) hT hcmd hoff
  rw [← engine_step h.sound] at hstart
  refine ⟨hstart, ?_⟩
  have hnext : gemm (Fabric.jnext (agents T) j i).reg =
      GemmToMem.next T (gemm j.reg) (cmd i) (Fabric.portIn (agents T) j.reg i .acc) := rfl
  simp [hnext, GemmToMem.next, busy, hidle, hcmd]

theorem memoryAfter_eq (a : BitVec 64) (d : BitVec 512) (w : Bool) (ins : List In) :
    memoryAfter T (reset a d w) ins =
      (run (Fabric.jnext (agents T)) (start a d w) ins).mem.mem := by
  rw [Fabric.run_mem, after_mem]
  rfl

/-- the C tile is clear until the first command -/
theorem clear_run {s : Reg} {ins : List In} (hidle : (gemm s).state = .idle) (hc : (gemm s).cTile = fun _ => 0)
    (h : Always (next T) (fun s i => cmdFire (gemm s) (cmd i) = false) s ins) :
    (gemm (run (next T) s ins)).cTile = fun _ => 0 := by
  have hrun := run_inv (fun s => (gemm s).state = .idle ∧ (gemm s).cTile = fun _ => 0) (fun s i hs hf => by
    have hnext : gemm (next T s i) = GemmToMem.next T (gemm s) (cmd i) (Fabric.portIn (agents T) s i .acc) := rfl
    rw [hnext]
    simp only [GemmToMem.next, hs.1, hf, Bool.false_eq_true, ite_false, true_and]
    exact hs.2) ⟨hidle, hc⟩ h
  exact hrun.2

/-- **One GEMM command in shared memory.** In any mode and with any traffic on the CPU and the GPU port, let the engine
accept a command with base `b` after the run `pre` (cycle `i₀`), and let it be busy throughout `ins`, while nobody
writes the A and B lines. Then the requests accepted from the engine are, in order, the beginning of: the reads of A, the
reads of B, and the writes of `c0 + A·B`; with A and B as in the memory when the command starts and `c0` the C tile
as it was. If `busy` has fallen, it is all of them, and each has been answered. Before the first command `c0` is zero. -/
theorem command_exact (hT : TileOk T) (a : BitVec 64) (d : BitVec 512) (w : Bool) (pre : List In) (i₀ : In)
    (ins : List In) (hcmd : cmdFire (gemm (run (next T) (reset a d w) pre)) (cmd i₀) = true)
    (hbusy : Always (next T) (fun s _ => busy (gemm s) = true) (run (next T) (reset a d w) (pre ++ [i₀])) ins)
    (hq : Always (next T) (Spared T (cmd i₀).data) (run (next T) (reset a d w) (pre ++ [i₀])) ins) :
    let b := (cmd i₀).data
    let c0 := (gemm (run (next T) (reset a d w) pre)).cTile
    let m := memoryAfter T (reset a d w) (pre ++ [i₀])
    let s := run (next T) (reset a d w) (pre ++ [i₀])
    collect (next T) (request T) s ins <+: accesses T b (cElem T m b c0) ∧
    (busy (gemm (run (next T) s ins)) = false →
      collect (next T) (request T) s ins = accesses T b (cElem T m b c0) ∧
      (collect (next T) (response T) s ins).length = (accesses T b (cElem T m b c0)).length) ∧
    (Always (next T) (fun s i => cmdFire (gemm s) (cmd i) = false) (reset a d w) pre → c0 = fun _ => 0) := by
  intro b c0 m s
  set j₀ := run (Fabric.jnext (agents T)) (start a d w) pre
  set j := Fabric.jnext (agents T) j₀ i₀ with hj
  have hrun : run (Fabric.jnext (agents T)) (start a d w) (pre ++ [i₀]) = j := run_snoc _ _ _ _
  have hs₀ : run (next T) (reset a d w) pre = j₀.reg := (Fabric.run_reg (agents T) (start a d w) pre).symm
  have hs : s = j.reg := by rw [← hrun]; exact (Fabric.run_reg (agents T) (start a d w) _).symm
  have hm : m = j.mem.mem := by rw [← hrun]; exact memoryAfter_eq a d w _
  have hreached : Reached j₀ := reached_run T a d w pre
  have hsound : Fabric.Sound j := Fabric.sound_step (agents T) j₀ i₀ hreached.sound
  rw [hs₀] at hcmd
  have hstart : Running T b (gemm j₀.reg).cTile (engine j) .empty := (command_start hT hreached hcmd).1
  have hF : Fetched T line b m (engine j) .empty := by
    rw [hm]
    exact fetched_start (owed_of_empty hstart)
  have hc0 : c0 = (gemm j₀.reg).cTile := congrArg (fun s => (gemm s).cTile) hs₀
  change Always _ _ s ins at hbusy hq
  rw [hs] at hbusy hq ⊢
  obtain ⟨g, hR, hF', hops, hacks⟩ := command_run hT hsound hstart hF hbusy hq
  rw [← hc0] at hR
  have hops : g.ops = collect (next T) (request T) j.reg ins := hops
  have hacks : g.acks = (collect (next T) (response T) j.reg ins).length := hacks.trans (Nat.zero_add _)
  have hpre : g.ops <+: accesses T b (cElem T m b c0) := ops_initial hT hR hF'
  have hlen : (accesses T b (cElem T m b c0)).length = 2 * linesOperand T + linesC T := by
    rw [accesses_eq hT, List.length_map, List.length_range]
  refine ⟨hops ▸ hpre, fun hdone => ?_, fun hfirst => clear_run rfl rfl hfirst⟩
  have hdone : busy (engine (run (Fabric.jnext (agents T)) j ins)).own = false := by
    rw [← Fabric.run_reg (agents T) j ins] at hdone; exact hdone
  obtain ⟨hall, hacked, -⟩ := running_done hR hdone
  refine ⟨hops ▸ hpre.eq_of_length ?_, by rw [← hacks, hacked, hlen]⟩
  rw [hall, List.length_map, List.length_range, hlen]

end Command

/-! ## A command runs to its end -/

section Progress

variable {T : ℕ} {b : BitVec 64} {c0 : ℕ → BitVec 32} {j : Joint} {g : Prog} {i : In}

/-- the mode does not put the CPU first, and the CPU and the GPU port take their responses -/
structure Fair (i : In) : Prop where
  mode : i.mode ≠ SplitPrioritizer.modeGaming ∧ i.mode ≠ SplitPrioritizer.modeAi
  cpu : (i.ext .cpu).respReady = true
  gpu : (i.ext .gpu).respReady = true

theorem prompt (h : Reached j) (hi : Fair i) :
    SplitPrioritizer.Prompt j.reg.split (Fabric.splitIn (agents T) j.reg i) := by
  intro p hv
  cases p with
  | cpu => exact hi.cpu
  | gpu => exact hi.gpu
  | acc =>
    -- the engine is on the port while it is owed a response
    have howed : (engine j).owed = some (SplitPrioritizer.respBits j.reg.split) := owed_eq_some.2 (h.sound.respValid hv)
    rw [← Bool.not_eq_false]
    exact fun hoff => absurd ((h.off hoff).symm.trans howed) (by simp)

/-- the prioritizer serves the engine in time -/
theorem served (h : Reached j) (hi : Fair i) :
    GemmPace.Served (maxWait false) slot (engine j) (engineIn T j i)
      (wait false j.reg.split .acc) (wait false (Fabric.jnext (agents T) j i).reg.split .acc)
      (lag j.reg.split.hbm) (lag (Fabric.jnext (agents T) j i).reg.split.hbm) := by
  have hport : portIn (engine j) (engineIn T j i) = Fabric.portIn (agents T) j.reg i .acc :=
    Fabric.portIn_view (agents T) h.sound i .acc
  refine ⟨fun hon hr => ?_, fun ho hv => ?_, SplitPrioritizer.wait_le_maxWait _ _ _, HBM3Stack.lag_lt_slot _⟩
  · rw [hport] at hr
    have hmode : SplitPrioritizer.cpuPriority (Fabric.splitIn (agents T) j.reg i) = false := by
      simp [SplitPrioritizer.cpuPriority, Fabric.splitIn, hi.mode]
    have hfire : reqFire j.reg.split (Fabric.splitIn (agents T) j.reg i) .acc = false :=
      (congrArg _ hr).trans (Bool.and_false _)
    exact SplitPrioritizer.wait_next h.paced (by decide) hmode hon hfire ((prompt h hi).respReady h.sound.tags)
  · rw [hport] at hv
    exact SplitPrioritizer.lag_closer h.sound h.paced ho hv

/-- a command is in progress, its end at most `k` cycles away -/
structure Underway (T : ℕ) (b : BitVec 64) (c0 : ℕ → BitVec 32) (k : ℕ) (j : Joint) : Prop where
  reached : Reached j
  busy : busy (gemm j.reg) = true
  left : ∃ g, Running T b c0 (engine j) g ∧ GemmPace.commandLeft T (maxWait false) slot (wait false j.reg.split .acc)
    (lag j.reg.split.hbm) (engine j) g ≤ k

theorem underway_step (hT : TileOk T) {k : ℕ} (h : Underway T b c0 k j) (hi : Fair i)
    (hn : GemmToMem.busy (gemm (Fabric.jnext (agents T) j i).reg) = true) :
    ∃ k' < k, Underway T b c0 k' (Fabric.jnext (agents T) j i) := by
  obtain ⟨hreached, hb, g, hR, hle⟩ := h
  have hstep := engine_step (T := T) hreached.sound i
  have hR' := running_step line (engineIn T j i) hT hR hb
  have hn' : GemmToMem.busy (engine (Fabric.jnext (agents T) j i)).own = true := hn
  rw [hstep] at hn'
  have hcloser := GemmPace.closer hT hR hb hn' (served hreached hi)
  rw [← hstep] at hR' hcloser
  exact ⟨_, hcloser.trans_le hle, reached_step hreached i, hn, _, hR', le_rfl⟩

/-- **In the modes without CPU priority every command runs to its end**, whatever the CPU and the GPU port ask for, as long as
they take their responses. -/
theorem command_ends (hT : TileOk T) (a : BitVec 64) (d : BitVec 512) (w : Bool) (pre : List In) (i₀ : In) (ins : List In)
    (hcmd : cmdFire (gemm (run (next T) (reset a d w) pre)) (cmd i₀) = true) (hins : ∀ i ∈ ins, Fair i)
    (hlen : GemmPace.maxCommand T (maxWait false) slot < ins.length) :
    let s := run (next T) (reset a d w) (pre ++ [i₀])
    ∃ during rest, ins = during ++ rest ∧ Always (next T) (fun s _ => busy (gemm s) = true) s during ∧
      busy (gemm (run (next T) s during)) = false := by
  intro s
  set j₀ := run (Fabric.jnext (agents T)) (start a d w) pre
  have hs₀ : run (next T) (reset a d w) pre = j₀.reg := (Fabric.run_reg (agents T) (start a d w) pre).symm
  have hs : s = (Fabric.jnext (agents T) j₀ i₀).reg := by rw [show s = _ from run_snoc _ _ _ _, hs₀]; rfl
  rw [hs₀] at hcmd
  have hreached := reached_run T a d w pre
  obtain ⟨hR, hb⟩ := command_start hT hreached hcmd
  have hunder : Underway T (cmd i₀).data (gemm j₀.reg).cTile (GemmPace.maxCommand T (maxWait false) slot)
      (Fabric.jnext (agents T) j₀ i₀) :=
    ⟨reached_step hreached i₀, hb, _, hR,
      GemmPace.commandLeft_le hT (SplitPrioritizer.wait_le_maxWait _ _ _) (HBM3Stack.lag_lt_slot _) _ _⟩
  obtain ⟨during, rest, rfl, -, hwork, hidle⟩ := finishes (D := fun j : Joint => busy (gemm j.reg) = false)
    (Underway T (cmd i₀).data (gemm j₀.reg).cTile)
    (fun _ _ _ h hi hn => underway_step hT h hi (Bool.eq_true_of_not_eq_false hn)) hunder
    (always_imp (fun i hi _ _ => hins i hi) (always_true (Fabric.jnext (agents T)) _ ins)) hlen
  have hbusy : Always (Fabric.jnext (agents T)) (fun j _ => busy (gemm j.reg) = true) _ during :=
    always_imp (fun _ _ _ (h : ∃ k, Underway _ _ _ k _) => h.elim fun _ h => h.busy) hwork
  rw [Fabric.run_reg] at hidle
  rw [hs]
  exact ⟨during, rest, rfl, (Fabric.always_reg (agents T) (P := fun s _ => busy (gemm s) = true)).1 hbusy, hidle⟩

end Progress

/-- a port that asks for `q`, or for nothing, and takes its responses -/
def asks : Option MemReq → MemOut
  | none => ⟨false, ⟨0, 0, false⟩, true⟩
  | some q => ⟨true, q, true⟩

def driven (cpu gpu : Option MemReq) (c : Cmd) : In where
  ext
    | .cpu => asks cpu
    | .gpu => asks gpu
    | .acc => c
  mode := 0

/-- the CPU port stores the first row of A, 3 and 2, and the GPU port two rows of B, 5 and 7 in the first column -/
def filling : In := driven (some ⟨0x40, 0x20003, true⟩) (some ⟨0xC0, 7 <<< 128 ||| 5, true⟩) ⟨false, 0⟩

def ordering : In := driven none none ⟨true, 0x40⟩

/-- the CPU port stores to another line, and the GPU port reads the first line of A -/
def traffic : In := driven (some ⟨0x1000, 9, true⟩) (some ⟨0x40, 0, false⟩) ⟨false, 0⟩

theorem spared_traffic (s : Reg) : Spared 8 0x40 s traffic := by
  intro p hp hf hw
  cases p with
  | cpu =>
    show ∀ l < 4, line 0x1000 ≠ line (0x40 + BitVec.ofNat 64 (64 * l))
    decide
  | gpu => exact absurd (show false = true from hw) Bool.false_ne_true
  | acc => exact absurd rfl hp

/-- a first command on an 8 × 8 tile, against traffic on both other ports: it runs to its end and stores the product -/
theorem command_exact_first :
    let before := List.replicate 16 filling
    let started := run (next 8) (reset 0 0 false) (before ++ [ordering])
    let m := memoryAfter 8 (reset 0 0 false) (before ++ [ordering])
    cmdFire (gemm (run (next 8) (reset 0 0 false) before)) (cmd ordering) = true ∧
      ∃ during rest, List.replicate 841 traffic = during ++ rest ∧ busy (gemm (run (next 8) started during)) = false ∧
        collect (next 8) (request 8) started during = accesses 8 0x40 (cElem 8 m 0x40 fun _ => 0) ∧
        cElem 8 m 0x40 (fun _ => 0) 0 = 29 := by
  intro before started m
  have hcmd : cmdFire (gemm (run (next 8) (reset 0 0 false) before)) (cmd ordering) = true := by decide +kernel
  have htraffic : ∀ i ∈ List.replicate 841 traffic, i = traffic := fun i hi => List.eq_of_mem_replicate hi
  obtain ⟨during, rest, hins, hbusy, hidle⟩ := command_ends (T := 8) (by decide) 0 0 false before ordering
    (List.replicate 841 traffic) hcmd (fun i hi => htraffic i hi ▸ ⟨by decide, rfl, rfl⟩) (by decide +kernel)
  rw [hins] at htraffic
  have hspared : Always (next 8) (Spared 8 0x40) started during :=
    always_imp (fun i hi s _ => htraffic i (List.mem_append_left _ hi) ▸ spared_traffic s) (always_true _ _ _)
  obtain ⟨-, hdone, hfirst⟩ := command_exact (T := 8) (by decide) 0 0 false before ordering during hcmd hbusy hspared
  refine ⟨hcmd, during, rest, hins, hidle, ?_, by decide +kernel⟩
  rw [(hdone hidle).1, hfirst (by decide +kernel)]
  rfl

end AegisSoc.GemmShared
