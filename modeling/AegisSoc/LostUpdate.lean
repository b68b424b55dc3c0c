/-
Stores of several agents to the shared memory: word stores of the CPU through `CoreMemToHBM`, strobed single-beat AXI
stores through `AXIToMemReq`, and full-line stores on the accelerator port, all through `SplitPrioritizer`.

A store narrower than a line is a line read and a line write, arbitrated one by one, and nothing keeps another port's
write out in between. Each store takes effect when its line write is accepted; that order is the only candidate for a
serial order.
- `ledger_step`: in a cycle in which no other port writes the line of a store between its read and its write-back
  (`Clean`), the memory is the stores applied one after another in commit order, and each agent's commits follow its
  issues;
- `serial_of_clean`: so in every clean run, once every store is acknowledged, the array holds the result of a serial
  order that respects each agent's issue order.
Witness `update_lost`: an accelerator line store acknowledged during a CPU word store is lost in all the bytes the CPU
store does not address, and no serial order explains the result.
-/
import AegisSoc.Memory.Fabric
import AegisSoc.Cpu.StoreExact
import AegisSoc.Bridge.AXIToMemReq

namespace AegisSoc.LostUpdate

open Machine PortMemory PortClient SplitPrioritizer

/-! ## The three agents -/

abbrev R : Port → Type
  | .cpu => CoreMemToHBM.Reg
  | .gpu => AXIToMemReq.Reg
  | .acc => Unit

abbrev X : Port → Type
  | .cpu => WordOut
  | .gpu => AxiOut
  | .acc => MemOut

def agents : ∀ p, LineClient (R p) (X p)
  | .cpu => CoreMemToHBM.client
  | .gpu => AXIToMemReq.client
  | .acc => freePort

abbrev Reg := Fabric.Reg R
abbrev In := Fabric.In X

def cpu (s : Reg) : CoreMemToHBM.Reg := s.own .cpu
def gpu (s : Reg) : AXIToMemReq.Reg := s.own .gpu

/-- a store as its agent issues it -/
inductive Store where
  | word (q : WordMemReq)
  | strobed (w : AXIToMemReq.AxiStore)
  | full (q : MemReq)
deriving DecidableEq

def Store.line : Store → BitVec 8
  | .word q => SplitPrioritizer.line q.addr
  | .strobed w => SplitPrioritizer.line w.addr
  | .full q => SplitPrioritizer.line q.addr

/-- the line after the store: its own bytes replaced -/
def Store.merge : Store → BitVec 512 → BitVec 512
  | .word q => CoreMemToHBM.storeBytes q
  | .strobed w => AXIToMemReq.strobe w.wdata w.wmask
  | .full q => fun _ => q.data

def Store.apply (m : BitVec 8 → BitVec 512) (st : Store) : BitVec 8 → BitVec 512 :=
  Function.update m st.line (st.merge (m st.line))

/-- the inputs of the two adapters in this cycle -/
def cpuIn (s : Reg) (i : In) : CoreMemToHBM.In := ⟨i.ext .cpu, Fabric.portIn agents s i .cpu⟩
def gpuIn (s : Reg) (i : In) : AXIToMemReq.In := ⟨i.ext .gpu, Fabric.portIn agents s i .gpu⟩

/-- a full-line store is issued and takes effect in the same cycle -/
def accStore (s : Reg) (i : In) : List MemReq :=
  if reqFire s.split (Fabric.splitIn agents s i) .acc && (i.ext .acc).req.isWrite then [(i.ext .acc).req] else []

/-- the store an agent issues in this cycle -/
def issues (s : Reg) (i : In) : Port → List Store
  | .cpu => (CoreMemToHBM.issued (cpu s) (cpuIn s i)).map .word
  | .gpu => (AXIToMemReq.issued (gpu s) (gpuIn s i)).map .strobed
  | .acc => (accStore s i).map .full

/-- the store whose line write is accepted in this cycle -/
def commits (s : Reg) (i : In) : Port → List Store
  | .cpu => (CoreMemToHBM.committed (cpu s) (cpuIn s i)).map .word
  | .gpu => (AXIToMemReq.committed (gpu s) (gpuIn s i)).map .strobed
  | .acc => (accStore s i).map .full

/-- the stores issued and not yet committed -/
def waiting (s : Reg) : Port → List Store
  | .cpu => (CoreMemToHBM.inFlight (cpu s)).map .word
  | .gpu => (AXIToMemReq.inFlight (gpu s)).map .strobed
  | .acc => []

/-- the commits of one cycle with their ports -/
def commit (s : Reg) (i : In) : List (Port × Store) :=
  [Port.cpu, .gpu, .acc].flatMap fun p => (commits s i p).map fun st => (p, st)

/-- the stores of port `p` in a list -/
def of (p : Port) (l : List (Port × Store)) : List Store := (l.filter fun x => x.1 = p).map Prod.snd

/-! ## Clean cycles -/

/-- no port other than `p` has a write to the line of `a` accepted in this cycle -/
def Keeps (p : Port) (a : BitVec 64) (s : Reg) (i : In) : Prop :=
  ∀ p', p' ≠ p → reqFire s.split (Fabric.splitIn agents s i) p' = true →
    ((Fabric.splitIn agents s i).req p').isWrite = true →
    SplitPrioritizer.line ((Fabric.splitIn agents s i).req p').addr ≠ SplitPrioritizer.line a

/-- nobody writes a line that is being read, merged and written back -/
structure Clean (s : Reg) (i : In) : Prop where
  cpu : (cpu s).isWrReg = true → (cpu s).state = .rdresp ∨ (cpu s).state = .wrreq → Keeps .cpu (cpu s).addrReg s i
  gpu : (gpu s).state = .wldrsp ∨ (gpu s).state = .wreq → (gpu s).wmask ≠ AXIToMemReq.allOnes →
    Keeps .gpu (gpu s).addr s i

instance (p : Port) (a : BitVec 64) (s : Reg) (i : In) : Decidable (Keeps p a s i) := by
  unfold Keeps; infer_instance

instance (s : Reg) (i : In) : Decidable (Clean s i) :=
  decidable_of_iff
    (((LostUpdate.cpu s).isWrReg = true → (LostUpdate.cpu s).state = .rdresp ∨ (LostUpdate.cpu s).state = .wrreq →
        Keeps .cpu (LostUpdate.cpu s).addrReg s i) ∧
      ((LostUpdate.gpu s).state = .wldrsp ∨ (LostUpdate.gpu s).state = .wreq →
        (LostUpdate.gpu s).wmask ≠ AXIToMemReq.allOnes → Keeps .gpu (LostUpdate.gpu s).addr s i))
    ⟨fun h => ⟨h.1, h.2⟩, fun h => ⟨h.cpu, h.gpu⟩⟩

/-- the CPU's stores are word stores inside one line -/
def Words (_ : Reg) (i : In) : Prop :=
  (i.ext .cpu).reqValid = true → (i.ext .cpu).req.isWrite = true →
    (i.ext .cpu).req.size = 0 ∧ CoreMemToHBM.offset (i.ext .cpu).req.addr + 4 ≤ 64

instance (s : Reg) (i : In) : Decidable (Words s i) := by
  unfold Words; infer_instance

theorem line_lineBase (a : BitVec 64) : line (CoreMemToHBM.lineBase a) = line a := by
  apply BitVec.eq_of_getLsbD_eq
  intro k hk
  simp only [line, CoreMemToHBM.lineBase, BitVec.getLsbD_extractLsb', BitVec.getLsbD_append]
  simp [show ¬ 6 + k < 6 by omega, show 6 + k - 6 = k by omega, show k < 58 by omega]

/-! ## Each agent commits in issue order -/

theorem waiting_step (s : Reg) (i : In) (hw : (cpu s).state = .wrreq → (cpu s).isWrReg = true) (p : Port) :
    waiting s p ++ issues s i p = commits s i p ++ waiting (Fabric.next agents s i) p := by
  cases p with
  | cpu =>
    have h := CoreMemToHBM.inFlight_next (cpu s) (cpuIn s i) hw
    simp only [waiting, issues, commits, ← List.map_append, h]
    rfl
  | gpu =>
    have h := AXIToMemReq.inFlight_next (gpu s) (gpuIn s i)
    simp only [waiting, issues, commits, ← List.map_append, h]
    rfl
  | acc => simp [waiting, issues, commits]

theorem of_append (p : Port) (l l' : List (Port × Store)) : of p (l ++ l') = of p l ++ of p l' := by
  simp [of]

theorem of_commit (s : Reg) (i : In) (p : Port) : of p (commit s i) = commits s i p := by
  have hown : ∀ (q : Port) (l : List Store), of p (l.map fun st => (q, st)) = if q = p then l else [] := fun q l => by
    by_cases hq : q = p <;> simp [of, hq, List.filter_map, Function.comp_def]
  simp only [commit, List.flatMap_cons, List.flatMap_nil, List.append_nil, of_append, hown]
  cases p <;> simp

/-! ## The memory follows the commits -/

abbrev Joint := Fabric.Joint R

/-- the two adapters with the memory as their ports see it -/
def cpuView (j : Joint) : StoreExact.Sys (BitVec 8) := Fabric.view .cpu j
def gpuView (j : Joint) : AXIToMemReq.Sys (BitVec 8) := Fabric.view .gpu j

theorem cpuView_step {j : Joint} (h : Fabric.Sound j) (i : In) : cpuView (Fabric.jnext agents j i) =
    StoreExact.step line (cpuView j) (Fabric.viewIn agents .cpu j i) :=
  Fabric.view_step agents .cpu j i h

theorem gpuView_step {j : Joint} (h : Fabric.Sound j) (i : In) : gpuView (Fabric.jnext agents j i) =
    AXIToMemReq.step line (gpuView j) (Fabric.viewIn agents .gpu j i) :=
  Fabric.view_step agents .gpu j i h

theorem quiet_cpu {j : Joint} {i : In} (h : Clean j.reg i) :
    StoreExact.Quiet line (cpuView j) (Fabric.viewIn agents .cpu j i) := by
  intro hw hs
  rw [StoreExact.ownLine, line_lineBase]
  exact (Fabric.spares_iff agents).2 (h.cpu hw hs)

theorem quiet_gpu {j : Joint} {i : In} (h : Clean j.reg i) :
    AXIToMemReq.Quiet line (gpuView j) (Fabric.viewIn agents .gpu j i) := by
  intro hs hm
  exact (Fabric.spares_iff agents).2 (h.gpu hs hm)

/-- the stores `issued` and the order `order` in which they took effect -/
structure Ledger (j : Joint) (issued : Port → List Store) (order : List (Port × Store)) : Prop where
  sound : Fabric.Sound j
  fresh : StoreExact.Fresh line (cpuView j)
  held : AXIToMemReq.Held line (gpuView j)
  words : (cpu j.reg).isWrReg = true → (cpu j.reg).state ≠ .idle → (cpu j.reg).sizeReg = 0
  inOrder : ∀ p, issued p = of p order ++ waiting j.reg p
  mem : j.mem.mem = order.foldl (fun m x => x.2.apply m) fun _ => 0

theorem words_step {s : Reg} {i : In} (hw : Words s i)
    (h : (cpu s).isWrReg = true → (cpu s).state ≠ .idle → (cpu s).sizeReg = 0) :
    (cpu (Fabric.next agents s i)).isWrReg = true → (cpu (Fabric.next agents s i)).state ≠ .idle →
      (cpu (Fabric.next agents s i)).sizeReg = 0 := by
  have hnext : cpu (Fabric.next agents s i) = CoreMemToHBM.next (cpu s) (cpuIn s i) := rfl
  rw [hnext]
  cases hs : (cpu s).state with
  | idle =>
    simp only [CoreMemToHBM.next, hs]
    split_ifs with hf
    · intro hwr _
      have hv : (i.ext .cpu).reqValid = true := ((Bool.and_eq_true _ _).mp hf).1
      exact (hw hv hwr).1
    · intro _ hne
      exact absurd hs hne
  | _ =>
    simp only [CoreMemToHBM.next, hs]
    split_ifs <;> intro hwr _ <;> exact h hwr (by simp [hs])

theorem commits_of_not_fire {s : Reg} {i : In} {p : Port}
    (h : reqFire s.split (Fabric.splitIn agents s i) p = false) : commits s i p = [] := by
  cases p with
  | cpu =>
    have hf : CoreMemToHBM.hbmReqFire (cpu s) (cpuIn s i) = false := h
    simp [commits, CoreMemToHBM.committed, hf]
  | gpu =>
    have hf : AXIToMemReq.memReqFire (gpu s) (gpuIn s i) = false := h
    simp [commits, AXIToMemReq.committed, hf]
  | acc => simp [commits, accStore, h]

section Commit

variable {j : Joint} {i : In} {issued : Port → List Store} {order : List (Port × Store)}

theorem commit_cpu (h : Ledger j issued order) (hf : reqFire j.reg.split (Fabric.splitIn agents j.reg i) .cpu = true) :
    apply j.mem.mem (access ((Fabric.splitIn agents j.reg i).req .cpu)) =
      (commits j.reg i .cpu).foldl Store.apply j.mem.mem := by
  have hreq : (Fabric.splitIn agents j.reg i).req .cpu = CoreMemToHBM.hbmReq (cpu j.reg) := rfl
  have hfire : CoreMemToHBM.hbmReqFire (cpu j.reg) (cpuIn j.reg i) = true := hf
  have hvalid : CoreMemToHBM.hbmReqValid (cpu j.reg) = true := ((Bool.and_eq_true _ _).mp hfire).1
  simp only [CoreMemToHBM.hbmReqValid, Bool.or_eq_true, beq_iff_eq] at hvalid
  rcases hvalid with hs | hs
  · have hr := CoreMemToHBM.hbmReq_rdreq hs
    simp [commits, CoreMemToHBM.committed, hfire, hreq, hr, CoreMemToHBM.readReq, access, MemReq.access, apply]
  · have hr : CoreMemToHBM.hbmReq (cpu j.reg) =
        CoreMemToHBM.writeReq (CoreMemToHBM.captured (cpu j.reg)) (cpu j.reg).lineReg :=
      CoreMemToHBM.hbmReq_wrreq h.fresh.off hs
    have hheld := h.fresh.held
    rw [StoreExact.Held, show (cpuView j).own.state = .wrreq from hs] at hheld
    have hline : (cpu j.reg).lineReg = j.mem.mem (line (cpu j.reg).addrReg) := by
      rw [← line_lineBase]; exact hheld.2.1
    have hsize : (CoreMemToHBM.captured (cpu j.reg)).size = 0 := h.words hheld.1 (by simp [hs])
    have hstore := (CoreMemToHBM.storeLine_eq_iff (CoreMemToHBM.captured (cpu j.reg)) (cpu j.reg).lineReg).2
      (CoreMemToHBM.noSpill_word hsize _)
    simp only [commits, CoreMemToHBM.committed, hfire, hreq, hr, CoreMemToHBM.writeReq, Bool.and_self, ite_true,
      List.map_cons, List.map_nil, List.foldl_cons, List.foldl_nil, Store.apply, Store.line, Store.merge, access,
      MemReq.access, apply, hstore, line_lineBase]
    rw [hline]
    rfl

theorem commit_gpu (h : Ledger j issued order) (hf : reqFire j.reg.split (Fabric.splitIn agents j.reg i) .gpu = true) :
    apply j.mem.mem (access ((Fabric.splitIn agents j.reg i).req .gpu)) =
      (commits j.reg i .gpu).foldl Store.apply j.mem.mem := by
  have hreq : (Fabric.splitIn agents j.reg i).req .gpu = AXIToMemReq.memReq (gpu j.reg) := rfl
  have hfire : AXIToMemReq.memReqFire (gpu j.reg) (gpuIn j.reg i) = true := hf
  have hvalid : AXIToMemReq.memReqValid (gpu j.reg) = true := ((Bool.and_eq_true _ _).mp hfire).1
  simp only [AXIToMemReq.memReqValid, Bool.or_eq_true, beq_iff_eq] at hvalid
  by_cases hs : (gpu j.reg).state = .wreq
  · have hheld := h.held
    rw [AXIToMemReq.Held, show (gpuView j).own.state = .wreq from hs] at hheld
    have hr := AXIToMemReq.written_eq hs hheld.1
    simp only [commits, AXIToMemReq.committed, hfire, hreq, hr, Bool.and_self, ite_true, List.map_cons, List.map_nil,
      List.foldl_cons, List.foldl_nil, Store.apply, Store.line, Store.merge, access, MemReq.access, apply]
    rfl
  · have hread : (AXIToMemReq.memReq (gpu j.reg)).isWrite = false := by simp [AXIToMemReq.memReq, hs]
    simp [commits, AXIToMemReq.committed, hreq, hread, access, MemReq.access, apply]

theorem commit_acc (hf : reqFire j.reg.split (Fabric.splitIn agents j.reg i) .acc = true) :
    apply j.mem.mem (access ((Fabric.splitIn agents j.reg i).req .acc)) =
      (commits j.reg i .acc).foldl Store.apply j.mem.mem := by
  have hreq : (Fabric.splitIn agents j.reg i).req .acc = (i.ext .acc).req := rfl
  cases hw : (i.ext .acc).req.isWrite <;>
    simp [commits, accStore, hf, hreq, hw, access, MemReq.access, apply, Store.apply, Store.line, Store.merge]

/-- **The memory changes by the committed store, applied to the memory as it is.** -/
theorem mem_step (h : Ledger j issued order) :
    (Fabric.jnext agents j i).mem.mem = (commit j.reg i).foldl (fun m x => x.2.apply m) j.mem.mem := by
  have hmem : (Fabric.jnext agents j i).mem.mem = (after access j.mem (Fabric.evs agents j.reg i)).mem := rfl
  have hfire : ∀ p, reqFire j.reg.split (Fabric.splitIn agents j.reg i) p = true ↔
      .accept p ((Fabric.splitIn agents j.reg i).req p) ∈ Fabric.evs agents j.reg i := fun p => by
    simp [Fabric.evs, accept_mem_ev]
  have hfold : ∀ p, (∀ p', p' ≠ p → commits j.reg i p' = []) →
      (commit j.reg i).foldl (fun m x => x.2.apply m) j.mem.mem = (commits j.reg i p).foldl Store.apply j.mem.mem := by
    intro p hp
    cases p <;> simp [commit, hp, List.foldl_map]
  have hnone : (∀ p, reqFire j.reg.split (Fabric.splitIn agents j.reg i) p = false) →
      (commit j.reg i).foldl (fun m x => x.2.apply m) j.mem.mem = j.mem.mem := fun hn => by
    simp [commit, commits_of_not_fire (hn _)]
  rcases ev_cases h.sound.tags (Fabric.splitIn agents j.reg i) with ⟨-, -, q, -, he⟩ | ⟨-, -, he⟩ | ⟨-, -, he⟩
  · have he : Fabric.evs agents j.reg i = [.accept q ((Fabric.splitIn agents j.reg i).req q)] := he
    have hq := (hfire q).2 (by rw [he]; exact List.mem_cons_self)
    rw [hfold q fun p' hp' => commits_of_not_fire (by
      cases hf : reqFire j.reg.split (Fabric.splitIn agents j.reg i) p'
      · rfl
      · exact absurd (reqFire_unique hf hq) hp'), hmem, he]
    cases q with
    | cpu => exact commit_cpu h hq
    | gpu => exact commit_gpu h hq
    | acc => exact commit_acc hq
  · have he : Fabric.evs agents j.reg i = [.respond (src j.reg.split) (respBits j.reg.split)] := he
    rw [hnone fun p => by simpa [he] using hfire p, hmem, he]
    rfl
  · have he : Fabric.evs agents j.reg i = [] := he
    rw [hnone fun p => by simpa [he] using hfire p, hmem, he]
    rfl

/-- **One clean cycle keeps the books.** -/
theorem ledger_step (h : Ledger j issued order) (hc : Clean j.reg i) (hw : Words j.reg i) :
    Ledger (Fabric.jnext agents j i) (fun p => issued p ++ issues j.reg i p) (order ++ commit j.reg i) := by
  have hisWr : (cpu j.reg).state = .wrreq → (cpu j.reg).isWrReg = true := fun hs => by
    have hheld := h.fresh.held
    rw [StoreExact.Held, show (cpuView j).own.state = .wrreq from hs] at hheld
    exact hheld.1
  refine ⟨Fabric.sound_step agents j i h.sound, ?_, ?_, words_step hw h.words, fun p => ?_, ?_⟩
  · rw [cpuView_step h.sound]
    exact StoreExact.fresh_step h.fresh (quiet_cpu hc)
  · rw [gpuView_step h.sound]
    exact AXIToMemReq.held_step h.held (quiet_gpu hc)
  · calc issued p ++ issues j.reg i p
        = of p order ++ (waiting j.reg p ++ issues j.reg i p) := by rw [h.inOrder p, List.append_assoc]
      _ = of p order ++ (commits j.reg i p ++ waiting (Fabric.next agents j.reg i) p) := by
          rw [waiting_step _ _ hisWr]
      _ = of p (order ++ commit j.reg i) ++ waiting (Fabric.next agents j.reg i) p := by
          rw [of_append, of_commit, List.append_assoc]
  · rw [mem_step h, List.foldl_append, ← h.mem]

end Commit

/-! ## Whole runs -/

/-- the system after reset; `g`, `a`, `d` and `w` are what the registers without a reset value hold -/
def reset (g : AXIToMemReq.Reg) (a : BitVec 64) (d : BitVec 512) (w : Bool) : Reg where
  split := SplitPrioritizer.reset a d w
  own
    | .cpu => CoreMemToHBM.reset
    | .gpu => AXIToMemReq.reset g
    | .acc => ()

/-- the stores that port `p` issued in a run -/
def issuedBy (p : Port) (s : Reg) (ins : List In) : List Store :=
  collect (Fabric.next agents) (fun s i => issues s i p) s ins

/-- no store waits for its acknowledgement -/
structure Acked (s : Reg) : Prop where
  cpu : (cpu s).isWrReg = true → (cpu s).state = .idle
  gpu : (gpu s).state ∈ [.idle, .wwait, .areq, .aresp, .rvalid]
  stack : HBM3Stack.busy s.split.hbm = true → s.split.hbm.rW = false

theorem waiting_of_acked {s : Reg} (h : Acked s) (p : Port) : waiting s p = [] := by
  cases p with
  | cpu =>
    have hc := h.cpu
    cases hs : (cpu s).state <;> cases hw : (cpu s).isWrReg <;>
      simp_all [waiting, CoreMemToHBM.inFlight]
  | gpu =>
    have hg := h.gpu
    cases hs : (gpu s).state <;> simp_all [waiting, AXIToMemReq.inFlight]
  | acc => rfl

theorem ledger_reset (g : AXIToMemReq.Reg) (a : BitVec 64) (d : BitVec 512) (w : Bool) :
    Ledger ⟨reset g a d w, ⟨fun _ => 0, none⟩⟩ (fun _ => []) [] where
  sound := rel_reset a d w
  fresh := StoreExact.fresh_init line _
  held := rfl
  words := fun _ hs => absurd rfl hs
  inOrder := fun p => by cases p <;> rfl
  mem := rfl

theorem ledger_run {j : Joint} {issued : Port → List Store} {order : List (Port × Store)}
    (h : Ledger j issued order) {ins : List In} (hc : Always (Fabric.next agents) Clean j.reg ins)
    (hw : Always (Fabric.next agents) Words j.reg ins) :
    Ledger (run (Fabric.jnext agents) j ins) (fun p => issued p ++ issuedBy p j.reg ins)
      (order ++ collect (Fabric.next agents) commit j.reg ins) := by
  induction ins generalizing j issued order with
  | nil => simpa [issuedBy] using h
  | cons i ins ih =>
    have hnext := ih (ledger_step h hc.1 hw.1) hc.2 hw.2
    simp only [List.append_assoc] at hnext
    exact hnext

/-- outside an unanswered write the array is the atomic memory -/
theorem cells_of_acked {j : Joint} (h : Fabric.Sound j) (hs : Acked j.reg) (a : BitVec 64) :
    j.reg.split.hbm.cells (HBM3Stack.idx _ a) = j.mem.mem (line a) := by
  rw [← lineOf_idx]
  exact h.stack.cells _ fun hb hw => by rw [hs.stack hb] at hw; exact absurd hw (by decide)

/-- **No update is lost in a clean run.** In every run, in any mode, in which no other port's write to a line is accepted
between the read and the write-back of a store to it, and in which the CPU's stores are words inside a line: once every
store is acknowledged, there is an order of all the issued stores that keeps each agent's issue order and whose effect,
each store replacing exactly its own bytes, is what the array holds. -/
theorem serial_of_clean (g : AXIToMemReq.Reg) (a : BitVec 64) (d : BitVec 512) (w : Bool) (ins : List In)
    (hc : Always (Fabric.next agents) Clean (reset g a d w) ins)
    (hw : Always (Fabric.next agents) Words (reset g a d w) ins)
    (hdone : Acked (run (Fabric.next agents) (reset g a d w) ins)) :
    ∃ order : List (Port × Store), (∀ p, of p order = issuedBy p (reset g a d w) ins) ∧
      ∀ x, (run (Fabric.next agents) (reset g a d w) ins).split.hbm.cells (HBM3Stack.idx _ x) =
        order.foldl (fun m st => st.2.apply m) (fun _ => 0) (line x) := by
  have h := ledger_run (ledger_reset g a d w) hc hw
  have hreg := Fabric.run_reg agents ⟨reset g a d w, ⟨fun _ => 0, none⟩⟩ ins
  rw [← hreg] at hdone ⊢
  refine ⟨collect (Fabric.next agents) commit (reset g a d w) ins, fun p => ?_, fun x => ?_⟩
  · have hp := h.inOrder p
    rw [waiting_of_acked hdone, List.append_nil] at hp
    exact hp.symm
  · rw [cells_of_acked h.sound hdone, h.mem]
    rfl

/-! ## A lost update -/

/-- the CPU stores a word to line 0, the accelerator port stores all of line 0 -/
def cpuStore : WordMemReq := ⟨0, 0x11111111, true, 0⟩
def accLine : MemReq := ⟨0, BitVec.allOnes 512, true⟩

/-- one cycle of the two stores: which of them is requested -/
def cycle (word full : Bool) : In where
  ext
    | .cpu => ⟨word, cpuStore, true⟩
    | .gpu => ⟨false, 0, 0, false, 0, 0, true, false, 0, 0, true⟩
    | .acc => ⟨full, accLine, true⟩
  mode := 0

/-- the line store is accepted between the read and the write-back of the word store -/
def lostRun : List In :=
  [cycle true false] ++ List.replicate 4 (cycle false false) ++ [cycle false true] ++
    List.replicate 8 (cycle false false)

/-- the line store comes after the word store -/
def cleanRun : List In :=
  [cycle true false] ++ List.replicate 9 (cycle false false) ++ [cycle false true] ++
    List.replicate 3 (cycle false false)

theorem serial_of_clean_cleanRun :
    ∃ order : List (Port × Store), (∀ p, of p order = issuedBy p (reset AXIToMemReq.zeros 0 0 false) cleanRun) ∧
      ∀ x, (run (Fabric.next agents) (reset AXIToMemReq.zeros 0 0 false) cleanRun).split.hbm.cells (HBM3Stack.idx _ x) =
        order.foldl (fun m st => st.2.apply m) (fun _ => 0) (line x) :=
  serial_of_clean AXIToMemReq.zeros 0 0 false cleanRun (by decide +kernel) (by decide +kernel)
    ⟨by decide +kernel, by decide +kernel, by decide +kernel⟩

/-- in any order of the two stores that has the line store in it, the last bit of line 0 ends up set -/
theorem top_bit_set (order : List (Port × Store)) (m : BitVec 8 → BitVec 512)
    (hall : ∀ x ∈ order, x.2 = .word cpuStore ∨ x.2 = .full accLine)
    (h : (m 0).getLsbD 511 = true ∨ ∃ x ∈ order, x.2 = .full accLine) :
    (order.foldl (fun m st => st.2.apply m) m 0).getLsbD 511 = true := by
  induction order generalizing m with
  | nil => simpa using h
  | cons x order ih =>
    refine ih _ (fun y hy => hall y (List.mem_cons_of_mem _ hy)) ?_
    have hline : line 0 = 0 := by decide
    rcases hall x List.mem_cons_self with hx | hx
    · have hkeep : (Store.apply m x.2 0).getLsbD 511 = (m 0).getLsbD 511 := by
        rw [hx]
        simp only [Store.apply, Store.line, Store.merge, cpuStore, hline, Function.update_self]
        rw [CoreMemToHBM.storeBytes_getLsbD _ _ (by decide), if_neg (by decide)]
      rcases h with h | ⟨y, hy, hyf⟩
      · exact .inl (hkeep.trans h)
      · rcases List.mem_cons.1 hy with rfl | hy
        · rw [hx] at hyf; exact absurd hyf (by decide)
        · exact .inr ⟨y, hy, hyf⟩
    · left
      simp only [hx, Store.apply, Store.line, Store.merge, accLine, hline, Function.update_self]
      decide +kernel

/-- **An acknowledged store is lost.** In the run `lostRun` the CPU stores one word and the accelerator port one line, and
both are acknowledged; no order of the two stores gives what the array holds. -/
theorem update_lost :
    Always (Fabric.next agents) Words (reset AXIToMemReq.zeros 0 0 false) lostRun ∧
    Acked (run (Fabric.next agents) (reset AXIToMemReq.zeros 0 0 false) lostRun) ∧
    ¬ ∃ order : List (Port × Store), (∀ p, of p order = issuedBy p (reset AXIToMemReq.zeros 0 0 false) lostRun) ∧
      ∀ x, (run (Fabric.next agents) (reset AXIToMemReq.zeros 0 0 false) lostRun).split.hbm.cells (HBM3Stack.idx _ x) =
        order.foldl (fun m st => st.2.apply m) (fun _ => 0) (line x) := by
  refine ⟨by decide +kernel, ⟨by decide +kernel, by decide +kernel, by decide +kernel⟩, ?_⟩
  rintro ⟨order, hof, hcells⟩
  have hissued : issuedBy .cpu (reset AXIToMemReq.zeros 0 0 false) lostRun = [.word cpuStore] ∧
      issuedBy .gpu (reset AXIToMemReq.zeros 0 0 false) lostRun = [] ∧
      issuedBy .acc (reset AXIToMemReq.zeros 0 0 false) lostRun = [.full accLine] := by decide +kernel
  have hmem : ∀ x ∈ order, x.2 ∈ of x.1 order := fun x hx =>
    List.mem_map.2 ⟨x, List.mem_filter.2 ⟨hx, by simp⟩, rfl⟩
  have hall : ∀ x ∈ order, x.2 = .word cpuStore ∨ x.2 = .full accLine := by
    intro x hx
    have hxm := hmem x hx
    rw [hof x.1] at hxm
    cases hp : x.1 with
    | cpu => rw [hp, hissued.1] at hxm; exact .inl (List.mem_singleton.1 hxm)
    | gpu => rw [hp, hissued.2.1] at hxm; exact absurd hxm List.not_mem_nil
    | acc => rw [hp, hissued.2.2] at hxm; exact .inr (List.mem_singleton.1 hxm)
  have hfull : ∃ x ∈ order, x.2 = .full accLine := by
    have hacc : Store.full accLine ∈ of .acc order := by rw [hof, hissued.2.2]; exact List.mem_cons_self
    obtain ⟨x, hx, hxe⟩ := List.mem_map.1 hacc
    exact ⟨x, (List.mem_filter.1 hx).1, hxe⟩
  have hset := top_bit_set order (fun _ => 0) hall (.inr hfull)
  have hzero := congrArg (fun l => l.getLsbD 511) (hcells 0)
  rw [show line 0 = 0 by decide, hset] at hzero
  exact absurd hzero (by decide +kernel)

end AegisSoc.LostUpdate
