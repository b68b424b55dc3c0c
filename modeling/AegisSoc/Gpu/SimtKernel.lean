/-
The kernel loop of the SIMT core, on a memory interface that accepts and answers whenever it likes.

The events of a run are the handshakes on that interface. One line of a kernel is two reads and one store, each answered
before the next request (`Row.events`); the data of the response to a store is not read, and shown as zero.
- `running_step`: a cycle of a kernel adds its handshake to the line in progress, or completes the last line and raises
  `done`;
- `rises`: from a start in the idle state to the rise of `done` the events are those of the lines `0, 1, …`, in order, and
  nothing else;
- `requests_iff`: these are the requested `n` lines exactly if `n` is not 0; a launch with `n = 0` runs over 2 ^ 16 lines
  (`zero_lines`);
- `rows_execute`: on an atomic memory these events are the execution of the kernel, line after line;
- `done_fresh`: when `done` is high and the last start pulse fell in the idle state, the kernel of that pulse has been
  executed in full since; `done_stale`: a pulse in any other state clears `done` and is otherwise lost.
-/
import AegisSoc.Gpu.SimtCore

namespace AegisSoc.SimtKernel

open Machine PortMemory SimtCore Lanes

/-! ## Events -/

structure In where
  launch : Launch
  mem : MemIn
deriving DecidableEq, Repr

def step (r : Reg) (i : In) : Reg := SimtCore.next r i.launch i.mem

abbrev Events := List (Ev Unit MemReq (BitVec 512))

/-- the request on the interface; the data of a read is not used -/
def asked (r : Reg) : MemReq := { memReq r with data := if (memReq r).isWrite then (memReq r).data else 0 }

def ev (r : Reg) (i : In) : Events :=
  (if memReqFire r i.mem then [.accept () (asked r)] else []) ++
    if memRespFire r i.mem then [.respond () (if r.state = .wrYr then 0 else i.mem.respBits)] else []

/-! ## Kernels -/

/-- the launch parameters -/
structure Kernel where
  baseX : BitVec 64
  baseZ : BitVec 64
  baseY : BitVec 64
  nLines : BitVec 16
deriving DecidableEq, Repr

def Kernel.of (x : Launch) : Kernel := ⟨x.baseX, x.baseZ, x.baseY, x.nLines⟩

/-- the lines the core runs over: the loop ends on equality with `nLines - 1`, a 16-bit difference -/
def Kernel.lines (κ : Kernel) : ℕ := (κ.nLines - 1).toNat + 1

theorem Kernel.lines_eq {κ : Kernel} (h : κ.nLines ≠ 0) : κ.lines = κ.nLines.toNat := by
  have hpos : κ.nLines.toNat ≠ 0 := fun h0 => h (BitVec.eq_of_toNat_eq h0)
  have hlt := κ.nLines.isLt
  have hone : (1 : BitVec 16).toNat = 1 := rfl
  rw [Kernel.lines, BitVec.toNat_sub, hone]
  omega

theorem Kernel.lines_zero {κ : Kernel} (h : κ.nLines = 0) : κ.lines = 2 ^ 16 := by
  rw [Kernel.lines, h]
  rfl

/-- the sum of two lines, lane by lane -/
def add (x z : BitVec 512) : BitVec 512 := ofLanes 512 fun l => lane 16 x l + lane 16 z l

/-- the operands of one line -/
structure Row where
  x : BitVec 512
  z : BitVec 512
deriving DecidableEq, Repr

section

variable (κ : Kernel) (k : ℕ)

def readX : Events := [.accept () ⟨lineAt κ.baseX k, 0, false⟩]
def gotX (x : BitVec 512) : Events := readX κ k ++ [.respond () x]
def readZ (x : BitVec 512) : Events := gotX κ k x ++ [.accept () ⟨lineAt κ.baseZ k, 0, false⟩]
def gotZ (w : Row) : Events := readZ κ k w.x ++ [.respond () w.z]
def wroteY (w : Row) : Events := gotZ κ k w ++ [.accept () ⟨lineAt κ.baseY k, add w.x w.z, true⟩]

/-- the events of line `k` -/
def Row.events (w : Row) : Events := wroteY κ k w ++ [.respond () 0]

/-- the events of the first lines of the kernel -/
def rowsEvents (ws : List Row) : Events := ws.zipIdx.flatMap fun w => Row.events κ w.2 w.1

theorem rowsEvents_snoc (ws : List Row) (w : Row) :
    rowsEvents κ (ws ++ [w]) = rowsEvents κ ws ++ Row.events κ ws.length w := by
  simp [rowsEvents, List.zipIdx_append]

/-- the events so far of the line in progress -/
def part (r : Reg) : Events :=
  match r.state with
  | .idle | .rdX => []
  | .rdXr => readX κ k
  | .rdZ => gotX κ k r.xLine
  | .rdZr => readZ κ k r.xLine
  | .calc | .wrY => gotZ κ k ⟨r.xLine, r.zLine⟩
  | .wrYr => wroteY κ k ⟨r.xLine, r.zLine⟩

end

/-- the kernel `κ` is running, and has shown the events `es` -/
structure Running (κ : Kernel) (r : Reg) (es : Events) : Prop where
  busy : r.state ≠ .idle
  clear : r.doneReg = false
  xBase : r.xBase = κ.baseX
  zBase : r.zBase = κ.baseZ
  yBase : r.yBase = κ.baseY
  nReg : r.nReg = κ.nLines
  log : ∃ ws : List Row, ws.length = r.line.toNat ∧ ws.length < κ.lines ∧ es = rowsEvents κ ws ++ part κ ws.length r

/-- all lines have been stored and acknowledged -/
structure Completed (κ : Kernel) (r : Reg) (es : Events) : Prop where
  idle : r.state = .idle
  done : r.doneReg = true
  log : ∃ ws : List Row, ws.length = κ.lines ∧ es = rowsEvents κ ws

variable {κ : Kernel} {r : Reg} {i : In} {es : Events}

/-! ## One cycle -/

/-- the cycles of a running kernel: a start pulse changes nothing -/
theorem step_busy (hb : r.state ≠ .idle) (hd : r.doneReg = false) (i : In) : step r i =
    match r.state with
    | .idle => r
    | .rdX => if i.mem.reqReady then { r with state := .rdXr } else r
    | .rdXr => if i.mem.respValid then { r with xLine := i.mem.respBits, state := .rdZ } else r
    | .rdZ => if i.mem.reqReady then { r with state := .rdZr } else r
    | .rdZr => if i.mem.respValid then { r with zLine := i.mem.respBits, state := .calc } else r
    | .calc => { r with state := .wrY }
    | .wrY => if i.mem.reqReady then { r with state := .wrYr } else r
    | .wrYr =>
      if i.mem.respValid then
        if r.line = r.nReg - 1 then { r with line := r.line + 1, nReg := 0, doneReg := true, state := .idle }
        else { r with line := r.line + 1, state := .rdX }
      else r := by
  obtain ⟨state, xBase, zBase, yBase, nReg, line, xLine, zLine, doneReg⟩ := r
  obtain rfl : doneReg = false := hd
  cases state <;> first | exact absurd rfl hb
                        | simp [step, SimtCore.next, memReqFire, memReqValid, memRespFire, memRespReady]

theorem Running.asked (h : Running κ r es) : SimtKernel.asked r =
    match r.state with
    | .rdX => ⟨lineAt κ.baseX r.line.toNat, 0, false⟩
    | .rdZ => ⟨lineAt κ.baseZ r.line.toNat, 0, false⟩
    | .wrY => ⟨lineAt κ.baseY r.line.toNat, add r.xLine r.zLine, true⟩
    | _ => ⟨0, 0, false⟩ := by
  cases hs : r.state <;>
    simp [SimtKernel.asked, memReq, hs, h.xBase, h.zBase, h.yBase, line_shift, lineAt, yLine, add]

/-- a cycle that leaves the line in progress at line `k`, with the event it adds -/
theorem Running.within (h : Running κ r es) {r' : Reg} {e : Events} (hbusy : r'.state ≠ .idle)
    (hclear : r'.doneReg = false) (hx : r'.xBase = r.xBase) (hz : r'.zBase = r.zBase) (hy : r'.yBase = r.yBase)
    (hn : r'.nReg = r.nReg) (hl : r'.line = r.line) (hpart : part κ r.line.toNat r' = part κ r.line.toNat r ++ e) :
    Running κ r' (es ++ e) := by
  obtain ⟨ws, hlen, hlt, rfl⟩ := h.log
  refine ⟨hbusy, hclear, hx.trans h.xBase, hz.trans h.zBase, hy.trans h.yBase, hn.trans h.nReg, ws, by rw [hl, hlen], hlt,
    ?_⟩
  rw [hlen, hpart, List.append_assoc]

theorem Running.lines_eq (h : Running κ r es) : κ.lines = (r.nReg - 1).toNat + 1 := by
  rw [h.nReg]
  rfl

/-- the counter does not wrap before the last line -/
theorem Running.line_succ (h : Running κ r es) (hlast : r.line ≠ r.nReg - 1) :
    (r.line + 1).toNat = r.line.toNat + 1 ∧ r.line.toNat + 1 < κ.lines := by
  obtain ⟨ws, hlen, hlt, -⟩ := h.log
  have hcount := h.lines_eq
  have hne : r.line.toNat ≠ (r.nReg - 1).toNat := fun heq => hlast (BitVec.eq_of_toNat_eq heq)
  have hbound := (r.nReg - 1).isLt
  have hone : (1 : BitVec 16).toNat = 1 := rfl
  rw [BitVec.toNat_add, hone]
  omega

/-- the event of a cycle, by state -/
theorem Running.ev (h : Running κ r es) (i : In) : SimtKernel.ev r i =
    match r.state with
    | .idle | .calc => []
    | .rdX => if i.mem.reqReady then [.accept () ⟨lineAt κ.baseX r.line.toNat, 0, false⟩] else []
    | .rdZ => if i.mem.reqReady then [.accept () ⟨lineAt κ.baseZ r.line.toNat, 0, false⟩] else []
    | .wrY => if i.mem.reqReady then [.accept () ⟨lineAt κ.baseY r.line.toNat, add r.xLine r.zLine, true⟩] else []
    | .rdXr | .rdZr => if i.mem.respValid then [.respond () i.mem.respBits] else []
    | .wrYr => if i.mem.respValid then [.respond () 0] else [] := by
  have hask := h.asked
  cases hs : r.state <;> simp only [hs] at hask <;>
    simp only [SimtKernel.ev, memReqFire, memReqValid, memRespFire, memRespReady, hs, hask] <;>
    cases i.mem.reqReady <;> cases i.mem.respValid <;> rfl

/-- **One cycle of a running kernel.** -/
theorem running_step (h : Running κ r es) (i : In) :
    Running κ (step r i) (es ++ ev r i) ∨ Completed κ (step r i) (es ++ ev r i) := by
  rw [step_busy h.busy h.clear, h.ev]
  have hstay : Running κ r (es ++ []) := by rwa [List.append_nil]
  cases hs : r.state with
  | idle => exact absurd hs h.busy
  | rdX =>
    cases hr : i.mem.reqReady with
    | false => exact .inl hstay
    | true => exact .inl (h.within (by simp) h.clear rfl rfl rfl rfl rfl (by simp [part, hs, readX]))
  | rdZ =>
    cases hr : i.mem.reqReady with
    | false => exact .inl hstay
    | true => exact .inl (h.within (by simp) h.clear rfl rfl rfl rfl rfl (by simp [part, hs, readZ]))
  | wrY =>
    cases hr : i.mem.reqReady with
    | false => exact .inl hstay
    | true => exact .inl (h.within (by simp) h.clear rfl rfl rfl rfl rfl (by simp [part, hs, wroteY]))
  | rdXr =>
    cases hv : i.mem.respValid with
    | false => exact .inl hstay
    | true => exact .inl (h.within (by simp) h.clear rfl rfl rfl rfl rfl (by simp [part, hs, gotX]))
  | rdZr =>
    cases hv : i.mem.respValid with
    | false => exact .inl hstay
    | true => exact .inl (h.within (by simp) h.clear rfl rfl rfl rfl rfl (by simp [part, hs, gotZ]))
  | wrYr =>
    cases hv : i.mem.respValid with
    | false => exact .inl hstay
    | true =>
      -- the line is finished, and it is the last one or not
      obtain ⟨ws, hlen, hlt, rfl⟩ := h.log
      have hrow : rowsEvents κ ws ++ part κ ws.length r ++ [.respond () 0] =
          rowsEvents κ (ws ++ [⟨r.xLine, r.zLine⟩]) := by
        rw [rowsEvents_snoc, Row.events, part, hs, List.append_assoc]
      simp only [if_true, hrow]
      split_ifs with hlast
      · refine .inr ⟨rfl, rfl, _, ?_, rfl⟩
        rw [List.length_append, hlen, hlast, h.lines_eq]
        rfl
      · obtain ⟨hnext, hmore⟩ := h.line_succ hlast
        refine .inl ⟨by simp, h.clear, h.xBase, h.zBase, h.yBase, h.nReg, ws ++ [⟨r.xLine, r.zLine⟩], ?_, ?_, by simp [part]⟩
        · rw [List.length_append, List.length_singleton, hlen, hnext]
        · rwa [List.length_append, List.length_singleton, hlen]
  | _ => exact .inl (h.within (by simp) h.clear rfl rfl rfl rfl rfl (by simp [part, hs]))

/-! ## Launch and completion -/

/-- a start in the idle state launches the kernel on the port -/
theorem running_start (hs : r.state = .idle) (hgo : i.launch.start = true) :
    Running (Kernel.of i.launch) (step r i) [] ∧ ev r i = [] := by
  have hstep : step r i = { r with
      xBase := i.launch.baseX, zBase := i.launch.baseZ, yBase := i.launch.baseY, nReg := i.launch.nLines, line := 0,
      doneReg := false, state := .rdX } := by
    simp [step, SimtCore.next, hs, hgo]
  refine ⟨?_, by simp [ev, memReqFire, memReqValid, memRespFire, memRespReady, hs]⟩
  rw [hstep]
  exact ⟨by simp, rfl, rfl, rfl, rfl, rfl, [], rfl, Nat.succ_pos _, rfl⟩

/-- without a pulse an idle core stays as it is, silent -/
theorem idle_step (hs : r.state = .idle) (hgo : i.launch.start = false) : step r i = r ∧ ev r i = [] := by
  refine ⟨?_, by simp [ev, memReqFire, memReqValid, memRespFire, memRespReady, hs]⟩
  obtain ⟨state, xBase, zBase, yBase, nReg, line, xLine, zLine, doneReg⟩ := r
  obtain rfl : state = .idle := hs
  simp [step, SimtCore.next, hgo]

/-- the kernel runs, or has been completed and nothing has happened since -/
def Launched (κ : Kernel) (r : Reg) (es : Events) : Prop := Running κ r es ∨ Completed κ r es

/-- **One cycle after a launch** in which no new kernel is started -/
theorem launched_step (h : Launched κ r es) (hi : i.launch.start = false ∨ done r = false) :
    Launched κ (step r i) (es ++ ev r i) := by
  rcases h with hrun | hcompleted
  · exact running_step hrun i
  · have hquiet : i.launch.start = false :=
      hi.resolve_right fun hlow => absurd (hlow.symm.trans hcompleted.done) Bool.false_ne_true
    obtain ⟨hstep, hev⟩ := idle_step hcompleted.idle hquiet
    rw [hstep, hev, List.append_nil]
    exact .inr hcompleted

theorem launched_run (h : Launched κ r es) {ins : List In}
    (hins : Always step (fun r i => i.launch.start = false ∨ done r = false) r ins) :
    Launched κ (run step r ins) (es ++ collect step ev r ins) := by
  induction ins generalizing r es with
  | nil => simpa using h
  | cons i ins ih =>
    rw [run_cons, collect_cons, ← List.append_assoc]
    exact ih (launched_step h hins.1) hins.2

theorem Launched.completed (h : Launched κ r es) (hd : done r = true) : Completed κ r es :=
  h.resolve_left fun hrun => absurd (hrun.clear.symm.trans hd) Bool.false_ne_true

/-- **From a start in the idle state to the rise of `done`** -/
theorem rises {go : In} {during : List In} (hs : r.state = .idle) (hgo : go.launch.start = true)
    (hlow : Always step (fun r _ => done r = false) (step r go) during) (hdone : done (run step r (go :: during)) = true) :
    Completed (Kernel.of go.launch) (run step r (go :: during)) (collect step ev r (go :: during)) := by
  obtain ⟨hrun, hnone⟩ := running_start hs hgo
  rw [collect_cons, hnone]
  exact (launched_run (.inl hrun) (always_imp (fun _ _ _ hl => .inr hl) hlow)).completed hdone

/-! ## The lines a kernel touches -/

/-- the addresses and directions of the requests -/
def requests (es : Events) : List (BitVec 64 × Bool) := (accepted es).map fun x => (x.2.addr, x.2.isWrite)

/-- the accesses of a kernel over `n` lines -/
def accesses (κ : Kernel) (n : ℕ) : List (BitVec 64 × Bool) :=
  (List.range n).flatMap fun k => [(lineAt κ.baseX k, false), (lineAt κ.baseZ k, false), (lineAt κ.baseY k, true)]

theorem requests_rowsEvents (κ : Kernel) (ws : List Row) : requests (rowsEvents κ ws) = accesses κ ws.length := by
  induction ws using List.reverseRecOn with
  | nil => rfl
  | append_singleton ws w ih =>
    rw [rowsEvents_snoc, List.length_append, List.length_singleton, accesses, List.range_succ, List.flatMap_append,
      ← accesses, ← ih, requests, accepted_append, List.map_append]
    rfl

theorem accesses_length (κ : Kernel) (n : ℕ) : (accesses κ n).length = 3 * n := by
  simp [accesses, List.length_flatMap, Nat.mul_comm]

/-- **The requested lines.** From a start in the idle state to the following rise of `done`, whatever the memory does and
whatever pulses come in between: the requests are those of a kernel over `κ.lines` lines, each line once and in order, and
they are those of the requested number of lines if and only if that number is not 0. -/
theorem requests_iff (r : Reg) (hs : r.state = .idle) (go : In) (hgo : go.launch.start = true) (during : List In)
    (hlow : Always step (fun r _ => done r = false) (step r go) during) (hdone : done (run step r (go :: during)) = true) :
    let κ := Kernel.of go.launch
    requests (collect step ev r (go :: during)) = accesses κ κ.lines ∧
      (requests (collect step ev r (go :: during)) = accesses κ κ.nLines.toNat ↔ κ.nLines ≠ 0) := by
  intro κ
  obtain ⟨-, -, ws, hlen, hes⟩ := rises hs hgo hlow hdone
  have hreq : requests (collect step ev r (go :: during)) = accesses κ κ.lines := by
    rw [hes, requests_rowsEvents, hlen]
  refine ⟨hreq, ?_⟩
  rw [hreq]
  constructor
  · intro heq hzero
    have hlength := congrArg List.length heq
    rw [accesses_length, accesses_length, Kernel.lines_zero hzero, hzero] at hlength
    exact absurd hlength (by decide)
  · intro hne
    rw [Kernel.lines_eq hne]

/-! ## A kernel on an atomic memory -/

section Memory

variable {L : Type*} [DecidableEq L] (idx : BitVec 64 → L) (κ : Kernel)

/-- line `k` of the kernel, executed on the memory `m` -/
def addLine (m : L → BitVec 512) (k : ℕ) : L → BitVec 512 :=
  Function.update m (idx (lineAt κ.baseY k)) (add (m (idx (lineAt κ.baseX k))) (m (idx (lineAt κ.baseZ k))))

/-- the first `n` lines of the kernel, one after another -/
def execute (n : ℕ) (m : L → BitVec 512) : L → BitVec 512 := (List.range n).foldl (addLine idx κ) m

/-- the lines of the three arrays -/
def Touches (n : ℕ) (l : L) : Prop :=
  ∃ k < n, l = idx (lineAt κ.baseX k) ∨ l = idx (lineAt κ.baseZ k) ∨ l = idx (lineAt κ.baseY k)

instance (n : ℕ) (l : L) : Decidable (Touches idx κ n l) := inferInstanceAs (Decidable (∃ k < n, _))

theorem execute_succ (n : ℕ) (m : L → BitVec 512) : execute idx κ (n + 1) m = addLine idx κ (execute idx κ n m) n := by
  rw [execute, List.range_succ, List.foldl_append]
  rfl

variable {idx κ}

theorem row_execute {m : L → BitVec 512} {k : ℕ} {w : Row} (h : Trace (MemReq.access idx) ⟨m, none⟩ (Row.events κ k w)) :
    after (MemReq.access idx) ⟨m, none⟩ (Row.events κ k w) = ⟨addLine idx κ m k, none⟩ := by
  -- the two responses are the operands as the memory has them
  obtain ⟨-, hx, -, hz, -⟩ := h
  have hx : m (idx (lineAt κ.baseX k)) = w.x := congrArg Prod.snd (Option.some.inj hx)
  have hz : m (idx (lineAt κ.baseZ k)) = w.z := congrArg Prod.snd (Option.some.inj hz)
  rw [addLine, hx, hz]
  simp [Row.events, wroteY, gotZ, readZ, gotX, readX, PortMemory.next, apply, MemReq.access]

/-- **On an atomic memory the events of a kernel are its execution.** -/
theorem rows_execute {m : L → BitVec 512} {ws : List Row} (h : Trace (MemReq.access idx) ⟨m, none⟩ (rowsEvents κ ws)) :
    after (MemReq.access idx) ⟨m, none⟩ (rowsEvents κ ws) = ⟨execute idx κ ws.length m, none⟩ := by
  induction ws using List.reverseRecOn with
  | nil => rfl
  | append_singleton ws w ih =>
    rw [rowsEvents_snoc, trace_append] at h
    have ih := ih h.1
    rw [ih] at h
    rw [rowsEvents_snoc, after_append, ih, row_execute h.2, List.length_append, List.length_singleton, execute_succ]

omit [DecidableEq L] in
theorem rows_touch {ws : List Row} {q : MemReq} (h : .accept () q ∈ rowsEvents κ ws) :
    Touches idx κ ws.length (idx q.addr) := by
  have hreq : (q.addr, q.isWrite) ∈ accesses κ ws.length := by
    rw [← requests_rowsEvents]
    exact List.mem_map.2 ⟨((), q), mem_accepted.2 h, rfl⟩
  obtain ⟨k, hk, hq⟩ := List.mem_flatMap.1 hreq
  simp only [List.mem_cons, List.not_mem_nil, or_false, Prod.mk.injEq] at hq
  refine ⟨k, List.mem_range.1 hk, ?_⟩
  rcases hq with ⟨ha, -⟩ | ⟨ha, -⟩ | ⟨ha, -⟩
  · exact .inl (congrArg idx ha)
  · exact .inr (.inl (congrArg idx ha))
  · exact .inr (.inr (congrArg idx ha))

end Memory

/-! ## Progress -/

/-- the cycles left to the rise of `done` on a memory that accepts and answers at once -/
def left (r : Reg) : ℕ :=
  7 * ((r.nReg - 1).toNat - r.line.toNat) +
    match r.state with
    | .idle => 0
    | .rdX => 7
    | .rdXr => 6
    | .rdZ => 5
    | .rdZr => 4
    | .calc => 3
    | .wrY => 2
    | .wrYr => 1

/-- no pulse, and a memory that accepts and answers at once -/
def eager : In := ⟨⟨false, 0, 0, 0, 0⟩, ⟨true, true, 0⟩⟩

theorem left_step (h : Running κ r es) : done (step r eager) = true ∨ left (step r eager) < left r := by
  rw [step_busy h.busy h.clear]
  cases hs : r.state with
  | idle => exact absurd hs h.busy
  | wrYr =>
    simp only [eager, if_true]
    split_ifs with hlast
    · exact .inl rfl
    · obtain ⟨hnext, hmore⟩ := h.line_succ hlast
      have hcount := h.lines_eq
      right
      simp only [left, hs, hnext]
      omega
  | _ =>
    right
    simp only [eager, if_true, left, hs]
    omega

/-- on such a memory `done` rises -/
theorem eager_rises (h : Running κ r es) : ∃ n, Always step (fun r _ => done r = false) r (List.replicate n eager) ∧
    done (run step r (List.replicate n eager)) = true := by
  have hstep : ∀ k r, (done r = true ∨ ∃ es, Running κ r es ∧ left r ≤ k) → done r = false →
      ∃ k' < k, done (step r eager) = true ∨ ∃ es, Running κ (step r eager) es ∧ left (step r eager) ≤ k' := by
    rintro k r (hdone | ⟨es, hrun, hle⟩) hlow
    · exact absurd (hlow.symm.trans hdone) Bool.false_ne_true
    · rcases left_step hrun with hdone | hlt
      · have hpos : 0 < left r := by
          cases hs : r.state with
          | idle => exact absurd hs hrun.busy
          | _ => simp [left, hs]
        exact ⟨0, by omega, .inl hdone⟩
      · rcases running_step hrun eager with hrun' | hcompleted
        · exact ⟨left (step r eager), by omega, .inr ⟨_, hrun', le_rfl⟩⟩
        · exact ⟨left (step r eager), by omega, .inl hcompleted.done⟩
  obtain ⟨n, hlow, hn⟩ := run_until _ eager hstep (.inr ⟨es, h, le_rfl⟩)
  exact ⟨n, hlow, by simpa using hn⟩

/-- the launch of a kernel over `n` lines at the bases 0, 0x100 and 0x200 -/
def launching (n : BitVec 16) : In := ⟨⟨true, 0, 0x100, 0x200, n⟩, ⟨false, false, 0⟩⟩

theorem requests_iff_two :
    let during := List.replicate 14 eager
    let κ := Kernel.of (launching 2).launch
    requests (collect step ev reset (launching 2 :: during)) =
        [(0, false), (0x100, false), (0x200, true), (0x40, false), (0x140, false), (0x240, true)] ∧
      (requests (collect step ev reset (launching 2 :: during)) = accesses κ κ.nLines.toNat ↔ κ.nLines ≠ 0) := by
  intro during κ
  exact ⟨by decide +kernel,
    (requests_iff reset rfl (launching 2) rfl during (by decide +kernel) (by decide +kernel)).2⟩

/-- **A launch with no lines runs over all 2 ^ 16 of them**, reading and writing far outside the arrays, before `done`
rises. -/
theorem zero_lines : ∃ n, Always step (fun r _ => done r = false) (step reset (launching 0)) (List.replicate n eager) ∧
    done (run step reset (launching 0 :: List.replicate n eager)) = true ∧
    requests (collect step ev reset (launching 0 :: List.replicate n eager)) =
      accesses (Kernel.of (launching 0).launch) (2 ^ 16) := by
  obtain ⟨hrun, -⟩ := running_start (r := reset) (i := launching 0) rfl rfl
  obtain ⟨n, hlow, hdone⟩ := eager_rises hrun
  obtain ⟨-, -, ws, hlen, hes⟩ := rises (r := reset) rfl rfl hlow hdone
  exact ⟨n, hlow, hdone, by rw [hes, requests_rowsEvents, hlen, Kernel.lines_zero rfl]⟩

/-! ## `done` and the last pulse -/

/-- the last pulse of a run -/
theorem last_pulse {ins : List In} (h : ∃ i ∈ ins, i.launch.start = true) :
    ∃ before go after, ins = before ++ go :: after ∧ go.launch.start = true ∧ ∀ i ∈ after, i.launch.start = false := by
  induction ins with
  | nil =>
    obtain ⟨i, hi, -⟩ := h
    exact absurd hi List.not_mem_nil
  | cons i ins ih =>
    by_cases hrest : ∃ i ∈ ins, i.launch.start = true
    · obtain ⟨before, go, after, rfl, hgo, hafter⟩ := ih hrest
      exact ⟨i :: before, go, after, rfl, hgo, hafter⟩
    · obtain ⟨j, hj, hgo⟩ := h
      rcases List.mem_cons.1 hj with rfl | hj
      · exact ⟨[], j, ins, rfl, hgo, fun i hi => Bool.eq_false_iff.2 fun hs => hrest ⟨i, hi, hs⟩⟩
      · exact absurd ⟨j, hj, hgo⟩ hrest

/-- without a pulse the core stays in reset -/
theorem run_quiet {ins : List In} (h : ∀ i ∈ ins, i.launch.start = false) : run step reset ins = reset := by
  have hinv : Always step (fun _ i => i.launch.start = false) reset ins :=
    always_imp (fun i hi _ _ => h i hi) (always_true _ _ _)
  exact run_inv (fun r => r = reset) (fun r i hr hi => by subst hr; exact (idle_step rfl hi).1) rfl hinv

/-- all lines of the kernel have been read, added, stored and acknowledged, in order -/
def Executed (κ : Kernel) (es : Events) : Prop := ∃ ws : List Row, ws.length = κ.nLines.toNat ∧ es = rowsEvents κ ws

theorem Executed.requests_eq {es : Events} (h : Executed κ es) : requests es = accesses κ κ.nLines.toNat := by
  obtain ⟨ws, hlen, rfl⟩ := h
  rw [requests_rowsEvents, hlen]

/-- **`done` is fresh if the last pulse fell in the idle state.** In every run from reset after which `done` is high there
is a last start pulse. If it fell in the idle state, with at least one line to do, its kernel has been executed in full
since. -/
theorem done_fresh (ins : List In) (hdone : done (run step reset ins) = true) :
    ∃ before go after, ins = before ++ go :: after ∧ go.launch.start = true ∧ (∀ i ∈ after, i.launch.start = false) ∧
      ((run step reset before).state = .idle → (Kernel.of go.launch).nLines ≠ 0 →
        Executed (Kernel.of go.launch) (collect step ev (run step reset before) (go :: after))) := by
  have hpulse : ∃ i ∈ ins, i.launch.start = true := by
    by_contra hnone
    have hquiet : run step reset ins = reset := run_quiet fun i hi => Bool.eq_false_iff.2 fun hs => hnone ⟨i, hi, hs⟩
    rw [hquiet] at hdone
    exact absurd hdone (by decide)
  obtain ⟨before, go, after, rfl, hgo, hafter⟩ := last_pulse hpulse
  refine ⟨before, go, after, rfl, hgo, hafter, fun hidle hn => ?_⟩
  obtain ⟨hrun, hnone⟩ := running_start hidle hgo
  rw [run_append, run_cons] at hdone
  have hlaunched := launched_run (.inl hrun) (always_imp (fun i hi _ _ => .inl (hafter i hi)) (always_true _ _ _))
  have hcompleted := hlaunched.completed hdone
  obtain ⟨ws, hlen, hes⟩ := hcompleted.log
  exact ⟨ws, hlen.trans (Kernel.lines_eq hn), by rw [collect_cons, hnone]; exact hes⟩

/-- a launch from reset, up to `done`: both lines have been added -/
theorem done_fresh_two : done (run step reset (launching 2 :: List.replicate 14 eager)) = true ∧
    Executed (Kernel.of (launching 2).launch) (collect step ev reset (launching 2 :: List.replicate 14 eager)) := by
  have hdone : done (run step reset (launching 2 :: List.replicate 14 eager)) = true := by decide +kernel
  obtain ⟨before, go, after, hins, hgo, -, hfresh⟩ := done_fresh _ hdone
  refine ⟨hdone, ?_⟩
  -- the launch is the only pulse of the run
  obtain ⟨rfl, hcons⟩ | ⟨before', rfl, hrest⟩ := List.cons_eq_append_iff.1 hins
  · obtain ⟨rfl, rfl⟩ := List.cons_eq_cons.1 hcons
    exact hfresh rfl (by decide)
  · have hmem : go ∈ List.replicate 14 eager := by rw [hrest]; simp
    rw [List.eq_of_mem_replicate hmem] at hgo
    exact absurd hgo (by decide)

/-- a pulse that asks for one line at the bases 0x1000, 0x1100 and 0x1200 -/
def pulse : In := ⟨⟨true, 0x1000, 0x1100, 0x1200, 1⟩, ⟨true, true, 0⟩⟩

/-- **A pulse while a kernel runs, or in the cycle it completes, leaves a stale `done`**: what is executed since is the rest
of the older kernel, or nothing, and no line of the new one is touched. So the kernel of the last pulse has not been executed
when `done` is high. -/
theorem done_stale :
    (done (run step reset ([launching 1, pulse] ++ List.replicate 6 eager)) = true ∧
      requests (collect step ev (run step reset [launching 1, pulse]) (List.replicate 6 eager)) =
        [(0x100, false), (0x200, true)] ∧
      ¬ Executed (Kernel.of pulse.launch)
        (collect step ev (run step reset [launching 1]) (pulse :: List.replicate 6 eager))) ∧
    (done (run step reset (launching 1 :: List.replicate 6 eager ++ [pulse])) = true ∧
      requests (collect step ev reset (launching 1 :: List.replicate 6 eager ++ [pulse])) =
        [(0, false), (0x100, false), (0x200, true)] ∧
      ¬ Executed (Kernel.of pulse.launch)
        (collect step ev (run step reset (launching 1 :: List.replicate 6 eager)) [pulse])) := by
  refine ⟨⟨by decide +kernel, by decide +kernel, fun h => ?_⟩, by decide +kernel, by decide +kernel, fun h => ?_⟩
  · exact absurd h.requests_eq (by decide +kernel)
  · exact absurd h.requests_eq (by decide +kernel)

end AegisSoc.SimtKernel
