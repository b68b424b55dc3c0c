/-
Stores of the CPU adapter against a line memory.

The adapter is attached to a memory of lines: any index type `L`, any map `idx` from addresses to lines, any contents,
any delays, and other agents that write lines in any cycle. The handshakes of a run are read back as a log of word
accesses (`Txn`): the word request, the line requests accepted for it, each with the contents of its line at that
moment, and the line responses taken for it.

Results, over every run in which no other agent writes the adapter's line between its read and its write-back
(`Quiet`):
- `fresh_step`: the line in hand at the write-back is the line in the memory;
- `logged_step`: every finished store is one line read and one line write-back, both to the line of its address and both
  answered; every finished load is one line read;
- `requests_run`, `finishes`: the log has every accepted request of both ports, and the access in progress is answered as soon
  as neither the memory nor the word port holds it up;
- `store_exact_iff`: so every store is accepted, written once and answered, and the written line is the old line with exactly
  the store's own bytes replaced if and only if no unused upper bit of the data spills (`NoSpill`).
Witness `byte_store_spills`: a byte store of `0x1ff` over a zero line also changes the next byte.
-/
import AegisSoc.Cpu.CoreMemToHBM

namespace AegisSoc.StoreExact

open Machine PortMemory PortClient CoreMemToHBM

variable {L : Type*} [DecidableEq L] (idx : BitVec 64 → L)

/-! ## The adapter on a line memory -/

abbrev Sys (L : Type*) := PortClient.Reg CoreMemToHBM.Reg L (BitVec 512)
abbrev In (L : Type*) := PortClient.In WordOut L (BitVec 512)

/-- the line of the access in progress -/
def ownLine (r : CoreMemToHBM.Reg) : L := idx (lineBase r.addrReg)

def step : Sys L → In L → Sys L := PortClient.step client (MemReq.access idx)

def init (m : L → BitVec 512) : Sys L := ⟨CoreMemToHBM.reset, m, none⟩

variable {idx} {s : Sys L} {i : In L}

section Steps

/-! What one cycle does, state by state. -/

theorem step_idle (hs : s.own.state = .idle) : step idx s i =
    ⟨if i.ext.reqValid then capture s.own i.ext.req else s.own, writes s.mem i.others, s.owed⟩ := by
  simp [step, PortClient.step, accepts, takes, client, hbmReqValid, hbmRespReady, hs, CoreMemToHBM.next, wordReqFire,
    wordReqReady]

theorem step_rdreq (hs : s.own.state = .rdreq) : step idx s i =
    if (portIn s i).reqReady then
      ⟨{ s.own with state := .rdresp }, writes s.mem i.others, some (writes s.mem i.others (ownLine idx s.own))⟩
    else ⟨s.own, writes s.mem i.others, s.owed⟩ := by
  have hreq := hbmReq_rdreq hs
  cases h : (portIn s i).reqReady <;>
    simp [step, PortClient.step, accepts, takes, client, hbmReqValid, hbmRespReady, hs, h, CoreMemToHBM.next, hbmReqFire,
      reqOf, hreq, readReq, MemReq.access, apply, answer, ownLine, captured]

theorem step_rdresp (hs : s.own.state = .rdresp) : step idx s i =
    if (portIn s i).respValid then
      ⟨{ s.own with lineReg := (portIn s i).respBits, state := if s.own.isWrReg then .wrreq else .rsp },
        writes s.mem i.others, none⟩
    else ⟨s.own, writes s.mem i.others, s.owed⟩ := by
  cases h : (portIn s i).respValid <;>
    simp [step, PortClient.step, accepts, takes, client, hbmReqValid, hbmRespReady, hs, h, CoreMemToHBM.next, hbmRespFire]

theorem step_wrreq (ho : OffOk s.own) (hs : s.own.state = .wrreq) : step idx s i =
    if (portIn s i).reqReady then
      ⟨{ s.own with state := .wrresp },
        Function.update (writes s.mem i.others) (ownLine idx s.own) (storeLine (captured s.own) s.own.lineReg), some 0⟩
    else ⟨s.own, writes s.mem i.others, s.owed⟩ := by
  have hreq := hbmReq_wrreq ho hs
  cases h : (portIn s i).reqReady <;>
    simp [step, PortClient.step, accepts, takes, client, hbmReqValid, hbmRespReady, hs, h, CoreMemToHBM.next, hbmReqFire,
      reqOf, hreq, writeReq, MemReq.access, apply, answer, ownLine, captured]

theorem step_wrresp (hs : s.own.state = .wrresp) : step idx s i =
    if (portIn s i).respValid then ⟨{ s.own with state := .rsp }, writes s.mem i.others, none⟩
    else ⟨s.own, writes s.mem i.others, s.owed⟩ := by
  cases h : (portIn s i).respValid <;>
    simp [step, PortClient.step, accepts, takes, client, hbmReqValid, hbmRespReady, hs, h, CoreMemToHBM.next, hbmRespFire]

theorem step_rsp (hs : s.own.state = .rsp) : step idx s i =
    ⟨if i.ext.respReady then { s.own with state := .idle } else s.own, writes s.mem i.others, s.owed⟩ := by
  simp [step, PortClient.step, accepts, takes, client, hbmReqValid, hbmRespReady, hs, CoreMemToHBM.next, wordRespFire,
    wordRespValid]

end Steps

/-! ## The line in hand -/

variable (idx)

/-- no other agent writes the line of a store between its read and its write-back -/
def Quiet (s : Sys L) (i : In L) : Prop :=
  s.own.isWrReg = true → s.own.state = .rdresp ∨ s.own.state = .wrreq → Spares (ownLine idx s.own) i

instance (s : Sys L) (i : In L) : Decidable (Quiet idx s i) :=
  inferInstanceAs (Decidable (_ → _ ∨ _ → Spares (ownLine idx s.own) i))

/-- what the adapter holds and is owed, by state -/
def Held (s : Sys L) : Prop :=
  match s.own.state with
  | .idle | .rdreq | .rsp => s.owed = none
  | .rdresp => s.owed.isSome ∧ (s.own.isWrReg = true → s.owed = some (s.mem (ownLine idx s.own)))
  | .wrreq => s.own.isWrReg = true ∧ s.own.lineReg = s.mem (ownLine idx s.own) ∧ s.owed = none
  | .wrresp => s.own.isWrReg = true ∧ s.owed = some 0

structure Fresh (s : Sys L) : Prop where
  off : OffOk s.own
  held : Held idx s

omit [DecidableEq L] in
theorem fresh_init (m : L → BitVec 512) : Fresh idx (init m) := ⟨rfl, rfl⟩

variable {idx}

theorem writes_ownLine (hq : Quiet idx s i) (hw : s.own.isWrReg = true)
    (hs : s.own.state = .rdresp ∨ s.own.state = .wrreq) :
    writes s.mem i.others (ownLine idx s.own) = s.mem (ownLine idx s.own) :=
  writes_of_ne _ _ _ (hq hw hs)

theorem fresh_step (h : Fresh idx s) (hq : Quiet idx s i) : Fresh idx (step idx s i) := by
  refine ⟨offOk_next _ _ h.off, ?_⟩
  have hh := h.held
  cases hs : s.own.state with
  | idle =>
    simp only [Held, hs] at hh
    rw [step_idle hs]
    cases hv : i.ext.reqValid <;> simp [Held, hs, hh, capture]
  | rdreq =>
    simp only [Held, hs] at hh
    rw [step_rdreq hs]
    cases hr : (portIn s i).reqReady <;> simp [Held, hs, hh, ownLine]
  | rdresp =>
    simp only [Held, hs] at hh
    rw [step_rdresp hs]
    cases hv : (portIn s i).respValid
    · simp only [Held, hs, Bool.false_eq_true, ite_false]
      exact ⟨hh.1, fun hw => by rw [hh.2 hw]; exact congrArg some (writes_ownLine hq hw (.inl hs)).symm⟩
    · have hbits := owed_of_respValid hv
      cases hw : s.own.isWrReg
      · simp [Held]
      · have hmem := hh.2 hw
        rw [hbits, Option.some.injEq] at hmem
        simpa [Held, hw, hmem, ownLine] using (writes_ownLine hq hw (.inl hs)).symm
  | wrreq =>
    simp only [Held, hs] at hh
    rw [step_wrreq h.off hs]
    cases hr : (portIn s i).reqReady
    · simpa [Held, hs, hh, ownLine] using (writes_ownLine hq hh.1 (.inr hs)).symm
    · simp [Held, hh.1]
  | wrresp =>
    simp only [Held, hs] at hh
    rw [step_wrresp hs]
    cases hv : (portIn s i).respValid <;> simp [Held, hs, hh]
  | rsp =>
    simp only [Held, hs] at hh
    rw [step_rsp hs]
    cases hv : i.ext.respReady <;> simp [Held, hs, hh]

/-! ## The log of word accesses -/

variable (idx)

inductive Ev where
  | word (q : WordMemReq)
  | line (q : MemReq) (old : BitVec 512)
  | resp (d : BitVec 512)
  | done

/-- the handshakes of one cycle; an accepted line request is shown with the contents of its line -/
def ev (s : Sys L) (i : In L) : List Ev :=
  (if wordReqFire s.own ⟨i.ext, portIn s i⟩ then [.word i.ext.req] else []) ++
  (if accepts client s i then [.line (hbmReq s.own) (writes s.mem i.others (idx (hbmReq s.own).addr))] else []) ++
  (if takes client s i then [.resp (portIn s i).respBits] else []) ++
  (if wordRespFire s.own ⟨i.ext, portIn s i⟩ then [.done] else [])

/-- one word access: its request, the line requests accepted for it with the old contents of their lines, and the
line responses taken for it -/
structure Txn where
  req : WordMemReq
  lines : List (MemReq × BitVec 512)
  resps : List (BitVec 512)
deriving DecidableEq

/-- the answered accesses and the one in progress -/
structure Log where
  finished : List Txn
  cur : Option Txn
deriving DecidableEq

def Log.add (g : Log) : Ev → Log
  | .word q => { g with cur := some ⟨q, [], []⟩ }
  | .line q old => { g with cur := g.cur.map fun t => { t with lines := t.lines ++ [(q, old)] } }
  | .resp d => { g with cur := g.cur.map fun t => { t with resps := t.resps ++ [d] } }
  | .done => ⟨g.finished ++ g.cur.toList, none⟩

/-- the log of a run -/
def log (s : Sys L) (ins : List (In L)) : Log := (collect (step idx) (ev idx) s ins).foldl Log.add ⟨[], none⟩

/-- the whole access `q` over the line contents `l` -/
def wholeTxn (q : WordMemReq) (l : BitVec 512) : Txn :=
  ⟨q, (readReq q, l) :: (if q.isWrite then [(writeReq q l, l)] else []), l :: (if q.isWrite then [0] else [])⟩

/-- the access in progress, read off the registers -/
def current (s : Sys L) : Option Txn :=
  match s.own.state with
  | .idle => none
  | .rdreq => some ⟨captured s.own, [], []⟩
  | .rdresp => some ⟨captured s.own, [(readReq (captured s.own), s.owed.getD 0)], []⟩
  | .wrreq => some ⟨captured s.own, [(readReq (captured s.own), s.own.lineReg)], [s.own.lineReg]⟩
  | .wrresp => some ⟨captured s.own, [(readReq (captured s.own), s.own.lineReg),
      (writeReq (captured s.own) s.own.lineReg, s.own.lineReg)], [s.own.lineReg]⟩
  | .rsp => some (wholeTxn (captured s.own) s.own.lineReg)

structure Logged (s : Sys L) (g : Log) : Prop extends Fresh idx s where
  cur : g.cur = current s
  finished : ∀ t ∈ g.finished, ∃ l, t = wholeTxn t.req l

variable {idx}

section Events

/-! Which handshake is possible depends on the state alone. -/

theorem ev_idle (hs : s.own.state = .idle) : ev idx s i = if i.ext.reqValid then [.word i.ext.req] else [] := by
  simp [ev, accepts, takes, client, hbmReqValid, hbmRespReady, wordReqFire, wordReqReady, wordRespFire, wordRespValid, hs]

theorem ev_rdreq (hs : s.own.state = .rdreq) : ev idx s i =
    if (portIn s i).reqReady then [.line (readReq (captured s.own)) (writes s.mem i.others (ownLine idx s.own))]
    else [] := by
  have hreq := hbmReq_rdreq hs
  simp [ev, accepts, takes, client, hbmReqValid, hbmRespReady, wordReqFire, wordReqReady, wordRespFire, wordRespValid,
    hs, hreq, readReq, captured, ownLine]

theorem ev_rdresp (hs : s.own.state = .rdresp) :
    ev idx s i = if (portIn s i).respValid then [.resp (portIn s i).respBits] else [] := by
  simp [ev, accepts, takes, client, hbmReqValid, hbmRespReady, wordReqFire, wordReqReady, wordRespFire, wordRespValid, hs]

theorem ev_wrreq (ho : OffOk s.own) (hs : s.own.state = .wrreq) : ev idx s i =
    if (portIn s i).reqReady then
      [.line (writeReq (captured s.own) s.own.lineReg) (writes s.mem i.others (ownLine idx s.own))]
    else [] := by
  have hreq := hbmReq_wrreq ho hs
  simp [ev, accepts, takes, client, hbmReqValid, hbmRespReady, wordReqFire, wordReqReady, wordRespFire, wordRespValid,
    hs, hreq, writeReq, captured, ownLine]

theorem ev_wrresp (hs : s.own.state = .wrresp) :
    ev idx s i = if (portIn s i).respValid then [.resp (portIn s i).respBits] else [] := by
  simp [ev, accepts, takes, client, hbmReqValid, hbmRespReady, wordReqFire, wordReqReady, wordRespFire, wordRespValid, hs]

theorem ev_rsp (hs : s.own.state = .rsp) : ev idx s i = if i.ext.respReady then [.done] else [] := by
  simp [ev, accepts, takes, client, hbmReqValid, hbmRespReady, wordReqFire, wordReqReady, wordRespFire, wordRespValid, hs]

end Events

/-- **One cycle keeps the log in step with the registers.** -/
theorem logged_step {g : Log} (h : Logged idx s g) (hq : Quiet idx s i) :
    Logged idx (step idx s i) ((ev idx s i).foldl Log.add g) := by
  obtain ⟨hf, hcur, hfin⟩ := h
  have hh := hf.held
  suffices hlog : ((ev idx s i).foldl Log.add g).cur = current (step idx s i) ∧
      ∀ t ∈ ((ev idx s i).foldl Log.add g).finished, ∃ l, t = wholeTxn t.req l from
    ⟨fresh_step hf hq, hlog.1, hlog.2⟩
  cases hs : s.own.state with
  | idle =>
    simp only [current, hs] at hcur
    rw [step_idle hs, ev_idle hs]
    split_ifs
    · exact ⟨by simp [current, capture, captured, Log.add], hfin⟩
    · exact ⟨by simp [current, hs, hcur], hfin⟩
  | rdreq =>
    simp only [current, hs] at hcur
    rw [step_rdreq hs, ev_rdreq hs]
    split_ifs
    · exact ⟨by simp [current, captured, Log.add, hcur, ownLine], hfin⟩
    · exact ⟨by simp [current, hs, hcur], hfin⟩
  | rdresp =>
    simp only [current, hs] at hcur
    rw [step_rdresp hs, ev_rdresp hs]
    split_ifs with hv hw
    · exact ⟨by simp [current, captured, Log.add, hcur, owed_of_respValid hv], hfin⟩
    · exact ⟨by simp [current, captured, Log.add, hcur, owed_of_respValid hv, wholeTxn, hw], hfin⟩
    · exact ⟨by simp [current, hs, hcur], hfin⟩
  | wrreq =>
    simp only [current, hs] at hcur
    simp only [Held, hs] at hh
    rw [step_wrreq hf.off hs, ev_wrreq hf.off hs]
    split_ifs
    · exact ⟨by simp [current, captured, Log.add, hcur, writes_ownLine hq hh.1 (.inr hs), hh.2.1], hfin⟩
    · exact ⟨by simp [current, hs, hcur], hfin⟩
  | wrresp =>
    simp only [current, hs] at hcur
    simp only [Held, hs] at hh
    rw [step_wrresp hs, ev_wrresp hs]
    split_ifs with hv
    · have hbits : (portIn s i).respBits = 0 := by simpa [hh.2] using (owed_of_respValid hv).symm
      exact ⟨by simp [current, captured, Log.add, hcur, hbits, wholeTxn, hh.1], hfin⟩
    · exact ⟨by simp [current, hs, hcur], hfin⟩
  | rsp =>
    simp only [current, hs] at hcur
    rw [step_rsp hs, ev_rsp hs]
    split_ifs
    · refine ⟨by simp [current, Log.add], fun t ht => ?_⟩
      simp only [List.foldl_cons, List.foldl_nil, Log.add, hcur, Option.toList_some, List.mem_append,
        List.mem_singleton] at ht
      rcases ht with ht | rfl
      · exact hfin t ht
      · exact ⟨s.own.lineReg, rfl⟩
    · exact ⟨by simp [current, hs, hcur], hfin⟩

theorem run_logged (m : L → BitVec 512) {ins : List (In L)} (hq : Always (step idx) (Quiet idx) (init m) ins) :
    Logged idx (run (step idx) (init m) ins) (log idx (init m) ins) :=
  run_ghost (Logged idx) (fun _ _ _ => logged_step) ⟨fresh_init idx m, rfl, by simp⟩ hq

/-! ## Every request is in the log -/

/-- the requests of a log, the one in progress last -/
def Log.reqs (g : Log) : List WordMemReq := (g.finished ++ g.cur.toList).map Txn.req

/-- the line requests of a log -/
def Log.lines (g : Log) : List (MemReq × BitVec 512) := (g.finished ++ g.cur.toList).flatMap Txn.lines

def Ev.asWord : Ev → Option WordMemReq
  | .word q => some q
  | _ => none

def Ev.asLine : Ev → Option (MemReq × BitVec 512)
  | .line q old => some (q, old)
  | _ => none

omit [DecidableEq L] in
/-- the access in progress is the one captured -/
theorem Logged.cur_req {g : Log} (h : Logged idx s g) {t : Txn} (ht : g.cur = some t) :
    s.own.state ≠ .idle ∧ t.req = captured s.own := by
  rw [h.cur] at ht
  cases hs : s.own.state with
  | idle => simp [current, hs] at ht
  | _ =>
    simp only [current, hs, wholeTxn, Option.some.injEq] at ht
    exact ⟨by simp, ht ▸ rfl⟩

omit [DecidableEq L] in
theorem Logged.cur_none {g : Log} (h : Logged idx s g) (hc : g.cur = none) : s.own.state = .idle := by
  rw [h.cur] at hc
  cases hs : s.own.state with
  | idle => rfl
  | _ => simp [current, hs] at hc

/-- nothing is requested on either port that the log does not have -/
theorem requests_step {g : Log} (h : Logged idx s g) :
    ((ev idx s i).foldl Log.add g).reqs = g.reqs ++ (ev idx s i).filterMap Ev.asWord ∧
      ((ev idx s i).foldl Log.add g).lines = g.lines ++ (ev idx s i).filterMap Ev.asLine := by
  have hcur := h.cur
  cases hs : s.own.state with
  | idle =>
    simp only [current, hs] at hcur
    rw [ev_idle hs]
    split_ifs <;> simp [Log.reqs, Log.lines, Log.add, Ev.asWord, Ev.asLine, hcur]
  | rdreq =>
    simp only [current, hs] at hcur
    rw [ev_rdreq hs]
    split_ifs <;> simp [Log.reqs, Log.lines, Log.add, Ev.asWord, Ev.asLine, hcur]
  | rdresp =>
    simp only [current, hs] at hcur
    rw [ev_rdresp hs]
    split_ifs <;> simp [Log.reqs, Log.lines, Log.add, Ev.asWord, Ev.asLine, hcur]
  | wrreq =>
    simp only [current, hs] at hcur
    rw [ev_wrreq h.off hs]
    split_ifs <;> simp [Log.reqs, Log.lines, Log.add, Ev.asWord, Ev.asLine, hcur]
  | wrresp =>
    simp only [current, hs] at hcur
    rw [ev_wrresp hs]
    split_ifs <;> simp [Log.reqs, Log.lines, Log.add, Ev.asWord, Ev.asLine, hcur]
  | rsp =>
    rw [ev_rsp hs]
    split_ifs <;> simp [Log.reqs, Log.lines, Log.add, Ev.asWord, Ev.asLine]

theorem requests_run {g : Log} (h : Logged idx s g) {ins : List (In L)} (hq : Always (step idx) (Quiet idx) s ins) :
    let es := collect (step idx) (ev idx) s ins
    (es.foldl Log.add g).reqs = g.reqs ++ es.filterMap Ev.asWord ∧
      (es.foldl Log.add g).lines = g.lines ++ es.filterMap Ev.asLine := by
  induction ins generalizing s g with
  | nil => simp
  | cons i ins ih =>
    obtain ⟨hreqs, hlines⟩ := requests_step (i := i) h
    obtain ⟨hreqs', hlines'⟩ := ih (logged_step h hq.1) hq.2
    simp only [collect_cons, List.foldl_append, List.filterMap_append]
    rw [hreqs', hlines', hreqs, hlines, List.append_assoc, List.append_assoc]
    exact ⟨rfl, rfl⟩

/-! ## Progress -/

/-- the memory or the word port holds the access up -/
def stalled (s : Sys L) (i : In L) : Bool :=
  match s.own.state with
  | .idle => false
  | .rdreq | .wrreq => !i.grant
  | .rdresp | .wrresp => !i.deliver
  | .rsp => !i.ext.respReady

/-- one item for every cycle in which nothing holds the access up -/
def unstalled (s : Sys L) (i : In L) : List Unit := if stalled s i then [] else [()]

/-- the unstalled cycles to the end of the access; a load takes a shorter way -/
def left (r : CoreMemToHBM.Reg) : ℕ :=
  match r.state with
  | .idle => 0
  | .rdreq => 5
  | .rdresp => 4
  | .wrreq => 3
  | .wrresp => 2
  | .rsp => 1

theorem left_le (r : CoreMemToHBM.Reg) : left r ≤ 5 := by
  unfold left
  split <;> omega

theorem left_pos {r : CoreMemToHBM.Reg} (h : r.state ≠ .idle) : 0 < left r := by
  cases hs : r.state with
  | idle => exact absurd hs h
  | _ => simp [left, hs]

/-- a cycle of an access ends it or brings it closer to its end -/
theorem busy_step {g : Log} (h : Logged idx s g) {t : Txn} (ht : g.cur = some t) :
    (ev idx s i).foldl Log.add g = ⟨g.finished ++ [t], none⟩ ∨
    ((ev idx s i).foldl Log.add g).finished = g.finished ∧
      (∃ t', ((ev idx s i).foldl Log.add g).cur = some t' ∧ t'.req = t.req) ∧
      left (step idx s i).own + (unstalled s i).length ≤ left s.own := by
  have hh := h.held
  cases hs : s.own.state with
  | idle => exact absurd hs (h.cur_req ht).1
  | rdreq =>
    simp only [Held, hs] at hh
    rw [step_rdreq hs, ev_rdreq hs]
    cases hg : i.grant <;> simp [portIn, hh, hg, Log.add, ht, left, hs, unstalled, stalled]
  | rdresp =>
    simp only [Held, hs] at hh
    rw [step_rdresp hs, ev_rdresp hs]
    cases hd : i.deliver <;> cases hw : s.own.isWrReg <;>
      simp [portIn, hh.1, hd, hw, Log.add, ht, left, hs, unstalled, stalled]
  | wrreq =>
    simp only [Held, hs] at hh
    rw [step_wrreq h.off hs, ev_wrreq h.off hs]
    cases hg : i.grant <;> simp [portIn, hh.2.2, hg, Log.add, ht, left, hs, unstalled, stalled]
  | wrresp =>
    simp only [Held, hs] at hh
    rw [step_wrresp hs, ev_wrresp hs]
    cases hd : i.deliver <;> simp [portIn, hh.2, hd, Log.add, ht, left, hs, unstalled, stalled]
  | rsp =>
    rw [step_rsp hs, ev_rsp hs]
    cases hr : i.ext.respReady <;> simp [Log.add, ht, left, hs, unstalled, stalled, hr]

/-- a log only grows -/
theorem finished_add (g : Log) (es : List Ev) : g.finished <+: (es.foldl Log.add g).finished := by
  induction es generalizing g with
  | nil => exact List.prefix_rfl
  | cons e es ih =>
    refine List.IsPrefix.trans ?_ (ih (g.add e))
    cases e with
    | done => exact List.prefix_append _ _
    | _ => exact List.prefix_rfl

/-- the access in progress is answered once it has had `left` unstalled cycles -/
theorem finishes {g : Log} (h : Logged idx s g) {t : Txn} (ht : g.cur = some t) {more : List (In L)}
    (hq : Always (step idx) (Quiet idx) s more) (hmore : left s.own ≤ (collect (step idx) unstalled s more).length) :
    ∃ t', t'.req = t.req ∧ g.finished ++ [t'] <+: ((collect (step idx) (ev idx) s more).foldl Log.add g).finished := by
  induction more generalizing s g t with
  | nil => exact absurd hmore (Nat.not_le.2 (left_pos (h.cur_req ht).1))
  | cons i more ih =>
    rw [collect_cons, List.length_append] at hmore
    rw [collect_cons, List.foldl_append]
    rcases busy_step (i := i) h ht with hend | ⟨hfin, ⟨t', hcur, hreq⟩, hleft⟩
    · refine ⟨t, rfl, ?_⟩
      rw [hend]
      exact finished_add ⟨g.finished ++ [t], none⟩ _
    · obtain ⟨t'', hreq', hprefix⟩ := ih (logged_step h hq.1) hcur hq.2 (by omega)
      exact ⟨t'', hreq'.trans hreq, hfin ▸ hprefix⟩

/-! ## Stores -/

/-- the line accesses of a store over the line `old`: it is read, and written back as `new` -/
def readWrite (q : WordMemReq) (old new : BitVec 512) : List (MemReq × BitVec 512) :=
  [(⟨lineBase q.addr, 0, false⟩, old), (⟨lineBase q.addr, new, true⟩, old)]

theorem wholeTxn_store {q : WordMemReq} (hw : q.isWrite = true) (l : BitVec 512) :
    (wholeTxn q l).lines = readWrite q l (storeLine q l) ∧ (wholeTxn q l).resps = [l, 0] := by
  simp [wholeTxn, readWrite, hw, readReq, writeReq]

omit [DecidableEq L] in
/-- a store in progress has made the first of its accesses, and all of them when it is answered -/
theorem current_store {t : Txn} (ht : current s = some t) (hw : t.req.isWrite = true) :
    ∃ old, t.lines <+: readWrite t.req old (storeLine t.req old) ∧ t.resps <+: [old, 0] ∧
      (wordRespValid s.own = true → t.lines = readWrite t.req old (storeLine t.req old) ∧ t.resps = [old, 0]) := by
  cases hs : s.own.state with
  | idle => simp [current, hs] at ht
  | rdreq =>
    simp only [current, hs, Option.some.injEq] at ht
    exact ⟨0, by simp [← ht, wordRespValid, hs]⟩
  | rdresp =>
    simp only [current, hs, Option.some.injEq] at ht
    exact ⟨s.owed.getD 0, by simp [← ht, wordRespValid, hs, readWrite, readReq]⟩
  | wrreq =>
    simp only [current, hs, Option.some.injEq] at ht
    exact ⟨s.own.lineReg, by simp [← ht, wordRespValid, hs, readWrite, readReq]⟩
  | wrresp =>
    simp only [current, hs, Option.some.injEq] at ht
    exact ⟨s.own.lineReg, by simp [← ht, wordRespValid, hs, readWrite, readReq, writeReq]⟩
  | rsp =>
    simp only [current, hs, Option.some.injEq] at ht
    subst ht
    obtain ⟨hlines, hresps⟩ := wholeTxn_store hw s.own.lineReg
    exact ⟨s.own.lineReg, hlines ▸ List.prefix_rfl, hresps ▸ List.prefix_rfl, fun _ => ⟨hlines, hresps⟩⟩

variable (idx) in
/-- **When a store is exact.** In every run in which no other agent writes the adapter's line between its read and its
write-back:
- the log has every request that the word port has accepted and every line request that has been accepted from the adapter, in
  order;
- every answered store was one line read and one line write, both to the line of its address and both answered before the
  store was. The written line is the old one with exactly the store's bytes replaced if and only if no unused upper bit
  of the data spills onto a clear bit of the line;
- a store in progress has made the first of these accesses, and all of them by the time its response is offered;
- between accesses the next request is accepted at once, and an access in progress is answered in every continuation in which
  neither the memory nor the word port holds it up for five cycles. -/
theorem store_exact_iff (m : L → BitVec 512) (ins : List (In L)) (hq : Always (step idx) (Quiet idx) (init m) ins) :
    let s := run (step idx) (init m) ins
    let es := collect (step idx) (ev idx) (init m) ins
    let g := log idx (init m) ins
    (g.reqs = es.filterMap Ev.asWord ∧ g.lines = es.filterMap Ev.asLine) ∧
    (∀ t ∈ g.finished, t.req.isWrite = true → ∃ old new, t.lines = readWrite t.req old new ∧ t.resps = [old, 0] ∧
      (new = storeBytes t.req old ↔ NoSpill t.req old)) ∧
    (∀ t, g.cur = some t → t.req.isWrite = true → ∃ old new, t.lines <+: readWrite t.req old new ∧ t.resps <+: [old, 0] ∧
      (wordRespValid s.own = true → t.lines = readWrite t.req old new ∧ t.resps = [old, 0]) ∧
      (new = storeBytes t.req old ↔ NoSpill t.req old)) ∧
    (g.cur = none → wordReqReady s.own = true) ∧
    (∀ t, g.cur = some t → ∀ more, Always (step idx) (Quiet idx) s more →
      5 ≤ (collect (step idx) unstalled s more).length →
      ∃ t', t'.req = t.req ∧ g.finished ++ [t'] <+: (log idx (init m) (ins ++ more)).finished) := by
  intro s es g
  have hlog : Logged idx s g := run_logged m hq
  refine ⟨?_, fun t ht hw => ?_, fun t ht hw => ?_, fun hnone => ?_, fun t ht more hmore hlen => ?_⟩
  · exact requests_run ⟨fresh_init idx m, rfl, by simp⟩ hq
  · obtain ⟨l, hl⟩ := hlog.finished t ht
    obtain ⟨hlines, hresps⟩ := wholeTxn_store hw l
    rw [← hl] at hlines hresps
    exact ⟨l, _, hlines, hresps, storeLine_eq_iff _ _⟩
  · obtain ⟨old, hlines, hresps, hdone⟩ := current_store (hlog.cur ▸ ht) hw
    exact ⟨old, _, hlines, hresps, hdone, storeLine_eq_iff _ _⟩
  · simp [wordReqReady, hlog.cur_none hnone]
  · obtain ⟨t', hreq, hprefix⟩ := finishes hlog ht hmore ((left_le _).trans hlen)
    refine ⟨t', hreq, ?_⟩
    rw [log, collect_append, List.foldl_append]
    exact hprefix

/-- one store on a memory that answers at once -/
def oneStore (q : WordMemReq) : List (In L) :=
  ⟨⟨true, q, true⟩, true, true, 0, []⟩ :: List.replicate 5 ⟨⟨false, q, true⟩, true, true, 0, []⟩

/-- a byte store of `0x1ff` to byte 0 -/
def byteStore : WordMemReq := ⟨0, 0x1ff, true, 2⟩

/-- the store is in progress after its first cycle, is answered by the others, and then was one read and one write -/
theorem store_exact_iff_byteStore :
    (∃ t, t.req = byteStore ∧ [t] <+: (log (fun _ => ()) (init fun _ => 0) (oneStore byteStore)).finished) ∧
    ∃ old new, (wholeTxn byteStore 0).lines = readWrite byteStore old new ∧ (wholeTxn byteStore 0).resps = [old, 0] ∧
      (new = storeBytes byteStore old ↔ NoSpill byteStore old) := by
  constructor
  · obtain ⟨-, -, -, -, hprogress⟩ :=
      store_exact_iff (fun _ => ()) (fun _ => 0) ((oneStore byteStore).take 1) (by decide +kernel)
    exact hprogress ⟨byteStore, [], []⟩ (by decide +kernel) ((oneStore byteStore).drop 1) (by decide +kernel)
      (by decide +kernel)
  · obtain ⟨-, hfinished, -⟩ := store_exact_iff (fun _ => ()) (fun _ => 0) (oneStore byteStore) (by decide +kernel)
    exact hfinished (wholeTxn byteStore 0) (by decide +kernel) rfl

/-- **A byte store can change the byte after its own.** Over a zero line the store writes `0x1ff` where `0xff` is
asked for. -/
theorem byte_store_spills :
    Always (step fun _ => ()) (Quiet fun _ => ()) (init fun _ => 0) (oneStore byteStore) ∧
    (log (fun _ => ()) (init fun _ => 0) (oneStore byteStore)).finished =
      [⟨byteStore, [(⟨0, 0, false⟩, 0), (⟨0, 0x1ff, true⟩, 0)], [0, 0]⟩] ∧
    storeBytes byteStore 0 = 0xff := by
  decide +kernel

end AegisSoc.StoreExact
