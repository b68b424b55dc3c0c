/-
The CPU lane: the core on its word port, the adapter between it and the line fabric.

`Mach` is a machine that executes one instruction per step on a memory of its own. The lane, attached to a memory that
other agents write too, follows it as long as nobody else writes the lines `K` that the lane accesses: `tracks_step` for
one cycle, `tracks_run` for a run. What the other agents do, and when, leaves no trace in the retired states, in the
lines accessed or in the contents of `K`.
-/
import AegisSoc.Cpu.StallInsensitive
import AegisSoc.Cpu.StoreExact

namespace AegisSoc.CpuLane

open Machine PortMemory RiscVICore StallInsensitive CoreMemToHBM
open PortClient hiding step

/-! ## Model -/

structure Reg where
  core : RiscVICore.Reg
  adp : CoreMemToHBM.Reg

/-- the boot port -/
structure Boot where
  progWe : Bool
  progAddr : BitVec 8
  progData : BitVec 32
  start : Bool
deriving DecidableEq, Repr

/-- what the core drives on the word port -/
def wordOut (r : Reg) : WordOut := ⟨memReqValid true r.core, memReq r.core, memRespReady r.core⟩

/-- what the core sees -/
def coreIn (r : Reg) (x : Boot) : RiscVICore.In :=
  ⟨x.progWe, x.progAddr, x.progData, x.start, wordReqReady r.adp, wordRespValid r.adp, wordRespBits r.adp⟩

def next (r : Reg) (x : Boot) (m : MemIn) : Reg where
  core := RiscVICore.next true r.core (coreIn r x)
  adp := CoreMemToHBM.next r.adp ⟨wordOut r, m⟩

def reset : Reg := ⟨RiscVICore.reset, CoreMemToHBM.reset⟩

/-- the lane as a client of the line fabric -/
def client : LineClient Reg Boot where
  reqValid r _ := hbmReqValid r.adp
  req r _ := hbmReq r.adp
  respReady r _ := hbmRespReady r.adp
  next := next

theorem waiting : Waiting client fun r => hbmRespReady r.adp where
  ready _ _ := rfl
  accepted r _ m hv hr := CoreMemToHBM.waiting.accepted r.adp (wordOut r) m hv hr
  taken r _ m hw hv := CoreMemToHBM.waiting.taken r.adp (wordOut r) m hw hv
  held r _ m hq hp := CoreMemToHBM.waiting.held r.adp (wordOut r) m hq hp

/-- the size code of a request -/
theorem bytes_request (inst : BitVec 32) (a : Arch) :
    bytes (request inst a).size = if byteOp inst then 1 else if halfOp inst then 2 else 4 := by
  cases hb : byteOp inst <;> cases hh : halfOp inst <;> simp [request, bytes, hb, hh]

/-! ## The machine with a memory of its own -/

/-- the architectural state and the memory -/
structure Mach (L : Type*) where
  arch : Arch
  mem : L → BitVec 512

section Machine

variable {L : Type*} [DecidableEq L] (img : BitVec 8 → BitVec 32) (idx : BitVec 64 → L)

namespace Mach

variable (m : Mach L)

def inst : BitVec 32 := fetch img m.arch.pc

/-- the access of the instruction at the pc, if it has one -/
def req : WordMemReq := request (m.inst img) m.arch

/-- its line -/
def line : L := idx (lineBase (m.req img).addr)

/-- what it is returned -/
def data : BitVec 32 := if isStore (m.inst img) then 0 else loadField (m.req img) (m.mem (m.line img idx))

/-- one instruction -/
def next : Mach L where
  arch := exec img m.arch (m.data img idx)
  mem :=
    if isStore (m.inst img) then
      Function.update m.mem (m.line img idx) (storeLine (m.req img) (m.mem (m.line img idx)))
    else m.mem

/-- the lines of the requests its access makes: a read, and a write-back for a store -/
def lines : List L :=
  if isLoad (m.inst img) then [m.line img idx]
  else if isStore (m.inst img) then [m.line img idx, m.line img idx]
  else []

end Mach

/-- the machine after `n` instructions, from the memory `m₀` -/
def mach (m₀ : L → BitVec 512) (n : ℕ) : Mach L := (Mach.next img idx)^[n] ⟨boot, m₀⟩

/-- the lines of the requests of the first `n` instructions -/
def machLines (m₀ : L → BitVec 512) (n : ℕ) : List L := (List.range n).flatMap fun k => (mach img idx m₀ k).lines img idx

theorem mach_succ (m₀ : L → BitVec 512) (n : ℕ) : mach img idx m₀ (n + 1) = (mach img idx m₀ n).next img idx :=
  Function.iterate_succ_apply' _ _ _

theorem machLines_succ (m₀ : L → BitVec 512) (n : ℕ) :
    machLines img idx m₀ (n + 1) = machLines img idx m₀ n ++ (mach img idx m₀ n).lines img idx := by
  simp [machLines, List.range_succ]

end Machine

/-- an instruction without a memory access does not read the data -/
theorem exec_congr {img : BitVec 8 → BitVec 32} {a : Arch} (h : isMem (fetch img a.pc) = false) (d d' : BitVec 32) :
    exec img a d = exec img a d' := by
  have hl : isLoad (fetch img a.pc) = false := by
    simp only [isMem, Bool.or_eq_false_iff] at h
    exact h.1
  simp [exec, hl]

/-! ## The lane on a line memory -/

section Lane

variable {L : Type*} [DecidableEq L] (img : BitVec 8 → BitVec 32) (idx : BitVec 64 → L) (K : L → Prop)

abbrev Sys (L : Type*) := PortClient.Reg Reg L (BitVec 512)
abbrev In (L : Type*) := PortClient.In Boot L (BitVec 512)

def step : Sys L → In L → Sys L := PortClient.step client (MemReq.access idx)

/-- the adapter's side of the lane -/
def adpSys (s : Sys L) : StoreExact.Sys L := ⟨s.own.adp, s.mem, s.owed⟩

def adpIn (s : Sys L) (i : In L) : StoreExact.In L := ⟨wordOut s.own, i.grant, i.deliver, i.bus, i.others⟩

theorem step_adp (s : Sys L) (i : In L) : adpSys (step idx s i) = StoreExact.step idx (adpSys s) (adpIn s i) := rfl

theorem step_core (s : Sys L) (i : In L) :
    (step idx s i).own.core = StallInsensitive.step s.own.core (coreIn s.own i.ext) := rfl

/-- the memories agree on `K` -/
def Agree (m m' : L → BitVec 512) : Prop := ∀ k, K k → m k = m' k

/-- where the access of the instruction at `m` has come to: the core waits or not (`w`), the adapter holds `a`, and the
memory `mem` owes the answer `o` -/
def Phase (m : Mach L) (w : Bool) (a : CoreMemToHBM.Reg) (mem : L → BitVec 512) (o : Option (BitVec 512)) : Prop :=
  match a.state with
  | .idle => w = false ∧ o = none ∧ Agree K mem m.mem
  | .rdreq => w = true ∧ captured a = m.req img ∧ o = none ∧ Agree K mem m.mem
  | .rdresp =>
    w = true ∧ captured a = m.req img ∧ o = some (m.mem (m.line img idx)) ∧ K (m.line img idx) ∧ Agree K mem m.mem
  | .wrreq =>
    w = true ∧ captured a = m.req img ∧ o = none ∧ K (m.line img idx) ∧ isStore (m.inst img) = true ∧
      a.lineReg = m.mem (m.line img idx) ∧ Agree K mem m.mem
  | .wrresp =>
    w = true ∧ captured a = m.req img ∧ o = some 0 ∧ isStore (m.inst img) = true ∧ Agree K mem (m.next img idx).mem
  | .rsp =>
    w = true ∧ captured a = m.req img ∧ o = none ∧ wordRespBits a = m.data img idx ∧ Agree K mem (m.next img idx).mem

/-- the lines of the requests already accepted for the instruction at `m` -/
def asked (m : Mach L) (a : CoreMemToHBM.Reg) : List L :=
  match a.state with
  | .idle | .rdreq => []
  | .rdresp | .wrreq => [m.line img idx]
  | .wrresp | .rsp => m.lines img idx

/-- the lane stands at instruction `ds.length` of the machine; the core was returned `ds`, and the requests accepted so
far went to the lines `ls` -/
structure Tracks (m₀ : L → BitVec 512) (s : Sys L) (ds : List (BitVec 32)) (ls : List L) : Prop where
  follows : Follows img s.own.core ds
  arch : isa img ds = (mach img idx m₀ ds.length).arch
  noHalt : ∀ k < ds.length, isHalt ((mach img idx m₀ k).inst img) = false
  off : OffOk s.own.adp
  phase : Phase img idx K (mach img idx m₀ ds.length) s.own.core.memWait s.own.adp s.mem s.owed
  lines : ls = machLines img idx m₀ ds.length ++ asked img idx (mach img idx m₀ ds.length) s.own.adp

/-- the data returned to the instruction retired in this cycle -/
def returned (s : Sys L) (i : In L) : List (BitVec 32) := StallInsensitive.data s.own.core (coreIn s.own i.ext)

/-- the line of the request accepted in this cycle -/
def accepted (s : Sys L) (i : In L) : List L :=
  if accepts client s i then [idx (hbmReq s.own.adp).addr] else []

/-- the image is not rewritten before the core halts; nobody else writes `K`, and the lane's requests go to `K` -/
structure Kept (s : Sys L) (i : In L) : Prop where
  fixed : Fixed s.own.core (coreIn s.own i.ext)
  spared : ∀ w ∈ i.others, ¬ K w.1
  inside : ∀ k ∈ accepted idx s i, K k

variable {img idx K} {m₀ : L → BitVec 512} {s : Sys L} {i : In L} {ds : List (BitVec 32)} {ls : List L}

/-! ## The core's side of a cycle -/

section Core

variable {r : RiscVICore.Reg} {x : RiscVICore.In}

/-- a core that waits for a response and gets none -/
theorem core_hold (h : Follows img r ds) (hf : Fixed r x) (hm : r.memWait = true) (hv : x.memRespValid = false) :
    retires true r x = false ∧ Follows img (StallInsensitive.step r x) ds ∧
      (StallInsensitive.step r x).memWait = true := by
  obtain ⟨hh, -⟩ := h.waiting hm
  have hstep : StallInsensitive.step r x = r :=
    (next_running h.running hh (hf hh)).trans (execute_hold h.noLoad hm hv)
  have hret : retires true r x = false := by simp [retires, memRespFire, h.noLoad, hm, hv]
  rw [hstep]
  exact ⟨hret, h, hm⟩

/-- a core that gets the response it waits for -/
theorem core_take (h : Follows img r ds) (hf : Fixed r x) (hm : r.memWait = true) (hv : x.memRespValid = true) :
    retires true r x = true ∧ StallInsensitive.step r x = takeResp r x.memRespBits := by
  obtain ⟨hh, -⟩ := h.waiting hm
  refine ⟨?_, (next_running h.running hh (hf hh)).trans (execute_takeResp h.noLoad hm hv)⟩
  simp [retires, memRespFire, memRespReady, h.running, hh, h.noLoad, hm, hv]

end Core

/-! ## Every cycle -/

theorem Agree.writes {m : L → BitVec 512} (h : Agree K s.mem m) (hs : ∀ w ∈ i.others, ¬ K w.1) :
    Agree K (writes s.mem i.others) m := fun k hk => by
  rw [writes_of_ne _ _ _ fun w hw hwk => hs w hw (hwk ▸ hk)]
  exact h k hk

/-- the fields of the lane after a cycle, from the adapter's side -/
theorem step_fields {t : StoreExact.Sys L} (h : StoreExact.step idx (adpSys s) (adpIn s i) = t) :
    (step idx s i).own.adp = t.own ∧ (step idx s i).mem = t.mem ∧ (step idx s i).owed = t.owed := by
  rw [← step_adp] at h
  subst h
  exact ⟨rfl, rfl, rfl⟩

/-- a cycle in which the core waits: only the adapter and the memory move -/
theorem tracks_hold (h : Tracks img idx K m₀ s ds ls) (hk : Kept idx K s i) (hm : s.own.core.memWait = true)
    (hv : wordRespValid s.own.adp = false)
    (hphase : Phase img idx K (mach img idx m₀ ds.length) true (step idx s i).own.adp (step idx s i).mem
      (step idx s i).owed)
    (hlines : asked img idx (mach img idx m₀ ds.length) (step idx s i).own.adp =
      asked img idx (mach img idx m₀ ds.length) s.own.adp ++ accepted idx s i) :
    Tracks img idx K m₀ (step idx s i) (ds ++ returned s i) (ls ++ accepted idx s i) := by
  obtain ⟨hret, hF, hm'⟩ := core_hold h.follows hk.fixed hm hv
  have hnone : returned s i = [] := by rw [returned, data, hret]; rfl
  rw [hnone, List.append_nil]
  refine ⟨hF, h.arch, h.noHalt, offOk_next _ _ h.off, ?_, ?_⟩
  · rw [step_core, hm']
    exact hphase
  · rw [hlines, h.lines, List.append_assoc]

omit [DecidableEq L] in
/-- the line of the access in progress -/
theorem ownLine_eq {m : Mach L} (h : captured s.own.adp = m.req img) :
    StoreExact.ownLine idx s.own.adp = m.line img idx := by
  rw [StoreExact.ownLine, Mach.line, ← h]
  rfl

omit [DecidableEq L] in
theorem accepted_eq {m : Mach L} (h : captured s.own.adp = m.req img) :
    accepted idx s i = if accepts client s i then [m.line img idx] else [] := by
  rw [← ownLine_eq h]
  rfl

omit [DecidableEq L] in
theorem portIn_adp : portIn (adpSys s) (adpIn s i) = portIn s i := rfl

omit [DecidableEq L] in
theorem accepted_none (h : hbmReqValid s.own.adp = false) : accepted idx s i = [] := by
  simp [accepted, accepts, client, h]

theorem tracks_rdreq (h : Tracks img idx K m₀ s ds ls) (hk : Kept idx K s i) (hs : s.own.adp.state = .rdreq) :
    Tracks img idx K m₀ (step idx s i) (ds ++ returned s i) (ls ++ accepted idx s i) := by
  have hph := h.phase
  simp only [Phase, hs] at hph
  obtain ⟨hm, hcap, ho, hag⟩ := hph
  have hag' := hag.writes hk.spared
  have hacc : accepted idx s i = _ := accepted_eq hcap
  rw [show accepts client s i = (portIn s i).reqReady by simp [accepts, client, hbmReqValid, hs]] at hacc
  have hstep : StoreExact.step idx (adpSys s) (adpIn s i) = _ := StoreExact.step_rdreq hs
  rw [portIn_adp] at hstep
  cases hr : (portIn s i).reqReady with
  | true =>
    rw [hr, if_pos rfl] at hstep hacc
    obtain ⟨hadp, hmem, howed⟩ := step_fields hstep
    have hK : K ((mach img idx m₀ ds.length).line img idx) := hk.inside _ (by rw [hacc]; exact List.mem_singleton_self _)
    refine tracks_hold h hk hm (by simp [wordRespValid, hs]) ?_ ?_
    · rw [hadp, hmem, howed]
      refine ⟨rfl, hcap, congrArg some ?_, hK, hag'⟩
      exact (congrArg _ (ownLine_eq hcap)).trans (hag' _ hK)
    · rw [hadp, hacc]
      simp [asked, hs]
  | false =>
    rw [hr, if_neg Bool.false_ne_true] at hstep hacc
    obtain ⟨hadp, hmem, howed⟩ := step_fields hstep
    refine tracks_hold h hk hm (by simp [wordRespValid, hs]) ?_ ?_
    · rw [hadp, hmem, howed]
      simp only [Phase, adpSys, hs]
      exact ⟨trivial, hcap, ho, hag'⟩
    · rw [hadp, hacc]
      simp [asked, adpSys]

/-- a waiting core waits for a load or a store -/
theorem isMem_of_waiting (h : Tracks img idx K m₀ s ds ls) (hm : s.own.core.memWait = true) :
    isMem ((mach img idx m₀ ds.length).inst img) = true := by
  have hw := (h.follows.waiting hm).2.isMem
  rwa [h.arch] at hw

theorem noHalt_succ (h : Tracks img idx K m₀ s ds ls) (hn : isHalt ((mach img idx m₀ ds.length).inst img) = false)
    (d : BitVec 32) : ∀ k < (ds ++ [d]).length, isHalt ((mach img idx m₀ k).inst img) = false := by
  intro k hk
  rw [List.length_append, List.length_singleton] at hk
  rcases Nat.lt_succ_iff_lt_or_eq.1 hk with hk | rfl
  · exact h.noHalt k hk
  · exact hn

theorem Mach.next_mem_of_not_store {m : Mach L} (h : isStore (m.inst img) = false) :
    (m.next img idx).mem = m.mem := by
  simp [Mach.next, h]

theorem tracks_rdresp (h : Tracks img idx K m₀ s ds ls) (hk : Kept idx K s i) (hs : s.own.adp.state = .rdresp) :
    Tracks img idx K m₀ (step idx s i) (ds ++ returned s i) (ls ++ accepted idx s i) := by
  have hph := h.phase
  simp only [Phase, hs] at hph
  obtain ⟨hm, hcap, ho, hK, hag⟩ := hph
  have hag' := hag.writes hk.spared
  have hacc : accepted idx s i = [] := accepted_none (by simp [hbmReqValid, hs])
  have hmemi := isMem_of_waiting h hm
  have hwr : s.own.adp.isWrReg = isStore ((mach img idx m₀ ds.length).inst img) := congrArg WordMemReq.isWrite hcap
  have hstep : StoreExact.step idx (adpSys s) (adpIn s i) = _ := StoreExact.step_rdresp hs
  rw [portIn_adp] at hstep
  cases hv : (portIn s i).respValid with
  | true =>
    rw [hv, if_pos rfl] at hstep
    obtain ⟨hadp, hmem, howed⟩ := step_fields hstep
    have hbits : (portIn s i).respBits = (mach img idx m₀ ds.length).mem ((mach img idx m₀ ds.length).line img idx) := by
      have hobits := owed_of_respValid hv
      rw [ho, Option.some.injEq] at hobits
      exact hobits.symm
    cases hst : isStore ((mach img idx m₀ ds.length).inst img) with
    | true =>
      have hstate : (step idx s i).own.adp.state = .wrreq := by rw [hadp]; simp [adpSys, hwr, hst]
      refine tracks_hold h hk hm (by simp [wordRespValid, hs]) ?_ ?_
      · simp only [Phase, hstate]
        exact ⟨trivial, by rw [hadp]; exact hcap, by rw [howed], hK, hst, by rw [hadp]; exact hbits,
          by rw [hmem]; exact hag'⟩
      · simp only [asked, hstate, hs, hacc, List.append_nil]
    | false =>
      have hload : isLoad ((mach img idx m₀ ds.length).inst img) = true := by simpa [isMem, hst] using hmemi
      have hstate : (step idx s i).own.adp.state = .rsp := by rw [hadp]; simp [adpSys, hwr, hst]
      refine tracks_hold h hk hm (by simp [wordRespValid, hs]) ?_ ?_
      · simp only [Phase, hstate]
        refine ⟨trivial, by rw [hadp]; exact hcap, by rw [howed], ?_, ?_⟩
        · have hoff : OffOk (step idx s i).own.adp := offOk_next _ _ h.off
          have hcap' : captured (step idx s i).own.adp = (mach img idx m₀ ds.length).req img := by rw [hadp]; exact hcap
          have hnw : (step idx s i).own.adp.isWrReg = false := by rw [hadp]; exact hwr.trans hst
          have hline : (step idx s i).own.adp.lineReg = (portIn s i).respBits := by rw [hadp]
          rw [wordRespBits_eq hoff, hcap', hline, hbits, Mach.data, hnw, hst]
        · rw [hmem, Mach.next_mem_of_not_store hst]
          exact hag'
      · simp only [asked, hstate, hs, hacc, List.append_nil, Mach.lines, hload, ite_true]
  | false =>
    rw [hv, if_neg Bool.false_ne_true] at hstep
    obtain ⟨hadp, hmem, howed⟩ := step_fields hstep
    refine tracks_hold h hk hm (by simp [wordRespValid, hs]) ?_ ?_
    · rw [hadp, hmem, howed]
      simp only [Phase, adpSys, hs]
      exact ⟨trivial, hcap, ho, hK, hag'⟩
    · rw [hadp, hacc]
      simp [asked, adpSys]

/-- the write-back makes the memory agree with that of the next instruction -/
theorem Agree.store {m : Mach L} {mem : L → BitVec 512} (h : Agree K mem m.mem) (hst : isStore (m.inst img) = true) :
    Agree K (Function.update mem (m.line img idx) (storeLine (m.req img) (m.mem (m.line img idx))))
      (m.next img idx).mem := by
  intro k hk
  simp only [Mach.next, hst, ite_true]
  by_cases hkl : k = m.line img idx
  · subst hkl
    rw [Function.update_self, Function.update_self]
  · rw [Function.update_of_ne hkl, Function.update_of_ne hkl]
    exact h k hk

omit [DecidableEq L] in
theorem Mach.lines_of_store {m : Mach L} (h : isStore (m.inst img) = true) :
    m.lines img idx = [m.line img idx, m.line img idx] := by
  have hl : isLoad (m.inst img) = false := by
    cases hl : isLoad (m.inst img) with
    | false => rfl
    | true => exact absurd ((isStore_of_isLoad hl).symm.trans h) Bool.false_ne_true
  simp [Mach.lines, hl, h]

theorem tracks_wrreq (h : Tracks img idx K m₀ s ds ls) (hk : Kept idx K s i) (hs : s.own.adp.state = .wrreq) :
    Tracks img idx K m₀ (step idx s i) (ds ++ returned s i) (ls ++ accepted idx s i) := by
  have hph := h.phase
  simp only [Phase, hs] at hph
  obtain ⟨hm, hcap, ho, hK, hst, hline, hag⟩ := hph
  have hag' := hag.writes hk.spared
  have hacc : accepted idx s i = _ := accepted_eq hcap
  rw [show accepts client s i = (portIn s i).reqReady by simp [accepts, client, hbmReqValid, hs]] at hacc
  have hstep : StoreExact.step idx (adpSys s) (adpIn s i) = _ := StoreExact.step_wrreq h.off hs
  rw [portIn_adp] at hstep
  cases hr : (portIn s i).reqReady with
  | true =>
    rw [hr, if_pos rfl] at hstep hacc
    obtain ⟨hadp, hmem, howed⟩ := step_fields hstep
    refine tracks_hold h hk hm (by simp [wordRespValid, hs]) ?_ ?_
    · rw [hadp, hmem, howed]
      refine ⟨rfl, hcap, rfl, hst, ?_⟩
      have hown : StoreExact.ownLine idx (adpSys s).own = (mach img idx m₀ ds.length).line img idx := ownLine_eq hcap
      have hcap' : captured (adpSys s).own = (mach img idx m₀ ds.length).req img := hcap
      have hline' : (adpSys s).own.lineReg = _ := hline
      simp only [hown, hcap', hline']
      exact hag'.store hst
    · rw [hadp, hacc]
      simp [asked, hs, Mach.lines_of_store hst]
  | false =>
    rw [hr, if_neg Bool.false_ne_true] at hstep hacc
    obtain ⟨hadp, hmem, howed⟩ := step_fields hstep
    refine tracks_hold h hk hm (by simp [wordRespValid, hs]) ?_ ?_
    · rw [hadp, hmem, howed]
      simp only [Phase, adpSys, hs]
      exact ⟨trivial, hcap, ho, hK, hst, hline, hag'⟩
    · rw [hadp, hacc]
      simp [asked, adpSys]

theorem tracks_wrresp (h : Tracks img idx K m₀ s ds ls) (hk : Kept idx K s i) (hs : s.own.adp.state = .wrresp) :
    Tracks img idx K m₀ (step idx s i) (ds ++ returned s i) (ls ++ accepted idx s i) := by
  have hph := h.phase
  simp only [Phase, hs] at hph
  obtain ⟨hm, hcap, ho, hst, hag⟩ := hph
  have hag' := hag.writes hk.spared
  have hacc : accepted idx s i = [] := accepted_none (by simp [hbmReqValid, hs])
  have hwr : s.own.adp.isWrReg = true := (congrArg WordMemReq.isWrite hcap).trans hst
  have hstep : StoreExact.step idx (adpSys s) (adpIn s i) = _ := StoreExact.step_wrresp hs
  rw [portIn_adp] at hstep
  cases hv : (portIn s i).respValid with
  | true =>
    rw [hv, if_pos rfl] at hstep
    obtain ⟨hadp, hmem, howed⟩ := step_fields hstep
    refine tracks_hold h hk hm (by simp [wordRespValid, hs]) ?_ ?_
    · rw [hadp, hmem, howed]
      refine ⟨rfl, hcap, rfl, ?_, hag'⟩
      have hwr' : (adpSys s).own.isWrReg = true := hwr
      simp [wordRespBits, hwr', Mach.data, hst]
    · rw [hadp, hacc]
      simp [asked, hs]
  | false =>
    rw [hv, if_neg Bool.false_ne_true] at hstep
    obtain ⟨hadp, hmem, howed⟩ := step_fields hstep
    refine tracks_hold h hk hm (by simp [wordRespValid, hs]) ?_ ?_
    · rw [hadp, hmem, howed]
      simp only [Phase, adpSys, hs]
      exact ⟨trivial, hcap, ho, hst, hag'⟩
    · rw [hadp, hacc]
      simp [asked, adpSys]

theorem tracks_rsp (h : Tracks img idx K m₀ s ds ls) (hk : Kept idx K s i) (hs : s.own.adp.state = .rsp) :
    Tracks img idx K m₀ (step idx s i) (ds ++ returned s i) (ls ++ accepted idx s i) := by
  have hph := h.phase
  simp only [Phase, hs] at hph
  obtain ⟨hm, hcap, ho, hdata, hag⟩ := hph
  have hacc : accepted idx s i = [] := accepted_none (by simp [hbmReqValid, hs])
  have hstep : StoreExact.step idx (adpSys s) (adpIn s i) = _ := StoreExact.step_rsp hs
  have hready : (adpIn s i).ext.respReady = true := hm
  rw [hready, if_pos rfl] at hstep
  obtain ⟨hadp, hmem, howed⟩ := step_fields hstep
  obtain ⟨hret, hcore⟩ := core_take (x := coreIn s.own i.ext) h.follows hk.fixed hm (by simp [coreIn, wordRespValid, hs])
  have hone : returned s i = [(mach img idx m₀ ds.length).data img idx] := by
    rw [returned, data, hret, if_pos rfl, ← hdata]
    rfl
  have hcore : (step idx s i).own.core = takeResp s.own.core ((mach img idx m₀ ds.length).data img idx) := by
    rw [← hdata]; exact hcore
  rw [hone, hacc, List.append_nil]
  refine ⟨?_, ?_, noHalt_succ h (isHalt_of_isMem (isMem_of_waiting h hm)) _, offOk_next _ _ h.off, ?_, ?_⟩
  · rw [hcore]
    exact follows_takeResp h.follows hm _
  · rw [isa_snoc, List.length_append, List.length_singleton, mach_succ, h.arch]
    rfl
  · rw [List.length_append, List.length_singleton, mach_succ, hcore, hadp, hmem, howed]
    exact ⟨rfl, ho, hag.writes hk.spared⟩
  · rw [List.length_append, List.length_singleton, machLines_succ, h.lines, hadp]
    simp [asked, hs]

theorem tracks_idle (h : Tracks img idx K m₀ s ds ls) (hk : Kept idx K s i) (hs : s.own.adp.state = .idle) :
    Tracks img idx K m₀ (step idx s i) (ds ++ returned s i) (ls ++ accepted idx s i) := by
  have hph := h.phase
  simp only [Phase, hs] at hph
  obtain ⟨hm, ho, hag⟩ := hph
  have hag' := hag.writes hk.spared
  have hacc : accepted idx s i = [] := accepted_none (by simp [hbmReqValid, hs])
  have hstep : StoreExact.step idx (adpSys s) (adpIn s i) = _ := StoreExact.step_idle hs
  have hfire : memReqFire true s.own.core (coreIn s.own i.ext) = (adpIn s i).ext.reqValid := by
    have hready : (coreIn s.own i.ext).memReqReady = true := by simp [coreIn, wordReqReady, hs]
    rw [memReqFire, hready, Bool.and_true]
    rfl
  rw [hacc, List.append_nil]
  rcases cycle_cases h.follows hk.fixed with ⟨hret, hreq, -, -, hwait, hF⟩ | ⟨hret, hreq, -, hh, -, hmemi, hcore⟩ |
      ⟨-, -, -, hm', -⟩ | ⟨hret, hreq, -, hh, -, hhalt, hmemi, hcore⟩
  · -- nothing happens, or the core halts
    rw [← hfire, hreq, if_neg Bool.false_ne_true] at hstep
    obtain ⟨hadp, hmem, howed⟩ := step_fields hstep
    rw [show returned s i = [] by rw [returned, data, hret]; rfl, List.append_nil]
    refine ⟨hF, h.arch, h.noHalt, offOk_next _ _ h.off, ?_, by rw [hadp]; exact h.lines⟩
    rw [step_core, hwait, hm, hadp, hmem, howed]
    simp only [Phase, adpSys, hs]
    exact ⟨trivial, ho, hag'⟩
  · -- the request of a memory instruction is captured
    rw [← hfire, hreq, if_pos rfl] at hstep
    obtain ⟨hadp, hmem, howed⟩ := step_fields hstep
    have hq : memReq s.own.core = (mach img idx m₀ ds.length).req img := by
      rw [memReq, h.follows.inst hh hm, h.follows.boundary hm, h.arch]
      rfl
    rw [show returned s i = [] by rw [returned, data, hret]; rfl, List.append_nil]
    refine ⟨?_, h.arch, h.noHalt, offOk_next _ _ h.off, ?_, ?_⟩
    · rw [step_core, hcore]
      exact follows_issue h.follows hh hm hmemi
    · rw [step_core, hcore, hadp, hmem, howed]
      exact ⟨rfl, hq, ho, hag'⟩
    · rw [hadp, h.lines]
      simp [asked, hs, capture]
  · exact absurd (hm.symm.trans hm') Bool.false_ne_true
  · -- an instruction without a memory access
    rw [← hfire, hreq, if_neg Bool.false_ne_true] at hstep
    obtain ⟨hadp, hmem, howed⟩ := step_fields hstep
    have hmi : isMem ((mach img idx m₀ ds.length).inst img) = false := by
      rw [h.follows.inst hh hm, h.arch] at hmemi; exact hmemi
    have hls : isLoad ((mach img idx m₀ ds.length).inst img) = false ∧
        isStore ((mach img idx m₀ ds.length).inst img) = false := by simpa [isMem] using hmi
    rw [show returned s i = [wordRespBits s.own.adp] by rw [returned, data, hret, if_pos rfl]; rfl]
    have hni : isHalt ((mach img idx m₀ ds.length).inst img) = false := by
      rw [h.follows.inst hh hm, h.arch] at hhalt; exact hhalt
    refine ⟨?_, ?_, noHalt_succ h hni _, offOk_next _ _ h.off, ?_, ?_⟩
    · rw [step_core, hcore]
      exact follows_compute h.follows hh hm hhalt hmemi _
    · rw [isa_snoc, List.length_append, List.length_singleton, mach_succ, h.arch]
      exact exec_congr hmi _ _
    · rw [List.length_append, List.length_singleton, mach_succ, step_core, hcore, hadp, hmem, howed]
      simp only [Phase, adpSys, hs]
      exact ⟨hm, ho, by rw [Mach.next_mem_of_not_store hls.2]; exact hag'⟩
    · rw [List.length_append, List.length_singleton, machLines_succ, h.lines, hadp]
      simp [asked, adpSys, hs, Mach.lines, hls.1, hls.2]

/-- **One cycle of the lane**, whatever the other agents do outside `K`. -/
theorem tracks_step (h : Tracks img idx K m₀ s ds ls) (hk : Kept idx K s i) :
    Tracks img idx K m₀ (step idx s i) (ds ++ returned s i) (ls ++ accepted idx s i) := by
  cases hs : s.own.adp.state with
  | idle => exact tracks_idle h hk hs
  | rdreq => exact tracks_rdreq h hk hs
  | rdresp => exact tracks_rdresp h hk hs
  | wrreq => exact tracks_wrreq h hk hs
  | wrresp => exact tracks_wrresp h hk hs
  | rsp => exact tracks_rsp h hk hs

/-! ## Whole runs -/

/-- the architectural state at an instruction boundary reached in this cycle -/
def retired (s : Sys L) (i : In L) : List Arch := StallInsensitive.retired s.own.core (coreIn s.own i.ext)

theorem retired_eq (h : Tracks img idx K m₀ s ds ls) (hk : Kept idx K s i) :
    retired s i = (returned s i).map fun _ => (mach img idx m₀ (ds.length + 1)).arch := by
  have harch := (tracks_step h hk).arch
  have hret := isaRetired_step h.follows hk.fixed
  change isaRetired img (ds ++ returned s i) = isaRetired img ds ++ retired s i at hret
  unfold returned data at harch hret ⊢
  split_ifs at harch hret ⊢ with hr
  · rw [isaRetired, collect_snoc, ← isaRetired, List.append_cancel_left_eq] at hret
    rw [List.length_append, List.length_singleton] at harch
    rw [List.map_singleton, ← harch, ← hret, isa_snoc]
    rfl
  · simpa using hret

/-- **A run of the lane** retires the states of the machine, one after another, and ends with the contents of `K` as the
machine has them. -/
theorem tracks_run (h : Tracks img idx K m₀ s ds ls) {ins : List (In L)}
    (hk : Always (step idx) (Kept idx K) s ins) :
    Tracks img idx K m₀ (run (step idx) s ins) (ds ++ collect (step idx) returned s ins)
        (ls ++ collect (step idx) (accepted idx) s ins) ∧
      collect (step idx) retired s ins = (List.range (collect (step idx) returned s ins).length).map
        fun k => (mach img idx m₀ (ds.length + k + 1)).arch := by
  induction ins generalizing s ds ls with
  | nil => simpa using h
  | cons i ins ih =>
    obtain ⟨hT, hR⟩ := ih (tracks_step h hk.1) hk.2
    rw [List.append_assoc, List.append_assoc] at hT
    refine ⟨hT, ?_⟩
    rw [collect_cons, collect_cons, hR, retired_eq h hk.1, List.length_append, List.length_append, List.range_add,
      List.map_append, List.map_map]
    have hlen : returned s i = [] ∨ ∃ d, returned s i = [d] := by
      unfold returned data
      split_ifs
      · exact .inr ⟨_, rfl⟩
      · exact .inl rfl
    rcases hlen with hnil | ⟨d, hd⟩
    · simp [hnil]
    · simp [hd, Function.comp_def, Nat.add_assoc]

/-! ## Boot -/

/-- before `start` the lane is silent -/
structure Booting (K : L → Prop) (m₀ : L → BitVec 512) (s : Sys L) : Prop where
  core : Unstarted s.own.core
  adp : s.own.adp = CoreMemToHBM.reset
  owed : s.owed = none
  agree : Agree K s.mem m₀

theorem Booting.silent (h : Booting K m₀ s) (idx : BitVec 64 → L) (i : In L) :
    accepts client s i = false ∧ (step idx s i).own.adp = s.own.adp ∧ (step idx s i).owed = s.owed ∧
      (step idx s i).mem = writes s.mem i.others ∧ retired s i = [] := by
  have hs : s.own.adp.state = .idle := by rw [h.adp]; rfl
  have hrun : s.own.core.running = false := by rw [h.core]; rfl
  have hstep : StoreExact.step idx (adpSys s) (adpIn s i) = _ := StoreExact.step_idle hs
  have hv : (adpIn s i).ext.reqValid = false := by simp [adpIn, wordOut, memReqValid, hrun]
  rw [hv, if_neg Bool.false_ne_true] at hstep
  obtain ⟨hadp, hmem, howed⟩ := step_fields hstep
  exact ⟨by simp [accepts, client, hbmReqValid, hs], hadp, howed, hmem,
    by simp [retired, StallInsensitive.retired, retires, hrun]⟩

theorem booting_step (h : Booting K m₀ s) (hi : i.ext.start = false) (hs : ∀ w ∈ i.others, ¬ K w.1) :
    Booting K m₀ (step idx s i) := by
  obtain ⟨-, hadp, howed, hmem, -⟩ := h.silent idx i
  exact ⟨unstarted_step h.core hi, hadp.trans h.adp, howed.trans h.owed, by rw [hmem]; exact h.agree.writes hs⟩

/-- the start cycle -/
theorem tracks_start (h : Booting K m₀ s) (hi : i.ext.start = true) (hs : ∀ w ∈ i.others, ¬ K w.1) :
    Tracks (step idx s i).own.core.imem idx K m₀ (step idx s i) [] [] := by
  obtain ⟨-, hadp, howed, hmem, -⟩ := h.silent idx i
  have hF : Follows (step idx s i).own.core.imem (step idx s i).own.core [] := follows_start h.core hi
  have hm : (step idx s i).own.core.memWait = false := by
    rw [step_core, h.core]
    simp [RiscVICore.next, RiscVICore.reset]
  refine ⟨hF, rfl, fun k hk => absurd hk (Nat.not_lt_zero k), by rw [hadp, h.adp]; rfl, ?_, ?_⟩
  · rw [hm, hadp, h.adp, howed, hmem]
    exact ⟨rfl, h.owed, h.agree.writes hs⟩
  · rw [hadp, h.adp]
    rfl

/-- a cycle before `start` in which nobody writes `K` -/
def Quiet (K : L → Prop) (_ : Sys L) (i : In L) : Prop := i.ext.start = false ∧ ∀ w ∈ i.others, ¬ K w.1

/-- **From reset to the first instruction.** -/
theorem tracks_boot (h : Booting K m₀ s) {load : List (In L)} {go : In L} (hload : Always (step idx) (Quiet K) s load)
    (hgo : go.ext.start = true) (hs : ∀ w ∈ go.others, ¬ K w.1) :
    Tracks (run (step idx) s (load ++ [go])).own.core.imem idx K m₀ (run (step idx) s (load ++ [go])) [] [] := by
  have hboot : Booting K m₀ (run (step idx) s load) :=
    run_inv (Booting K m₀) (fun _ _ hb hq => booting_step hb hq.1 hq.2) h hload
  rw [run_snoc]
  exact tracks_start hboot hgo hs

/-- until the start cycle is over the lane asks for nothing -/
theorem boot_silent (h : Booting K m₀ s) {load : List (In L)} (hload : Always (step idx) (Quiet K) s load) (go : In L) :
    collect (step idx) (accepted idx) s (load ++ [go]) = [] := by
  have hnone : ∀ (s : Sys L) (i : In L), Booting K m₀ s → accepted idx s i = [] := fun s i hb => by
    rw [accepted, (hb.silent idx i).1]
    rfl
  have halways := always_inv (Booting K m₀) (fun _ _ hb hq => booting_step hb hq.1 hq.2) h hload
  have hboot : Booting K m₀ (run (step idx) s load) :=
    run_inv (Booting K m₀) (fun _ _ hb hq => booting_step hb hq.1 hq.2) h hload
  rw [collect_snoc, hnone _ _ hboot, List.append_nil]
  exact collect_eq_nil (always_imp (fun i _ s hs => hnone s i hs.1) halways)

/-- at an instruction boundary the adapter rests, and the memory owes the lane nothing -/
theorem Tracks.rests (h : Tracks img idx K m₀ s ds ls) (hm : s.own.core.memWait = false) :
    s.own.adp.state = .idle ∧ s.owed = none ∧ Agree K s.mem (mach img idx m₀ ds.length).mem := by
  have hph := h.phase
  rw [hm] at hph
  cases hs : s.own.adp.state with
  | idle =>
    simp only [Phase, hs] at hph
    exact ⟨rfl, hph.2⟩
  | _ =>
    simp only [Phase, hs] at hph
    exact absurd hph.1 Bool.false_ne_true

/-- a halted core stands at the sentinel, and `K` is as the machine has it -/
theorem Tracks.halted (h : Tracks img idx K m₀ s ds ls) (hh : s.own.core.halted = true) :
    isHalt ((mach img idx m₀ ds.length).inst img) = true ∧ RiscVICore.arch s.own.core = (mach img idx m₀ ds.length).arch ∧
      ls = machLines img idx m₀ ds.length ∧ Agree K s.mem (mach img idx m₀ ds.length).mem := by
  have hm : s.own.core.memWait = false := h.follows.halted hh
  obtain ⟨hst, -, hag⟩ := h.rests hm
  refine ⟨?_, (h.follows.boundary hm).trans h.arch, ?_, hag⟩
  · have hsent := h.follows.sentinel hh
    rwa [h.arch] at hsent
  · rw [h.lines]
    simp [asked, hst]

end Lane

end AegisSoc.CpuLane
