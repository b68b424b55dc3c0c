/-
The memory behind the GPU path as one of its clusters sees it.

A request of cluster `k` passes through `GPUL2Cache` and `AXIToMemReq` and reaches the memory some cycles after it was
accepted from the cluster. As long as nobody else writes the lines `K` that the cluster accesses, neither other agents nor
the other clusters, the delay does not show: the handshakes of the cluster are those of an atomic memory of its own, in
which a request takes effect when it is accepted.
- `Serves`: that memory and the real one agree on `K`, except for a store of the cluster still on its way;
- `serves_step` for one cycle, `serves_run` for a run.
-/
import AegisSoc.Gpu.GpuPath
import AegisSoc.Gpu.ClusterData

namespace AegisSoc.ClusterPort

open Machine PortMemory
open GpuPath (Fit Phase inHand lineReq hand_kept fit_step phase_next)
open ClusterData (storing)
open PortClient hiding step In Reg

/-! ## The path on a line memory -/

/-- the path as a client of the line fabric; the clusters drive it from outside -/
def client (N : ℕ) : LineClient GpuPath.Reg (ℕ → MemOut) where
  reqValid r _ := AXIToMemReq.memReqValid r.adp
  req r _ := AXIToMemReq.memReq r.adp
  respReady r _ := AXIToMemReq.memRespReady r.adp
  next r c m := GpuPath.next N r ⟨c, m⟩

section Handshakes

variable (N k : ℕ) (r : GpuPath.Reg) (c : ℕ → MemOut)

/-- the handshakes of cluster `k`; the data of a read is not used, and that of the response to a store is shown as zero -/
def ev : List (Ev Unit MemReq (BitVec 512)) :=
  (if GPUL2Cache.reqFire N r.l2 c k then [.accept () (lineReq (c k).req)] else []) ++
    if GPUL2Cache.respFire r.l2 c k then
      [.respond () (if r.l2.state = .wack then 0 else GPUL2Cache.respBits r.l2)]
    else []

/-- a request of cluster `k` is in hand -/
def own : Bool := r.l2.state != .idle && r.l2.selR == k

/-- in these states the request in hand has not reached the memory -/
def unissued : GPUL2Cache.State → AXIToMemReq.State → Bool
  | .aw, _ | .wd, _ | .ar, _ => true
  | _, .wreq | _, .areq => true
  | _, _ => false

variable {N k r c}

/-- while a request is in hand nothing is accepted, and only its own cluster is answered -/
theorem ev_busy (hs : r.l2.state ≠ .idle) : ev N k r c =
    if GPUL2Cache.respFire r.l2 c k then
      [.respond () (if r.l2.state = .wack then 0 else GPUL2Cache.respBits r.l2)]
    else [] := by
  have hready : GPUL2Cache.reqFire N r.l2 c k = false := by simp [GPUL2Cache.reqFire, GPUL2Cache.reqReady, hs]
  rw [ev, hready]
  rfl

theorem ev_idle (hs : r.l2.state = .idle) : ev N k r c =
    if GPUL2Cache.reqFire N r.l2 c k then [.accept () (lineReq (c k).req)] else [] := by
  have hvalid : GPUL2Cache.respFire r.l2 c k = false := by simp [GPUL2Cache.respFire, GPUL2Cache.respValid, hs]
  rw [ev, hvalid, if_neg Bool.false_ne_true, List.append_nil]

theorem unanswered (h : r.l2.state ∉ [.wack, .resp]) : GPUL2Cache.respFire r.l2 c k = false := by
  simp only [List.mem_cons, List.not_mem_nil, or_false, not_or] at h
  simp [GPUL2Cache.respFire, GPUL2Cache.respValid, h.1, h.2]

/-- a cluster without a request in hand has one in the next cycle exactly if it is accepted now -/
theorem own_free (hN : 1 ≤ N) (h : own k r = false) (m : MemIn) :
    own k (GpuPath.next N r ⟨c, m⟩) = GPUL2Cache.reqFire N r.l2 c k ∧
      (GPUL2Cache.reqFire N r.l2 c k = true → storing (GpuPath.next N r ⟨c, m⟩).l2.state = (c k).req.isWrite) := by
  by_cases hs : r.l2.state = .idle
  · by_cases ha : GPUL2Cache.any N r.l2 c = true
    · have hl2 : (GpuPath.next N r ⟨c, m⟩).l2 = _ := (GPUL2Cache.captured (i := ⟨c, _⟩) hs ha).2.2
      by_cases hk : GPUL2Cache.sel N r.l2 c = k
      · have hfire : GPUL2Cache.reqFire N r.l2 c k = true :=
          (GPUL2Cache.reqFire_iff (hk ▸ GPUL2Cache.sel_lt hN)).2 ⟨hs, ha, hk.symm⟩
        simp only [hk] at hl2
        rw [hfire]
        cases hw : (c k).req.isWrite <;> simp [own, hl2, hw, storing]
      · have hfire : GPUL2Cache.reqFire N r.l2 c k = false := by
          simp [GPUL2Cache.reqFire, GPUL2Cache.reqReady, Ne.symm hk]
        simp [own, hl2, hk, hfire]
    · have hl2 : (GpuPath.next N r ⟨c, m⟩).l2 = r.l2 := by simp [GpuPath.next, GPUL2Cache.next, hs, ha]
      have hfire : GPUL2Cache.reqFire N r.l2 c k = false :=
        Bool.eq_false_iff.2 fun hf => ha (GPUL2Cache.selected hN hf).1
      simp [own, hl2, hs, hfire]
  · have hk : r.l2.selR ≠ k := fun hk => by simp [own, hs, hk] at h
    have hfire : GPUL2Cache.reqFire N r.l2 c k = false := by simp [GPUL2Cache.reqFire, GPUL2Cache.reqReady, hs]
    simp [own, (hand_kept hs ⟨c, m⟩).1, hk, hfire]

/-- a request stays in hand until it is answered, and is a store or a read all the time -/
theorem own_held (h : own k r = true) (m : MemIn) :
    own k (GpuPath.next N r ⟨c, m⟩) = !GPUL2Cache.respFire r.l2 c k ∧
      (GPUL2Cache.respFire r.l2 c k = false → storing (GpuPath.next N r ⟨c, m⟩).l2.state = storing r.l2.state) := by
  obtain ⟨hs, rfl⟩ : r.l2.state ≠ .idle ∧ r.l2.selR = k := by simpa [own] using h
  have hsel := (hand_kept (N := N) hs ⟨c, m⟩).1
  rw [own, hsel]
  cases hl : r.l2.state with
  | idle => exact absurd hl hs
  | wack | resp =>
    cases hr : (c r.l2.selR).respReady <;>
      simp [GpuPath.next, GPUL2Cache.next, GPUL2Cache.respFire, GPUL2Cache.respValid, hl, hr, storing]
  | _ =>
    rw [unanswered (by simp [hl])]
    simp only [GpuPath.next, GPUL2Cache.next, hl]
    split_ifs <;> simp [hl, storing]

end Handshakes

section

variable {L : Type*} [DecidableEq L] (idx : BitVec 64 → L) (K : L → Prop) (N k : ℕ)

abbrev Sys (L : Type*) := PortClient.Reg GpuPath.Reg L (BitVec 512)
abbrev SysIn (L : Type*) := PortClient.In (ℕ → MemOut) L (BitVec 512)

def step : Sys L → SysIn L → Sys L := PortClient.step (client N) (MemReq.access idx)

/-- nobody but cluster `k` writes `K`, and its requests go to `K` -/
structure Spares (s : Sys L) (i : SysIn L) : Prop where
  others : ∀ w ∈ i.others, ¬ K w.1
  foreign : accepts (client N) s i = true → (AXIToMemReq.memReq s.own.adp).isWrite = true → s.own.l2.selR ≠ k →
    ¬ K (idx (AXIToMemReq.memReq s.own.adp).addr)
  inside : GPUL2Cache.reqFire N s.own.l2 i.ext k = true → K (idx (i.ext k).req.addr)

/-- the memory with the store of cluster `k` that is still on its way -/
def effective (s : Sys L) : L → BitVec 512 :=
  if own k s.own && storing s.own.l2.state && unissued s.own.l2.state s.own.adp.state then
    Function.update s.mem (idx s.own.l2.addrR) s.own.l2.wdataR
  else s.mem

/-- the answer that is due for the request in hand -/
def due (s : Sys L) : BitVec 512 :=
  if storing s.own.l2.state then 0
  else if unissued s.own.l2.state s.own.adp.state then s.mem (idx s.own.l2.addrR)
  else
    match s.own.adp.state with
    | .aresp => s.owed.getD 0
    | .rvalid => s.own.adp.rdata
    | _ => s.own.l2.rdataR

/-- the real memory serves cluster `k` as the memory `β` of its own would -/
structure Serves (s : Sys L) (β : St Unit L (BitVec 512)) : Prop where
  fit : Fit N s.own
  phase : ∃ p, Phase s.own p
  pending : β.pending = if own k s.own then some ((), due idx s) else none
  agree : ∀ l, K l → effective idx k s l = β.mem l
  inside : own k s.own = true → K (idx s.own.l2.addrR)

variable {idx K N k} {s : Sys L} {i : SysIn L} {β : St Unit L (BitVec 512)}

theorem step_own : (step idx N s i).own = GpuPath.next N s.own ⟨i.ext, portIn s i⟩ := rfl

/-! ## One cycle -/

theorem step_accepts (h : accepts (client N) s i = true) :
    (step idx N s i).mem = apply (writes s.mem i.others) ((AXIToMemReq.memReq s.own.adp).access idx) ∧
      (step idx N s i).owed = some (answer (writes s.mem i.others) ((AXIToMemReq.memReq s.own.adp).access idx)) := by
  simp only [step, PortClient.step, h, if_true]
  exact ⟨rfl, rfl⟩

/-- a line of `K` changes only by a store of the cluster itself -/
theorem mem_kept (h : Spares idx K N k s i)
    (hown : s.own.l2.selR ≠ k ∨ accepts (client N) s i = false ∨ (AXIToMemReq.memReq s.own.adp).isWrite = false) {l : L}
    (hl : K l) : (step idx N s i).mem l = s.mem l := by
  have hothers : writes s.mem i.others l = s.mem l := writes_of_ne _ _ _ fun w hw heq => h.others w hw (heq ▸ hl)
  have hmem : (step idx N s i).mem = if accepts (client N) s i then
      apply (writes s.mem i.others) ((AXIToMemReq.memReq s.own.adp).access idx) else writes s.mem i.others := rfl
  rw [hmem, ← hothers]
  cases ha : accepts (client N) s i with
  | false => rfl
  | true =>
    cases hw : (AXIToMemReq.memReq s.own.adp).isWrite with
    | false => simp [apply, MemReq.access, hw]
    | true =>
      have hne : l ≠ idx (AXIToMemReq.memReq s.own.adp).addr := fun heq => by
        rcases hown with hsel | ha' | hw'
        · exact h.foreign ha hw hsel (heq ▸ hl)
        · exact absurd (ha'.symm.trans ha) Bool.false_ne_true
        · exact absurd (hw'.symm.trans hw) Bool.false_ne_true
      simp [apply, MemReq.access, hw, Function.update_of_ne hne]

omit [DecidableEq L] in
/-- the adapter requests in three states only -/
theorem not_accepts (h : s.own.adp.state ∉ [.wreq, .areq, .wrmw]) : accepts (client N) s i = false := by
  simp only [List.mem_cons, List.not_mem_nil, or_false, not_or] at h
  simp [accepts, client, AXIToMemReq.memReqValid, h.1, h.2.1, h.2.2]

/-- between transactions the adapter is idle -/
theorem adp_idle {r : GpuPath.Reg} (h : ∃ p, Phase r p) (hs : r.l2.state = .idle) : r.adp.state = .idle := by
  obtain ⟨p, hp⟩ := h
  cases hp with
  | idle hl ha => exact ha
  | _ hl => exact absurd (hs.symm.trans hl) (by decide)

/-- nothing of cluster `k` is in hand before the cycle or after it -/
theorem serves_elsewhere (hN : 1 ≤ N) (h : Serves idx K N k s β) (hsp : Spares idx K N k s i)
    (hown : own k s.own = false) (hown' : own k (step idx N s i).own = false)
    (hmem : s.own.l2.selR ≠ k ∨ accepts (client N) s i = false) : Serves idx K N k (step idx N s i) β := by
  refine ⟨fit_step hN h.fit _, phase_next hN h.fit h.phase _, ?_, fun l hl => ?_, fun ho => ?_⟩
  · rw [h.pending, hown, hown']
    rfl
  · have hagree := h.agree l hl
    simp only [effective, hown, hown', Bool.false_and, Bool.false_eq_true, if_false] at hagree ⊢
    rw [mem_kept hsp (hmem.imp_right .inl) hl, hagree]
  · exact absurd (hown'.symm.trans ho) Bool.false_ne_true

/-- another cluster's request is in hand -/
theorem serves_foreign (hN : 1 ≤ N) (h : Serves idx K N k s β) (hsp : Spares idx K N k s i) (hs : s.own.l2.state ≠ .idle)
    (hk : s.own.l2.selR ≠ k) : ev N k s.own i.ext = [] ∧ Serves idx K N k (step idx N s i) β := by
  have hsel : (step idx N s i).own.l2.selR = s.own.l2.selR := (hand_kept hs _).1
  have hsilent : GPUL2Cache.respFire s.own.l2 i.ext k = false := by
    simp [GPUL2Cache.respFire, GPUL2Cache.respValid, Ne.symm hk]
  refine ⟨?_, serves_elsewhere hN h hsp (by simp [own, hk]) (by simp [own, hsel, hk]) (.inl hk)⟩
  rw [ev_busy hs, hsilent]
  rfl

/-- the request of cluster `k` is captured: from now on it is in hand, and takes effect in the memory of its own -/
theorem serves_capture (hN : 1 ≤ N) (h : Serves idx K N k s β) (hsp : Spares idx K N k s i) (hs : s.own.l2.state = .idle)
    (hfire : GPUL2Cache.reqFire N s.own.l2 i.ext k = true) :
    Trace (MemReq.access idx) β (ev N k s.own i.ext) ∧
      Serves idx K N k (step idx N s i) (after (MemReq.access idx) β (ev N k s.own i.ext)) := by
  have hown : own k s.own = false := by simp [own, hs]
  have hacc : accepts (client N) s i = false := not_accepts (by simp [adp_idle h.phase hs])
  obtain ⟨ha, hk⟩ := GPUL2Cache.selected hN hfire
  have hcap : (step idx N s i).own.l2 = _ := (GPUL2Cache.captured (i := ⟨i.ext, _⟩) hs ha).2.2
  simp only [hk] at hcap
  have hK := hsp.inside hfire
  have hbefore : ∀ l, K l → (step idx N s i).mem l = β.mem l := fun l hl => by
    have hagree := h.agree l hl
    simp only [effective, hown, Bool.false_and, Bool.false_eq_true, if_false] at hagree
    rw [mem_kept hsp (.inr (.inl hacc)) hl, hagree]
  have hpending : β.pending = none := by rw [h.pending, hown]; rfl
  rw [ev_idle hs, hfire, if_pos rfl]
  refine ⟨⟨hpending, trivial⟩, fit_step hN h.fit _, phase_next hN h.fit h.phase _, ?_, fun l hl => ?_, fun _ => ?_⟩
  · cases hw : (i.ext k).req.isWrite with
    | true => simp [own, due, hcap, hw, storing, PortMemory.next, answer, lineReq, MemReq.access]
    | false =>
      simp [own, due, hcap, hw, storing, unissued, PortMemory.next, answer, lineReq, MemReq.access, hbefore _ hK]
  · cases hw : (i.ext k).req.isWrite with
    | true =>
      have heff : effective idx k (step idx N s i) =
          Function.update (step idx N s i).mem (idx (i.ext k).req.addr) (i.ext k).req.data := by
        simp [effective, own, hcap, hw, storing, unissued]
      have hafter : (after (MemReq.access idx) β [.accept () (lineReq (i.ext k).req)]).mem =
          Function.update β.mem (idx (i.ext k).req.addr) (i.ext k).req.data := by
        simp [PortMemory.next, apply, lineReq, MemReq.access, hw]
      rw [heff, hafter, Function.update_apply, Function.update_apply, hbefore l hl]
    | false =>
      have heff : effective idx k (step idx N s i) = (step idx N s i).mem := by
        simp [effective, hcap, hw, storing]
      have hafter : (after (MemReq.access idx) β [.accept () (lineReq (i.ext k).req)]).mem = β.mem := by
        simp [PortMemory.next, apply, lineReq, MemReq.access, hw]
      rw [heff, hafter, hbefore l hl]
  · rw [hcap]
    exact hK

theorem serves_idle (hN : 1 ≤ N) (h : Serves idx K N k s β) (hsp : Spares idx K N k s i) (hs : s.own.l2.state = .idle) :
    Trace (MemReq.access idx) β (ev N k s.own i.ext) ∧
      Serves idx K N k (step idx N s i) (after (MemReq.access idx) β (ev N k s.own i.ext)) := by
  have hown : own k s.own = false := by simp [own, hs]
  have hacc : accepts (client N) s i = false := not_accepts (by simp [adp_idle h.phase hs])
  have hown' : own k (step idx N s i).own = _ := (own_free hN hown (portIn s i)).1
  cases hfire : GPUL2Cache.reqFire N s.own.l2 i.ext k with
  | true => exact serves_capture hN h hsp hs hfire
  | false =>
    rw [ev_idle hs, hfire]
    exact ⟨trivial, serves_elsewhere hN h hsp hown (hown'.trans hfire) (.inr hacc)⟩

/-! ## The cycles of the cluster's own request -/

omit [DecidableEq L] in
theorem own_iff : own k s.own = true ↔ s.own.l2.state ≠ .idle ∧ s.own.l2.selR = k := by
  simp [own]

/-- the request stays in hand, and its answer and the memory with its store on the way stay what they are -/
theorem serves_within (hN : 1 ≤ N) (h : Serves idx K N k s β) (hown : own k s.own = true)
    (hsilent : GPUL2Cache.respFire s.own.l2 i.ext k = false) (hbusy : (step idx N s i).own.l2.state ≠ .idle)
    (hdue : due idx (step idx N s i) = due idx s)
    (heff : ∀ l, K l → effective idx k (step idx N s i) l = effective idx k s l) :
    Trace (MemReq.access idx) β (ev N k s.own i.ext) ∧
      Serves idx K N k (step idx N s i) (after (MemReq.access idx) β (ev N k s.own i.ext)) := by
  obtain ⟨hs, hk⟩ := own_iff.1 hown
  obtain ⟨hsel, haddr, -⟩ := hand_kept (N := N) hs ⟨i.ext, portIn s i⟩
  have hown' : own k (step idx N s i).own = true := own_iff.2 ⟨hbusy, hsel.trans hk⟩
  have hnone : ev N k s.own i.ext = [] := by
    rw [ev_busy hs, hsilent]
    rfl
  rw [hnone]
  refine ⟨trivial, fit_step hN h.fit _, phase_next hN h.fit h.phase _, ?_, fun l hl => ?_, fun _ => ?_⟩
  · rw [after_nil, h.pending, hown, hown', hdue]
  · rw [heff l hl]
    exact h.agree l hl
  · rw [step_own, haddr]
    exact h.inside hown

/-- a cycle of a request in hand in which nothing is accepted on the memory port -/
theorem serves_move (hN : 1 ≤ N) (h : Serves idx K N k s β) (hsp : Spares idx K N k s i) (hown : own k s.own = true)
    {l l' : GPUL2Cache.State} {a a' : AXIToMemReq.State} (hl : s.own.l2.state = l) (ha : s.own.adp.state = a)
    (hl' : (step idx N s i).own.l2.state = l') (ha' : (step idx N s i).own.adp.state = a')
    (hflow : l' ≠ .idle ∧ storing l' = storing l ∧ unissued l' a' = unissued l a)
    (hsilent : GPUL2Cache.respFire s.own.l2 i.ext k = false) (hacc : accepts (client N) s i = false)
    (hdue : storing l = false → unissued l a = false → due idx (step idx N s i) = due idx s) :
    Trace (MemReq.access idx) β (ev N k s.own i.ext) ∧
      Serves idx K N k (step idx N s i) (after (MemReq.access idx) β (ev N k s.own i.ext)) := by
  obtain ⟨hbusy, hstoring, hunissued⟩ := hflow
  obtain ⟨hs, hk⟩ := own_iff.1 hown
  obtain ⟨hsel, haddr, hdata⟩ := hand_kept (N := N) hs ⟨i.ext, portIn s i⟩
  have hown' : own k (step idx N s i).own = true := own_iff.2 ⟨by rw [hl']; exact hbusy, hsel.trans hk⟩
  have hmem : ∀ l, K l → (step idx N s i).mem l = s.mem l := fun l hl => mem_kept hsp (.inr (.inl hacc)) hl
  refine serves_within hN h hown hsilent (by rw [hl']; exact hbusy) ?_ fun x hx => ?_
  · cases hst : storing l with
    | true => rw [due, due, hl', hl, hstoring, hst, if_pos rfl, if_pos rfl]
    | false =>
      cases hun : unissued l a with
      | true =>
        rw [due, due, hl', ha', hl, ha, hstoring, hst, hunissued, hun, if_neg Bool.false_ne_true,
          if_neg Bool.false_ne_true, if_pos rfl, if_pos rfl, step_own, haddr, hmem _ (h.inside hown)]
      | false => exact hdue hst hun
  · rw [effective, effective, hown', hown, hl', ha', hl, ha, hstoring, hunissued]
    split_ifs
    · rw [step_own, haddr, hdata, Function.update_apply, Function.update_apply, hmem x hx]
    · exact hmem x hx

/-- the store of the cluster reaches the memory -/
theorem serves_issue_store (hN : 1 ≤ N) (h : Serves idx K N k s β) (hsp : Spares idx K N k s i)
    (hown : own k s.own = true) (hl : s.own.l2.state = .bwait) (ha : s.own.adp.state = .wreq)
    (hreq : AXIToMemReq.memReq s.own.adp = lineReq (inHand s.own true)) (hr : (portIn s i).reqReady = true) :
    Trace (MemReq.access idx) β (ev N k s.own i.ext) ∧
      Serves idx K N k (step idx N s i) (after (MemReq.access idx) β (ev N k s.own i.ext)) := by
  obtain ⟨hl2, hadp⟩ := GpuPath.step_request (N := N) (r := s.own) (i := ⟨i.ext, portIn s i⟩) (.inl hl) (by simp [ha])
  rw [hr, if_pos rfl, if_pos ha] at hadp
  have hl2 : (step idx N s i).own.l2 = s.own.l2 := hl2
  have hadp : (step idx N s i).own.adp = _ := hadp
  have hacc : accepts (client N) s i = true := by simp [accepts, client, AXIToMemReq.memReqValid, ha, hr]
  have hmem : (step idx N s i).mem =
      Function.update (writes s.mem i.others) (idx s.own.l2.addrR) s.own.l2.wdataR := by
    rw [(step_accepts hacc).1, hreq]
    simp [lineReq, inHand, MemReq.access, apply]
  have hothers : ∀ l, K l → writes s.mem i.others l = s.mem l := fun l hl =>
    writes_of_ne _ _ _ fun w hw heq => hsp.others w hw (heq ▸ hl)
  refine serves_within hN h hown ?_ ?_ ?_ fun l hK => ?_
  · simp [GPUL2Cache.respFire, GPUL2Cache.respValid, hl]
  · simp [hl2, hl]
  · simp [due, hl2, hl, storing]
  · have heff : effective idx k s = Function.update s.mem (idx s.own.l2.addrR) s.own.l2.wdataR := by
      simp [effective, hown, hl, storing, unissued, ha]
    have heff' : effective idx k (step idx N s i) = (step idx N s i).mem := by
      simp [effective, hl2, hl, unissued, hadp]
    rw [heff, heff', hmem, Function.update_apply, Function.update_apply, hothers l hK]

/-- the read of the cluster reaches the memory -/
theorem serves_issue_load (hN : 1 ≤ N) (h : Serves idx K N k s β) (hsp : Spares idx K N k s i)
    (hown : own k s.own = true) (hl : s.own.l2.state = .rc) (ha : s.own.adp.state = .areq)
    (hreq : AXIToMemReq.memReq s.own.adp = lineReq (inHand s.own false)) (hr : (portIn s i).reqReady = true) :
    Trace (MemReq.access idx) β (ev N k s.own i.ext) ∧
      Serves idx K N k (step idx N s i) (after (MemReq.access idx) β (ev N k s.own i.ext)) := by
  obtain ⟨hl2, hadp⟩ := GpuPath.step_request (N := N) (r := s.own) (i := ⟨i.ext, portIn s i⟩) (.inr hl) (by simp [ha])
  rw [hr, if_pos rfl, if_neg (by simp [ha])] at hadp
  have hl2 : (step idx N s i).own.l2 = s.own.l2 := hl2
  have hadp : (step idx N s i).own.adp = _ := hadp
  have hacc : accepts (client N) s i = true := by simp [accepts, client, AXIToMemReq.memReqValid, ha, hr]
  have howed : (step idx N s i).owed = some (writes s.mem i.others (idx s.own.l2.addrR)) := by
    rw [(step_accepts hacc).2, hreq]
    simp [lineReq, inHand, MemReq.access, answer]
  have hothers : ∀ l, K l → writes s.mem i.others l = s.mem l := fun l hl =>
    writes_of_ne _ _ _ fun w hw heq => hsp.others w hw (heq ▸ hl)
  refine serves_within hN h hown ?_ ?_ ?_ fun l hK => ?_
  · simp [GPUL2Cache.respFire, GPUL2Cache.respValid, hl]
  · simp [hl2, hl]
  · have hdue : due idx s = s.mem (idx s.own.l2.addrR) := by simp [due, hl, storing, unissued, ha]
    have hdue' : due idx (step idx N s i) = writes s.mem i.others (idx s.own.l2.addrR) := by
      simp [due, hl2, hl, storing, unissued, hadp, howed]
    rw [hdue, hdue', hothers _ (h.inside hown)]
  · have heff : effective idx k s = s.mem := by simp [effective, hl, storing]
    have heff' : effective idx k (step idx N s i) = (step idx N s i).mem := by simp [effective, hl2, hl, storing]
    rw [heff, heff']
    exact mem_kept hsp (.inr (.inr (by rw [hreq]; rfl))) hK

/-- the answer to the cluster's read is due until the adapter has taken it, and then the adapter holds it -/
theorem serves_await_load (hN : 1 ≤ N) (h : Serves idx K N k s β) (hsp : Spares idx K N k s i)
    (hown : own k s.own = true) (hl : s.own.l2.state = .rc) (ha : s.own.adp.state = .aresp) :
    Trace (MemReq.access idx) β (ev N k s.own i.ext) ∧
      Serves idx K N k (step idx N s i) (after (MemReq.access idx) β (ev N k s.own i.ext)) := by
  obtain ⟨hl2, hadp⟩ := GpuPath.step_response (N := N) (r := s.own) (i := ⟨i.ext, portIn s i⟩) (.inr hl) (by simp [ha])
  have hacc : accepts (client N) s i = false := not_accepts (by simp [ha])
  have hl2 : (step idx N s i).own.l2 = s.own.l2 := hl2
  have hdue : due idx s = s.owed.getD 0 := by simp [due, hl, ha, storing, unissued]
  cases hv : (portIn s i).respValid with
  | true =>
    rw [hv, if_pos rfl, if_neg (by simp [ha])] at hadp
    have hadp : (step idx N s i).own.adp = _ := hadp
    refine serves_move hN h hsp hown hl ha (by rw [hl2, hl]) (congrArg _ hadp) ⟨by decide, rfl, rfl⟩
      (unanswered (by simp [hl])) hacc fun _ _ => ?_
    rw [hdue, owed_of_respValid hv]
    simp [due, hl2, hadp, hl, storing, unissued]
  | false =>
    rw [hv, if_neg Bool.false_ne_true] at hadp
    have hadp : (step idx N s i).own.adp = s.own.adp := hadp
    have htakes : takes (client N) s i = false := by simp [takes, hv]
    have howed : (step idx N s i).owed = s.owed := by simp [step, PortClient.step, hacc, htakes]
    refine serves_move hN h hsp hown hl ha (by rw [hl2, hl]) (by rw [hadp, ha]) ⟨by decide, rfl, rfl⟩
      (unanswered (by simp [hl])) hacc fun _ _ => ?_
    rw [due, due, hl2, hadp, howed, hl, ha]
    rfl

/-- the cluster is offered its response -/
theorem serves_answer (hN : 1 ≤ N) (h : Serves idx K N k s β) (hsp : Spares idx K N k s i) (hown : own k s.own = true)
    (hl : s.own.l2.state = .wack ∨ s.own.l2.state = .resp) (ha : s.own.adp.state = .idle) :
    Trace (MemReq.access idx) β (ev N k s.own i.ext) ∧
      Serves idx K N k (step idx N s i) (after (MemReq.access idx) β (ev N k s.own i.ext)) := by
  obtain ⟨hs, hk⟩ := own_iff.1 hown
  have hacc : accepts (client N) s i = false := not_accepts (by simp [ha])
  have hfire : GPUL2Cache.respFire s.own.l2 i.ext k = (i.ext k).respReady := by
    rcases hl with hl | hl <;> simp [GPUL2Cache.respFire, GPUL2Cache.respValid, hl, hk]
  have hadp : (step idx N s i).own.adp = s.own.adp := by
    rcases hl with hl | hl <;> simp [step_own, GpuPath.next, AXIToMemReq.next, GpuPath.adpIn, GPUL2Cache.axiOut, hl, ha]
  have hl2 : (step idx N s i).own.l2 = if (i.ext k).respReady then { s.own.l2 with state := .idle } else s.own.l2 := by
    rcases hl with hl | hl <;> simp [step_own, GpuPath.next, GPUL2Cache.next, hl, hk, hfire]
  cases hr : (i.ext k).respReady with
  | false =>
    rw [hr, if_neg Bool.false_ne_true] at hl2
    refine serves_move hN h hsp hown rfl rfl (by rw [hl2]) (by rw [hadp]) ⟨hs, rfl, rfl⟩ (hfire.trans hr) hacc fun _ _ => ?_
    rw [due, due, hl2, hadp, ha]
    rcases hl with hl | hl <;> rw [hl] <;> rfl
  | true =>
    rw [hr, if_pos rfl] at hl2
    have hown' : own k (step idx N s i).own = false := by simp [own, hl2]
    have heff : effective idx k s = s.mem := by
      rcases hl with hl | hl <;> simp [effective, hl, ha, storing, unissued]
    have hdue : due idx s = if s.own.l2.state = .wack then 0 else GPUL2Cache.respBits s.own.l2 := by
      rcases hl with hl | hl <;> simp [due, hl, ha, storing, unissued, GPUL2Cache.respBits, h.fit.isWR]
    have hpending : β.pending = some ((), if s.own.l2.state = .wack then 0 else GPUL2Cache.respBits s.own.l2) := by
      rw [h.pending, hown, if_pos rfl, hdue]
    rw [ev_busy hs, hfire, hr, if_pos rfl]
    refine ⟨⟨hpending, trivial⟩, fit_step hN h.fit _, phase_next hN h.fit h.phase _, ?_, fun l hK => ?_, fun ho => ?_⟩
    · rw [hown']
      rfl
    · have heff' : effective idx k (step idx N s i) = (step idx N s i).mem := by simp [effective, hown']
      rw [heff', mem_kept hsp (.inr (.inl hacc)) hK, ← heff]
      exact h.agree l hK
    · exact absurd (hown'.symm.trans ho) Bool.false_ne_true

/-- **One cycle of the cluster's own request** -/
theorem serves_own (hN : 1 ≤ N) (h : Serves idx K N k s β) (hsp : Spares idx K N k s i) (hown : own k s.own = true) :
    Trace (MemReq.access idx) β (ev N k s.own i.ext) ∧
      Serves idx K N k (step idx N s i) (after (MemReq.access idx) β (ev N k s.own i.ext)) := by
  obtain ⟨p, hp⟩ := h.phase
  cases hp with
  | idle hl ha => exact absurd hl (own_iff.1 hown).1
  | wack hl ha d => exact serves_answer hN h hsp hown (.inl hl) ha
  | resp hl ha => exact serves_answer hN h hsp hown (.inr hl) ha
  | aw hl ha =>
    have hl2 : (step idx N s i).own.l2.state = .wd := by
      simp [step_own, GpuPath.next, GPUL2Cache.next, hl, AXIToMemReq.axiIn, ha, GPUL2Cache.axiOut]
    exact serves_move hN h hsp hown hl ha hl2 rfl (by simp [storing, unissued]) (unanswered (by simp [hl]))
      (not_accepts (by simp [ha])) fun hst => absurd hst (by decide)
  | wd hl ha haddr =>
    have hl2 : (step idx N s i).own.l2.state = .bwait := by
      simp [step_own, GpuPath.next, GPUL2Cache.next, hl, AXIToMemReq.axiIn, ha]
    have hadp : (step idx N s i).own.adp.state = .wreq := by
      simp [step_own, GpuPath.next, AXIToMemReq.next, ha, GpuPath.adpIn, GPUL2Cache.axiOut, hl, AXIToMemReq.allOnes]
    exact serves_move hN h hsp hown hl ha hl2 hadp (by decide) (unanswered (by simp [hl])) (not_accepts (by simp [ha]))
      fun hst => absurd hst (by decide)
  | ar hl ha =>
    have hl2 : (step idx N s i).own.l2.state = .rc := by
      simp [step_own, GpuPath.next, GPUL2Cache.next, hl, AXIToMemReq.axiIn, ha, GPUL2Cache.axiOut]
    have hadp : (step idx N s i).own.adp.state = .areq := by
      simp [step_own, GpuPath.next, AXIToMemReq.next, ha, GpuPath.adpIn, GPUL2Cache.axiOut, hl]
    exact serves_move hN h hsp hown hl ha hl2 hadp (by decide) (unanswered (by simp [hl])) (not_accepts (by simp [ha]))
      fun _ hun => absurd hun (by decide)
  | wreq hl ha hreq =>
    cases hr : (portIn s i).reqReady with
    | true => exact serves_issue_store hN h hsp hown hl ha hreq hr
    | false =>
      obtain ⟨hl2, hadp⟩ := GpuPath.step_request (N := N) (r := s.own) (i := ⟨i.ext, portIn s i⟩) (.inl hl) (by simp [ha])
      rw [hr, if_neg Bool.false_ne_true] at hadp
      exact serves_move hN h hsp hown hl ha ((congrArg _ hl2).trans hl) ((congrArg _ hadp).trans ha) (by decide)
        (unanswered (by simp [hl])) (by simp [accepts, client, hr]) fun hst => absurd hst (by decide)
  | areq hl ha hreq =>
    cases hr : (portIn s i).reqReady with
    | true => exact serves_issue_load hN h hsp hown hl ha hreq hr
    | false =>
      obtain ⟨hl2, hadp⟩ := GpuPath.step_request (N := N) (r := s.own) (i := ⟨i.ext, portIn s i⟩) (.inr hl) (by simp [ha])
      rw [hr, if_neg Bool.false_ne_true] at hadp
      exact serves_move hN h hsp hown hl ha ((congrArg _ hl2).trans hl) ((congrArg _ hadp).trans ha) (by decide)
        (unanswered (by simp [hl])) (by simp [accepts, client, hr]) fun _ hun => absurd hun (by decide)
  | wwrsp hl ha =>
    obtain ⟨hl2, hadp⟩ := GpuPath.step_response (N := N) (r := s.own) (i := ⟨i.ext, portIn s i⟩) (.inl hl) (by simp [ha])
    refine serves_move hN h hsp hown hl ha ((congrArg _ hl2).trans hl) rfl ⟨by decide, rfl, ?_⟩
      (unanswered (by simp [hl])) (not_accepts (by simp [ha])) fun hst => absurd hst (by decide)
    rw [step_own, hadp, if_pos ha]
    cases hv : (portIn s i).respValid <;> simp [unissued, ha]
  | aresp hl ha => exact serves_await_load hN h hsp hown hl ha
  | wrespo hl ha d =>
    have hl2 : (step idx N s i).own.l2.state = .wack := by
      simp [step_own, GpuPath.next, GPUL2Cache.next, hl, AXIToMemReq.axiIn, ha]
    have hadp : (step idx N s i).own.adp.state = .idle := by
      simp [step_own, GpuPath.next, AXIToMemReq.next, ha, GpuPath.adpIn, GPUL2Cache.axiOut, hl]
    exact serves_move hN h hsp hown hl ha hl2 hadp (by decide) (unanswered (by simp [hl])) (not_accepts (by simp [ha]))
      fun hst => absurd hst (by decide)
  | rvalid hl ha =>
    have hl2 : (step idx N s i).own.l2 = { s.own.l2 with rdataR := s.own.adp.rdata, state := .resp } := by
      simp [step_own, GpuPath.next, GPUL2Cache.next, hl, AXIToMemReq.axiIn, ha]
    have hadp : (step idx N s i).own.adp.state = .idle := by
      simp [step_own, GpuPath.next, AXIToMemReq.next, ha, GpuPath.adpIn, GPUL2Cache.axiOut, hl]
    refine serves_move hN h hsp hown hl ha (congrArg _ hl2) hadp ⟨by simp, rfl, rfl⟩ (unanswered (by simp [hl]))
      (not_accepts (by simp [ha])) fun _ _ => ?_
    simp [due, hl2, hadp, hl, ha, storing, unissued]

/-- **One cycle.** -/
theorem serves_step (hN : 1 ≤ N) (h : Serves idx K N k s β) (hsp : Spares idx K N k s i) :
    Trace (MemReq.access idx) β (ev N k s.own i.ext) ∧
      Serves idx K N k (step idx N s i) (after (MemReq.access idx) β (ev N k s.own i.ext)) := by
  by_cases hs : s.own.l2.state = .idle
  · exact serves_idle hN h hsp hs
  · by_cases hk : s.own.l2.selR = k
    · exact serves_own hN h hsp (own_iff.2 ⟨hs, hk⟩)
    · obtain ⟨hnone, hserves⟩ := serves_foreign hN h hsp hs hk
      rw [hnone]
      exact ⟨trivial, hserves⟩

/-- **A memory of its own.** In a run in which nobody else writes the lines of cluster `k`, its handshakes are those of an
atomic memory, and so they go on as long as the run does. -/
theorem serves_run (hN : 1 ≤ N) (h : Serves idx K N k s β) {ins : List (SysIn L)}
    (hsp : Always (step idx N) (Spares idx K N k) s ins) :
    Trace (MemReq.access idx) β (collect (step idx N) (fun s i => ev N k s.own i.ext) s ins) ∧
      Serves idx K N k (run (step idx N) s ins)
        (after (MemReq.access idx) β (collect (step idx N) (fun s i => ev N k s.own i.ext) s ins)) :=
  trace_run_of _ (fun _ _ _ h hsp => serves_step hN h hsp) h hsp

end

end AegisSoc.ClusterPort
