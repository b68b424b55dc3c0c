/-
The open-row table of the HBM3 stack, for every geometry: what it holds, which accesses find their row open, and how long
a request takes because of it.

`page` is the table as a map from banks to the row they have open; `page_next` is what a cycle does to it.
- `table_run`: while `open_page` is held high, a bank has open the row of the last request accepted for it; while it is
  held low, a bank outside an access is closed;
- `latency_of_history`: so the time from the acceptance of a request to its response is a function of the requests
  accepted before it, whatever the arrivals, the stalls and the refreshes were;
- `open_iff`: the array is accessed through an open row in every state of a run, exactly if no response is held up in a
  cycle in which `open_page` is low: `closed_access` is a write to a bank whose row is already closed. A row is never
  activated over an open one.
-/
import AegisSoc.Memory.HBM3Stack
import AegisSoc.Lib.Machine

namespace AegisSoc.HBM3Stack

open Machine

variable {g : Geometry} {r : Reg g} {i : In}

/-! ## The table -/

/-- the row that bank `b` has open -/
def page (r : Reg g) (b : BitVec g.bankBits) : Option (BitVec g.rowBits) :=
  if r.pageOpen b then some (r.pageRow b) else none

theorem page_eq_some {b : BitVec g.bankBits} {ρ : BitVec g.rowBits} :
    page r b = some ρ ↔ r.pageOpen b = true ∧ r.pageRow b = ρ := by
  unfold page
  cases r.pageOpen b <;> simp

theorem page_eq_none {b : BitVec g.bankBits} : page r b = none ↔ r.pageOpen b = false := by
  unfold page
  cases r.pageOpen b <;> simp

/-- closing a bank -/
theorem page_close {r' : Reg g} {b : BitVec g.bankBits} (ho : r'.pageOpen = Function.update r.pageOpen b false)
    (hr : r'.pageRow = r.pageRow) : page r' = Function.update (page r) b none := by
  funext c
  by_cases hc : c = b
  · subst hc
    simp [page, ho]
  · simp [page, ho, hr, hc]

/-- opening a row -/
theorem page_activate {r' : Reg g} {b : BitVec g.bankBits} {ρ : BitVec g.rowBits}
    (ho : r'.pageOpen = Function.update r.pageOpen b true) (hr : r'.pageRow = Function.update r.pageRow b ρ) :
    page r' = Function.update (page r) b (some ρ) := by
  funext c
  by_cases hc : c = b
  · subst hc
    simp [page, ho, hr]
  · simp [page, ho, hr, hc]

theorem page_accept (r : Reg g) (q : MemReq) : page (accept r q) = page r := by
  unfold accept
  dsimp only
  split_ifs <;> rfl

/-- **What one cycle does to the table** -/
theorem page_next (r : Reg g) (i : In) : page (next r i) =
    match r.state with
    | .idle | .ref => page r
    | .prech => if (next r i).state = .act then Function.update (page r) (rBank r) none else page r
    | .act => if (next r i).state = .cmd then Function.update (page r) (rBank r) (some (rRow r)) else page r
    | .cmd => if i.openPage then page r else Function.update (page r) (rBank r) none := by
  cases hs : r.state with
  | idle =>
    simp only [next, hs]
    split_ifs
    · rfl
    · exact page_accept r i.req
    · rfl
  | prech =>
    simp only [next, hs]
    by_cases hc : r.cnt = BitVec.ofNat 5 (tPRE - 1)
    · simp only [hc, ite_true]
      exact page_close rfl rfl
    · simp only [hc, ite_false]
      rfl
  | act =>
    simp only [next, hs]
    by_cases hc : r.cnt = BitVec.ofNat 5 (tACT - 1)
    · simp only [hc, ite_true]
      exact page_activate rfl rfl
    · simp only [hc, ite_false]
      rfl
  | cmd =>
    simp only [next, hs]
    cases ho : i.openPage
    · exact page_close rfl rfl
    · rfl
  | ref =>
    simp only [next, hs]
    split_ifs <;> rfl

/-- the bank and the row of the request in hand stay -/
theorem target_kept (hs : r.state ≠ .idle) (i : In) : rBank (next r i) = rBank r ∧ rRow (next r i) = rRow r := by
  have hf : reqFire r i = false := by simp [reqFire, reqReady, hs]
  have haddr : (next r i).rAddr = r.rAddr := congrArg MemReq.addr (captured_next hf).1
  exact ⟨congrArg (bank g) haddr, congrArg (row g) haddr⟩

theorem target_accept (r : Reg g) (q : MemReq) :
    rBank (accept r q) = bank g q.addr ∧ rRow (accept r q) = row g q.addr := by
  have haddr : (accept r q).rAddr = q.addr := (accept_captures r q).1
  exact ⟨congrArg (bank g) haddr, congrArg (row g) haddr⟩

/-- where an accepted request goes, by what its bank has open -/
theorem state_accept (r : Reg g) (q : MemReq) : (accept r q).state =
    match page r (bank g q.addr) with
    | none => .act
    | some ρ => if ρ = row g q.addr then .cmd else .prech := by
  cases ho : r.pageOpen (bank g q.addr) with
  | false => simp [accept, qHit, page, ho]
  | true =>
    by_cases hr : r.pageRow (bank g q.addr) = row g q.addr
    · simp [accept, qHit, page, ho, hr]
    · simp [accept, qHit, page, ho, hr]

/-- a cycle without a request, by the state it starts in -/
theorem state_next (hf : reqFire r i = false) :
    match r.state with
    | .idle | .ref => (next r i).state = .idle ∨ (next r i).state = .ref
    | .prech => (next r i).state = .prech ∨ (next r i).state = .act
    | .act => (next r i).state = .act ∨ (next r i).state = .cmd
    | .cmd => (next r i).state = if i.respReady then .idle else .cmd := by
  cases hs : r.state with
  | idle =>
    simp only [next, hs, hf, Bool.false_eq_true, ite_false]
    split_ifs <;> simp
  | prech | act | ref =>
    simp only [next, hs]
    split_ifs <;> simp
  | cmd => simp [next, hs]

/-! ## Accesses through open rows -/

/-- the command state finds the captured row open, and the activate state the bank closed -/
structure AccessesOpen (r : Reg g) : Prop where
  cmd : r.state = .cmd → r.pageOpen (rBank r) = true ∧ r.pageRow (rBank r) = rRow r
  act : r.state = .act → r.pageOpen (rBank r) = false

/-- no response is held up in a cycle in which `open_page` is low -/
def Prompt (r : Reg g) (i : In) : Prop := r.state = .cmd → i.openPage = false → i.respReady = true

instance (r : Reg g) (i : In) : Decidable (Prompt r i) := inferInstanceAs (Decidable (_ → _ → _))

theorem accessesOpen_accept (r : Reg g) (q : MemReq) : AccessesOpen (accept r q) := by
  have hstate := state_accept r q
  obtain ⟨hbank, hrow⟩ := target_accept r q
  refine ⟨fun hs => page_eq_some.1 ?_, fun hs => page_eq_none.1 ?_⟩
  · rw [page_accept, hbank, hrow]
    rw [hs] at hstate
    split at hstate
    · exact absurd hstate (by decide)
    · next ρ hp =>
      split_ifs at hstate with hρ
      rw [hp, hρ]
  · rw [page_accept, hbank]
    rw [hs] at hstate
    split at hstate
    · assumption
    · split_ifs at hstate

/-- a bank is closed before a row of it is activated -/
theorem act_next (h : r.state = .act → r.pageOpen (rBank r) = false) (i : In) (hs' : (next r i).state = .act) :
    (next r i).pageOpen (rBank (next r i)) = false := by
  cases hf : reqFire r i with
  | true =>
    rw [next_of_reqFire hf] at hs' ⊢
    exact (accessesOpen_accept r i.req).act hs'
  | false =>
    have hpage := page_next r i
    have hstate := state_next hf
    rw [← page_eq_none]
    cases hs : r.state with
    | idle | ref =>
      simp only [hs, hs', reduceCtorEq, or_self] at hstate
    | prech =>
      simp only [hs] at hpage
      rw [hpage, if_pos hs', (target_kept (r := r) (by simp [hs]) i).1, Function.update_self]
    | act =>
      simp only [hs] at hpage
      rw [hpage, if_neg (by simp [hs']), (target_kept (r := r) (by simp [hs]) i).1]
      exact page_eq_none.2 (h hs)
    | cmd =>
      simp only [hs, hs'] at hstate
      split_ifs at hstate

/-- **One cycle.** The row of an access stays open, unless the response is held up and `open_page` is low. -/
theorem accessesOpen_next (h : AccessesOpen r) (hp : Prompt r i) : AccessesOpen (next r i) := by
  refine ⟨fun hs' => ?_, act_next h.act i⟩
  cases hf : reqFire r i with
  | true =>
    rw [next_of_reqFire hf] at hs' ⊢
    exact (accessesOpen_accept r i.req).cmd hs'
  | false =>
    have hpage := page_next r i
    have hstate := state_next hf
    rw [← page_eq_some]
    cases hs : r.state with
    | idle | ref | prech =>
      simp only [hs, hs', reduceCtorEq, or_self] at hstate
    | act =>
      obtain ⟨hbank, hrow⟩ := target_kept (r := r) (by simp [hs]) i
      simp only [hs] at hpage
      rw [hpage, if_pos hs', hbank, hrow, Function.update_self]
    | cmd =>
      obtain ⟨hbank, hrow⟩ := target_kept (r := r) (by simp [hs]) i
      simp only [hs, hs'] at hpage hstate
      -- still in the command state, so the response was held up
      have hheld : i.respReady ≠ true := fun hr => by simp [hr] at hstate
      have hopen : i.openPage = true := by
        by_contra ho
        exact hheld (hp hs (Bool.eq_false_iff.2 ho))
      rw [hpage, if_pos hopen, hbank, hrow]
      exact page_eq_some.2 (h.cmd hs)

/-- a response held up while `open_page` is low: the command state goes on over a closed bank -/
theorem closed_of_not_prompt (hp : ¬ Prompt r i) : ¬ AccessesOpen (next r i) := by
  intro h
  simp only [Prompt, Classical.not_imp] at hp
  obtain ⟨hs, ho, hr⟩ := hp
  have hstate := state_next (r := r) (i := i) (by simp [reqFire, reqReady, hs])
  have hpage := page_next r i
  simp only [hs, ho, hr, ite_false, Bool.false_eq_true] at hstate hpage
  have hopen := page_eq_some.2 (h.cmd hstate)
  rw [hpage, (target_kept (r := r) (by simp [hs]) i).1, Function.update_self] at hopen
  exact absurd hopen (by simp)

theorem accessesOpen_run (h : AccessesOpen r) (ins : List In) :
    (∀ before, before <+: ins → AccessesOpen (run next r before)) ↔ Always next Prompt r ins := by
  induction ins generalizing r with
  | nil =>
    refine ⟨fun _ => trivial, fun _ before hb => ?_⟩
    rw [List.prefix_nil.1 hb]
    exact h
  | cons i ins ih =>
    constructor
    · intro hall
      have hnext : AccessesOpen (next r i) := hall [i] ⟨ins, rfl⟩
      have hp : Prompt r i := by
        by_contra hp
        exact closed_of_not_prompt hp hnext
      refine ⟨hp, (ih hnext).1 fun before hb => ?_⟩
      exact hall (i :: before) (List.cons_prefix_cons.2 ⟨rfl, hb⟩)
    · rintro ⟨hp, hrest⟩ before hb
      cases before with
      | nil => exact h
      | cons j before =>
        obtain ⟨rfl, hb'⟩ := List.cons_prefix_cons.1 hb
        exact (ih (accessesOpen_next h hp)).2 hrest before hb'

/-- **The array is accessed through open rows.** For every geometry and every run from reset:
- every state of the run that is in the command state has the bank of the captured request open with the captured row,
  and every one in the activate state has that bank closed, if and only if no response is held up in a cycle in which
  `open_page` is low;
- the part about the activate state holds in every run. -/
theorem open_iff (g : Geometry) (a : BitVec 64) (d : BitVec 512) (w : Bool) (ins : List In) :
    ((∀ before, before <+: ins → AccessesOpen (run next (reset g a d w) before)) ↔
      Always next Prompt (reset g a d w) ins) ∧
    ((run next (reset g a d w) ins).state = .act →
      (run next (reset g a d w) ins).pageOpen (rBank (run next (reset g a d w) ins)) = false) := by
  have hreset : AccessesOpen (reset g a d w) :=
    ⟨fun hs => absurd hs (by simp [reset]), fun hs => absurd hs (by simp [reset])⟩
  refine ⟨accessesOpen_run hreset ins, ?_⟩
  exact run_inv (P := fun _ _ => True) (fun r : Reg g => r.state = .act → r.pageOpen (rBank r) = false)
    (fun _ i h _ => act_next h i) hreset.act (always_true _ _ _)

/-- a store whose response is held up, with `open_page` low -/
def heldStore : List In :=
  let quiet : In := ⟨false, ⟨0, 0, false⟩, false, false⟩
  [⟨true, ⟨64, 7, true⟩, false, false⟩, quiet, quiet, quiet]

/-- **A held-up store is written to a closed bank**: in its second cycle the command is still shown and the array still
written, but the bank has been closed. -/
theorem closed_access :
    (run next (reset defaultGeometry 0 0 false) heldStore).state = .cmd ∧
      (run next (reset defaultGeometry 0 0 false) heldStore).pageOpen
        (rBank (run next (reset defaultGeometry 0 0 false) heldStore)) = false ∧
      beats (run next (reset defaultGeometry 0 0 false) heldStore) = [.write 64 7] ∧
      ¬ AccessesOpen (run next (reset defaultGeometry 0 0 false) heldStore) := by
  have hs : (run next (reset defaultGeometry 0 0 false) heldStore).state = .cmd := by decide +kernel
  have hc : (run next (reset defaultGeometry 0 0 false) heldStore).pageOpen
      (rBank (run next (reset defaultGeometry 0 0 false) heldStore)) = false := by decide +kernel
  refine ⟨hs, hc, by decide +kernel, fun h => ?_⟩
  exact absurd ((h.cmd hs).1.symm.trans hc) (by decide)

/-! ## Response time and history -/

/-- the requests accepted in a cycle -/
def requests (r : Reg g) (i : In) : List MemReq := if reqFire r i then [i.req] else []

/-- the last of the requests `hist` that went to bank `b` -/
def lastTo (g : Geometry) (hist : List MemReq) (b : BitVec g.bankBits) : Option MemReq :=
  (hist.filter fun q => bank g q.addr = b).getLast?

theorem lastTo_snoc (hist : List MemReq) (q : MemReq) (b : BitVec g.bankBits) :
    lastTo g (hist ++ [q]) b = if bank g q.addr = b then some q else lastTo g hist b := by
  by_cases hb : bank g q.addr = b
  · simp [lastTo, List.filter_append, hb]
  · simp [lastTo, List.filter_append, hb]

/-- the row that bank `b` has open between accesses, if `open_page` is held at `o` -/
def known (g : Geometry) (o : Bool) (hist : List MemReq) (b : BitVec g.bankBits) : Option (BitVec g.rowBits) :=
  if o then (lastTo g hist b).map fun q => row g q.addr else none

theorem known_snoc {o : Bool} {hist : List MemReq} {q : MemReq} {b : BitVec g.bankBits} (hb : b ≠ bank g q.addr) :
    known g o (hist ++ [q]) b = known g o hist b := by
  have hlast : lastTo g (hist ++ [q]) b = lastTo g hist b := by rw [lastTo_snoc, if_neg fun h => hb h.symm]
  rw [known, known, hlast]

/-- the table is what the accepted requests `hist` say; the bank of the request in hand may be on its way there -/
structure Table (o : Bool) (hist : List MemReq) (r : Reg g) : Prop where
  others : ∀ b, (busy r = true → b ≠ rBank r) → page r b = known g o hist b
  own : busy r = true → (lastTo g hist (rBank r)).map (fun q => row g q.addr) = some (rRow r)
  cmd : r.state = .cmd → o = true → page r (rBank r) = some (rRow r)

variable {o : Bool} {hist : List MemReq}

theorem table_accept (h : Table o hist r) (hb : busy r = false) (q : MemReq) : Table o (hist ++ [q]) (accept r q) := by
  obtain ⟨hbank, hrow⟩ := target_accept r q
  have hpage : ∀ b, page r b = known g o hist b := fun b => h.others b fun hc => absurd (hb.symm.trans hc) (by decide)
  refine ⟨fun b hne => ?_, fun _ => ?_, fun hs _ => ?_⟩
  · rw [page_accept, hpage, known_snoc]
    rw [← hbank]
    exact hne (busy_accept r q)
  · rw [hbank, hrow, lastTo_snoc, if_pos rfl]
    rfl
  · exact page_eq_some.2 ((accessesOpen_accept r q).cmd hs)

/-- a cycle before the command state: only the bank of the request in hand changes -/
theorem table_wait (h : Table o hist r) (hs : r.state = .prech ∨ r.state = .act) (i : In) : Table o hist (next r i) := by
  have hne : r.state ≠ .idle := by rcases hs with hs | hs <;> simp [hs]
  have hf : reqFire r i = false := by simp [reqFire, reqReady, hne]
  have hbusy : busy r = true := by rcases hs with hs | hs <;> simp [busy, hs]
  obtain ⟨hbank, hrow⟩ := target_kept hne i
  have hbusy' : busy (next r i) = true := by
    have hstate := state_next hf
    rcases hs with hs | hs
    · simp only [hs] at hstate
      rcases hstate with hs' | hs' <;> simp [busy, hs']
    · simp only [hs] at hstate
      rcases hstate with hs' | hs' <;> simp [busy, hs']
  have hpage := page_next r i
  refine ⟨fun b hb => ?_, fun _ => by rw [hbank, hrow]; exact h.own hbusy, fun hc _ => ?_⟩
  · have hb : b ≠ rBank r := hbank ▸ hb hbusy'
    rw [← h.others b fun _ => hb, hpage]
    rcases hs with hs | hs
    · simp only [hs]
      split_ifs
      · exact Function.update_of_ne hb _ _
      · rfl
    · simp only [hs]
      split_ifs
      · exact Function.update_of_ne hb _ _
      · rfl
  · have hact : r.state = .act := by
      rcases hs with hs | hs
      · have hstate := state_next hf
        simp only [hs, hc, reduceCtorEq, or_self] at hstate
      · exact hs
    simp only [hact] at hpage
    rw [hpage, if_pos hc, hbank, hrow, Function.update_self]

/-- a cycle of the command state, with `open_page` at `o` -/
theorem table_cmd (h : Table o hist r) (hs : r.state = .cmd) (ho : i.openPage = o) : Table o hist (next r i) := by
  have hbusy : busy r = true := by simp [busy, hs]
  obtain ⟨hbank, hrow⟩ := target_kept (r := r) (by simp [hs]) i
  have hpage := page_next r i
  simp only [hs, ho] at hpage
  refine ⟨fun b hb => ?_, fun _ => by rw [hbank, hrow]; exact h.own hbusy, fun _ hopen => ?_⟩
  · by_cases hown : b = rBank r
    · -- the access is over: its row stays open or is closed
      subst hown
      rw [hpage, known]
      cases o with
      | true => exact (h.cmd hs rfl).trans (h.own hbusy).symm
      | false => exact Function.update_self _ _ _
    · rw [← h.others b fun _ => hown, hpage]
      split_ifs
      · rfl
      · exact Function.update_of_ne hown _ _
  · rw [hpage, if_pos hopen, hbank, hrow]
    exact h.cmd hs hopen

/-- **One cycle with `open_page` at `o`** -/
theorem table_step (h : Table o hist r) (ho : i.openPage = o) : Table o (hist ++ requests r i) (next r i) := by
  cases hf : reqFire r i with
  | true =>
    have hb : busy r = false := by
      have hidle : r.state = .idle := by
        simp only [reqFire, reqReady, Bool.and_eq_true, beq_iff_eq] at hf
        exact hf.2.1
      simp [busy, hidle]
    rw [requests, hf, if_pos rfl, next_of_reqFire hf]
    exact table_accept h hb i.req
  | false =>
    rw [requests, hf, if_neg Bool.false_ne_true, List.append_nil]
    cases hs : r.state with
    | idle | ref =>
      have hbusy : busy r = false := by simp [busy, hs]
      have hstate := state_next hf
      have hpage := page_next r i
      simp only [hs] at hstate hpage
      have hbusy' : busy (next r i) = false := by rcases hstate with hs' | hs' <;> simp [busy, hs']
      refine ⟨fun b _ => ?_, fun hc => absurd (hbusy'.symm.trans hc) (by decide), fun hc => ?_⟩
      · rw [hpage]
        exact h.others b fun hc => absurd (hbusy.symm.trans hc) (by decide)
      · rcases hstate with hs' | hs' <;> exact absurd (hs'.symm.trans hc) (by decide)
    | prech => exact table_wait h (.inl hs) i
    | act => exact table_wait h (.inr hs) i
    | cmd => exact table_cmd h hs ho

theorem table_run (a : BitVec 64) (d : BitVec 512) (w : Bool) {before : List In} (ho : ∀ j ∈ before, j.openPage = o) :
    Table o (collect next requests (reset g a d w) before) (run next (reset g a d w) before) := by
  induction before using List.reverseRecOn with
  | nil =>
    refine ⟨fun b _ => ?_, fun hc => absurd hc (by simp [reset, busy]), fun hc => absurd hc (by simp [reset])⟩
    cases o <;> rfl
  | append_singleton before j ih =>
    rw [collect_snoc, run_snoc]
    exact table_step (ih fun k hk => ho k (List.mem_append_left _ hk)) (ho j (by simp))

/-- the response to the request accepted in the cycle with input `i` is valid for the first time `n` cycles later -/
def FirstValid (r : Reg g) (i : In) (n : ℕ) : Prop :=
  0 < n ∧ ∀ more : List In, more.length + 1 ≤ n → (respValid (run next r (i :: more)) = true ↔ more.length + 1 = n)

/-- the cycles from acceptance to response, after the requests `hist`, with `open_page` held high -/
def latency (g : Geometry) (hist : List MemReq) (q : MemReq) : ℕ :=
  match lastTo g hist (bank g q.addr) with
  | none => 1 + tACT
  | some p => if row g p.addr = row g q.addr then 1 else 1 + tPRE + tACT

/-- an accepted request is answered after the cycles it has left -/
theorem valid_iff (ht : Timed r) (hb : busy r = true) {more : List In} (hle : more.length ≤ lag r) :
    respValid (run next r more) = true ↔ more.length = lag r := by
  induction more generalizing r with
  | nil =>
    simp only [respValid, run_nil, beq_iff_eq, List.length_nil]
    constructor
    · intro hs
      simp [lag, hs]
    · exact fun hl => cmd_of_lag_zero ht hb hl.symm
  | cons i more ih =>
    have hs : r.state ≠ .cmd := fun hs => by simp [lag, hs] at hle
    obtain ⟨hb', hl⟩ := lag_next r i ht hb hs
    rw [List.length_cons] at hle ⊢
    rw [run_cons, ih (timed_next r i ht) hb' (by omega)]
    omega

/-- the cycles an accepted request has left, by what its bank has open -/
theorem lag_accept (r : Reg g) (q : MemReq) : lag (accept r q) + 1 =
    match page r (bank g q.addr) with
    | none => 1 + tACT
    | some ρ => if ρ = row g q.addr then 1 else 1 + tPRE + tACT := by
  cases ho : r.pageOpen (bank g q.addr) with
  | false => simp [accept, qHit, page, lag, ho, tACT]
  | true =>
    by_cases hr : r.pageRow (bank g q.addr) = row g q.addr
    · simp [accept, qHit, page, lag, ho, hr]
    · simp [accept, qHit, page, lag, ho, hr, tPRE, tACT]

theorem firstValid_accept (ht : Timed r) (hf : reqFire r i = true) : FirstValid r i (lag (accept r i.req) + 1) := by
  refine ⟨Nat.succ_pos _, fun more hle => ?_⟩
  have ht' := timed_next r i ht
  rw [next_of_reqFire hf] at ht'
  rw [run_cons, next_of_reqFire hf, valid_iff ht' (busy_accept r i.req) (by omega)]
  omega

/-- **The response time is determined by the access history.** For every geometry, every run `before` from reset, with
any arrivals, stalls and refreshes, and every request accepted after it, the response is valid for the first time
- if `open_page` was held high: after 1 cycle, `1 + tPRE + tACT` or `1 + tACT` cycles, if the last request accepted for
  the same bank had the same row, had another row, or there was none;
- if it was held low: after `1 + tACT` cycles. -/
theorem latency_of_history (g : Geometry) (a : BitVec 64) (d : BitVec 512) (w : Bool) (before : List In) (i : In)
    (hf : reqFire (run next (reset g a d w) before) i = true) :
    ((∀ j ∈ before, j.openPage = true) →
      FirstValid (run next (reset g a d w) before) i
        (latency g (collect next requests (reset g a d w) before) i.req)) ∧
    ((∀ j ∈ before, j.openPage = false) → FirstValid (run next (reset g a d w) before) i (1 + tACT)) := by
  have ht : Timed (run next (reset g a d w) before) :=
    run_inv Timed (fun r i h _ => timed_next r i h) (timed_reset g a d w) (always_true _ _ _)
  have hfirst := firstValid_accept ht hf
  have hidle : busy (run next (reset g a d w) before) = false := by
    simp only [reqFire, reqReady, Bool.and_eq_true, beq_iff_eq] at hf
    simp [busy, hf.2.1]
  have hpage : ∀ o, (∀ j ∈ before, j.openPage = o) →
      page (run next (reset g a d w) before) (bank g i.req.addr) =
        known g o (collect next requests (reset g a d w) before) (bank g i.req.addr) := fun o ho =>
    (table_run a d w ho).others _ fun hc => absurd (hidle.symm.trans hc) (by decide)
  rw [lag_accept] at hfirst
  constructor
  · intro ho
    rw [hpage true ho, known, if_pos rfl] at hfirst
    rw [latency]
    cases hlast : lastTo g (collect next requests (reset g a d w) before) (bank g i.req.addr) with
    | none => rwa [hlast] at hfirst
    | some p => rwa [hlast] at hfirst
  · intro ho
    rwa [hpage false ho] at hfirst

/-- a request for row 1 of bank 0 and its response, after which row 0 of that bank is asked for; `open_page` is high -/
def otherRow : List In :=
  let quiet : In := ⟨false, ⟨0, 0, false⟩, true, true⟩
  [⟨true, ⟨0x800, 7, true⟩, true, true⟩, quiet, quiet, quiet]

def backAgain : In := ⟨true, ⟨0, 0, false⟩, true, true⟩

theorem latency_of_history_conflict :
    FirstValid (run next (reset defaultGeometry 0 0 false) otherRow) backAgain (1 + tPRE + tACT) := by
  have hlatency : latency defaultGeometry (collect next requests (reset defaultGeometry 0 0 false) otherRow)
      backAgain.req = 1 + tPRE + tACT := by decide +kernel
  rw [← hlatency]
  exact (latency_of_history defaultGeometry 0 0 false otherRow backAgain (by decide +kernel)).1 (by decide)

end AegisSoc.HBM3Stack
