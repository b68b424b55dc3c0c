/-
The result lines of a GEMM command in memory.

A write takes effect when it is accepted. While nobody else writes the lines of a command, the lines whose writes have been
accepted hold the results (`stored_step`), as long as no two lines of the command are one line of the memory.
-/
import AegisSoc.FixedFunc.GemmShared

namespace AegisSoc.GemmStored

open Machine PortMemory GemmToMem GemmRun GemmShared
open PortClient hiding step

variable {L : Type*} [DecidableEq L] {T : ℕ} {idx : BitVec 64 → L} {b : BitVec 64} {c0 : ℕ → BitVec 32} {s : Sys L}
  {g : Prog} {i : SysIn L}

/-- the result lines whose writes have been accepted hold the results -/
def Stored (T : ℕ) (idx : BitVec 64 → L) (b : BitVec 64) (c0 : ℕ → BitVec 32) (s : Sys L) (g : Prog) : Prop :=
  ∀ n, 2 * linesOperand T ≤ n → n < g.ops.length →
    s.mem (idx (lineAt b n)) = cLine (result T c0 g.reads) (n - 2 * linesOperand T)

/-- no other agent writes a line of the command in this cycle -/
def SparesAll (T : ℕ) (idx : BitVec 64 → L) (b : BitVec 64) (i : SysIn L) : Prop :=
  ∀ n < allLines T, Spares (idx (lineAt b n)) i

/-- the lines of the command are lines of the memory of their own -/
def Distinct (T : ℕ) (idx : BitVec 64 → L) (b : BitVec 64) : Prop :=
  ∀ n < allLines T, ∀ n' < allLines T, idx (lineAt b n) = idx (lineAt b n') → n = n'

/-- before the first store no result line has been asked for -/
theorem ops_before (idx : BitVec 64 → L) (h : Running T b c0 s g) (hb : busy s.own = true) (hs : s.own.state ≠ .store) :
    ((ev T s i).foldl Prog.add g).ops.length ≤ 2 * linesOperand T := by
  have hlen := ops_length h
  have hcount := port_step T idx s i
  cases hf : fetching s.own with
  | true =>
    obtain ⟨-, -, hlt, -⟩ := fetching_req h hf
    rcases hcount with ⟨he, -, ho, -⟩ | ⟨he, -, ho, -⟩ | ⟨he, -, -⟩
    · rw [ho, Option.toList_none, List.length_nil] at hlen
      simp only [he, List.foldl_cons, List.foldl_nil, Prog.add, List.length_append, List.length_singleton]
      omega
    · rw [he, if_neg hs]
      simp only [List.foldl_cons, List.foldl_nil, Prog.add]
      omega
    · have howed : s.owed.toList.length ≤ 1 := by cases s.owed <;> simp
      rw [he, List.foldl_nil]
      omega
  | false =>
    have hcalc : s.own.state = .calc := by
      cases hst : s.own.state <;> simp [fetching, busy, hst] at hf hb hs ⊢
    have hph := h.phase
    simp only [Phase, hcalc] at hph
    have hoff : onPort s.own = false := by simp [onPort, hcalc]
    have he : ev T s i = [] := by simp [ev, accepts, takes, client, hoff]
    rw [h.owed hoff, Option.toList_none, List.length_nil] at hlen
    rw [he, List.foldl_nil]
    omega

omit [DecidableEq L] in
/-- the request of a storing engine -/
theorem storing_req (idx : BitVec 64 → L) (hT : TileOk T) (h : Running T b c0 s g) (hs : s.own.state = .store) :
    MemReq.access idx (memReq T s.own) =
        ⟨idx (lineAt b g.acks), cLine (result T c0 g.reads) (g.acks - 2 * linesOperand T), true⟩ ∧
      2 * linesOperand T ≤ g.acks ∧ g.acks < allLines T := by
  obtain ⟨hlines, hlc, -, -⟩ := hT.lines
  have hph := h.phase
  simp only [Phase, hs] at hph
  obtain ⟨hge, hlt, hcnt, -, hc⟩ := hph
  have hop := opOf_store (T := T) h.base hs fun e he => hc _ (by omega)
  have hwrite : (memReq T s.own).isWrite = true := by simp [memReq, hs]
  rw [hcnt, Nat.add_sub_cancel' hge, opOf, hwrite, if_pos rfl, opAt, if_neg (Nat.not_lt.2 hge)] at hop
  obtain ⟨haddr, hdata⟩ := Prod.mk.inj hop
  refine ⟨?_, hge, hlt⟩
  rw [MemReq.access, haddr, hwrite, Option.some.inj hdata]
  rfl

/-- **The results in memory**: every cycle in which nobody else writes the lines of the command keeps `Stored` -/
theorem stored_step (hT : TileOk T) (hd : Distinct T idx b) (h : Running T b c0 s g) (hb : busy s.own = true)
    (hS : Stored T idx b c0 s g) (hq : SparesAll T idx b i) :
    Stored T idx b c0 (step T idx s i) ((ev T s i).foldl Prog.add g) := by
  intro n hn hlt
  by_cases hs : s.own.state = .store
  · have hreads : ((ev T s i).foldl Prog.add g).reads = g.reads := reads_of_not_fetching (by simp [fetching, hs])
    obtain ⟨hreq, hge, hacks⟩ := storing_req idx hT h hs
    have hreq : reqOf (client T) (MemReq.access idx) s i = _ := hreq
    have hlen := ops_length h
    have hkept : n < allLines T → n < g.ops.length →
        writes s.mem i.others (idx (lineAt b n)) = cLine (result T c0 g.reads) (n - 2 * linesOperand T) := fun hall hold => by
      rw [writes_of_ne _ _ _ (hq n hall)]
      exact hS n hn hold
    rw [hreads]
    rcases port_cases (client T) (MemReq.access idx) s i with ⟨ha, ht, ho, -⟩ | ⟨ha, ht, ho, -⟩ | ⟨ha, ht, -⟩
    · -- the write of line `acks` takes effect
      have he : ev T s i = [.access (opOf (memReq T s.own))] := by simp [ev, ha, ht]
      rw [he] at hlt
      simp only [List.foldl_cons, List.foldl_nil, Prog.add, List.length_append, List.length_singleton] at hlt
      rw [ho, Option.toList_none, List.length_nil] at hlen
      simp only [GemmRun.step, PortClient.step, ha, if_true, hreq, apply]
      by_cases hlast : n = g.acks
      · rw [hlast, Function.update_self]
      · have hne : idx (lineAt b n) ≠ idx (lineAt b g.acks) := fun heq => hlast (hd n (by omega) _ hacks heq)
        rw [Function.update_of_ne hne]
        exact hkept (by omega) (by omega)
    · have he : ev T s i = [.ack] := by simp [ev, ha, ht, hs]
      rw [he] at hlt
      simp only [List.foldl_cons, List.foldl_nil, Prog.add] at hlt
      simp only [GemmRun.step, PortClient.step, ha, Bool.false_eq_true, if_false]
      rw [ho] at hlen
      exact hkept (by simp only [Option.toList_some, List.length_singleton] at hlen; omega) hlt
    · have he : ev T s i = [] := by simp [ev, ha, ht]
      rw [he, List.foldl_nil] at hlt
      have howed : s.owed.toList.length ≤ 1 := by cases s.owed <;> simp
      simp only [GemmRun.step, PortClient.step, ha, Bool.false_eq_true, if_false]
      exact hkept (by omega) hlt
  · exact absurd (hlt.trans_le (ops_before idx h hb hs)) (by omega)

end AegisSoc.GemmStored
