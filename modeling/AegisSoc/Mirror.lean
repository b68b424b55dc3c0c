/-
A device on the AXI mirror `mem_axi` of the SoC. It only listens: it keeps an array of its own and performs the writes that
the mirror shows. `io.mem` of the stack is an observability port, and nothing in the SoC depends on what is attached to it.
- `device_step`: after every cycle the device holds what the array of the stack holds;
- `device_answers`: it would have answered every request as the stack does, in the cycle in which the mirror shows it;
- `device_exact`: with the request still in the stack it holds what the accepted requests have made of the memory.
-/
import AegisSoc.LockStep
import AegisSoc.SimtShared

namespace AegisSoc.Mirror

open Machine AegisSoc.Top LockStep
open PortMemory hiding next
open SplitPrioritizer (Port line lineOf access)
open HBM3Stack (Beat inFlight)
open SimtShared (contents)

/-! ## The device -/

abbrev Lines := BitVec 8 → BitVec 512

def hear (m : Lines) : Beat → Lines
  | .write a d => Function.update m (line a) d
  | .read _ => m

/-- what the device holds after the beats `bs` -/
def heard (m : Lines) (bs : List Beat) : Lines := bs.foldl hear m

def answer (m : Lines) : Beat → BitVec 512
  | .write _ _ => 0
  | .read a => m (line a)

/-- the device holds the array of the stack -/
def Holds (m : Lines) (r : HBM3Stack.Reg HBM3Stack.defaultGeometry) : Prop := ∀ k, r.cells k = m (lineOf k)

variable {memMode : BitVec 2} {m : Lines} {r : Reg}

/-! ## One cycle -/

/-- a beat does what its request does -/
theorem hear_of (m : Lines) (q : MemReq) : hear m (Beat.of q) = apply m (access q) := by
  cases hw : q.isWrite <;> simp [Beat.of, hear, apply, access, MemReq.access, hw]

/-- the array changes in the command state of a write only -/
theorem cells_next (s : HBM3Stack.Reg HBM3Stack.defaultGeometry) (i : HBM3Stack.In) : (HBM3Stack.next s i).cells =
    if s.state = .cmd ∧ s.rW = true then Function.update s.cells (HBM3Stack.rIdx s) s.rData else s.cells := by
  cases hs : s.state with
  | idle =>
    simp only [HBM3Stack.next, hs, reduceCtorEq, false_and, if_false]
    split_ifs
    · rfl
    · exact (HBM3Stack.accept_captures s i.req).2.2.2
    · rfl
  | cmd => simp [HBM3Stack.next, hs]
  | prech | act | ref =>
    simp only [HBM3Stack.next, hs, reduceCtorEq, false_and, if_false]
    split_ifs <;> rfl

/-- **Every cycle keeps the device at the array of the stack.** -/
theorem device_step (h : Holds m r.split.hbm) (i : In) : Holds (heard m (memAxi r)) (next memMode r i).split.hbm := by
  intro k
  have hcells : (next memMode r i).split.hbm.cells = _ := cells_next r.split.hbm _
  rw [hcells, memAxi]
  by_cases hs : r.split.hbm.state = .cmd
  · rw [HBM3Stack.beats_cmd hs]
    cases hw : r.split.hbm.rW with
    | true =>
      have hbeat : heard m [Beat.of (HBM3Stack.captured r.split.hbm)] =
          Function.update m (line r.split.hbm.rAddr) r.split.hbm.rData := by
        simp [heard, hear, Beat.of, HBM3Stack.captured, hw]
      have hcopy : r.split.hbm.cells = fun k => m (lineOf k) := funext h
      have hupdate := Function.update_comp_eq_of_injective m SplitPrioritizer.lineOf_injective
        (HBM3Stack.rIdx r.split.hbm) r.split.hbm.rData
      rw [if_pos ⟨hs, rfl⟩, hbeat, ← SplitPrioritizer.lineOf_idx, hcopy]
      exact (congrFun hupdate k).symm
    | false =>
      have hbeat : heard m [Beat.of (HBM3Stack.captured r.split.hbm)] = m := by
        simp [heard, hear, Beat.of, HBM3Stack.captured, hw]
      rw [if_neg (by simp), hbeat]
      exact h k
  · rw [if_neg fun hc => hs hc.1, HBM3Stack.beats_nil hs]
    exact h k

/-- **The device would have answered the same**: the response of a cycle is its answer to the beat of that cycle. -/
theorem device_answers (h : Holds m r.split.hbm) {p : Port} {d : BitVec 512} (hd : .respond p d ∈ handshakes memMode r) :
    ∃ b, memAxi r = [b] ∧ d = answer m b := by
  obtain ⟨hfire, rfl⟩ := SplitPrioritizer.respond_mem_ev.1 hd
  have hvalid := ((Bool.and_eq_true _ _).mp hfire).1
  have hs : r.split.hbm.state = .cmd := by
    cases p <;> simp only [SplitPrioritizer.respValid, Bool.and_eq_true, HBM3Stack.respValid, beq_iff_eq] at hvalid
    · exact hvalid.1
    · exact hvalid.1
    · exact hvalid.1.1
  refine ⟨_, HBM3Stack.beats_cmd hs, ?_⟩
  cases hw : r.split.hbm.rW with
  | true => simp [SplitPrioritizer.respBits, HBM3Stack.respBits, answer, Beat.of, HBM3Stack.captured, hw]
  | false =>
    have hline : lineOf (HBM3Stack.rIdx r.split.hbm) = line r.split.hbm.rAddr := SplitPrioritizer.lineOf_idx _
    simp [SplitPrioritizer.respBits, HBM3Stack.respBits, answer, Beat.of, HBM3Stack.captured, hw, h _, hline]

/-! ## Whole runs -/

/-- the beats of requests perform them one by one -/
theorem heard_of (m : Lines) (qs : List MemReq) : heard m (qs.map Beat.of) = memAfter access m qs := by
  induction qs generalizing m with
  | nil => rfl
  | cons q qs ih =>
    rw [List.map_cons, heard, List.foldl_cons, hear_of]
    exact ih _

/-- **A device that only listens to the mirror is a copy of the memory.** After any run from reset, with all traffic of the
SoC, let the device have performed the writes that the mirror has shown. Then
- it holds what the array of the stack holds;
- a response that is handed over now is its answer to the one beat that the mirror shows now;
- once it has performed the request that is still in the stack, it holds what the accepted requests have made of the
  memory. -/
theorem device_exact (memMode : BitVec 2) (g : Junk) (ins : List In) :
    let r := run (next memMode) (reset g) ins
    let device := heard (fun _ => 0) (collect (next memMode) (fun r _ => memAxi r) (reset g) ins)
    Holds device r.split.hbm ∧
    (∀ p d, .respond p d ∈ handshakes memMode r → ∃ b, memAxi r = [b] ∧ d = answer device b) ∧
    heard device ((inFlight r.split.hbm).map Beat.of) = contents memMode g ins := by
  intro r device
  have hstep : ∀ (r : Reg) (m : Lines) (i : In), Holds m r.split.hbm → True →
      Holds ((memAxi r).foldl hear m) (Top.next memMode r i).split.hbm := fun r m i h _ => device_step h i
  have hholds : Holds device r.split.hbm :=
    run_ghost (fun (r : Reg) m => Holds m r.split.hbm) hstep (fun _ => rfl) (always_true (Top.next memMode) (reset g) ins)
  refine ⟨hholds, fun p d hd => device_answers hholds hd, ?_⟩
  have hmirror := mirror_run memMode (locked_start g) ins
  rw [show inFlight (reset g).split.hbm = [] from rfl, List.nil_append] at hmirror
  have hbeats : heard device ((inFlight r.split.hbm).map Beat.of) =
      heard (fun _ => 0) (collect (next memMode) (fun r _ => memAxi r) (reset g) ins ++
        (inFlight r.split.hbm).map Beat.of) := (List.foldl_append).symm
  rw [hbeats, ← hmirror, heard_of, contents, after_mem]

end AegisSoc.Mirror
