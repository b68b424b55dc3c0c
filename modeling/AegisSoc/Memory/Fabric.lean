/-
Three clients on the shared stack: one client per port of `SplitPrioritizer`, wired as in `Top.scala`.

The atomic memory that the prioritizer refines is carried along as a ghost (`Joint`). Seen from one port, the prioritizer
and the two other clients are a memory that accepts and answers when it likes and in which other agents write lines:
- `view_step`: one cycle of the whole system is one cycle of client `p` attached to the memory as port `p` sees it. What is
  proved of the cycles of a client attached to any memory holds of it on the fabric.
-/
import AegisSoc.Memory.SplitPrioritizer

namespace AegisSoc.Fabric

open Machine PortMemory PortClient SplitPrioritizer

variable {R X : Port → Type}

/-! ## Model -/

structure Reg (R : Port → Type) where
  split : SplitPrioritizer.Reg
  own : ∀ p, R p

structure In (X : Port → Type) where
  ext : ∀ p, X p
  mode : BitVec 2

section

variable (c : ∀ p, LineClient (R p) (X p))

/-- what the clients drive on the three ports -/
def splitIn (s : Reg R) (i : In X) : SplitPrioritizer.In where
  reqValid p := (c p).reqValid (s.own p) (i.ext p)
  req p := (c p).req (s.own p) (i.ext p)
  respReady p := (c p).respReady (s.own p) (i.ext p)
  mode := i.mode

/-- what client `p` sees of its port -/
def portIn (s : Reg R) (i : In X) (p : Port) : MemIn :=
  ⟨reqReady s.split (splitIn c s i) p, respValid s.split p, respBits s.split⟩

def next (s : Reg R) (i : In X) : Reg R where
  split := SplitPrioritizer.next s.split (splitIn c s i)
  own p := (c p).next (s.own p) (i.ext p) (portIn c s i p)

/-- the handshakes of one cycle on the three ports -/
def evs (s : Reg R) (i : In X) : List (Ev Port MemReq (BitVec 512)) := SplitPrioritizer.ev s.split (splitIn c s i)

/-! ## The atomic memory alongside -/

/-- the registers and the atomic memory they refine -/
structure Joint (R : Port → Type) where
  reg : Reg R
  mem : St Port (BitVec 8) (BitVec 512)

def jnext (j : Joint R) (i : In X) : Joint R := ⟨next c j.reg i, after access j.mem (evs c j.reg i)⟩

/-- the prioritizer refines the memory carried along -/
def Sound (j : Joint R) : Prop := Rel j.reg.split j.mem

theorem sound_step (j : Joint R) (i : In X) (h : Sound j) : Sound (jnext c j i) := (sim_step _ _ _ h).2

theorem run_reg (j : Joint R) (ins : List (In X)) : (run (jnext c) j ins).reg = run (next c) j.reg ins := by
  induction ins generalizing j with
  | nil => rfl
  | cons i ins ih => exact ih _

theorem run_mem (j : Joint R) (ins : List (In X)) :
    (run (jnext c) j ins).mem = after access j.mem (collect (next c) (evs c) j.reg ins) := by
  induction ins generalizing j with
  | nil => rfl
  | cons i ins ih =>
    rw [run_cons, ih, collect_cons, after_append]
    rfl

theorem always_reg {P : Reg R → In X → Prop} {j : Joint R} {ins : List (In X)} :
    Always (jnext c) (fun j i => P j.reg i) j ins ↔ Always (next c) P j.reg ins := by
  induction ins generalizing j with
  | nil => exact Iff.rfl
  | cons i ins ih => exact and_congr Iff.rfl ih

/-! ## The view of one port -/

/-- client `p` and the memory as its port sees it -/
def view (p : Port) (j : Joint R) : PortClient.Reg (R p) (BitVec 8) (BitVec 512) :=
  ⟨j.reg.own p, j.mem.mem, owed p j.mem⟩

def viewIn (p : Port) (j : Joint R) (i : In X) : PortClient.In (X p) (BitVec 8) (BitVec 512) :=
  ⟨i.ext p, reqReady j.reg.split (splitIn c j.reg i) p, respValid j.reg.split p, respBits j.reg.split,
    writesOf access p (evs c j.reg i)⟩

/-- the writes of the other ports that port `p` sees -/
theorem spares_iff {p : Port} {j : Joint R} {i : In X} {k : BitVec 8} :
    Spares k (viewIn c p j i) ↔ ∀ p', p' ≠ p → reqFire j.reg.split (splitIn c j.reg i) p' = true →
      ((splitIn c j.reg i).req p').isWrite = true → line ((splitIn c j.reg i).req p').addr ≠ k := by
  have hmem : ∀ p' q, (p', q) ∈ accepted (evs c j.reg i) ↔ .accept p' q ∈ evs c j.reg i := fun p' q => mem_accepted
  constructor
  · intro h p' hp hf hw
    refine h (line ((splitIn c j.reg i).req p').addr, ((splitIn c j.reg i).req p').data) ?_
    refine List.mem_filterMap.2 ⟨(p', (splitIn c j.reg i).req p'), (hmem _ _).2 (accept_mem_ev.2 ⟨hf, rfl⟩), ?_⟩
    rw [if_pos ⟨hp, hw⟩]
    rfl
  · intro h w hw
    obtain ⟨⟨p', q⟩, hx, hif⟩ := List.mem_filterMap.1 hw
    obtain ⟨hf, rfl⟩ := accept_mem_ev.1 ((hmem _ _).1 hx)
    simp only [Option.ite_none_right_eq_some, Option.some.injEq] at hif
    obtain ⟨⟨hp, hwr⟩, rfl⟩ := hif
    exact h p' hp hf hwr

/-- a port is ready only when nothing is owed -/
theorem pending_of_reqReady {j : Joint R} (h : Sound j) {i : In X} {p : Port}
    (hr : reqReady j.reg.split (splitIn c j.reg i) p = true) : j.mem.pending = none := by
  simp only [reqReady, Bool.and_eq_true] at hr
  have hfree : HBM3Stack.busy j.reg.split.hbm = false := by
    have hs := hr.1
    simp only [HBM3Stack.reqReady, Bool.and_eq_true, beq_iff_eq] at hs
    simp [HBM3Stack.busy, hs.1]
  exact Option.map_eq_none_iff.1 (h.stack.free hfree)

theorem portIn_view {j : Joint R} (h : Sound j) (i : In X) (p : Port) :
    PortClient.portIn (view p j) (viewIn c p j i) = portIn c j.reg i p := by
  have hready : reqReady j.reg.split (splitIn c j.reg i) p = true → owed p j.mem = none := fun hr => by
    simp [owed, pending_of_reqReady c h hr]
  have hvalid : respValid j.reg.split p = true → owed p j.mem = some (respBits j.reg.split) := fun hv =>
    owed_eq_some.2 (h.respValid hv)
  cases hr : reqReady j.reg.split (splitIn c j.reg i) p <;> cases hv : respValid j.reg.split p <;>
    simp_all [PortClient.portIn, portIn, view, viewIn]

/-- a client's handshakes are those of its port -/
theorem accepts_view {j : Joint R} (h : Sound j) (i : In X) (p : Port) :
    accepts (c p) (view p j) (viewIn c p j i) = reqFire j.reg.split (splitIn c j.reg i) p := by
  simp only [accepts, portIn_view c h]
  rfl

theorem takes_view {j : Joint R} (h : Sound j) (i : In X) (p : Port) :
    takes (c p) (view p j) (viewIn c p j i) = respFire j.reg.split (splitIn c j.reg i) p := by
  simp only [takes, portIn_view c h]
  rfl

/-- a client's cycle, in terms of the handshakes of its port -/
theorem step_view {j : Joint R} (h : Sound j) (i : In X) (p : Port) :
    PortClient.step (c p) access (view p j) (viewIn c p j i) =
      ⟨(next c j.reg i).own p,
        if reqFire j.reg.split (splitIn c j.reg i) p then
          apply (writes j.mem.mem (writesOf access p (evs c j.reg i))) (access ((splitIn c j.reg i).req p))
        else writes j.mem.mem (writesOf access p (evs c j.reg i)),
        if reqFire j.reg.split (splitIn c j.reg i) p then
          some (answer (writes j.mem.mem (writesOf access p (evs c j.reg i))) (access ((splitIn c j.reg i).req p)))
        else if respFire j.reg.split (splitIn c j.reg i) p then none else owed p j.mem⟩ := by
  rw [← accepts_view c h, ← takes_view c h]
  simp only [PortClient.step, portIn_view c h]
  rfl

/-- **One cycle of the system is one cycle of each client on the memory its port sees.** -/
theorem view_step (p : Port) (j : Joint R) (i : In X) (h : Sound j) :
    view p (jnext c j i) = PortClient.step (c p) access (view p j) (viewIn c p j i) := by
  have htrace : Trace access j.mem (evs c j.reg i) := (sim_step _ _ _ h).1
  have hfire : reqFire j.reg.split (splitIn c j.reg i) p = true ↔
      .accept p ((splitIn c j.reg i).req p) ∈ evs c j.reg i := by
    simp [evs, accept_mem_ev]
  have htake : respFire j.reg.split (splitIn c j.reg i) p = true ↔
      .respond p (respBits j.reg.split) ∈ evs c j.reg i := by
    simp [evs, respond_mem_ev]
  rw [step_view c h, view, jnext]
  rcases ev_cases h.tags (splitIn c j.reg i) with ⟨-, -, q, -, he⟩ | ⟨-, -, he⟩ | ⟨-, -, he⟩
  · -- a request is accepted: the client's own, or a write of another agent
    have he : evs c j.reg i = [.accept q ((splitIn c j.reg i).req q)] := he
    have hfree : j.mem.pending = none := by rw [he] at htrace; exact htrace.1
    rw [he] at hfire htake ⊢
    by_cases hp : p = q
    · subst hp
      have hf := hfire.2 List.mem_cons_self
      simp [hf, writesOf, accepted, PortMemory.next, owed]
    · have hq : q ≠ p := fun h => hp h.symm
      have hf : reqFire j.reg.split (splitIn c j.reg i) p = false := by simpa [hp] using hfire
      have ht : respFire j.reg.split (splitIn c j.reg i) p = false := by simpa using htake
      cases hw : (access ((splitIn c j.reg i).req q)).write <;>
        simp [hf, ht, writesOf, accepted, PortMemory.next, owed, hq, hfree, hw, apply, writes]
  · -- an answer is handed over: to the client, or to another port, and then the client is owed nothing
    have he : evs c j.reg i = [.respond (src j.reg.split) (respBits j.reg.split)] := he
    have hpend : j.mem.pending = some (src j.reg.split, respBits j.reg.split) := by rw [he] at htrace; exact htrace.1
    rw [he] at hfire htake ⊢
    have hf : reqFire j.reg.split (splitIn c j.reg i) p = false := by simpa using hfire
    by_cases hp : p = src j.reg.split
    · have ht := htake.2 (by rw [hp]; exact List.mem_cons_self)
      simp [hf, ht, writesOf, accepted, PortMemory.next, owed]
    · have hq : src j.reg.split ≠ p := fun h => hp h.symm
      have ht : respFire j.reg.split (splitIn c j.reg i) p = false := by simpa [hp] using htake
      simp [hf, ht, writesOf, accepted, PortMemory.next, owed, hpend, hq]
  · have he : evs c j.reg i = [] := he
    rw [he] at hfire htake ⊢
    have hf : reqFire j.reg.split (splitIn c j.reg i) p = false := by simpa using hfire
    have ht : respFire j.reg.split (splitIn c j.reg i) p = false := by simpa using htake
    simp [hf, ht, writesOf, accepted]

end

end AegisSoc.Fabric
