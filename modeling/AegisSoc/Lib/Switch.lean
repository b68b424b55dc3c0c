/-
Transistor circuits at switch level. An nmos transistor joins its drain and its source when its gate is 1, a pmos transistor
when its gate is 0; a valuation of the nets is consistent if joined nets have the same value.

A circuit has ports and nets of its own. `Admits c p` says that its own nets have values consistent with the values `p` of
the ports. Circuits are built the way a netlist is: transistors and instances of other circuits (`inst`), connected by
local wires (`cell`).

Rules:
- `admits_inst`: an instance admits what the circuit admits at the values of the nets it is connected to;
- `admits_cell`: a cell admits what its transistors and its instances admit together, for some values of its wires.
-/
import Mathlib.Tactic

namespace AegisSoc.Switch

variable {N M P Q W : Type}

/-! ## Transistors -/

/-- a terminal is tied to a rail or to a net -/
inductive Node (N : Type) where
  | vdd
  | gnd
  | net (n : N)

inductive Kind where
  | nmos
  | pmos
deriving DecidableEq, Repr

structure Transistor (N : Type) where
  kind : Kind
  drain : Node N
  source : Node N
  gate : Node N

def nmos (drain source gate : Node N) : Transistor N := ⟨.nmos, drain, source, gate⟩
def pmos (drain source gate : Node N) : Transistor N := ⟨.pmos, drain, source, gate⟩

namespace Node

def level (v : N → Bool) : Node N → Bool
  | vdd => true
  | gnd => false
  | net n => v n

@[simp] theorem level_vdd (v : N → Bool) : (vdd : Node N).level v = true := rfl
@[simp] theorem level_gnd (v : N → Bool) : (gnd : Node N).level v = false := rfl
@[simp] theorem level_net (v : N → Bool) (n : N) : (net n).level v = v n := rfl

/-- reconnect every net -/
def subst (f : N → Node M) : Node N → Node M
  | vdd => vdd
  | gnd => gnd
  | net n => f n

theorem level_subst (f : N → Node M) (v : M → Bool) (x : Node N) :
    (x.subst f).level v = x.level fun n => (f n).level v := by
  cases x <;> rfl

end Node

namespace Transistor

def subst (f : N → Node M) (t : Transistor N) : Transistor M := ⟨t.kind, t.drain.subst f, t.source.subst f, t.gate.subst f⟩

def conducts (v : N → Bool) (t : Transistor N) : Bool :=
  match t.kind with
  | .nmos => t.gate.level v
  | .pmos => !t.gate.level v

theorem conducts_subst (f : N → Node M) (v : M → Bool) (t : Transistor N) :
    (t.subst f).conducts v = t.conducts fun n => (f n).level v := by
  simp only [conducts, subst, Node.level_subst]

end Transistor

/-- nets joined by a conducting transistor have the same value -/
def Consistent (v : N → Bool) (ts : List (Transistor N)) : Prop :=
  ∀ t ∈ ts, t.conducts v = true → t.drain.level v = t.source.level v

section Consistent

variable {v : N → Bool} {ts us : List (Transistor N)} {d s g : Node N}

@[simp] theorem consistent_nil : Consistent v [] := fun _ h => absurd h List.not_mem_nil

@[simp] theorem consistent_nmos_cons :
    Consistent v (nmos d s g :: ts) ↔ (g.level v = true → d.level v = s.level v) ∧ Consistent v ts :=
  List.forall_mem_cons

@[simp] theorem consistent_pmos_cons :
    Consistent v (pmos d s g :: ts) ↔ (g.level v = false → d.level v = s.level v) ∧ Consistent v ts := by
  rw [← Bool.not_eq_true']
  exact List.forall_mem_cons

theorem consistent_append : Consistent v (ts ++ us) ↔ Consistent v ts ∧ Consistent v us := List.forall_mem_append

/-- reconnecting the nets of a circuit to nodes with the same values -/
theorem consistent_subst {f : N → Node M} {v : M → Bool} {u : N → Bool} (h : ∀ n, (f n).level v = u n)
    (ts : List (Transistor N)) : Consistent v (ts.map fun t => t.subst f) ↔ Consistent u ts := by
  obtain rfl : (fun n => (f n).level v) = u := funext h
  rw [Consistent, List.forall_mem_map]
  refine forall₂_congr fun t _ => ?_
  rw [Transistor.conducts_subst, Transistor.subst, Node.level_subst, Node.level_subst]

end Consistent

/-! ## Circuits -/

/-- transistors between ports `P` and nets of its own -/
structure Circuit (P : Type) where
  Own : Type
  net : List (Transistor (P ⊕ Own))

/-- some values of its own nets are consistent with those of the ports -/
def Admits (c : Circuit P) (p : P → Bool) : Prop := ∃ o : c.Own → Bool, Consistent (Sum.elim p o) c.net

/-- every one of them admits the same values -/
def AdmitAll (cs : List (Circuit P)) (p : P → Bool) : Prop := ∀ c ∈ cs, Admits c p

/-- an instance, its ports connected to nodes -/
def inst (c : Circuit Q) (f : Q → Node P) : Circuit P where
  Own := c.Own
  net := c.net.map fun t => t.subst (Sum.elim (fun x => (f x).subst fun n => .net (.inl n)) fun o => .net (.inr o))

/-- two circuits side by side, on the same ports -/
def par (c d : Circuit P) : Circuit P where
  Own := c.Own ⊕ d.Own
  net := (c.net.map fun t => t.subst (Sum.elim (fun x => .net (.inl x)) fun o => .net (.inr (.inl o)))) ++
    d.net.map fun t => t.subst (Sum.elim (fun x => .net (.inl x)) fun o => .net (.inr (.inr o)))

/-- ports made wires of the circuit -/
def hide (c : Circuit (P ⊕ W)) : Circuit P where
  Own := W ⊕ c.Own
  net := c.net.map fun t => t.subst (Sum.elim
    (Sum.elim (fun x => .net (.inl x)) fun w => .net (.inr (.inl w))) fun o => .net (.inr (.inr o)))

def plain (ts : List (Transistor P)) : Circuit P where
  Own := Empty
  net := ts.map fun t => t.subst fun x => .net (.inl x)

/-- local wires, transistors and instances -/
def cell (ts : List (Transistor (P ⊕ W))) (cs : List (Circuit (P ⊕ W))) : Circuit P := hide (cs.foldr par (plain ts))

/-! Nodes of a cell. -/
abbrev port (x : P) : Node (P ⊕ W) := .net (.inl x)
abbrev wire (w : W) : Node (P ⊕ W) := .net (.inr w)

section Admits

variable {p : P → Bool}

@[simp] theorem admitAll_nil : AdmitAll [] p := fun _ h => absurd h List.not_mem_nil

@[simp] theorem admitAll_cons {c : Circuit P} {cs : List (Circuit P)} :
    AdmitAll (c :: cs) p ↔ Admits c p ∧ AdmitAll cs p :=
  List.forall_mem_cons

theorem admitAll_append {cs ds : List (Circuit P)} : AdmitAll (cs ++ ds) p ↔ AdmitAll cs p ∧ AdmitAll ds p :=
  List.forall_mem_append

@[simp] theorem admits_inst {c : Circuit Q} {f : Q → Node P} :
    Admits (inst c f) p ↔ Admits c fun x => (f x).level p := by
  refine exists_congr fun o => consistent_subst ?_ _
  rintro (x | o')
  · exact Node.level_subst _ _ _
  · rfl

theorem admits_par {c d : Circuit P} : Admits (par c d) p ↔ Admits c p ∧ Admits d p := by
  have hparts : ∀ o : c.Own ⊕ d.Own → Bool, Consistent (Sum.elim p o) (par c d).net ↔
      Consistent (Sum.elim p (o ∘ .inl)) c.net ∧ Consistent (Sum.elim p (o ∘ .inr)) d.net := by
    intro o
    refine consistent_append.trans (and_congr (consistent_subst ?_ _) (consistent_subst ?_ _))
    · rintro (x | o') <;> rfl
    · rintro (x | o') <;> rfl
  constructor
  · rintro ⟨o, h⟩
    obtain ⟨hc, hd⟩ := (hparts o).1 h
    exact ⟨⟨_, hc⟩, ⟨_, hd⟩⟩
  · rintro ⟨⟨o, hc⟩, ⟨o', hd⟩⟩
    exact ⟨Sum.elim o o', (hparts _).2 ⟨hc, hd⟩⟩

theorem admits_hide {c : Circuit (P ⊕ W)} : Admits (hide c) p ↔ ∃ w : W → Bool, Admits c (Sum.elim p w) := by
  have hparts : ∀ o : W ⊕ c.Own → Bool, Consistent (Sum.elim p o) (hide c).net ↔
      Consistent (Sum.elim (Sum.elim p (o ∘ .inl)) (o ∘ .inr)) c.net := by
    intro o
    refine consistent_subst ?_ _
    rintro ((x | w) | o') <;> rfl
  constructor
  · rintro ⟨o, h⟩
    exact ⟨_, _, (hparts o).1 h⟩
  · rintro ⟨w, o, h⟩
    exact ⟨Sum.elim w o, (hparts _).2 h⟩

theorem admits_plain {ts : List (Transistor P)} : Admits (plain ts) p ↔ Consistent p ts := by
  constructor
  · rintro ⟨o, h⟩
    exact (consistent_subst (fun _ => rfl) ts).1 h
  · intro h
    exact ⟨Empty.elim, (consistent_subst (fun _ => rfl) ts).2 h⟩

/-- **A cell admits what its parts admit together.** -/
theorem admits_cell {ts : List (Transistor (P ⊕ W))} {cs : List (Circuit (P ⊕ W))} :
    Admits (cell ts cs) p ↔ ∃ w : W → Bool, Consistent (Sum.elim p w) ts ∧ AdmitAll cs (Sum.elim p w) := by
  have hparts : ∀ v : P ⊕ W → Bool, Admits (cs.foldr par (plain ts)) v ↔ Consistent v ts ∧ AdmitAll cs v := by
    intro v
    induction cs with
    | nil => simp [admits_plain]
    | cons c cs ih =>
      rw [List.foldr_cons, admits_par, ih, admitAll_cons]
      exact and_left_comm
  rw [cell, admits_hide]
  exact exists_congr fun w => hparts _

/-- a cell made of instances only -/
theorem admits_instances {cs : List (Circuit (P ⊕ W))} :
    Admits (cell [] cs) p ↔ ∃ w : W → Bool, AdmitAll cs (Sum.elim p w) := by
  simp only [admits_cell, consistent_nil, true_and]

end Admits

end AegisSoc.Switch
