/-
The transistor library (`techlib/cmos.v`), read at switch level as its header says: nmos joins drain and source when its
gate is 1, pmos when its gate is 0, VDD is 1 and GND is 0.

- `gate_exact`, `admits_mux`: the combinational cells are exact. For every input the nets of a cell have consistent values,
  and the output is the primitive's;
- `steering_exact`: the muxes of the register cells offer the flip-flop the primitive's next state;
- `dffP_never`: the flip-flop has no consistent values in any phase of its clock. The gates that close its latches join a
  net to that net's own inverse: the master when the clock is high, the slave when it is low;
- `implements_iff`: so a register cell follows its primitive over no waveform but the empty one;
- `inverts`: with the hold gates aside, the data reaches the output through one inversion.
-/
import AegisSoc.Lib.Switch

namespace AegisSoc.Cmos

open Switch

/-! ## The combinational cells -/

inductive NotPort where
  | A
  | Y

/-- `$_NOT_` -/
def notCell : Circuit NotPort := cell (W := Empty)
  [pmos (port .Y) .vdd (port .A),
   nmos (port .Y) .gnd (port .A)] []

def notInst {N : Type} (a y : Node N) : Circuit N := inst notCell fun
  | .A => a
  | .Y => y

/-- the ports of a gate with two inputs -/
inductive GatePort where
  | A
  | B
  | Y

def gateInst {N : Type} (g : Circuit GatePort) (a b y : Node N) : Circuit N := inst g fun
  | .A => a
  | .B => b
  | .Y => y

inductive StackWire where
  | m

/-- `$_NAND_` -/
def nandCell : Circuit GatePort := cell
  [pmos (port .Y) .vdd (port .A),
   pmos (port .Y) .vdd (port .B),
   nmos (port .Y) (wire StackWire.m) (port .A),
   nmos (wire .m) .gnd (port .B)] []

/-- `$_NOR_` -/
def norCell : Circuit GatePort := cell
  [pmos (port .Y) (wire StackWire.m) (port .A),
   pmos (wire .m) .vdd (port .B),
   nmos (port .Y) .gnd (port .A),
   nmos (port .Y) .gnd (port .B)] []

inductive InnerWire where
  | n

/-- `$_AND_` -/
def andCell : Circuit GatePort := cell []
  [gateInst nandCell (port .A) (port .B) (wire InnerWire.n),
   notInst (wire .n) (port .Y)]

/-- `$_OR_` -/
def orCell : Circuit GatePort := cell []
  [gateInst norCell (port .A) (port .B) (wire InnerWire.n),
   notInst (wire .n) (port .Y)]

inductive AndnotWire where
  | nb
  | n

/-- `$_ANDNOT_` -/
def andnotCell : Circuit GatePort := cell []
  [notInst (port .B) (wire AndnotWire.nb),
   gateInst nandCell (port .A) (wire .nb) (wire .n),
   notInst (wire .n) (port .Y)]

inductive OrnotWire where
  | na

/-- `$_ORNOT_` -/
def ornotCell : Circuit GatePort := cell []
  [notInst (port .A) (wire OrnotWire.na),
   gateInst nandCell (wire .na) (port .B) (port .Y)]

inductive XorWire where
  | na
  | nb
  | t1
  | t2

/-- `$_XOR_` -/
def xorCell : Circuit GatePort := cell []
  [notInst (port .A) (wire XorWire.na),
   notInst (port .B) (wire .nb),
   gateInst andCell (port .A) (wire .nb) (wire .t1),
   gateInst andCell (wire .na) (port .B) (wire .t2),
   gateInst orCell (wire .t1) (wire .t2) (port .Y)]

inductive XnorWire where
  | x

/-- `$_XNOR_` -/
def xnorCell : Circuit GatePort := cell []
  [gateInst xorCell (port .A) (port .B) (wire XnorWire.x),
   notInst (wire .x) (port .Y)]

inductive MuxPort where
  | A
  | B
  | S
  | Y

inductive MuxWire where
  | nS

/-- `$_MUX_` -/
def muxCell : Circuit MuxPort := cell
  [pmos (port .Y) (port .A) (port .S),
   nmos (port .Y) (port .A) (wire MuxWire.nS),
   pmos (port .Y) (port .B) (wire .nS),
   nmos (port .Y) (port .B) (port .S)]
  [notInst (port .S) (wire .nS)]

def muxInst {N : Type} (a b s y : Node N) : Circuit N := inst muxCell fun
  | .A => a
  | .B => b
  | .S => s
  | .Y => y

/-! ## They are exact -/

/-- the gates with two inputs -/
inductive Gate where
  | nand
  | and
  | nor
  | or
  | andnot
  | ornot
  | xor
  | xnor
deriving DecidableEq, Repr

namespace Gate

def cell : Gate → Circuit GatePort
  | nand => nandCell
  | and => andCell
  | nor => norCell
  | or => orCell
  | andnot => andnotCell
  | ornot => ornotCell
  | xor => xorCell
  | xnor => xnorCell

/-- the primitive -/
def fn : Gate → Bool → Bool → Bool
  | nand, a, b => !(a && b)
  | and, a, b => a && b
  | nor, a, b => !(a || b)
  | or, a, b => a || b
  | andnot, a, b => a && !b
  | ornot, a, b => a || !b
  | xor, a, b => a != b
  | xnor, a, b => a == b

end Gate

/-- for every input the output of the primitive is admitted, and no other -/
def Exact (c : Circuit GatePort) (f : Bool → Bool → Bool) : Prop := ∀ p, Admits c p ↔ p .Y = f (p .A) (p .B)

theorem notCell_exact (p : NotPort → Bool) : Admits notCell p ↔ p .Y = !p .A := by
  have hnets : Admits notCell p ↔ ∃ _ : Empty → Bool, (p .A = false → p .Y = true) ∧ (p .A = true → p .Y = false) := by
    simp [notCell, admits_cell]
  rw [hnets]
  constructor
  · rintro ⟨-, hpu, hpd⟩
    cases hA : p .A with
    | false => exact hpu hA
    | true => exact hpd hA
  · intro h
    exact ⟨Empty.elim, by simp [h]⟩

theorem nandCell_exact : Exact nandCell Gate.nand.fn := by
  intro p
  have hnets : Admits nandCell p ↔ ∃ w : StackWire → Bool, (p .A = false → p .Y = true) ∧ (p .B = false → p .Y = true) ∧
      (p .A = true → p .Y = w .m) ∧ (p .B = true → w .m = false) := by
    simp [nandCell, admits_cell]
  rw [hnets]
  constructor
  · rintro ⟨w, hp1, hp2, hn1, hn2⟩
    cases hA : p .A with
    | false => exact hp1 hA
    | true =>
      cases hB : p .B with
      | false => exact hp2 hB
      | true => exact (hn1 hA).trans (hn2 hB)
  · intro h
    -- the inner net is low when the lower transistor conducts, and follows the output when it does not
    refine ⟨fun _ => !p .B, ?_⟩
    cases hA : p .A <;> cases hB : p .B <;> simp [h, Gate.fn, hA, hB]

theorem norCell_exact : Exact norCell Gate.nor.fn := by
  intro p
  have hnets : Admits norCell p ↔ ∃ w : StackWire → Bool, (p .A = false → p .Y = w .m) ∧ (p .B = false → w .m = true) ∧
      (p .A = true → p .Y = false) ∧ (p .B = true → p .Y = false) := by
    simp [norCell, admits_cell]
  rw [hnets]
  constructor
  · rintro ⟨w, hp1, hp2, hn1, hn2⟩
    cases hA : p .A with
    | true => exact hn1 hA
    | false =>
      cases hB : p .B with
      | true => exact hn2 hB
      | false => exact (hp1 hA).trans (hp2 hB)
  · intro h
    refine ⟨fun _ => !p .B, ?_⟩
    cases hA : p .A <;> cases hB : p .B <;> simp [h, Gate.fn, hA, hB]

section Instances

variable {N : Type} {v : N → Bool} {a b s y : Node N}

@[simp] theorem admits_not : Admits (notInst a y) v ↔ y.level v = !a.level v := by
  rw [notInst, admits_inst, notCell_exact]

theorem admits_gate {g : Circuit GatePort} {f : Bool → Bool → Bool} (hg : Exact g f) :
    Admits (gateInst g a b y) v ↔ y.level v = f (a.level v) (b.level v) := by
  rw [gateInst, admits_inst, hg]

theorem muxCell_exact (p : MuxPort → Bool) : Admits muxCell p ↔ p .Y = if p .S then p .B else p .A := by
  have hnets : Admits muxCell p ↔ ∃ w : MuxWire → Bool, ((p .S = false → p .Y = p .A) ∧ (w .nS = true → p .Y = p .A) ∧
      (w .nS = false → p .Y = p .B) ∧ (p .S = true → p .Y = p .B)) ∧ w .nS = !p .S := by
    simp [muxCell, admits_cell]
  rw [hnets]
  constructor
  · rintro ⟨w, ⟨hpA, -, -, hnB⟩, -⟩
    cases hS : p .S with
    | false => exact hpA hS
    | true => exact hnB hS
  · intro h
    refine ⟨fun _ => !p .S, ?_⟩
    cases hS : p .S <;> simp [h, hS]

@[simp] theorem admits_mux : Admits (muxInst a b s y) v ↔ y.level v = if s.level v then b.level v else a.level v := by
  rw [muxInst, admits_inst, muxCell_exact]

end Instances

/-! In a cell made of gates each wire has one value, that of the gate that drives it. -/

theorem andCell_exact : Exact andCell Gate.and.fn := by
  intro p
  rw [andCell, admits_instances]
  simp only [admitAll_cons, admitAll_nil, and_true, admits_not, Node.level_net, Sum.elim_inl, Sum.elim_inr,
    admits_gate nandCell_exact]
  constructor
  · rintro ⟨w, hn, hY⟩
    rw [hY, hn, Gate.fn, Gate.fn, Bool.not_not]
  · intro h
    exact ⟨fun _ => Gate.nand.fn (p .A) (p .B), rfl, by rw [h, Gate.fn, Gate.fn, Bool.not_not]⟩

theorem orCell_exact : Exact orCell Gate.or.fn := by
  intro p
  rw [orCell, admits_instances]
  simp only [admitAll_cons, admitAll_nil, and_true, admits_not, Node.level_net, Sum.elim_inl, Sum.elim_inr,
    admits_gate norCell_exact]
  constructor
  · rintro ⟨w, hn, hY⟩
    rw [hY, hn, Gate.fn, Gate.fn, Bool.not_not]
  · intro h
    exact ⟨fun _ => Gate.nor.fn (p .A) (p .B), rfl, by rw [h, Gate.fn, Gate.fn, Bool.not_not]⟩

def andnotNets (a b : Bool) : AndnotWire → Bool
  | .nb => !b
  | .n => Gate.nand.fn a (!b)

theorem andnotCell_exact : Exact andnotCell Gate.andnot.fn := by
  intro p
  rw [andnotCell, admits_instances]
  simp only [admitAll_cons, admitAll_nil, and_true, admits_not, Node.level_net, Sum.elim_inl, Sum.elim_inr,
    admits_gate nandCell_exact]
  constructor
  · rintro ⟨w, hnb, hn, hY⟩
    rw [hY, hn, hnb, Gate.fn, Gate.fn, Bool.not_not]
  · intro h
    exact ⟨andnotNets (p .A) (p .B), rfl, rfl, by rw [h, andnotNets, Gate.fn, Gate.fn, Bool.not_not]⟩

theorem ornotCell_exact : Exact ornotCell Gate.ornot.fn := by
  intro p
  rw [ornotCell, admits_instances]
  simp only [admitAll_cons, admitAll_nil, and_true, admits_not, Node.level_net, Sum.elim_inl, Sum.elim_inr,
    admits_gate nandCell_exact]
  have hdual : Gate.nand.fn (!p .A) (p .B) = Gate.ornot.fn (p .A) (p .B) := by simp [Gate.fn]
  constructor
  · rintro ⟨w, hna, hY⟩
    rw [hY, hna, hdual]
  · intro h
    exact ⟨fun _ => !p .A, rfl, by rw [h, hdual]⟩

def xorNets (a b : Bool) : XorWire → Bool
  | .na => !a
  | .nb => !b
  | .t1 => Gate.and.fn a (!b)
  | .t2 => Gate.and.fn (!a) b

theorem xorCell_exact : Exact xorCell Gate.xor.fn := by
  intro p
  rw [xorCell, admits_instances]
  simp only [admitAll_cons, admitAll_nil, and_true, admits_not, Node.level_net, Sum.elim_inl, Sum.elim_inr,
    admits_gate andCell_exact, admits_gate orCell_exact]
  have hsum : Gate.or.fn (Gate.and.fn (p .A) (!p .B)) (Gate.and.fn (!p .A) (p .B)) = Gate.xor.fn (p .A) (p .B) := by
    cases p .A <;> cases p .B <;> rfl
  constructor
  · rintro ⟨w, hna, hnb, ht1, ht2, hY⟩
    rw [hY, ht1, ht2, hna, hnb, hsum]
  · intro h
    exact ⟨xorNets (p .A) (p .B), rfl, rfl, rfl, rfl, h.trans hsum.symm⟩

theorem xnorCell_exact : Exact xnorCell Gate.xnor.fn := by
  intro p
  rw [xnorCell, admits_instances]
  simp only [admitAll_cons, admitAll_nil, and_true, admits_not, Node.level_net, Sum.elim_inl, Sum.elim_inr,
    admits_gate xorCell_exact]
  have hnot : (!Gate.xor.fn (p .A) (p .B)) = Gate.xnor.fn (p .A) (p .B) := by
    cases p .A <;> cases p .B <;> rfl
  constructor
  · rintro ⟨w, hx, hY⟩
    rw [hY, hx, hnot]
  · intro h
    exact ⟨fun _ => Gate.xor.fn (p .A) (p .B), rfl, by rw [h, hnot]⟩

/-- **The combinational cells are exact.** -/
theorem gate_exact (g : Gate) : Exact g.cell g.fn := by
  cases g with
  | nand => exact nandCell_exact
  | and => exact andCell_exact
  | nor => exact norCell_exact
  | or => exact orCell_exact
  | andnot => exact andnotCell_exact
  | ornot => exact ornotCell_exact
  | xor => exact xorCell_exact
  | xnor => exact xnorCell_exact

/-! ## The flip-flop -/

inductive DffPort where
  | C
  | D
  | Q

inductive DffWire where
  | nC
  | m
  | mbar
  | s

section Dff

/-- master transparent when C = 0 -/
def masterTrack : List (Transistor (DffPort ⊕ DffWire)) :=
  [nmos (wire .m) (port .D) (wire .nC),
   pmos (wire .m) (port .D) (port .C)]

/-- master hold when C = 1 -/
def masterHold : List (Transistor (DffPort ⊕ DffWire)) :=
  [nmos (wire .m) (wire .mbar) (port .C),
   pmos (wire .m) (wire .mbar) (wire .nC)]

/-- slave transparent when C = 1 -/
def slaveTrack : List (Transistor (DffPort ⊕ DffWire)) :=
  [nmos (wire .s) (wire .m) (port .C),
   pmos (wire .s) (wire .m) (wire .nC)]

/-- slave hold when C = 0 -/
def slaveHold : List (Transistor (DffPort ⊕ DffWire)) :=
  [nmos (wire .s) (port .Q) (wire .nC),
   pmos (wire .s) (port .Q) (port .C)]

def dffInverters : List (Circuit (DffPort ⊕ DffWire)) :=
  [notInst (port .C) (wire .nC),
   notInst (wire .m) (wire .mbar),
   notInst (wire .s) (port .Q)]

/-- `$_DFF_P_` -/
def dffP : Circuit DffPort := cell (masterTrack ++ masterHold ++ slaveTrack ++ slaveHold) dffInverters

def dffInst {N : Type} (c d q : Node N) : Circuit N := inst dffP fun
  | .C => c
  | .D => d
  | .Q => q

variable {p p' : DffPort → Bool} {w w' : DffWire → Bool}

theorem inverters_iff :
    AdmitAll dffInverters (Sum.elim p w) ↔ w .nC = !p .C ∧ w .mbar = !w .m ∧ p .Q = !w .s := by
  simp [dffInverters]

/-- the master's hold gates join `m` and its inverse -/
theorem masterHold_conflict (hC : p .C = true) (hinv : AdmitAll dffInverters (Sum.elim p w)) :
    ¬ Consistent (Sum.elim p w) masterHold := by
  intro h
  obtain ⟨-, hmbar, -⟩ := inverters_iff.1 hinv
  have hjoin : w .m = w .mbar := (consistent_nmos_cons.1 h).1 hC
  rw [hmbar] at hjoin
  exact absurd hjoin.symm (Bool.not_ne_self _)

/-- the slave's hold gates join `s` and its inverse -/
theorem slaveHold_conflict (hC : p .C = false) (hinv : AdmitAll dffInverters (Sum.elim p w)) :
    ¬ Consistent (Sum.elim p w) slaveHold := by
  intro h
  obtain ⟨hnC, -, hQ⟩ := inverters_iff.1 hinv
  have hjoin : w .s = p .Q := (consistent_nmos_cons.1 h).1 (hnC.trans (by rw [hC]; rfl))
  rw [hQ] at hjoin
  exact absurd hjoin.symm (Bool.not_ne_self _)

/-- **The flip-flop has no consistent values**, whatever its clock, its data and its output are. -/
theorem dffP_never (p : DffPort → Bool) : ¬ Admits dffP p := by
  rw [dffP, admits_cell]
  rintro ⟨w, h, hinv⟩
  simp only [consistent_append] at h
  obtain ⟨⟨⟨-, hmaster⟩, -⟩, hslave⟩ := h
  cases hC : p .C with
  | true => exact masterHold_conflict hC hinv hmaster
  | false => exact slaveHold_conflict hC hinv hslave

/-- **The polarity.** With the hold gates aside, and `m` kept over the rising edge, the output is the inverse of the data
before the edge. -/
theorem inverts (hC : p .C = false) (h : Consistent (Sum.elim p w) masterTrack) (hC' : p' .C = true)
    (h' : Consistent (Sum.elim p' w') slaveTrack) (hinv' : AdmitAll dffInverters (Sum.elim p' w'))
    (hkept : w' .m = w .m) : p' .Q = !p .D := by
  obtain ⟨-, hrest⟩ := consistent_nmos_cons.1 h
  have hm : w .m = p .D := (consistent_pmos_cons.1 hrest).1 hC
  have hs : w' .s = w' .m := (consistent_nmos_cons.1 h').1 hC'
  obtain ⟨-, -, hQ⟩ := inverters_iff.1 hinv'
  rw [hQ, hs, hkept, hm]

end Dff

/-! ## The register cells -/

/-- a port that a cell does not have is connected to nothing -/
inductive RegPort where
  | C
  | D
  | E
  | R
  | Q

inductive RegWire where
  | hold
  | nxt

/-- the register cells and their primitives -/
inductive Cell where
  | dffP
  | dffePP
  | sdffPP0
  | sdffePP0P
  | sdffePP0N
deriving DecidableEq, Repr

namespace Cell

/-- the muxes in front of the flip-flop -/
def steering : Cell → List (Circuit (RegPort ⊕ RegWire))
  | dffP => []
  | dffePP => [muxInst (port .Q) (port .D) (port .E) (wire .hold)]
  | sdffPP0 => [muxInst (port .D) .gnd (port .R) (wire .nxt)]
  | sdffePP0P =>
    [muxInst (port .Q) (port .D) (port .E) (wire .hold),
     muxInst (wire .hold) .gnd (port .R) (wire .nxt)]
  | sdffePP0N =>
    [muxInst (port .D) (port .Q) (port .E) (wire .hold),
     muxInst (wire .hold) .gnd (port .R) (wire .nxt)]

/-- what the flip-flop's D is connected to -/
def data : Cell → Node (RegPort ⊕ RegWire)
  | dffP => port .D
  | dffePP => wire .hold
  | _ => wire .nxt

def circuit (k : Cell) : Circuit RegPort := cell [] (k.steering ++ [dffInst (port .C) k.data (port .Q)])

def resets : Cell → Bool
  | dffP | dffePP => false
  | _ => true

def enabled : Cell → Bool → Bool
  | dffP, _ | sdffPP0, _ => true
  | dffePP, e | sdffePP0P, e => e
  | sdffePP0N, e => !e

/-- the primitive's next state -/
def next (k : Cell) (q d e r : Bool) : Bool := if k.resets && r then false else if k.enabled e then d else q

end Cell

/-- the values of the steering wires -/
def Cell.nets (k : Cell) (q d e r : Bool) : RegWire → Bool
  | .hold => if k.enabled e then d else q
  | .nxt => k.next q d e r

/-- an enable at the other level swaps the inputs of its mux -/
theorem enable_low (q d e : Bool) : (if e then q else d) = if !e then d else q := by
  cases e <;> rfl

/-- **The steering is exact.** Its wires have consistent values, and the flip-flop is offered the primitive's next state. -/
theorem steering_exact (k : Cell) (p : RegPort → Bool) :
    (∃ w, AdmitAll k.steering (Sum.elim p w)) ∧
      ∀ w, AdmitAll k.steering (Sum.elim p w) →
        k.data.level (Sum.elim p w) = k.next (p .Q) (p .D) (p .E) (p .R) := by
  constructor
  · refine ⟨k.nets (p .Q) (p .D) (p .E) (p .R), ?_⟩
    cases k with
    | dffP => exact admitAll_nil
    | dffePP => exact admitAll_cons.2 ⟨admits_mux.2 rfl, admitAll_nil⟩
    | sdffPP0 => exact admitAll_cons.2 ⟨admits_mux.2 rfl, admitAll_nil⟩
    | sdffePP0P =>
      exact admitAll_cons.2 ⟨admits_mux.2 rfl, admitAll_cons.2 ⟨admits_mux.2 rfl, admitAll_nil⟩⟩
    | sdffePP0N =>
      exact admitAll_cons.2 ⟨admits_mux.2 (enable_low _ _ _).symm, admitAll_cons.2 ⟨admits_mux.2 rfl, admitAll_nil⟩⟩
  · intro w h
    cases k with
    | dffP => rfl
    | dffePP => exact admits_mux.1 (admitAll_cons.1 h).1
    | sdffPP0 => exact admits_mux.1 (admitAll_cons.1 h).1
    | sdffePP0P =>
      simp only [Cell.steering, admitAll_cons, admits_mux] at h
      obtain ⟨hhold, hnxt, -⟩ := h
      exact hnxt.trans (by rw [hhold]; rfl)
    | sdffePP0N =>
      simp only [Cell.steering, admitAll_cons, admits_mux] at h
      obtain ⟨hhold, hnxt, -⟩ := h
      rw [enable_low] at hhold
      exact hnxt.trans (by rw [hhold]; rfl)

/-- **No register cell has consistent values.** -/
theorem circuit_never (k : Cell) (p : RegPort → Bool) : ¬ Admits k.circuit p := by
  rw [Cell.circuit, admits_instances]
  rintro ⟨w, h⟩
  obtain ⟨-, hff⟩ := admitAll_append.1 h
  exact dffP_never _ (admits_inst.1 (admitAll_cons.1 hff).1)

/-! ## Waveforms -/

/-- the levels of the inputs in one phase -/
structure Phase where
  c : Bool
  d : Bool
  e : Bool
  r : Bool
deriving DecidableEq, Repr

/-- what the primitive shows in each phase: the stored bit, until the clock rises; then the next state for the inputs before
the edge -/
def shows (k : Cell) (q : Bool) : List Phase → List Bool
  | [] => []
  | [_] => [q]
  | x :: y :: w => q :: shows k (if !x.c && y.c then k.next q x.d x.e x.r else q) (y :: w)

def levels (x : Phase) (q : Bool) : RegPort → Bool
  | .C => x.c
  | .D => x.d
  | .E => x.e
  | .R => x.r
  | .Q => q

/-- every phase has consistent values in which the output is what the primitive shows -/
def Implements (k : Cell) (q : Bool) (w : List Phase) : Prop :=
  List.Forall₂ (fun x out => Admits k.circuit (levels x out)) w (shows k q w)

/-- **A register cell follows its primitive over the empty waveform only.** Of any other no phase has consistent values,
with whatever output. -/
theorem implements_iff (k : Cell) (q : Bool) (w : List Phase) :
    (Implements k q w ↔ w = []) ∧ ∀ x ∈ w, ¬ ∃ out, Admits k.circuit (levels x out) := by
  refine ⟨⟨fun h => ?_, ?_⟩, ?_⟩
  · cases w with
    | nil => rfl
    | cons x w =>
      unfold Implements at h
      cases h' : shows k q (x :: w) with
      | nil => rw [h'] at h; cases h
      | cons out outs =>
        rw [h'] at h
        exact absurd (List.forall₂_cons.1 h).1 (circuit_never k _)
  · rintro rfl
    exact .nil
  · rintro x - ⟨out, h⟩
    exact circuit_never k _ h

/-- the clock rises once, with the data at 1 -/
def oneEdge : List Phase := [⟨false, true, false, false⟩, ⟨true, true, false, false⟩]

theorem one_edge : shows .dffP false oneEdge = [false, true] ∧ ¬ Implements .dffP false oneEdge ∧
    ∀ x ∈ oneEdge, ∀ out, ¬ Admits (Cell.circuit .dffP) (levels x out) := by
  refine ⟨rfl, fun h => ?_, fun x _ out => circuit_never .dffP _⟩
  exact circuit_never .dffP _ (List.forall₂_cons.1 h).1

end AegisSoc.Cmos
