/-
Mapping a netlist to transistors (`techmap -map techlib/cmos.v` in `scripts/transistor_flow.sh`): every cell of a synthesised
netlist is replaced by the transistors of the library.

A netlist is a list of cells over the nets of a block: its inputs, and one wire for each cell, which that cell drives. The
cells stand in an order in which each combinational cell reads inputs and wires of earlier cells (`Ordered`).
- `admitted_values`: where the transistors have consistent values, those of the wires are the gate-level ones;
- `values_admitted`: the gate-level values of combinational cells are consistent;
- `techmap_iff`: so a mapped block has consistent values if and only if it has no register, and then the values of its wires
  are those of the gates, for every input.
-/
import AegisSoc.Techlib.Cmos

namespace AegisSoc.Techmap

open Switch Cmos

variable {N I : Type}

/-! ## Netlists -/

/-- `$_DFF_PN0_`, with the body of `$_SDFF_PP0_`: the reset is not asynchronous, and it acts at the other level -/
def dffPN0 : Circuit RegPort := cell []
  [muxInst (port .D) .gnd (port .R) (wire RegWire.nxt),
   dffInst (port .C) (wire .nxt) (port .Q)]

/-- a cell with what its inputs are connected to -/
inductive Inst (N : Type) where
  | not (a : Node N)
  | gate (g : Gate) (a b : Node N)
  | mux (a b s : Node N)
  | reg (k : Cell) (c d e r : Node N)
  | asyncReg (c d r : Node N)

/-- the inputs of the block, and the wires -/
abbrev Net (I : Type) := I ⊕ ℕ

/-- the cell at position `k` drives wire `k` -/
abbrev Netlist (I : Type) := List (Inst (Net I))

namespace Inst

/-- the library cell, its output connected to `y` -/
def map (y : Node N) : Inst N → Circuit N
  | not a => notInst a y
  | gate g a b => gateInst g.cell a b y
  | mux a b s => muxInst a b s y
  | reg k c d e r => inst k.circuit fun
    | .C => c
    | .D => d
    | .E => e
    | .R => r
    | .Q => y
  | asyncReg c d r => inst dffPN0 fun
    | .C => c
    | .D => d
    | .E => .gnd
    | .R => r
    | .Q => y

/-- the output of a combinational cell -/
def value (v : N → Bool) : Inst N → Bool
  | not a => !a.level v
  | gate g a b => g.fn (a.level v) (b.level v)
  | mux a b s => if s.level v then b.level v else a.level v
  | reg _ _ _ _ _ | asyncReg _ _ _ => false

def isReg : Inst N → Bool
  | reg _ _ _ _ _ | asyncReg _ _ _ => true
  | _ => false

/-- the nodes a combinational cell reads -/
def reads : Inst N → List (Node N)
  | not a => [a]
  | gate _ a b => [a, b]
  | mux a b s => [a, b, s]
  | reg _ _ _ _ _ | asyncReg _ _ _ => []

end Inst

/-- a rail, an input, or a wire of one of the first `k` cells -/
def Before (k : ℕ) : Node (Net I) → Prop
  | .net (.inr n) => n < k
  | _ => True

instance (k : ℕ) : ∀ n : Node (Net I), Decidable (Before k n)
  | .vdd | .gnd | .net (.inl _) => isTrue trivial
  | .net (.inr n) => inferInstanceAs (Decidable (n < k))

/-- every combinational cell reads wires of earlier cells only -/
def Ordered (nl : Netlist I) : Prop := ∀ k < nl.length, ∀ x ∈ nl[k]?, ∀ n ∈ x.reads, Before k n

instance (nl : Netlist I) : Decidable (Ordered nl) := inferInstanceAs (Decidable (∀ k < nl.length, _))

def Combinational (nl : Netlist I) : Prop := ∀ x ∈ nl, x.isReg = false

/-- the cells of the library, connected as the netlist says -/
def mapped (nl : Netlist I) : List (Circuit (Net I)) := nl.mapIdx fun k x => x.map (.net (.inr k))

/-- **The mapped block** -/
def techmap (nl : Netlist I) : Circuit I := cell [] (mapped nl)

/-- the values of the wires, gate by gate -/
def values (p : I → Bool) (nl : Netlist I) : List Bool :=
  nl.foldl (fun vs x => vs ++ [x.value (Sum.elim p fun n => vs.getD n false)]) []

/-! ## One cell -/

/-- **A mapped combinational cell** has consistent values exactly if its output has the value of the gate. -/
theorem admits_map {x : Inst N} (hx : x.isReg = false) {y : Node N} {v : N → Bool} :
    Admits (x.map y) v ↔ y.level v = x.value v := by
  cases x with
  | not a => exact admits_not
  | gate g a b => exact admits_gate (gate_exact g)
  | mux a b s => exact admits_mux
  | reg | asyncReg => exact absurd hx (by simp [Inst.isReg])

/-- a mapped register has none -/
theorem not_admits_map {x : Inst N} (hx : x.isReg = true) {y : Node N} {v : N → Bool} : ¬ Admits (x.map y) v := by
  cases x with
  | reg k c d e r =>
    intro h
    exact circuit_never k _ (admits_inst.1 h)
  | asyncReg c d r =>
    intro h
    exact circuit_never .sdffPP0 _ (admits_inst.1 h)
  | _ => simp [Inst.isReg] at hx

/-- a cell sees only what it reads -/
theorem value_congr {x : Inst N} {v u : N → Bool} (h : ∀ n ∈ x.reads, n.level v = n.level u) : x.value v = x.value u := by
  cases x with
  | not a => simp only [Inst.value, h a (by simp [Inst.reads])]
  | gate g a b => simp only [Inst.value, h a (by simp [Inst.reads]), h b (by simp [Inst.reads])]
  | mux a b s =>
    simp only [Inst.value, h a (by simp [Inst.reads]), h b (by simp [Inst.reads]), h s (by simp [Inst.reads])]
  | reg | asyncReg => rfl

theorem level_before {k : ℕ} {n : Node (Net I)} (hn : Before k n) {p : I → Bool} {w u : ℕ → Bool}
    (h : ∀ m < k, w m = u m) : n.level (Sum.elim p w) = n.level (Sum.elim p u) := by
  cases n with
  | vdd => rfl
  | gnd => rfl
  | net m =>
    cases m with
    | inl i => rfl
    | inr m => exact h m hn

/-! ## The whole netlist -/

section Values

variable {nl : Netlist I} {x : Inst (Net I)} {p : I → Bool}

theorem ordered_snoc (h : Ordered (nl ++ [x])) : Ordered nl ∧ ∀ n ∈ x.reads, Before nl.length n := by
  constructor
  · intro k hk y hy
    exact h k (by rw [List.length_append]; omega) y (by rwa [List.getElem?_append_left hk])
  · exact h nl.length (by simp) x (by simp)

theorem values_snoc : values p (nl ++ [x]) =
    values p nl ++ [x.value (Sum.elim p fun n => (values p nl).getD n false)] := by
  rw [values, List.foldl_append]
  rfl

theorem values_length : (values p nl).length = nl.length := by
  induction nl using List.reverseRecOn with
  | nil => rfl
  | append_singleton nl x ih => rw [values_snoc, List.length_append, List.length_append, ih]; rfl

theorem values_old {k : ℕ} (hk : k < nl.length) :
    (values p (nl ++ [x])).getD k false = (values p nl).getD k false := by
  have hlen : k < (values p nl).length := by rwa [values_length]
  rw [values_snoc, List.getD_eq_getElem?_getD, List.getElem?_append_left hlen, ← List.getD_eq_getElem?_getD]

theorem values_last : (values p (nl ++ [x])).getD nl.length false =
    x.value (Sum.elim p fun n => (values p nl).getD n false) := by
  have hlen : (values p nl).length = nl.length := values_length
  rw [values_snoc, List.getD_eq_getElem?_getD, ← hlen, List.getElem?_concat_length]
  rfl

theorem mapped_snoc : mapped (nl ++ [x]) = mapped nl ++ [x.map (.net (.inr nl.length))] := by
  simp only [mapped, List.mapIdx_append, List.mapIdx_singleton, Nat.zero_add]

/-- **Consistent values are the gate-level ones.** -/
theorem admitted_values (ho : Ordered nl) (hc : Combinational nl) {w : ℕ → Bool}
    (h : AdmitAll (mapped nl) (Sum.elim p w)) : ∀ k < nl.length, w k = (values p nl).getD k false := by
  induction nl using List.reverseRecOn with
  | nil => exact fun k hk => absurd hk (Nat.not_lt_zero k)
  | append_singleton nl x ih =>
    obtain ⟨hold, hreads⟩ := ordered_snoc ho
    rw [mapped_snoc, admitAll_append, admitAll_cons] at h
    obtain ⟨hfirst, hlast, -⟩ := h
    have hwires := ih hold (fun y hy => hc y (List.mem_append_left _ hy)) hfirst
    have hx : w nl.length = x.value (Sum.elim p w) :=
      (admits_map (hc x (List.mem_append_right _ (List.mem_singleton_self x)))).1 hlast
    intro k hk
    rw [List.length_append, List.length_singleton] at hk
    rcases Nat.lt_succ_iff_lt_or_eq.1 hk with hlt | rfl
    · rw [values_old hlt, hwires k hlt]
    · rw [hx, values_last]
      exact value_congr fun n hn => level_before (hreads n hn) hwires

/-- **The gate-level values are consistent.** -/
theorem values_admitted (ho : Ordered nl) (hc : Combinational nl) {w : ℕ → Bool}
    (h : ∀ k < nl.length, w k = (values p nl).getD k false) : AdmitAll (mapped nl) (Sum.elim p w) := by
  induction nl using List.reverseRecOn with
  | nil => exact admitAll_nil
  | append_singleton nl x ih =>
    obtain ⟨hold, hreads⟩ := ordered_snoc ho
    have hwires : ∀ k < nl.length, w k = (values p nl).getD k false := fun k hk => by
      rw [h k (by rw [List.length_append]; omega), values_old hk]
    have hx : w nl.length = x.value (Sum.elim p w) := by
      rw [h nl.length (by simp), values_last]
      exact value_congr fun n hn => level_before (hreads n hn) fun m hm => (hwires m hm).symm
    rw [mapped_snoc, admitAll_append, admitAll_cons]
    refine ⟨ih hold (fun y hy => hc y (List.mem_append_left _ hy)) hwires, ?_, admitAll_nil⟩
    exact (admits_map (hc x (List.mem_append_right _ (List.mem_singleton_self x)))).2 hx

/-- a mapped register leaves no consistent values -/
theorem combinational_of_admits (h : Admits (techmap nl) p) : Combinational nl := by
  obtain ⟨w, hall⟩ := admits_instances.1 h
  intro x hx
  rw [Bool.eq_false_iff]
  intro hreg
  obtain ⟨k, hk, hkx⟩ := List.mem_iff_getElem.1 hx
  have hmem : x.map (.net (.inr k)) ∈ mapped nl := by
    rw [mapped, List.mem_mapIdx]
    exact ⟨k, hk, by rw [hkx]⟩
  exact not_admits_map hreg (hall _ hmem)

/-- **Mapping to transistors preserves the meaning of a block exactly if it has no register.** For every netlist in order and
every input: the transistors of the mapped block have consistent values if and only if no cell is a register; and then the
wire of each cell has the value of its gate, and no other. -/
theorem techmap_iff (nl : Netlist I) (ho : Ordered nl) (p : I → Bool) :
    (Admits (techmap nl) p ↔ Combinational nl) ∧
    (Combinational nl → ∀ w, AdmitAll (mapped nl) (Sum.elim p w) ↔ ∀ k < nl.length, w k = (values p nl).getD k false) := by
  refine ⟨⟨combinational_of_admits, fun hc => ?_⟩, fun hc w => ⟨admitted_values ho hc, values_admitted ho hc⟩⟩
  exact admits_instances.2 ⟨_, values_admitted ho hc fun k _ => rfl⟩

end Values

/-- the sum and the carry of three bits -/
def fullAdder : Netlist (Fin 3) :=
  [.gate .xor (.net (.inl 0)) (.net (.inl 1)),
   .gate .xor (.net (.inr 0)) (.net (.inl 2)),
   .mux (.net (.inl 0)) (.net (.inl 2)) (.net (.inr 0))]

/-- a flip-flop and an inverter that feed each other -/
def toggle : Netlist (Fin 3) := [.reg .dffP (.net (.inl 0)) (.net (.inr 1)) .gnd .gnd, .not (.net (.inr 0))]

theorem techmap_iff_adder :
    (Admits (techmap fullAdder) ![true, false, true] ∧
      ∀ w, AdmitAll (mapped fullAdder) (Sum.elim ![true, false, true] w) → w 1 = false ∧ w 2 = true) ∧
    ¬ Admits (techmap toggle) ![true, false, true] := by
  have hcomb : Combinational fullAdder := by simp [Combinational, fullAdder, Inst.isReg]
  obtain ⟨hadmits, hvalues⟩ := techmap_iff fullAdder (by decide) ![true, false, true]
  refine ⟨⟨hadmits.2 hcomb, fun w hw => ?_⟩, fun h => ?_⟩
  · have hwires := (hvalues hcomb w).1 hw
    exact ⟨hwires 1 (by decide), hwires 2 (by decide)⟩
  · have hcomb := (techmap_iff toggle (by decide) ![true, false, true]).1.1 h
    simp [Combinational, toggle, Inst.isReg] at hcomb

end AegisSoc.Techmap
